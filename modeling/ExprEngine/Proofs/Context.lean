import ExprEngine.Engine
import ExprEngine.Proofs.Registry
import Mathlib.Logic.Relation

/-!
# Contexts over time

A context grows: declarations are added and never change or go away. Values and the host's memory
may change in any way.

* `Registry.Extends`    a registry that declares more, under the same ids;
* `Context.Change`      what may happen to a context;
* `Context.Reaches`     any number of changes;
* `Reaches.extends`     later registries extend earlier ones.
-/

namespace ExprEngine

/-! ## more declarations -/

/-- A registry that declares what another declares, under the same ids, and maybe more. -/
structure Registry.Extends (r' r : Registry) : Prop where
  vars : r.vars <+: r'.vars
  funcs : r.funcs <+: r'.funcs

namespace Registry

variable {r r' r'' : Registry}

theorem Extends.refl (r : Registry) : r.Extends r := ⟨List.prefix_rfl, List.prefix_rfl⟩

theorem Extends.trans (h' : r''.Extends r') (h : r'.Extends r) : r''.Extends r :=
  ⟨h.vars.trans h'.vars, h.funcs.trans h'.funcs⟩

theorem getElem?_of_prefix {α : Type} {as bs : List α} {i : Nat} {a : α} (h : as <+: bs)
    (ha : as[i]? = some a) : bs[i]? = some a := by
  obtain ⟨cs, rfl⟩ := h
  obtain ⟨hi, -⟩ := List.getElem?_eq_some_iff.1 ha
  rw [List.getElem?_append_left hi, ha]

theorem Extends.variableAt? (h : r'.Extends r) {x : VarId} {v : Variable}
    (hx : r.variableAt? x = some v) : r'.variableAt? x = some v :=
  getElem?_of_prefix h.vars hx

theorem Extends.functionAt? (h : r'.Extends r) {f : FuncId} {s : Signature}
    (hf : r.functionAt? f = some s) : r'.functionAt? f = some s :=
  getElem?_of_prefix h.funcs hf

end Registry

/-! ## changes -/

namespace Context

variable {σ : Type}

/-- What may happen to a context: declarations, writes of any value, runs, and whatever the host
does to its own memory. -/
inductive Change : Context σ → Context σ → Prop
  | addVariable {c c' : Context σ} {v : Variable} {storage : Storage}
      (added : c.addVariable v storage = .ok c') : Change c c'
  | addFunction {c c' : Context σ} {f : Signature} {callback : Callback σ}
      (added : c.addFunction f callback = .ok c') : Change c c'
  | setInteractive (c : Context σ) (on : Bool) : Change c (c.setInteractive on)
  | setVariable (c : Context σ) (x : VarId) (v : Value) : Change c (c.setVariable x v)
  | evaluate (c : Context σ) (engine : Engine) (source : String) :
      Change c (engine.evaluate source c).context
  | run (c : Context σ) (engine : Engine) (e : Expression) : Change c (engine.run e c).context
  | remember (c : Context σ) (memory : σ) :
      Change c { c with state := { c.state with memory := memory } }

/-- Any number of changes. -/
def Reaches : Context σ → Context σ → Prop := Relation.ReflTransGen Change

theorem registry_run (engine : Engine) (e : Expression) (c : Context σ) :
    (engine.run e c).context.registry = c.registry := rfl

theorem registry_evaluate (engine : Engine) (source : String) (c : Context σ) :
    (engine.evaluate source c).context.registry = c.registry := by
  unfold Engine.evaluate
  split
  · exact registry_run ..
  · rfl

theorem callbacks_evaluate (engine : Engine) (source : String) (c : Context σ) :
    (engine.evaluate source c).context.callbacks = c.callbacks := by
  unfold Engine.evaluate
  split <;> rfl

variable {c c' : Context σ}

theorem Change.extends (h : Change c c') : c'.registry.Extends c.registry := by
  cases h with
  | addVariable added =>
    obtain ⟨r, hr, rfl⟩ := map_eq_ok.1 added
    obtain ⟨rfl, -⟩ := Registry.addVariable_ok hr
    exact ⟨List.prefix_append _ _, List.prefix_rfl⟩
  | addFunction added =>
    obtain ⟨r, hr, rfl⟩ := map_eq_ok.1 added
    obtain ⟨rfl, -⟩ := Registry.addFunction_ok hr
    exact ⟨List.prefix_rfl, List.prefix_append _ _⟩
  | setInteractive => exact ⟨List.prefix_rfl, List.prefix_rfl⟩
  | setVariable => exact .refl _
  | evaluate engine source =>
    rw [registry_evaluate]
    exact .refl _
  | run => exact .refl _
  | remember => exact .refl _

theorem Change.declared (h : Change c c') (hc : c.registry.Declared) : c'.registry.Declared := by
  cases h with
  | addVariable added =>
    obtain ⟨r, hr, rfl⟩ := map_eq_ok.1 added
    exact .addVariable hc hr
  | addFunction added =>
    obtain ⟨r, hr, rfl⟩ := map_eq_ok.1 added
    exact .addFunction hc hr
  | setInteractive on => exact .setInteractive on hc
  | setVariable => exact hc
  | evaluate engine source =>
    rw [registry_evaluate]
    exact hc
  | run => exact hc
  | remember => exact hc

/-- Later registries extend earlier ones. -/
theorem Reaches.extends (h : c.Reaches c') : c'.registry.Extends c.registry := by
  induction h with
  | refl => exact .refl _
  | tail _ change ih => exact change.extends.trans ih

theorem Reaches.declared (h : c.Reaches c') (hc : c.registry.Declared) : c'.registry.Declared := by
  induction h with
  | refl => exact hc
  | tail _ change ih => exact change.declared ih

end Context
end ExprEngine
