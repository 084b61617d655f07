import ExprEngine.Proofs.Engine
import ExprEngine.Proofs.Machine.Frame

/-!
# What a run may write

The checker protects read-only variables, and the machine does the writing. Together they leave
alone every cell that no assignment is made to, and give each other cell a value in the type of a
variable that is assigned to. A read-only variable is no more than a view of its cell: where a
writable one shares the cell, an assignment to this one changes both.

* `Engine.HostSets`     a run in which a callback writes the cell of a variable;
* `Registry.Protects`   a read-only variable;
* `Expression.Spares`   an expression that does not write a variable;
* `Engine.Framed`       a run that writes what it may, and nothing else;
* `run_framed`          every run of a compiled expression is one;
* `run_changes_view`    a run that changes a read-only variable by way of its cell.
-/

namespace ExprEngine

variable {σ : Type}

/-- A run in which some callback writes the cell of a variable. -/
def Engine.HostSets (engine : Engine) (e : Expression) (c : Context σ) (x : VarId) : Prop :=
  (engine.machine e c).HostSets e.expr.tree.schedule [] ⟨c.state, []⟩ x

/-- A variable that no expression may write. -/
def Registry.Protects (r : Registry) (x : VarId) : Prop :=
  ∃ v, r.variableAt? x = some v ∧ v.readOnly = true

/-- An expression that does not write a variable: it is read-only, or neither an assignment's target
nor toggled. -/
def Expression.Spares (e : Expression) (r : Registry) (x : VarId) : Prop :=
  r.Protects x ∨ x ∉ e.expr.tree.targets ∧ ∀ v, Machine.toggled? r e.expr.tree ≠ some (x, v)

namespace Machine

theorem toggled?_readOnly {r : Registry} {t : Tree} {x : VarId} {v : Variable}
    (h : toggled? r t = some (x, v)) : v.readOnly = false := by
  unfold toggled? at h
  split at h
  · obtain ⟨y, hy, h⟩ := Option.bind_eq_some_iff.1 h
    obtain ⟨u, hu, h⟩ := Option.bind_eq_some_iff.1 h
    split at h
    · rename_i hbool
      cases h
      exact hbool.2
    · cases h
  · cases h

end Machine

namespace Expression.Compiled

variable {e : Expression} {c : Context σ} {x : VarId}

/-- What parts assign to is writable. -/
theorem not_protects (h : e.Compiled c.registry) (hx : x ∈ e.expr.tree.targets) :
    ¬ c.registry.Protects x := by
  rintro ⟨v, hv, hreadOnly⟩
  obtain ⟨n, hn, htarget⟩ := List.mem_filterMap.1 hx
  obtain ⟨htyping, -⟩ := h.parts n hn
  unfold Tree.target? at htarget
  split at htarget
  · rename_i o op o' y r
    split at htarget
    · rename_i assigns
      cases htarget
      generalize e.types.typing _ = ty at htyping
      cases htyping with
      | operate plain =>
        rw [plain] at assigns
        cases assigns
      | assign _ declared writable =>
        rw [hv] at declared
        cases declared
        rw [hreadOnly] at writable
        cases writable
    · cases htarget
  · cases htarget

end Expression.Compiled

namespace Engine

variable {engine : Engine} {e : Expression} {c : Context σ} {x : VarId} {v : Variable}

theorem state_run (plain : Machine.toggled? c.registry e.expr.tree = none) :
    (engine.run e c).context.state =
      ((engine.machine e c).run e.expr.tree.schedule [] ⟨c.state, []⟩).2.state :=
  congrArg (fun p : _ × World σ => p.2.state) (Machine.evaluate_eq_run plain)

theorem state_toggled (h : Machine.toggled? c.registry e.expr.tree = some (x, v)) :
    (engine.run e c).context.state =
      (Machine.toggle e.expr.tree.origin x v ⟨c.state, []⟩).2.state := by
  have heval : (engine.machine e c).evaluate e.expr.tree ⟨c.state, []⟩ =
      Machine.toggle e.expr.tree.origin x v ⟨c.state, []⟩ := by
    unfold Machine.evaluate
    rw [show (engine.machine e c).registry = c.registry from rfl, h]
  exact congrArg (fun p : _ × World σ => p.2.state) heval

/-- A variable after a run that does not toggle. -/
theorem value_run (plain : Machine.toggled? c.registry e.expr.tree = none)
    (hx : ¬ engine.HostSets e c x) :
    (engine.run e c).context.state.value x = c.state.value x ∨
      ∃ y ∈ e.expr.tree.targets, c.state.Shares x y ∧ ∃ v, c.registry.variableAt? y = some v ∧
        ((engine.run e c).context.state.value x).type = v.type := by
  rw [state_run plain]
  rcases Machine.run_value hx with hsame | ⟨y, htarget, hnew⟩
  · exact .inl hsame
  · exact .inr ⟨y, Tree.mem_targets_of_mem_schedule htarget, hnew⟩

/-- Callbacks that never write keep out of every run. -/
theorem not_hostSets_of_silent (h : ∀ callback ∈ c.callbacks, ∀ memory values args,
    (callback memory values args).writes = []) : ¬ engine.HostSets e c x := by
  rintro ⟨t, s, w, -, hsets⟩
  cases t with
  | call o f args =>
    obtain ⟨p, -, u, hu, -⟩ := hsets
    have hnone : ((engine.machine e c).reply f p.2.1 w.state).writes = [] := by
      unfold Machine.reply
      split
      · rename_i callback hcallback
        exact h callback (List.mem_of_getElem? hcallback) _ _ _
      · rfl
    rw [hnone] at hu
    cases hu
  | _ => exact hsets

end Engine

namespace Expression

variable {e : Expression} {c : Context σ} {engine : Engine} {x : VarId} {v : Variable}

/-- An expression does not spare what it toggles, -/
theorem not_spares_toggled (htoggle : Machine.toggled? c.registry e.expr.tree = some (x, v)) :
    ¬ e.Spares c.registry x := by
  rintro (⟨u, hu, hreadOnly⟩ | ⟨-, hother⟩)
  · -- what is toggled is writable
    obtain ⟨-, hv, -⟩ := Machine.toggled?_ok htoggle
    rw [hv] at hu
    cases hu
    rw [Machine.toggled?_readOnly htoggle] at hreadOnly
    cases hreadOnly
  · exact hother v htoggle

/-- nor what it assigns to. -/
theorem Compiled.not_spares_target (h : e.Compiled c.registry) (hx : x ∈ e.expr.tree.targets) :
    ¬ e.Spares c.registry x := by
  rintro (hprotects | ⟨hfree, -⟩)
  · exact h.not_protects hx hprotects
  · exact hfree hx

/-- A variable keeps its stored value if all variables of its cell are spared. -/
theorem Compiled.kept (h : e.Compiled c.registry) (hx : ¬ engine.HostSets e c x)
    (hspared : ∀ y, c.state.Shares x y → e.Spares c.registry y) :
    (engine.run e c).context.state.value x = c.state.value x := by
  cases htoggle : Machine.toggled? c.registry e.expr.tree with
  | none =>
    rcases Engine.value_run htoggle hx with hsame | ⟨y, htarget, hshares, -⟩
    · exact hsame
    · exact absurd (hspared y hshares) (h.not_spares_target htarget)
  | some p =>
    have hother : ¬ c.state.Shares x p.1 := fun hshares =>
      not_spares_toggled htoggle (hspared p.1 hshares)
    rw [Engine.state_toggled htoggle]
    exact Machine.toggle_value_of_not_shares hother

end Expression

/-- Three variables of one cell, the last of them read-only, and one with a cell of its own. -/
def sharedRegistry : Registry where
  vars := [⟨"x", .int ⟨true, .w32⟩, false, true⟩, ⟨"y", .int ⟨true, .w32⟩, false, true⟩,
    ⟨"z", .int ⟨true, .w32⟩, true, true⟩, ⟨"w", .int ⟨true, .w32⟩, false, false⟩]

def sharedContext : Context Unit where
  registry := sharedRegistry
  callbacks := []
  state :=
    ⟨[.int (.wrap ⟨true, .w32⟩ 1), .int (.wrap ⟨true, .w32⟩ 2)], [0, 0, 0, 1], (), by decide⟩

theorem declare_shared : ∃ c₁ c₂ c₃ : Context Unit,
    (Context.empty ()).addVariable ⟨"x", .int ⟨true, .w32⟩, false, true⟩
      (.own (.int (.wrap ⟨true, .w32⟩ 1))) = .ok c₁ ∧
    c₁.addVariable ⟨"y", .int ⟨true, .w32⟩, false, true⟩ (.clone 0) = .ok c₂ ∧
    c₂.addVariable ⟨"z", .int ⟨true, .w32⟩, true, true⟩ (.clone 0) = .ok c₃ ∧
    c₃.addVariable ⟨"w", .int ⟨true, .w32⟩, false, false⟩ (.own (.int (.wrap ⟨true, .w32⟩ 2))) =
      .ok sharedContext :=
  ⟨_, _, _, rfl, rfl, rfl, rfl⟩

theorem reaches_shared : (Context.empty ()).Reaches sharedContext := by
  obtain ⟨c₁, c₂, c₃, hx, hy, hz, hw⟩ := declare_shared
  exact (((Relation.ReflTransGen.refl.tail (.addVariable hx)).tail (.addVariable hy)).tail
    (.addVariable hz)).tail (.addVariable hw)

/-- A source that writes one of them, and what it compiles to. -/
def storingSource : String := "y = 3"

def storingTokens : List Token :=
  [⟨.identifier, ⟨0, 1⟩⟩, ⟨.operator, ⟨2, 3⟩⟩, ⟨.number, ⟨4, 5⟩⟩]

def storingExpression : Expression where
  expr :=
    ⟨.binary ⟨1, 1, ⟨2, 3⟩⟩ .assign (.reference ⟨0, 0, ⟨0, 1⟩⟩ 1)
      (.constant ⟨2, 2, ⟨4, 5⟩⟩ (.int (.wrap ⟨false, .w8⟩ 3))), 3⟩
  types :=
    ⟨[.same (.int ⟨true, .w32⟩), .same (.int ⟨true, .w32⟩), .same (.int ⟨false, .w8⟩)],
      .int ⟨true, .w32⟩⟩

theorem tokenize_storing : tokenize storingSource = .ok storingTokens := by decide +kernel

theorem compile_storing :
    ({} : Engine).compile storingSource sharedContext.registry = .ok storingExpression := by
  rw [Engine.compile_of_tokenize _ tokenize_storing]
  rfl

end ExprEngine
