import ExprEngine.Proofs.Declaration
import ExprEngine.Proofs.Frame
import ExprEngine.Proofs.Machine.Binding

/-!
# Sessions that only the engine writes in

As long as nothing but the engine writes variables, every variable can be read in its declared type:
registration checks the first value, and assignments and toggles store values of the declared type.
Where variables share a cell, a value of one must suit the others.

* `Engine.Owns`             a run in which no callback writes a variable;
* `Context.OwnChange`       what may happen to a context without a write by the host;
* `Context.OwnReaches`      any number of such changes;
* `Context.Compatible`      a context in which the variables of each cell get along;
* `session_bound`           every variable can be read, and no run fails for a binding;
* `session_unbound`         a session with variables that do not get along.
-/

namespace ExprEngine

variable {σ : Type}

/-- A run in which no callback writes a variable. -/
def Engine.Owns (engine : Engine) (e : Expression) (c : Context σ) : Prop :=
  ∀ x, ¬ engine.HostSets e c x

namespace Context

/-- An expression that writes no read-only variable, unless the values of this one suit the others
of its cell. -/
def Guards (c : Context σ) (e : Expression) : Prop :=
  ∀ y ∈ e.expr.tree.targets, c.registry.Protects y → c.state.Suits c.registry y

/-- What may happen to a context when the host writes no variable: declarations, whatever the host
does to its own memory, and runs whose callbacks write none. -/
inductive OwnChange : Context σ → Context σ → Prop
  | addVariable {c c' : Context σ} {v : Variable} {storage : Storage}
      (added : c.addVariable v storage = .ok c') : OwnChange c c'
  | addFunction {c c' : Context σ} {f : Signature} {callback : Callback σ}
      (added : c.addFunction f callback = .ok c') : OwnChange c c'
  | setInteractive (c : Context σ) (on : Bool) : OwnChange c (c.setInteractive on)
  | evaluate (c : Context σ) (engine : Engine) (source : String)
      (own : ∀ e, engine.compile source c.registry = .ok e → engine.Owns e c) :
      OwnChange c (engine.evaluate source c).context
  | run (c : Context σ) (engine : Engine) (e : Expression) (own : engine.Owns e c)
      (guarded : c.Guards e) : OwnChange c (engine.run e c).context
  | remember (c : Context σ) (memory : σ) :
      OwnChange c { c with state := { c.state with memory := memory } }

/-- Any number of such changes. -/
def OwnReaches : Context σ → Context σ → Prop := Relation.ReflTransGen OwnChange

/-- A context in which the variables of each cell get along: a value in the declared type of one
that is writable can be read from all others. -/
def Compatible (c : Context σ) : Prop :=
  ∀ y v, c.registry.variableAt? y = some v → v.readOnly = false → c.state.Suits c.registry y

/-- A context in which every variable can be read. -/
def Bound (c : Context σ) : Prop := c.state.Bound c.registry

variable {c c' : Context σ}

theorem OwnChange.change (h : OwnChange c c') : Change c c' := by
  cases h with
  | addVariable added => exact .addVariable added
  | addFunction added => exact .addFunction added
  | setInteractive on => exact .setInteractive c on
  | evaluate engine source => exact .evaluate c engine source
  | run engine e => exact .run c engine e
  | remember memory => exact .remember c memory

theorem OwnReaches.reaches (h : c.OwnReaches c') : c.Reaches c' := by
  induction h with
  | refl => exact .refl
  | tail _ change ih => exact ih.tail change.change

theorem Built.lt_places (h : c.Built) {x : VarId} {v : Variable}
    (hx : c.registry.variableAt? x = some v) : x < c.state.places.length := by
  rw [h.length_places]
  exact (List.getElem?_eq_some_iff.1 hx).1

/-- Variables with cells of their own get along. -/
theorem Built.compatible (h : c.Built) (hcells : c.state.places.Nodup) : c.Compatible :=
  fun _ _ _ _ => State.suits_of_alone fun _ _ hx hshares =>
    (List.getElem?_inj (h.lt_places hx) hcells).1 hshares

/-- Variables that get along later do so now. -/
theorem Compatible.of_reaches (h : c.Reaches c') (hc : c.Built) (later : c'.Compatible) :
    c.Compatible := by
  intro y w hw hwritable x v w' hshares hv hw'
  have hextends := h.extends
  have hplace : ∀ z u, c.registry.variableAt? z = some u →
      c'.state.places[z]? = c.state.places[z]? := by
    intro z u hu
    have hz := List.getElem?_eq_getElem (hc.lt_places hu)
    rw [hz]
    exact Registry.getElem?_of_prefix h.places hz
  refine later y w (hextends.variableAt? hw) hwritable x v w' ?_ (hextends.variableAt? hv)
    (hextends.variableAt? hw')
  rw [State.Shares, hplace x v hv, hplace y w hw]
  exact hshares

theorem Bound.addVariable {v : Variable} {storage : Storage} (h : c.Bound) (hc : c.Built)
    (added : c.addVariable v storage = .ok c') : c'.Bound := by
  obtain ⟨r, hr, rfl⟩ := map_eq_ok.1 added
  obtain ⟨rfl, -, -, hcasts⟩ := Registry.addVariable_ok hr
  intro x u hu
  show ((c.state.declare storage).values[x]?.getD .void).type.castsTo u.type = true
  rw [c.state.values_declare storage]
  rcases Registry.getElem?_snoc.1 hu with hold | ⟨rfl, rfl⟩
  · have hlt : x < c.state.values.length := by
      rw [hc.values]
      exact (List.getElem?_eq_some_iff.1 hold).1
    rw [List.getElem?_append_left hlt]
    exact h x u hold
  · rw [← hc.values, List.getElem?_concat_length]
    exact hcasts

/-- Among variables that get along, a run of what is guarded assigns only to variables that suit the
others of their cells. -/
theorem Guards.suits {e : Expression} (h : c.Guards e) (hcompatible : c.Compatible) :
    ∀ y ∈ e.expr.tree.schedule.filterMap Tree.target?, c.state.Suits c.registry y := by
  intro y hy x v w hshares hv hw
  cases hreadOnly : w.readOnly with
  | false => exact hcompatible y w hw hreadOnly x v w hshares hv hw
  | true =>
    exact h y (Tree.mem_targets_of_mem_schedule hy) ⟨w, hw, hreadOnly⟩ x v w hshares hv hw

/-- What was compiled against a context, or an earlier state of it, is guarded. -/
theorem guards_of_compiled {e : Expression} (h : e.Compiled c.registry) : c.Guards e :=
  fun _ hy hprotects => absurd hprotects (h.not_protects hy)

theorem Bound.run {engine : Engine} {e : Expression} (h : c.Bound) (hcompatible : c.Compatible)
    (own : engine.Owns e c) (guarded : c.Guards e) : (engine.run e c).context.Bound := by
  refine Machine.evaluate_bound (m := engine.machine e c) (w := ⟨c.state, []⟩) h own
    (guarded.suits hcompatible) fun y v htoggle => ?_
  obtain ⟨-, hv, -⟩ := Machine.toggled?_ok htoggle
  exact hcompatible y v hv (Machine.toggled?_readOnly htoggle)

theorem Bound.evaluate {engine : Engine} {source : String} (h : c.Bound) (hc : c.Built)
    (hcompatible : c.Compatible)
    (own : ∀ e, engine.compile source c.registry = .ok e → engine.Owns e c) :
    (engine.evaluate source c).context.Bound := by
  unfold Engine.evaluate
  split
  · rename_i e he
    exact h.run hcompatible (own e he) (guards_of_compiled (compile_ok hc.declared he))
  · exact h

theorem OwnChange.bound (h : OwnChange c c') (hc : c.Built) (hcompatible : c.Compatible)
    (hbound : c.Bound) : c'.Bound := by
  cases h with
  | addVariable added => exact hbound.addVariable hc added
  | addFunction added =>
    obtain ⟨r, hr, rfl⟩ := map_eq_ok.1 added
    obtain ⟨rfl, -⟩ := Registry.addFunction_ok hr
    exact hbound
  | setInteractive => exact hbound
  | evaluate engine source own => exact hbound.evaluate hc hcompatible own
  | run engine e own guarded => exact hbound.run hcompatible own guarded
  | remember => exact hbound

theorem OwnReaches.bound (h : c.OwnReaches c') (hc : c.Built) (hcompatible : c'.Compatible)
    (hbound : c.Bound) : c'.Bound := by
  induction h with
  | refl => exact hbound
  | tail before change ih =>
    have hbuilt := (OwnReaches.reaches before).built hc
    have hearlier := Compatible.of_reaches (.single change.change) hbuilt hcompatible
    exact change.bound hbuilt hearlier (ih hearlier)

end Context

/-- A run from a bound context reads all that it needs. -/
theorem Engine.run_unbinding {engine : Engine} {e : Expression} {c : Context σ} (h : c.Bound)
    (hcompatible : c.Compatible) (own : engine.Owns e c) (guarded : c.Guards e) {err : EvalError}
    (herr : (engine.run e c).result = .error (.eval err)) : ¬ err.cause.IsBinding := by
  have hfails : Fails Unbinding ((engine.machine e c).evaluate e.expr.tree ⟨c.state, []⟩).1 :=
    Machine.evaluate_unbinding (m := engine.machine e c) (w := ⟨c.state, []⟩) h own
      (guarded.suits hcompatible)
  obtain ⟨err', herr', hsame⟩ := liftError_eq_error herr
  cases hsame
  exact hfails _ herr'

/-- Only a run has an evaluation error. -/
theorem Engine.compile_ne_eval {engine : Engine} {source : String} {r : Registry}
    {err : EvalError} : engine.compile source r ≠ .error (.eval err) := by
  unfold compile parseSource
  intro h
  rcases bind_eq_error.1 h with hparse | ⟨expr, -, h⟩
  · rcases bind_eq_error.1 hparse with hlex | ⟨tokens, -, hparse⟩
    · obtain ⟨e, -, he⟩ := liftError_eq_error hlex
      cases he
    · obtain ⟨e, -, he⟩ := liftError_eq_error hparse
      cases he
  · rcases bind_eq_error.1 h with htype | ⟨types, -, h⟩
    · obtain ⟨e, -, he⟩ := liftError_eq_error htype
      cases he
    · cases h

theorem Engine.evaluate_unbinding {engine : Engine} {source : String} {c : Context σ}
    (h : c.Bound) (hc : c.Built) (hcompatible : c.Compatible)
    (own : ∀ e, engine.compile source c.registry = .ok e → engine.Owns e c)
    {err : EvalError} (herr : (engine.evaluate source c).result = .error (.eval err)) :
    ¬ err.cause.IsBinding := by
  unfold Engine.evaluate at herr
  split at herr
  · rename_i e he
    have guarded := Context.guards_of_compiled (compile_ok hc.declared he)
    exact Engine.run_unbinding h hcompatible (own e he) guarded herr
  · rename_i e he
    cases herr
    exact absurd he Engine.compile_ne_eval

/-- In a session in which only the engine writes variables, and the variables of each cell get
along, every variable holds a value that converts to its declared type, and no run fails because one
does not. -/
theorem session_bound {memory : σ} {c : Context σ} (h : (Context.empty memory).OwnReaches c)
    (hcompatible : c.Compatible) :
    (∀ x v, c.registry.variableAt? x = some v →
        (c.state.value x).type.castsTo v.type = true) ∧
      (∀ (engine : Engine) source err,
        (∀ e, engine.compile source c.registry = .ok e → engine.Owns e c) →
        (engine.evaluate source c).result = .error (.eval err) → ¬ err.cause.IsBinding) ∧
      (∀ (engine : Engine) e err, engine.Owns e c → c.Guards e →
        (engine.run e c).result = .error (.eval err) → ¬ err.cause.IsBinding) := by
  have hbuilt : c.Built := h.reaches.built (Context.built_empty memory)
  have hbound : c.Bound := h.bound (Context.built_empty memory) hcompatible nofun
  refine ⟨hbound, ?_, ?_⟩
  · intro engine source err own
    exact Engine.evaluate_unbinding hbound hbuilt hcompatible own
  · intro engine e err own guarded
    exact Engine.run_unbinding hbound hcompatible own guarded

/-- A text and a truth value in one cell. Both can be read from a text. -/
def mixedContext : Context Unit where
  registry := { vars := [⟨"a", .string, false, true⟩, ⟨"b", .bool, false, true⟩] }
  callbacks := []
  state := ⟨[.string "x"], [0, 0], (), by decide⟩

/-- A session with variables that do not get along: once a truth value is assigned to the one, the
other cannot be read, although the host wrote neither. -/
theorem session_unbound :
    let c := (({} : Engine).evaluate "b = true" mixedContext).context
    (Context.empty ()).OwnReaches c ∧
      c.registry.variableAt? 0 = some ⟨"a", .string, false, true⟩ ∧
      (c.state.value 0).type.castsTo .string = false ∧
      (∀ e, ({} : Engine).Owns e c) ∧
      (({} : Engine).evaluate "a" c).result =
        .error (.eval ⟨.bindingType "a" .string .bool, some 0, ⟨0, 1⟩⟩) := by
  intro c
  have ha : (Context.empty ()).addVariable ⟨"a", .string, false, true⟩ (.own (.string "x")) =
      .ok ⟨{ vars := [⟨"a", .string, false, true⟩] }, [], ⟨[.string "x"], [0], (), by decide⟩⟩ :=
    rfl
  have hb : Context.addVariable
      ⟨{ vars := [⟨"a", .string, false, true⟩] }, [], ⟨[.string "x"], [0], (), by decide⟩⟩
      ⟨"b", .bool, false, true⟩ (.clone 0) = .ok mixedContext := rfl
  have hreaches : (Context.empty ()).OwnReaches c :=
    ((Relation.ReflTransGen.refl.tail (.addVariable ha)).tail (.addVariable hb)).tail
      (.evaluate mixedContext {} "b = true" fun _ _ _ => Engine.not_hostSets_of_silent nofun)
  have hregistry : c.registry = mixedContext.registry := Context.registry_evaluate ..
  have hcallbacks : c.callbacks = [] := Context.callbacks_evaluate ..
  refine ⟨hreaches, ?_, by decide +kernel, fun e x => ?_, by decide +kernel⟩
  · rw [hregistry]
    rfl
  · refine Engine.not_hostSets_of_silent ?_
    rw [hcallbacks]
    exact nofun

/-- A session whose variable has a cell of its own, -/
theorem ownReaches_sample :
    (Context.empty ()).OwnReaches (({} : Engine).evaluate sampleSource sampleContext).context := by
  obtain ⟨c, hx, hf⟩ := declare_sample
  have hsilent : ∀ e, ({} : Engine).Owns e sampleContext := by
    intro e x
    refine Engine.not_hostSets_of_silent fun callback hcallback _ _ _ => ?_
    rw [List.mem_singleton.1 hcallback]
  exact ((Relation.ReflTransGen.refl.tail (.addVariable hx)).tail (.addFunction hf)).tail
    (.evaluate sampleContext {} sampleSource fun e _ => hsilent e)

/-- and one whose variables share a cell, all with one type. -/
theorem ownReaches_shared :
    (Context.empty ()).OwnReaches
      (({} : Engine).evaluate storingSource sharedContext).context := by
  obtain ⟨c₁, c₂, c₃, hx, hy, hz, hw⟩ := declare_shared
  have hsilent : ∀ e, ({} : Engine).Owns e sharedContext := fun e x =>
    Engine.not_hostSets_of_silent nofun
  exact ((((Relation.ReflTransGen.refl.tail (.addVariable hx)).tail (.addVariable hy)).tail
    (.addVariable hz)).tail (.addVariable hw)).tail
      (.evaluate sharedContext {} storingSource fun e _ => hsilent e)

theorem session_bound_sample :
    let c := (({} : Engine).evaluate sampleSource sampleContext).context
    let c' := (({} : Engine).evaluate storingSource sharedContext).context
    (c.Compatible ∧
        ∀ x v, c.registry.variableAt? x = some v → (c.state.value x).type.castsTo v.type = true) ∧
      c'.Compatible ∧
        ∀ x v, c'.registry.variableAt? x = some v →
          (c'.state.value x).type.castsTo v.type = true := by
  intro c c'
  have hcompatible : c.Compatible := by
    refine (ownReaches_sample.reaches.built (Context.built_empty ())).compatible ?_
    rw [Context.places_evaluate]
    decide
  have htype : ∀ x v, c'.registry.variableAt? x = some v → v.type = .int ⟨true, .w32⟩ := by
    intro x v hv
    rw [Context.registry_evaluate] at hv
    have hall : ∀ v ∈ sharedRegistry.vars, v.type = .int ⟨true, .w32⟩ := by decide
    exact hall v (List.mem_of_getElem? hv)
  have hcompatible' : c'.Compatible := by
    intro y _ _ _ x v w _ hv hw
    rw [htype x v hv, htype y w hw]
    exact ValueType.castsTo_self _
  exact ⟨⟨hcompatible, (session_bound ownReaches_sample hcompatible).1⟩,
    hcompatible', (session_bound ownReaches_shared hcompatible').1⟩

end ExprEngine
