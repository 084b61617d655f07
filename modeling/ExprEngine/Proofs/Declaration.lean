import ExprEngine.Proofs.Context
import ExprEngine.Proofs.Machine.Frame

/-!
# Declarations one after the other

A host declares what it likes, and a declaration may be refused. Whatever it asks for, the context
that results is coherent. Whatever else happens to it, it keeps all its parts.

* `Context.declare`           one declaration: its id or its refusal, and the context after it;
* `Context.declareAll`        declarations one after the other, refused or not;
* `Registry.Coherent`         what a host and an engine may rely on;
* `Context.Holds`             a context in which an id denotes a declaration;
* `declareAll_coherent`       contexts that were built by declarations are coherent;
* `Reaches.built`             a context that came about by changes has all its parts;
* `Reaches.places`            and every variable keeps its cell.
-/

namespace ExprEngine

/-! ## what is promised -/

/-- The words that have a meaning of their own. -/
def reservedWords : List String := "true" :: "false" :: ValueType.all.map ValueType.name

namespace Registry

/-- What a registry guarantees to those who look up a name or use an id. -/
structure Coherent (r : Registry) : Prop where
  /-- a name finds the variable that has it, -/
  variableNamed : ∀ name x,
    r.variableNamed? name = some x ↔ ∃ v, r.variableAt? x = some v ∧ v.name = name
  /-- so there is only one -/
  unique : ∀ x y v w, r.variableAt? x = some v → r.variableAt? y = some w → v.name = w.name → x = y
  functionsNamed : ∀ name f,
    f ∈ r.functionsNamed name ↔ ∃ s, r.functionAt? f = some s ∧ s.name = name
  ordered : ∀ name, (r.functionsNamed name).Pairwise (· < ·)
  arities : ∀ f g s t, r.functionAt? f = some s → r.functionAt? g = some t → s.name = t.name →
    s.arity = t.arity → f = g
  written : ∀ name ∈ r.vars.map Variable.name ++ r.funcs.map Signature.name,
    Text.isName name.toList = true
  free : ∀ name ∈ r.vars.map Variable.name ++ r.funcs.map Signature.name, ∀ word ∈ reservedWords,
    Text.sameIgnoringCase name word = false
  few : ∀ s ∈ r.funcs, s.parameters.length ≤ 8
  passable : ∀ s ∈ r.funcs, ∀ p ∈ s.parameters, p.type ≠ .void
  defaults : ∀ s ∈ r.funcs, ∀ p ∈ s.parameters, ∀ d, p.default = some d → d.type = p.type
  /-- the optional parameters of a function are those behind the required ones -/
  optional : ∀ s ∈ r.funcs, ∀ i p, s.parameters[i]? = some p →
    (p.default.isSome = true ↔ s.required ≤ i)

end Registry

/-- What a host may ask for. -/
inductive Declaration (σ : Type)
  | ofVariable (v : Variable) (storage : Storage)
  | ofFunction (f : Signature) (callback : Callback σ)

namespace Context

variable {σ : Type}

/-- One declaration: its id, or why it is refused, and the context after it. -/
def declare (c : Context σ) : Declaration σ → Except RegistryError Nat × Context σ
  | .ofVariable v storage =>
    match c.addVariable v storage with
    | .ok c' => (.ok c.registry.vars.length, c')
    | .error e => (.error e, c)
  | .ofFunction f callback =>
    match c.addFunction f callback with
    | .ok c' => (.ok c.registry.funcs.length, c')
    | .error e => (.error e, c)

/-- Declarations one after the other, refused or not. -/
def declareAll (c : Context σ) (ds : List (Declaration σ)) : Context σ :=
  ds.foldl (fun c d => (c.declare d).2) c

/-- A context in which an id denotes what was declared. A clone of an earlier variable has the cell
of that one. -/
def Holds (c : Context σ) (id : Nat) : Declaration σ → Prop
  | .ofVariable v (.own initial) =>
    c.registry.variableAt? id = some v ∧ c.state.values[id]? = some initial
  | .ofVariable v (.clone x) =>
    c.registry.variableAt? id = some v ∧
      ∃ k, c.state.places[id]? = some k ∧ (x < id → c.state.places[x]? = some k)
  | .ofFunction f callback =>
    c.registry.functionAt? id = some f ∧ c.callbacks[id]? = some callback

end Context

/-! ## words and parameters -/

theorem sameIgnoringCase_comm (a b : String) :
    Text.sameIgnoringCase a b = Text.sameIgnoringCase b a := by
  simp only [Text.sameIgnoringCase, Bool.beq_comm]

theorem isReserved_eq_false {name : String} :
    isReserved name = false ↔ ∀ word ∈ reservedWords, Text.sameIgnoringCase name word = false := by
  have hboolean : (booleanNamed? name).isSome = false ↔
      Text.sameIgnoringCase name "true" = false ∧ Text.sameIgnoringCase name "false" = false := by
    unfold booleanNamed?
    cases Text.sameIgnoringCase name "true" <;> cases Text.sameIgnoringCase name "false" <;> simp
  have htype : (ValueType.ofName? name).isSome = false ↔
      ∀ word ∈ ValueType.all.map ValueType.name, Text.sameIgnoringCase name word = false := by
    simp only [ValueType.ofName?, Option.isSome_eq_false_iff, Option.isNone_iff_eq_none,
      List.find?_eq_none, List.forall_mem_map, sameIgnoringCase_comm name, Bool.not_eq_true]
  rw [isReserved, Bool.or_eq_false_iff, hboolean, htype, reservedWords, List.forall_mem_cons,
    List.forall_mem_cons, and_assoc]

/-- A list whose members behind a front fail what the front meets. -/
theorem front_iff {α : Type} {p : α → Bool} {l : List α} {i : Nat} {a : α}
    (h : ∀ b ∈ l.dropWhile p, p b = false) (ha : l[i]? = some a) :
    p a = false ↔ (l.takeWhile p).length ≤ i := by
  rw [← List.takeWhile_append_dropWhile (p := p) (l := l), List.getElem?_append] at ha
  split at ha
  · rename_i hi
    have hp := List.all_eq_true.1 List.all_takeWhile a (List.mem_of_getElem? ha)
    rw [hp]
    exact iff_of_false Bool.noConfusion (Nat.not_le_of_lt hi)
  · rename_i hi
    exact iff_of_true (h a (List.mem_of_getElem? ha)) (Nat.le_of_not_lt hi)

theorem Signature.Sound.optional_iff {s : Signature} (h : s.Sound) {i : Nat} {p : Parameter}
    (hp : s.parameters[i]? = some p) : p.default.isSome = true ↔ s.required ≤ i := by
  have hfront : ∀ q ∈ s.parameters.dropWhile fun q => q.default.isNone, q.default.isNone = false :=
    fun q hq => by rw [← Option.not_isSome, h.optional q hq]; rfl
  rw [← Option.not_isNone, Bool.not_eq_true']
  exact front_iff hfront hp

/-! ## what holds -/

namespace Registry

variable {r : Registry}

theorem Declared.nameable (h : r.Declared) :
    ∀ name ∈ r.vars.map Variable.name ++ r.funcs.map Signature.name, Nameable name := by
  refine List.forall_mem_append.2 ⟨List.forall_mem_map.2 h.variables, List.forall_mem_map.2 ?_⟩
  exact fun s hs => (h.functions s hs).name

theorem Declared.coherent (h : r.Declared) : r.Coherent where
  variableNamed := h.indexed.vars
  unique x y v w hx hy hname := by
    have hx' := (h.indexed.vars v.name x).2 ⟨v, hx, rfl⟩
    have hy' := (h.indexed.vars v.name y).2 ⟨w, hy, hname.symm⟩
    exact Option.some.inj (hx'.symm.trans hy')
  functionsNamed := h.indexed.funcs
  ordered := h.indexed.ordered
  arities _ _ _ _ hf hg hname harity := h.arities hf hg hname harity
  written name hname := (h.nameable name hname).written
  free name hname := isReserved_eq_false.1 (h.nameable name hname).free
  few s hs := (h.functions s hs).few
  passable s hs p hp := ((h.functions s hs).parameters p hp).type
  defaults s hs p hp := ((h.functions s hs).parameters p hp).default
  optional s hs _ _ hp := (h.functions s hs).optional_iff hp

end Registry

namespace Context

variable {σ : Type} {c c' : Context σ} {d : Declaration σ}

/-- A refused declaration changes nothing. -/
theorem declare_error {e : RegistryError} (h : (c.declare d).1 = .error e) :
    (c.declare d).2 = c := by
  cases d with
  | ofVariable v storage =>
    simp only [declare] at h ⊢
    cases hadd : c.addVariable v storage with
    | ok c' =>
      rw [hadd] at h
      cases h
    | error => rfl
  | ofFunction f callback =>
    simp only [declare] at h ⊢
    cases hadd : c.addFunction f callback with
    | ok c' =>
      rw [hadd] at h
      cases h
    | error => rfl

/-- A context with more declarations, the earlier ones where they were. -/
structure Grows (c' c : Context σ) : Prop where
  registry : c'.registry.Extends c.registry
  values : c.state.values <+: c'.state.values
  places : c.state.places <+: c'.state.places
  callbacks : c.callbacks <+: c'.callbacks

theorem Grows.refl (c : Context σ) : c.Grows c :=
  ⟨.refl _, List.prefix_rfl, List.prefix_rfl, List.prefix_rfl⟩

theorem Grows.trans {c'' : Context σ} (h' : c''.Grows c') (h : c'.Grows c) : c''.Grows c :=
  ⟨h'.registry.trans h.registry, h.values.trans h'.values, h.places.trans h'.places,
    h.callbacks.trans h'.callbacks⟩

theorem Grows.holds {id : Nat} (h : c'.Grows c) (hd : c.Holds id d) : c'.Holds id d := by
  cases d with
  | ofVariable v storage =>
    cases storage with
    | own initial =>
      exact ⟨h.registry.variableAt? hd.1, Registry.getElem?_of_prefix h.values hd.2⟩
    | clone x =>
      obtain ⟨hv, k, hk, hx⟩ := hd
      exact ⟨h.registry.variableAt? hv, k, Registry.getElem?_of_prefix h.places hk,
        fun hlt => Registry.getElem?_of_prefix h.places (hx hlt)⟩
  | ofFunction f callback =>
    exact ⟨h.registry.functionAt? hd.1, Registry.getElem?_of_prefix h.callbacks hd.2⟩

/-- A context that was built by declarations: a value for every variable and a callback for every
function. -/
structure Built (c : Context σ) : Prop where
  declared : c.registry.Declared
  values : c.state.values.length = c.registry.vars.length
  callbacks : c.callbacks.length = c.registry.funcs.length

theorem built_empty (memory : σ) : (empty memory).Built := ⟨.empty, rfl, rfl⟩

theorem Built.length_places (h : c.Built) : c.state.places.length = c.registry.vars.length :=
  State.length_values.symm.trans h.values

theorem Built.declare (h : c.Built) (d : Declaration σ) :
    (c.declare d).2.Built ∧ (c.declare d).2.Grows c ∧
      ∀ id, (c.declare d).1 = .ok id → (c.declare d).2.Holds id d := by
  cases d with
  | ofVariable v storage =>
    simp only [Context.declare]
    cases hadd : c.addVariable v storage with
    | error e => exact ⟨h, .refl c, nofun⟩
    | ok c' =>
      obtain ⟨r, hr, rfl⟩ := map_eq_ok.1 hadd
      have hdeclared : r.Declared := .addVariable h.declared hr
      obtain ⟨rfl, -⟩ := Registry.addVariable_ok hr
      obtain ⟨hplaces, -⟩ := c.state.declare_grows storage
      have hvalues := c.state.values_declare storage
      refine ⟨⟨hdeclared, ?_, h.callbacks⟩, ⟨⟨List.prefix_append _ _, List.prefix_rfl⟩,
        ⟨_, hvalues.symm⟩, hplaces, List.prefix_rfl⟩, ?_⟩
      · show (c.state.declare storage).values.length = (c.registry.vars ++ [v]).length
        rw [hvalues, List.length_append, List.length_append, h.values, List.length_singleton,
          List.length_singleton]
      · rintro id ⟨⟩
        cases storage with
        | own initial =>
          refine ⟨List.getElem?_concat_length .., ?_⟩
          show (c.state.declare (.own initial)).values[c.registry.vars.length]? = some initial
          rw [hvalues, ← h.values]
          exact List.getElem?_concat_length ..
        | clone x =>
          refine ⟨List.getElem?_concat_length .., ?_⟩
          rw [← h.length_places]
          exact c.state.places_share x
  | ofFunction f callback =>
    simp only [Context.declare]
    cases hadd : c.addFunction f callback with
    | error e => exact ⟨h, .refl c, nofun⟩
    | ok c' =>
      obtain ⟨r, hr, rfl⟩ := map_eq_ok.1 hadd
      have hdeclared : r.Declared := .addFunction h.declared hr
      obtain ⟨rfl, -⟩ := Registry.addFunction_ok hr
      refine ⟨⟨hdeclared, h.values, ?_⟩, ⟨⟨List.prefix_rfl, List.prefix_append _ _⟩,
        List.prefix_rfl, List.prefix_rfl, List.prefix_append _ _⟩, ?_⟩
      · show (c.callbacks ++ [callback]).length = (c.registry.funcs ++ [f]).length
        rw [List.length_append, List.length_append, h.callbacks, List.length_singleton,
          List.length_singleton]
      · rintro id ⟨⟩
        refine ⟨List.getElem?_concat_length .., ?_⟩
        rw [← h.callbacks]
        exact List.getElem?_concat_length ..

theorem Built.declareAll (h : c.Built) (ds : List (Declaration σ)) :
    (c.declareAll ds).Built ∧ (c.declareAll ds).Grows c := by
  induction ds generalizing c with
  | nil => exact ⟨h, .refl c⟩
  | cons d ds ih =>
    obtain ⟨hbuilt, hgrows, -⟩ := h.declare d
    obtain ⟨hbuilt', hgrows'⟩ := ih hbuilt
    exact ⟨hbuilt', hgrows'.trans hgrows⟩

/-- Whatever a host declares, refused or not: the context is coherent, a refusal leaves it as it
was, and the id of a declaration denotes it from then on. -/
theorem declareAll_coherent (memory : σ) (ds : List (Declaration σ)) :
    ((empty memory).declareAll ds).registry.Coherent ∧
      ∀ d, match ((empty memory).declareAll ds).declare d with
        | (.error _, c) => c = (empty memory).declareAll ds
        | (.ok id, c) => ∀ later, (c.declareAll later).Holds id d := by
  obtain ⟨hbuilt, -⟩ := (built_empty memory).declareAll ds
  refine ⟨hbuilt.declared.coherent, fun d => ?_⟩
  obtain ⟨hnext, -, hholds⟩ := hbuilt.declare d
  split
  · rename_i hd
    have herror := declare_error (congrArg Prod.fst hd)
    rwa [hd] at herror
  · rename_i id c hd
    intro later
    rw [hd] at hnext hholds
    exact (hnext.declareAll later).2.holds (hholds id rfl)

/-! ## over time -/

theorem places_run (c : Context σ) (engine : Engine) (e : Expression) :
    (engine.run e c).context.state.places = c.state.places :=
  Machine.evaluate_places ⟨c.registry, c.callbacks, e.types, engine.limits.maxValues⟩ e.expr.tree
    ⟨c.state, []⟩

theorem places_evaluate (c : Context σ) (engine : Engine) (source : String) :
    (engine.evaluate source c).context.state.places = c.state.places := by
  unfold Engine.evaluate
  split
  · exact c.places_run engine _
  · rfl

theorem Change.places (h : Change c c') : c.state.places <+: c'.state.places := by
  cases h with
  | addVariable added =>
    obtain ⟨r, -, rfl⟩ := map_eq_ok.1 added
    exact (State.declare_grows _ _).1
  | addFunction added =>
    obtain ⟨r, -, rfl⟩ := map_eq_ok.1 added
    exact List.prefix_rfl
  | setInteractive => exact List.prefix_rfl
  | setVariable x v => exact (c.state.places_store x v).symm ▸ List.prefix_rfl
  | evaluate engine source => exact (c.places_evaluate engine source).symm ▸ List.prefix_rfl
  | run engine e => exact (c.places_run engine e).symm ▸ List.prefix_rfl
  | remember => exact List.prefix_rfl

/-- Every variable keeps its cell. -/
theorem Reaches.places (h : c.Reaches c') : c.state.places <+: c'.state.places := by
  induction h with
  | refl => exact List.prefix_rfl
  | tail _ change ih => exact ih.trans change.places

theorem Built.run {c : Context σ} (h : c.Built) (engine : Engine) (e : Expression) :
    (engine.run e c).context.Built where
  declared := h.declared
  values := by
    rw [State.length_values, c.places_run, h.length_places, registry_run]
  callbacks := h.callbacks

theorem Change.built {c c' : Context σ} (h : Change c c') (hc : c.Built) : c'.Built := by
  have hdeclared := h.declared hc.declared
  cases h with
  | @addVariable _ v storage added =>
    have hdeclare : (c.declare (.ofVariable v storage)).2 = c' := by
      rw [declare, added]
    exact hdeclare ▸ (hc.declare _).1
  | @addFunction _ f callback added =>
    have hdeclare : (c.declare (.ofFunction f callback)).2 = c' := by
      rw [declare, added]
    exact hdeclare ▸ (hc.declare _).1
  | setInteractive => exact ⟨hdeclared, hc.values, hc.callbacks⟩
  | setVariable x v =>
    refine ⟨hdeclared, ?_, hc.callbacks⟩
    show (c.state.store x v).values.length = c.registry.vars.length
    rw [State.length_values, State.places_store, hc.length_places]
  | evaluate engine source =>
    unfold Engine.evaluate
    split
    · exact hc.run engine _
    · exact hc
  | run engine e => exact hc.run engine e
  | remember => exact ⟨hdeclared, hc.values, hc.callbacks⟩

theorem Reaches.built {c c' : Context σ} (h : c.Reaches c') (hc : c.Built) : c'.Built := by
  induction h with
  | refl => exact hc
  | tail _ change ih => exact change.built ih

end Context
end ExprEngine
