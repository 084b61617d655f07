import ExprEngine.Context
import ExprEngine.Parse
import ExprEngine.Proofs.Outcome

/-!
# Declared registries

What every registry guarantees that was built by its own declarations.

* `Nameable`                        a name that can be written and has no meaning of its own;
* `Signature.Sound`                 a function whose defaults fit and come last;
* `Registry.Declared`               a registry that was built by declarations;
* `Registry.Indexed`                tables of names that are in step with the declarations;
* `Declared.variable_unreserved`    a declared name has no other meaning;
* `Declared.defaults`               defaults complete every call that a registry resolves.
-/

namespace ExprEngine

/-! ## parameters -/

/-- A parameter that a value can be passed for, its default among them. -/
structure Parameter.Sound (p : Parameter) : Prop where
  type : p.type ≠ .void
  default : ∀ d, p.default = some d → d.type = p.type

/-- A name that can be written and has no meaning of its own. -/
structure Nameable (name : String) : Prop where
  written : Text.isName name.toList = true
  free : isReserved name = false

/-- A function with a name of its own whose optional parameters come last. -/
structure Signature.Sound (s : Signature) : Prop where
  name : Nameable s.name
  few : s.arity ≤ maxArguments
  parameters : ∀ p ∈ s.parameters, p.Sound
  optional : ∀ p ∈ s.parameters.dropWhile fun p => p.default.isNone, p.default.isSome = true

namespace Registry

variable {name : String} {i : Nat} {seen : Bool} {ps : List Parameter}

theorem parameterFault?_cons {p : Parameter} (h : parameterFault? name i seen (p :: ps) = none) :
    p.Sound ∧ ((p.default.isSome = true ∧ parameterFault? name (i + 1) true ps = none) ∨
      (p.default.isNone = true ∧ seen = false ∧ parameterFault? name (i + 1) false ps = none)) := by
  rw [parameterFault?] at h
  split at h
  · cases h
  rename_i hv
  split at h
  · rename_i d hd
    split at h
    · cases h
    · rename_i ht
      refine ⟨⟨hv, fun d' hd' => ?_⟩, .inl ⟨by rw [hd]; rfl, h⟩⟩
      rw [hd] at hd'
      cases hd'
      exact Decidable.not_not.1 ht
  · rename_i hd
    split at h
    · cases h
    · rename_i hs
      exact ⟨⟨hv, fun d hd' => by rw [hd] at hd'; cases hd'⟩,
        .inr ⟨by rw [hd]; rfl, Bool.not_eq_true _ ▸ hs, h⟩⟩

theorem parameters_sound (h : parameterFault? name i seen ps = none) : ∀ p ∈ ps, p.Sound := by
  induction ps generalizing i seen with
  | nil => exact fun _ h => nomatch h
  | cons p ps ih =>
    obtain ⟨hp, ⟨-, hps⟩ | ⟨-, -, hps⟩⟩ := parameterFault?_cons h
    · exact List.forall_mem_cons.2 ⟨hp, ih hps⟩
    · exact List.forall_mem_cons.2 ⟨hp, ih hps⟩

/-- After an optional parameter all parameters are optional. -/
theorem parameters_seen (h : parameterFault? name i true ps = none) :
    ∀ p ∈ ps, p.default.isSome = true := by
  induction ps generalizing i with
  | nil => exact fun _ h => nomatch h
  | cons p ps ih =>
    obtain ⟨-, ⟨hd, hps⟩ | ⟨-, hs, -⟩⟩ := parameterFault?_cons h
    · exact List.forall_mem_cons.2 ⟨hd, ih hps⟩
    · cases hs

theorem parameters_optional (h : parameterFault? name i false ps = none) :
    ∀ p ∈ ps.dropWhile fun p => p.default.isNone, p.default.isSome = true := by
  induction ps generalizing i with
  | nil => exact fun _ h => nomatch h
  | cons p ps ih =>
    obtain ⟨-, ⟨hd, hps⟩ | ⟨hd, -, hps⟩⟩ := parameterFault?_cons h
    · have hn : p.default.isNone = false := by
        rw [← Option.not_isSome, hd]
        rfl
      rw [List.dropWhile_cons, if_neg (by rw [hn]; exact Bool.false_ne_true)]
      exact List.forall_mem_cons.2 ⟨hd, parameters_seen hps⟩
    · rw [List.dropWhile_cons, if_pos hd]
      exact ih hps

/-! ## declarations -/

/-- A registry that was built by declarations. -/
inductive Declared : Registry → Prop
  | empty : Declared empty
  | addVariable {r r' : Registry} {v : Variable} {initial : Value} (built : Declared r)
      (added : r.addVariable v initial = .ok r') : Declared r'
  | addFunction {r r' : Registry} {f : Signature} (built : Declared r)
      (added : r.addFunction f = .ok r') : Declared r'
  | setInteractive {r : Registry} (on : Bool) (built : Declared r) :
      Declared { r with interactive := on }

theorem checkName_ok (h : checkName name = .ok ()) : Nameable name := by
  unfold checkName at h
  split at h
  · cases h
  rename_i hw
  split at h
  · cases h
  · rename_i hr
    exact ⟨by simpa using hw, Bool.not_eq_true _ ▸ hr⟩

/-- All that a declared variable has passed. -/
theorem addVariable_ok {r r' : Registry} {v : Variable} {initial : Value}
    (h : r.addVariable v initial = .ok r') :
    r' = { r with
        variableIds := putNamed v.name r.vars.length r.variableIds, vars := r.vars ++ [v] } ∧
      Nameable v.name ∧ r.variableNamed? v.name = none ∧ initial.type.castsTo v.type = true := by
  unfold addVariable at h
  split at h
  · cases h
  rename_i hn
  split at h
  · cases h
  rename_i hd
  split at h
  · cases h
  rename_i hc
  cases h
  exact ⟨rfl, checkName_ok hn, by simpa using hd, by simpa using hc⟩

/-- All that a declared function has passed. -/
theorem addFunction_ok {r r' : Registry} {f : Signature} (h : r.addFunction f = .ok r') :
    r' = { r with
        functionIds := pushNamed f.name r.funcs.length r.functionIds, funcs := r.funcs ++ [f] } ∧
      f.Sound ∧ ∀ g ∈ r.overloads f.name, g.1.arity ≠ f.arity := by
  unfold addFunction at h
  split at h
  · cases h
  rename_i hn
  split at h
  · cases h
  rename_i hc
  split at h
  · cases h
  rename_i hp
  split at h
  · cases h
  rename_i hd
  cases h
  exact ⟨rfl, ⟨checkName_ok hn, Nat.le_of_not_lt hc, parameters_sound hp, parameters_optional hp⟩,
    by simpa using hd⟩

variable {r : Registry}

theorem Declared.variables (h : r.Declared) : ∀ v ∈ r.vars, Nameable v.name := by
  induction h with
  | empty => nofun
  | addVariable _ added ih =>
    obtain ⟨rfl, hv, -⟩ := addVariable_ok added
    exact List.forall_mem_append.2 ⟨ih, List.forall_mem_singleton.2 hv⟩
  | addFunction _ added ih =>
    obtain ⟨rfl, -⟩ := addFunction_ok added
    exact ih
  | setInteractive _ _ ih => exact ih

theorem Declared.functions (h : r.Declared) : ∀ f ∈ r.funcs, f.Sound := by
  induction h with
  | empty => nofun
  | addVariable _ added ih =>
    obtain ⟨rfl, -⟩ := addVariable_ok added
    exact ih
  | addFunction _ added ih =>
    obtain ⟨rfl, hf, -⟩ := addFunction_ok added
    exact List.forall_mem_append.2 ⟨ih, List.forall_mem_singleton.2 hf⟩
  | setInteractive _ _ ih => exact ih

/-! ## tables of names -/

theorem lookup_cons {α : Type} (other name : String) (a : α) (l : List (String × α)) :
    ((name, a) :: l).lookup other = if other = name then some a else l.lookup other := by
  rw [List.lookup_cons]
  by_cases h : other = name
  · rw [if_pos h, beq_iff_eq.2 h]
  · rw [if_neg h, beq_eq_false_iff_ne.2 h]

theorem lookup_putNamed {α : Type} (name : String) (a : α) (l : List (String × α)) (other : String) :
    (putNamed name a l).lookup other = if other = name then some a else l.lookup other := by
  induction l with
  | nil => exact lookup_cons ..
  | cons p l ih =>
    obtain ⟨n, b⟩ := p
    rw [putNamed]
    split
    · rename_i hn
      obtain rfl := beq_iff_eq.1 hn
      rw [lookup_cons, lookup_cons]
      split <;> rfl
    · rename_i hn
      rw [lookup_cons, lookup_cons, ih]
      split
      · rename_i ho
        rw [if_neg fun h => hn (beq_iff_eq.2 (ho.symm.trans h))]
      · rfl

theorem getElem?_snoc {α : Type} {l : List α} {a b : α} {i : Nat} :
    (l ++ [a])[i]? = some b ↔ l[i]? = some b ∨ (i = l.length ∧ a = b) := by
  rw [List.getElem?_append]
  split
  · rename_i hi
    constructor
    · exact .inl
    · rintro (h | ⟨rfl, -⟩)
      · exact h
      · exact absurd hi (Nat.lt_irrefl _)
  · rename_i hi
    rw [List.getElem?_eq_none (Nat.le_of_not_lt hi), List.getElem?_singleton]
    constructor
    · intro h
      split at h
      · cases h
        exact .inr ⟨by omega, rfl⟩
      · cases h
    · rintro (h | ⟨rfl, rfl⟩)
      · cases h
      · rw [if_pos (Nat.sub_self _)]

/-- Tables that are in step with the declarations: a name has the id of its variable and the ids of
its functions, in order of registration. -/
structure Indexed (r : Registry) : Prop where
  vars : ∀ name x,
    r.variableNamed? name = some x ↔ ∃ v, r.variableAt? x = some v ∧ v.name = name
  funcs : ∀ name f,
    f ∈ r.functionsNamed name ↔ ∃ s, r.functionAt? f = some s ∧ s.name = name
  ordered : ∀ name, (r.functionsNamed name).Pairwise (· < ·)

variable {r r' : Registry} {v : Variable} {initial : Value} {f : Signature}

theorem indexed_empty : empty.Indexed := ⟨by simp [variableNamed?, variableAt?, empty],
  by simp [functionsNamed, functionAt?, empty], by simp [functionsNamed, empty]⟩

theorem Indexed.addVariable (h : r.Indexed) (added : r.addVariable v initial = .ok r') :
    r'.Indexed := by
  obtain ⟨rfl, -, hfresh, -⟩ := addVariable_ok added
  refine ⟨fun name x => ?_, h.funcs, h.ordered⟩
  simp only [variableNamed?, variableAt?, lookup_putNamed, getElem?_snoc]
  by_cases hn : name = v.name
  · subst hn
    rw [if_pos rfl]
    constructor
    · intro hx
      cases hx
      exact ⟨v, .inr ⟨rfl, rfl⟩, rfl⟩
    · rintro ⟨u, hu | ⟨rfl, rfl⟩, hname⟩
      · -- the name was free
        rw [(h.vars _ x).2 ⟨u, hu, hname⟩] at hfresh
        cases hfresh
      · rfl
  · rw [if_neg hn]
    refine (h.vars name x).trans (exists_congr fun u => and_congr_left fun hname => ?_)
    constructor
    · exact .inl
    · rintro (hu | ⟨-, rfl⟩)
      · exact hu
      · exact absurd hname.symm hn

theorem Indexed.lt_length (h : r.Indexed) {g : FuncId} (hg : g ∈ r.functionsNamed name) :
    g < r.funcs.length := by
  obtain ⟨s, hs, -⟩ := (h.funcs name g).1 hg
  exact (List.getElem?_eq_some_iff.1 hs).1

theorem Indexed.addFunction (h : r.Indexed) (added : r.addFunction f = .ok r') : r'.Indexed := by
  obtain ⟨rfl, -⟩ := addFunction_ok added
  have hnamed : ∀ name, functionsNamed { r with
      functionIds := pushNamed f.name r.funcs.length r.functionIds
      funcs := r.funcs ++ [f] } name =
      if name = f.name then r.functionsNamed name ++ [r.funcs.length]
      else r.functionsNamed name := by
    intro name
    simp only [functionsNamed, pushNamed, lookup_putNamed]
    by_cases hn : name = f.name
    · subst hn
      simp
    · simp [hn]
  refine ⟨h.vars, fun name g => ?_, fun name => ?_⟩
  · simp only [hnamed, functionAt?, getElem?_snoc]
    by_cases hn : name = f.name
    · subst hn
      rw [if_pos rfl, List.mem_append, List.mem_singleton, h.funcs]
      constructor
      · rintro (⟨s, hs, hname⟩ | rfl)
        · exact ⟨s, .inl hs, hname⟩
        · exact ⟨f, .inr ⟨rfl, rfl⟩, rfl⟩
      · rintro ⟨s, hs | ⟨rfl, rfl⟩, hname⟩
        · exact .inl ⟨s, hs, hname⟩
        · exact .inr rfl
    · rw [if_neg hn]
      refine (h.funcs name g).trans (exists_congr fun s => and_congr_left fun hname => ?_)
      constructor
      · exact .inl
      · rintro (hs | ⟨-, rfl⟩)
        · exact hs
        · exact absurd hname.symm hn
  · rw [hnamed]
    split
    · -- the new id is the largest
      refine List.pairwise_append.2 ⟨h.ordered name, List.pairwise_singleton _ _, ?_⟩
      intro g hg last hlast
      rw [List.mem_singleton.1 hlast]
      exact h.lt_length hg
    · exact h.ordered name

theorem Declared.indexed (h : r.Declared) : r.Indexed := by
  induction h with
  | empty => exact indexed_empty
  | addVariable _ added ih => exact ih.addVariable added
  | addFunction _ added ih => exact ih.addFunction added
  | setInteractive _ _ ih => exact ⟨ih.vars, ih.funcs, ih.ordered⟩

theorem Indexed.mem_overloads (h : r.Indexed) {g : Signature × FuncId} :
    g ∈ r.overloads name ↔ r.functionAt? g.2 = some g.1 ∧ g.1.name = name := by
  obtain ⟨s, g⟩ := g
  simp only [overloads, List.mem_filterMap, Option.map_eq_some_iff, Prod.mk.injEq]
  constructor
  · rintro ⟨g', hg', s', hs', rfl, rfl⟩
    obtain ⟨s, hs, hname⟩ := (h.funcs name g').1 hg'
    rw [hs] at hs'
    cases hs'
    exact ⟨hs, hname⟩
  · rintro ⟨hs, hname⟩
    exact ⟨g, (h.funcs name g).2 ⟨s, hs, hname⟩, s, hs, rfl, rfl⟩

/-- Functions of one name differ in their arity. -/
theorem Declared.arities (h : r.Declared) {i j : FuncId} {s s' : Signature}
    (hi : r.functionAt? i = some s) (hj : r.functionAt? j = some s') (hname : s.name = s'.name)
    (harity : s.arity = s'.arity) : i = j := by
  induction h generalizing i j s s' with
  | empty => cases hi
  | addVariable _ added ih =>
    obtain ⟨rfl, -⟩ := addVariable_ok added
    exact ih hi hj hname harity
  | addFunction built added ih =>
    obtain ⟨rfl, -, hdistinct⟩ := addFunction_ok added
    rcases getElem?_snoc.1 hi with hi | ⟨rfl, rfl⟩ <;> rcases getElem?_snoc.1 hj with hj | ⟨rfl, rfl⟩
    · exact ih hi hj hname harity
    · exact absurd harity (hdistinct (s, i) (built.indexed.mem_overloads.2 ⟨hi, hname⟩))
    · exact absurd harity.symm (hdistinct (s', j) (built.indexed.mem_overloads.2 ⟨hj, hname.symm⟩))
    · rfl
  | setInteractive _ _ ih => exact ih hi hj hname harity

/-! ## names and calls -/

theorem Declared.resolve_ok (h : r.Declared) {count : Nat} {f : FuncId}
    (hf : r.resolve name count = .ok f) :
    ∃ s, r.functionAt? f = some s ∧ s.name = name ∧
      (s.arity = count ∨ s.accepts count = true) := by
  unfold resolve at hf
  dsimp only at hf
  split at hf
  · cases hf
  split at hf
  · rename_i g hg
    cases hf
    obtain ⟨ha, hn⟩ := h.indexed.mem_overloads.1 (List.mem_of_find?_eq_some hg)
    have hs := List.find?_some hg
    exact ⟨g.1, ha, hn, .inl (beq_iff_eq.1 hs)⟩
  split at hf
  · rename_i g hg
    cases hf
    obtain ⟨ha, hn⟩ := h.indexed.mem_overloads.1 (List.mem_of_find?_eq_some hg)
    have hs := List.find?_some hg
    exact ⟨g.1, ha, hn, .inr hs⟩
  · split at hf <;> cases hf

/-- The name of a declared variable has no other meaning. -/
theorem Declared.variable_unreserved (h : r.Declared) {x : VarId}
    (hx : r.variableNamed? name = some x) : isReserved name = false := by
  obtain ⟨v, hv, rfl⟩ := (h.indexed.vars name x).1 hx
  exact (h.variables v (List.mem_of_getElem? hv)).free

/-- The name of a declared function has no other meaning. -/
theorem Declared.function_unreserved (h : r.Declared) {count : Nat} {f : FuncId}
    (hf : r.resolve name count = .ok f) : isReserved name = false := by
  obtain ⟨s, hs, rfl, -⟩ := h.resolve_ok hf
  exact (h.functions s (List.mem_of_getElem? hs)).name.free

/-- Values for parameters that all have defaults. -/
theorem map_type_defaults {ps : List Parameter} (hp : ∀ p ∈ ps, p.Sound)
    (hd : ∀ p ∈ ps, p.default.isSome = true) :
    (ps.filterMap Parameter.default).map Value.type = ps.map Parameter.type := by
  induction ps with
  | nil => rfl
  | cons p ps ih =>
    obtain ⟨hp, hps⟩ := List.forall_mem_cons.1 hp
    obtain ⟨hd, hds⟩ := List.forall_mem_cons.1 hd
    obtain ⟨d, hd⟩ := Option.isSome_iff_exists.1 hd
    rw [List.filterMap_cons_some hd, List.map_cons, List.map_cons, hp.default d hd, ih hps hds]

/-- What a resolved call leaves out has defaults. -/
theorem Declared.left_out (h : r.Declared) {count : Nat} {f : FuncId}
    (hf : r.resolve name count = .ok f) :
    ∃ s, r.functionAt? f = some s ∧ count ≤ s.arity ∧
      ∀ p ∈ s.parameters.drop count, p.default.isSome = true := by
  obtain ⟨s, hs, -, hcount⟩ := h.resolve_ok hf
  have hsound := h.functions s (List.mem_of_getElem? hs)
  rcases hcount with rfl | hc
  · refine ⟨s, hs, Nat.le_refl _, ?_⟩
    rw [Signature.arity, List.drop_length]
    exact fun _ h => nomatch h
  · -- what the call leaves out lies behind the required parameters
    simp only [Signature.accepts, Bool.and_eq_true, decide_eq_true_eq] at hc
    refine ⟨s, hs, hc.2, fun p hp => hsound.optional p ?_⟩
    have e : s.parameters.dropWhile (fun p => p.default.isNone) =
        s.parameters.drop s.required := by
      have ht := List.takeWhile_append_dropWhile (p := fun p : Parameter => p.default.isNone)
        (l := s.parameters)
      rw [← congrArg (List.drop s.required) ht]
      exact List.drop_left.symm
    rw [e]
    rw [← Nat.add_sub_cancel' hc.1, ← List.drop_drop] at hp
    exact List.mem_of_mem_drop hp

theorem defaultsAfter_eq {f : FuncId} {s : Signature} (hs : r.functionAt? f = some s)
    (count : Nat) : ParseState.defaultsAfter r f count =
      (s.parameters.drop count).filterMap Parameter.default := by
  rw [ParseState.defaultsAfter, hs]

/-- Defaults complete every call that a registry resolves, each of the type of its parameter. -/
theorem Declared.defaults (h : r.Declared) {count : Nat} {f : FuncId}
    (hf : r.resolve name count = .ok f) :
    ∃ s, r.functionAt? f = some s ∧ count ≤ s.arity ∧
      (ParseState.defaultsAfter r f count).map Value.type =
        (s.parameters.drop count).map Parameter.type := by
  obtain ⟨s, hs, hcount, hdefaults⟩ := h.left_out hf
  have hsound := h.functions s (List.mem_of_getElem? hs)
  refine ⟨s, hs, hcount, ?_⟩
  rw [defaultsAfter_eq hs]
  exact map_type_defaults (fun p hp => hsound.parameters p (List.mem_of_mem_drop hp)) hdefaults

end Registry
end ExprEngine
