import ExprEngine.Proofs.Machine.Run
import ExprEngine.Proofs.Relabel

/-!
# Runs of trees that differ in their origins

The machine uses the origin of a part for two things: its id to look up the types of the part, and
the origin as a whole to report an error. Where the types are the same, only the report differs.

* `Agree`            outcomes that are equal up to what is forgotten of an error;
* `Origin.Alike`     origins whose errors agree;
* `Machine.Alike`    parts that two tables of types make the same of;
* `step_agree`       a step of such parts;
* `run_agree`        runs of such parts;
* `evaluate_agree`   evaluations of trees of such parts.
-/

namespace ExprEngine

/-! ## outcomes -/

variable {σ ε ε' α β : Type} {κ : ε → ε'}

/-- Outcomes that are equal up to what `κ` forgets of an error. -/
def Agree (κ : ε → ε') (x y : Except ε α) : Prop := mapOutcome κ id x = mapOutcome κ id y

theorem Agree.refl (x : Except ε α) : Agree κ x x := rfl

theorem Agree.error {e e' : ε} (h : κ e = κ e') : Agree κ (.error e : Except ε α) (.error e') :=
  congrArg Except.error h

theorem Agree.bind {x y : Except ε α} {f g : α → Except ε β} (h : Agree κ x y)
    (hfg : ∀ a, Agree κ (f a) (g a)) : Agree κ (x >>= f) (y >>= g) := by
  cases x with
  | ok a =>
    cases y with
    | ok b =>
      cases Except.ok.inj h
      exact hfg a
    | error e => cases h
  | error e =>
    cases y with
    | ok b => cases h
    | error e' => exact Agree.error (Except.error.inj h)

theorem Agree.cases {x y : Except ε α} (h : Agree κ x y) :
    (∃ a, x = .ok a ∧ y = .ok a) ∨ ∃ e e', x = .error e ∧ y = .error e' ∧ κ e = κ e' := by
  rcases mapOutcome_eq h with ⟨a, _, rfl, rfl, rfl⟩ | herror
  · exact .inl ⟨_, rfl, rfl⟩
  · exact .inr herror

/-! ## parts -/

/-- Origins whose errors agree. -/
def Origin.Alike {ε : Type} (κ : EvalError → ε) (o o' : Origin) : Prop :=
  ∀ cause, κ (o.evalError cause) = κ (o'.evalError cause)

namespace Machine

variable {ε : Type} {κ : EvalError → ε} {o o' : Origin} {s : ValueStack} {v : Value}

theorem convert_agree (h : o.Alike κ o') (t : ValueType) :
    Agree κ (convert o v t) (convert o' v t) := by
  unfold convert
  split
  · exact .refl _
  · exact .error (h _)

theorem located_agree {α : Type} (h : o.Alike κ o') (x : Except EvalCause α) :
    Agree κ (located o x) (located o' x) := by
  cases x with
  | ok a => exact .refl _
  | error c => exact .error (h c)

theorem pop_agree (h : o.Alike κ o') : Agree κ (pop o s) (pop o' s) := by
  cases s with
  | nil => exact .error (h _)
  | cons v s => exact .refl _

theorem popMany_agree (h : o.Alike κ o') (count : Nat) :
    Agree κ (popMany o count s) (popMany o' count s) := by
  unfold popMany
  split
  · exact .error (h _)
  · exact .refl _

theorem returned_agree (h : o.Alike κ o') (sig : Signature) :
    Agree κ (returned o sig v) (returned o' sig v) := by
  unfold returned
  split
  · exact .refl _
  · exact .error (h _)

theorem convertArguments_agree (h : o.Alike κ o') (vs : List Value) (ps : List Parameter) :
    Agree κ (convertArguments o vs ps) (convertArguments o' vs ps) := by
  induction vs generalizing ps with
  | nil => exact .refl _
  | cons v vs ih =>
    cases ps with
    | nil => exact .refl _
    | cons p ps => exact (convert_agree h p.type).bind fun u => (ih ps).bind fun us => .refl _

/-- A machine with another table of types. -/
def retyped (m : Machine σ) (types : TypeTable) : Machine σ := { m with types }

/-- Parts that are alike but for their origins, with errors that agree and the same types. -/
structure Alike (κ : EvalError → ε) (types types' : TypeTable) (n n' : Tree) : Prop where
  bare : n.bare = n'.bare
  origin : n.origin.Alike κ n'.origin
  typing : types.typing n.id = types'.typing n'.id

variable {m : Machine σ} {types : TypeTable} {n n' : Tree} {w : State σ}

theorem push_agree (h : o.Alike κ o') : Agree κ (m.push o v s) ((m.retyped types).push o' v s) := by
  unfold push
  rw [show (m.retyped types).maxValues = m.maxValues from rfl]
  split
  · exact .error (h _)
  · exact .refl _

theorem declared_agree (h : o.Alike κ o') (x : VarId) :
    Agree κ (m.declared o x) ((m.retyped types).declared o' x) := by
  unfold declared
  rw [show (m.retyped types).registry = m.registry from rfl]
  split
  · exact .refl _
  · exact .error (h _)

theorem arguments_agree (h : o.Alike κ o') (f : FuncId) (count : Nat) :
    Agree κ (m.arguments o f count s) ((m.retyped types).arguments o' f count s) := by
  unfold arguments
  refine (popMany_agree h count).bind fun p => ?_
  obtain ⟨args, s⟩ := p
  rw [show (m.retyped types).registry = m.registry from rfl]
  cases m.registry.functionAt? f with
  | none => exact .error (h _)
  | some sig =>
    dsimp only
    split
    · exact .error (h _)
    · exact (convertArguments_agree h args _).bind fun _ => .refl _

theorem compute_agree (h : Alike κ m.types types n n') :
    Agree κ (m.compute w n s) ((m.retyped types).compute w n' s) := by
  obtain ⟨hbare, horigin, htyping⟩ := h
  cases n with
  | hole =>
    obtain rfl := Tree.bare_eq_hole hbare
    exact .refl _
  | constant o v =>
    obtain ⟨o', rfl⟩ := Tree.bare_eq_constant hbare
    exact .refl _
  | reference o x =>
    obtain ⟨o', rfl⟩ := Tree.bare_eq_reference hbare
    exact (declared_agree horigin x).bind fun v => (located_agree horigin _).bind fun u => .refl _
  | group o x =>
    obtain ⟨o', x', rfl, -⟩ := Tree.bare_eq_group hbare
    exact .error (horigin _)
  | call o f args =>
    obtain ⟨o', args', rfl, -⟩ := Tree.bare_eq_call hbare
    exact .error (horigin _)
  | cast o target x =>
    obtain ⟨o', x', rfl, -⟩ := Tree.bare_eq_cast hbare
    exact (pop_agree horigin).bind fun p => (convert_agree horigin target).bind fun u => .refl _
  | unary o op x =>
    obtain ⟨o', x', rfl, -⟩ := Tree.bare_eq_unary hbare
    have hoperand : m.types.operand o.id = types.operand o'.id := congrArg Typing.operand htyping
    refine (pop_agree horigin).bind fun p => ?_
    show Agree κ (convert o p.1 (m.types.operand o.id) >>= _)
      (convert o' p.1 (types.operand o'.id) >>= _)
    rw [hoperand]
    exact (convert_agree horigin _).bind fun v => (located_agree horigin _).bind fun u => .refl _
  | choice o c y no =>
    obtain ⟨o', c', y', no', rfl, -⟩ := Tree.bare_eq_choice hbare
    have hresult : m.types.result o.id = types.result o'.id := congrArg Typing.result htyping
    refine (pop_agree horigin).bind fun p => (pop_agree horigin).bind fun q =>
      (pop_agree horigin).bind fun u => (located_agree horigin _).bind fun b => ?_
    show Agree κ (convert o _ (m.types.result o.id) >>= _) (convert o' _ (types.result o'.id) >>= _)
    rw [hresult]
    exact (convert_agree horigin _).bind fun _ => .refl _
  | binary o op l x =>
    obtain ⟨o', l', x', rfl, -⟩ := Tree.bare_eq_binary hbare
    have hoperand : m.types.operand o.id = types.operand o'.id := congrArg Typing.operand htyping
    cases op with
    | logic op =>
      exact (pop_agree horigin).bind fun p => (pop_agree horigin).bind fun q =>
        (located_agree horigin _).bind fun _ => .refl _
    | _ =>
      refine (pop_agree horigin).bind fun p => (pop_agree horigin).bind fun q => ?_
      show Agree κ (convert o q.1 (m.types.operand o.id) >>= _)
        (convert o' q.1 (types.operand o'.id) >>= _)
      rw [hoperand]
      exact (convert_agree horigin _).bind fun _ => (convert_agree horigin _).bind fun _ =>
        (located_agree horigin _).bind fun _ => .refl _

theorem assignment_agree {l l' : Tree} (h : o.Alike κ o') (hl : l.bare = l'.bare)
    (htyping : m.types.operand o.id = types.operand o'.id) (op : BinaryOp) :
    Agree κ (m.assignment w o op l s) ((m.retyped types).assignment w o' op l' s) := by
  have htarget : l.singleVariable? = l'.singleVariable? := Tree.singleVariable?_congr hl
  unfold assignment
  refine (pop_agree h).bind fun p => ?_
  obtain ⟨value, s⟩ := p
  dsimp only
  rw [← htarget]
  split
  · exact .error (h _)
  refine (declared_agree h _).bind fun v => ?_
  cases op with
  | compound c =>
    refine (located_agree h _).bind fun old => ?_
    show Agree κ (convert o old (m.types.operand o.id) >>= _)
      (convert o' old (types.operand o'.id) >>= _)
    rw [htyping]
    exact (convert_agree h _).bind fun _ => (convert_agree h _).bind fun _ =>
      (located_agree h _).bind fun _ => (convert_agree h _).bind fun _ => .refl _
  | _ => exact (convert_agree h _).bind fun _ => .refl _

/-! ## steps and runs -/

/-- Results with the worlds after them, equal up to what is forgotten of an error. -/
structure AgreeIn (κ : EvalError → ε) {α : Type} (p q : Except EvalError α × World σ) : Prop where
  result : Agree κ p.1 q.1
  world : p.2 = q.2

theorem AgreeIn.ok_iff {α : Type} {p q : Except EvalError α × World σ}
    (h : AgreeIn κ p q) {a : α} {w : World σ} : p = (.ok a, w) ↔ q = (.ok a, w) := by
  obtain ⟨x, w₁⟩ := p
  obtain ⟨y, w₂⟩ := q
  obtain ⟨hresult, rfl⟩ := h
  rcases hresult.cases with ⟨b, rfl, rfl⟩ | ⟨e, e', rfl, rfl, -⟩
  · rfl
  · exact ⟨nofun, nofun⟩

theorem perform_agree {w : World σ} (h : Alike κ m.types types n n') :
    AgreeIn κ (m.perform n s w) ((m.retyped types).perform n' s w) := by
  have hcompute := compute_agree (s := s) (w := w.state) h
  obtain ⟨hbare, horigin, htyping⟩ := h
  cases n with
  | hole =>
    obtain rfl := Tree.bare_eq_hole hbare
    exact ⟨hcompute, rfl⟩
  | constant o v =>
    obtain ⟨o', rfl⟩ := Tree.bare_eq_constant hbare
    exact ⟨hcompute, rfl⟩
  | reference o x =>
    obtain ⟨o', rfl⟩ := Tree.bare_eq_reference hbare
    exact ⟨hcompute, rfl⟩
  | group o x =>
    obtain ⟨o', x', rfl, -⟩ := Tree.bare_eq_group hbare
    exact ⟨hcompute, rfl⟩
  | cast o target x =>
    obtain ⟨o', x', rfl, -⟩ := Tree.bare_eq_cast hbare
    exact ⟨hcompute, rfl⟩
  | unary o op x =>
    obtain ⟨o', x', rfl, -⟩ := Tree.bare_eq_unary hbare
    exact ⟨hcompute, rfl⟩
  | choice o c y no =>
    obtain ⟨o', c', y', no', rfl, -⟩ := Tree.bare_eq_choice hbare
    exact ⟨hcompute, rfl⟩
  | call o f args =>
    obtain ⟨o', args', rfl, hargs⟩ := Tree.bare_eq_call hbare
    have hlength : args.length = args'.length := by
      have hmap := congrArg List.length hargs
      rwa [List.length_map, List.length_map] at hmap
    have harguments : Agree κ (m.arguments o f args.length s)
        ((m.retyped types).arguments o' f args.length s) := arguments_agree horigin f _
    unfold perform
    dsimp only
    rw [← hlength]
    rcases harguments.cases with ⟨⟨sig, values, below⟩, hp, hp'⟩ | ⟨e, e', he, he', hκ⟩
    · rw [hp, hp']
      refine ⟨?_, rfl⟩
      have hreturned : Agree κ (returned o sig (m.reply f values w.state).value)
        (returned o' sig (m.reply f values w.state).value) := returned_agree horigin sig
      exact hreturned.bind fun _ => .refl _
    · rw [he, he']
      exact ⟨.error hκ, rfl⟩
  | binary o op l x =>
    obtain ⟨o', l', x', rfl, hl, -⟩ := Tree.bare_eq_binary hbare
    have hassignment : Agree κ (m.assignment w.state o op l s)
        ((m.retyped types).assignment w.state o' op l' s) :=
      assignment_agree horigin hl (congrArg Typing.operand htyping) op
    unfold perform
    dsimp only
    split
    · rcases hassignment.cases with ⟨⟨x, v, below⟩, hp, hp'⟩ | ⟨e, e', he, he', hκ⟩
      · rw [hp, hp']
        exact ⟨.refl _, rfl⟩
      · rw [he, he']
        exact ⟨.error hκ, rfl⟩
    · exact ⟨hcompute, rfl⟩

theorem step_agree {w : World σ} (h : Alike κ m.types types n n') :
    AgreeIn κ (m.step n s w) ((m.retyped types).step n' s w) := by
  have hpasses : n.passes = n'.passes := by
    have hmap : ∀ t : Tree, t.bare.passes = t.passes := fun t => by
      cases t <;> simp [Tree.bare, Tree.passes]
    rw [← hmap n, h.bare, hmap]
  cases hn : n.passes with
  | true =>
    rw [step_of_passes hn, step_of_passes (hpasses ▸ hn)]
    exact ⟨.refl _, rfl⟩
  | false =>
    rw [step_eq_perform hn, step_eq_perform (hpasses ▸ hn)]
    have hperform := perform_agree (s := s) (w := w) h
    exact ⟨hperform.result.bind fun p => push_agree h.origin, hperform.world⟩

theorem run_agree {ts ts' : List Tree} (h : List.Forall₂ (Alike κ m.types types) ts ts')
    (s : ValueStack) (w : World σ) :
    AgreeIn κ (m.run ts s w) ((m.retyped types).run ts' s w) := by
  induction h generalizing s w with
  | nil => exact ⟨.refl _, rfl⟩
  | @cons n n' ts ts' hn _ ih =>
    have hstep := step_agree (s := s) (w := w) hn
    rw [run, run]
    rcases hm : m.step n s w with ⟨x, w'⟩
    rcases hm' : (m.retyped types).step n' s w with ⟨x', w''⟩
    rw [hm, hm'] at hstep
    obtain ⟨hresult, rfl⟩ := hstep
    dsimp only at hresult
    rcases hresult.cases with ⟨a, rfl, rfl⟩ | ⟨e, e', rfl, rfl, hκ⟩
    · exact ih a w'
    · exact ⟨.error hκ, rfl⟩

/-- Evaluations agree where the runs of the schedules do, if the errors about the whole agree
too. -/
theorem evaluate_agree_of_run {t t' : Tree} {w : World σ}
    (hvariable : t.singleVariable? = t'.singleVariable?)
    (hrun : AgreeIn κ (m.run t.schedule [] w) ((m.retyped types).run t'.schedule [] w))
    (horigin : t.origin.Alike κ t'.origin)
    (hwhole : ∀ cause, κ ⟨cause, none, t.extent⟩ = κ ⟨cause, none, t'.extent⟩) :
    AgreeIn κ (m.evaluate t w) ((m.retyped types).evaluate t' w) := by
  have htoggled : toggled? m.registry t = toggled? m.registry t' := by
    unfold toggled?
    rw [hvariable]
  unfold evaluate
  rw [show (m.retyped types).registry = m.registry from rfl, ← htoggled]
  split
  · rename_i x v _
    unfold toggle
    rcases (located_agree horigin (readBinding w.state x v)).cases with
      ⟨a, ha, ha'⟩ | ⟨e, e', he, he', hκ⟩
    · rw [ha, ha']
      exact ⟨.refl _, rfl⟩
    · rw [he, he']
      exact ⟨.error hκ, rfl⟩
  · rcases hm : m.run t.schedule [] w with ⟨x, w'⟩
    rcases hm' : (m.retyped types).run t'.schedule [] w with ⟨x', w''⟩
    rw [hm, hm'] at hrun
    obtain ⟨hresult, rfl⟩ := hrun
    dsimp only at hresult
    rcases hresult.cases with ⟨s, rfl, rfl⟩ | ⟨e, e', rfl, rfl, hκ⟩
    · refine ⟨?_, rfl⟩
      show Agree κ (result t s) (result t' s)
      match s with
      | [] => exact .error (hwhole _)
      | [v] => exact .refl _
      | _ :: _ :: _ => exact .error (hwhole _)
    · exact ⟨.error hκ, rfl⟩

/-- Evaluations of trees that are alike in their parts, if the errors about the whole agree too. -/
theorem evaluate_agree {t t' : Tree} (hbare : t.bare = t'.bare)
    (hparts : List.Forall₂ (Alike κ m.types types) t.schedule t'.schedule)
    (horigin : t.origin.Alike κ t'.origin)
    (hwhole : ∀ cause, κ ⟨cause, none, t.extent⟩ = κ ⟨cause, none, t'.extent⟩) (w : World σ) :
    AgreeIn κ (m.evaluate t w) ((m.retyped types).evaluate t' w) :=
  evaluate_agree_of_run (Tree.singleVariable?_congr hbare) (run_agree hparts [] w) horigin hwhole

end Machine
end ExprEngine
