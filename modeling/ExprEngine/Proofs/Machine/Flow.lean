import ExprEngine.Proofs.Machine.Step
import ExprEngine.Proofs.Tree

/-!
# Typed schedules

The parts of a typed tree, one after the other, leave one more value on the stack, of the type of
the whole. Whatever part was executed last has left a value of its own type on top. Where a call
does not pass what its function declares, the effect is known up to that call.

* `Flow`               the effect of some parts, one after the other;
* `Course`             the same, up to a call that passes too much or too little;
* `course_schedule`    the course of a typed tree;
* `flow_schedule`      what it leaves when all its calls are full;
* `run_safe`           a run has the effect of its parts;
* `evaluate_safe`      a typed tree has a value of its type;
* `executed_result`    so does every part that is executed.
-/

namespace ExprEngine

/-- A call that passes as many arguments as its function declares. -/
def Tree.FullCall (r : Registry) : Tree → Prop
  | .call _ f args => ∃ s, r.functionAt? f = some s ∧ args.length = s.arity
  | _ => True

theorem Tree.FullCall.extend {r r' : Registry} {t : Tree} (hr : r'.Extends r)
    (h : t.FullCall r) : t.FullCall r' := by
  cases t with
  | call o f args =>
    obtain ⟨s, hs, hargs⟩ := h
    exact ⟨s, hr.functionAt? hs, hargs⟩
  | _ => exact h

/-! ## what is executed -/

theorem mem_scheduleAll {ts : List Tree} {n : Tree} :
    n ∈ scheduleAll ts ↔ ∃ t ∈ ts, n ∈ t.schedule := by
  induction ts with
  | nil => simp [scheduleAll]
  | cons t ts ih => simp [scheduleAll, ih]

/-- What is executed is the part itself or belongs to an operand. -/
theorem Tree.mem_schedule {t n : Tree} (h : n ∈ t.schedule) :
    (n = t ∧ t.isHole = false) ∨ ∃ x ∈ t.operands, n ∈ x.schedule := by
  cases t with
  | hole => cases h
  | binary o op l x =>
    rw [schedule] at h
    rcases List.mem_append.1 h with h | h
    · right
      split at h
      · split at h
        · cases h
        · exact ⟨x, by simp [operands], h⟩
      · rcases List.mem_append.1 h with h | h
        · exact ⟨l, by simp [operands], h⟩
        · exact ⟨x, by simp [operands], h⟩
    · exact .inl ⟨List.mem_singleton.1 h, rfl⟩
  | call o f args =>
    rw [schedule] at h
    rcases List.mem_append.1 h with h | h
    · exact .inr (mem_scheduleAll.1 h)
    · exact .inl ⟨List.mem_singleton.1 h, rfl⟩
  | choice o c y no =>
    simp only [schedule, List.mem_append, List.mem_singleton] at h
    rcases h with ((h | h) | h) | h
    · exact .inr ⟨c, by simp [operands], h⟩
    · exact .inr ⟨y, by simp [operands], h⟩
    · exact .inr ⟨no, by simp [operands], h⟩
    · exact .inl ⟨h, rfl⟩
  | _ => simpa [schedule, operands, or_comm, isHole] using h

theorem Tree.mem_nodes_of_mem_schedule {t n : Tree} (h : n ∈ t.schedule) : n ∈ t.nodes := by
  induction t using Tree.operand_induction with
  | part t ih =>
    rcases mem_schedule h with ⟨rfl, ht⟩ | ⟨x, hx, hn⟩
    · exact mem_nodes_self ht
    · exact mem_nodes_of_operand hx (ih x hx hn)

namespace Machine

variable {σ : Type} {m : Machine σ}

/-! ## effects in sequence -/

/-- The effect of some parts, one after the other. Each leaves its own type on top. -/
inductive Flow (m : Machine σ) : List Tree → List ValueType → List ValueType → Prop
  | nil {S : List ValueType} : Flow m [] S S
  | cons {t : Tree} {ts : List Tree} {S T U : List ValueType}
      (part : m.Executes t S (m.types.result t.id :: T))
      (rest : Flow m ts (m.types.result t.id :: T) U) : Flow m (t :: ts) S U

section
variable {ts us : List Tree} {t : Tree} {ty : Typing} {S T U : List ValueType}

theorem Flow.split (h : m.Flow (ts ++ us) S U) : ∃ T, m.Flow ts S T ∧ m.Flow us T U := by
  induction ts generalizing S with
  | nil => exact ⟨S, .nil, h⟩
  | cons t ts ih =>
    rw [List.cons_append] at h
    cases h with
    | cons part rest =>
      obtain ⟨T, hts, hus⟩ := ih rest
      exact ⟨T, .cons part hts, hus⟩

end

/-- The same for parts some of which may be calls with too few or too many arguments. What follows
such a call is never executed. -/
inductive Course (m : Machine σ) : List Tree → List ValueType → List ValueType → Prop
  | nil {S : List ValueType} : Course m [] S S
  | cons {t : Tree} {ts : List Tree} {S T U : List ValueType}
      (part : m.Executes t S (m.types.result t.id :: T))
      (rest : Course m ts (m.types.result t.id :: T) U) : Course m (t :: ts) S U
  | stop {t : Tree} {ts : List Tree} {S U : List ValueType} (unfit : ¬ t.FullCall m.registry) :
      Course m (t :: ts) S U

section
variable {ts us : List Tree} {t : Tree} {ty : Typing} {S T U : List ValueType}

theorem Course.append (h : m.Course ts S T) (h' : m.Course us T U) :
    m.Course (ts ++ us) S U := by
  induction h with
  | nil => exact h'
  | cons part _ ih => exact .cons part (ih h')
  | stop unfit => exact .stop unfit

/-- A part after those below it. -/
theorem Course.node (below : m.Course ts S T) (typing : m.types.typing t.id = ty)
    (part : m.Executes t T (ty.result :: U)) : m.Course (ts ++ [t]) S (ty.result :: U) := by
  have hresult : m.types.result t.id = ty.result := congrArg Typing.result typing
  rw [← hresult] at part ⊢
  exact below.append (.cons part .nil)

theorem Course.flow (h : m.Course ts S T) (full : ∀ t ∈ ts, t.FullCall m.registry) :
    m.Flow ts S T := by
  induction h with
  | nil => exact .nil
  | cons part _ ih => exact .cons part (ih fun t ht => full t (List.mem_cons_of_mem _ ht))
  | stop unfit => exact absurd (full _ (List.mem_cons_self ..)) unfit

end

/-! ## trees -/

/-- Parts with their types in the table. -/
def Knows (m : Machine σ) (ns : List Tree) : Prop :=
  ∀ n ∈ ns, HasTyping m.registry n (m.types.typing n.id)

theorem Knows.append {ms ns : List Tree} (h : m.Knows (ms ++ ns)) : m.Knows ms ∧ m.Knows ns :=
  List.forall_mem_append.1 h

/-- The table has the types of a derivation. -/
theorem Knows.typing {t : Tree} {ty : Typing} {ns : List Tree} (h : m.Knows (t :: ns))
    (ht : HasTyping m.registry t ty) : m.types.typing t.id = ty :=
  (h t (List.mem_cons_self ..)).unique ht

theorem Knows.below {t : Tree} {ns : List Tree} (h : m.Knows (t :: ns)) : m.Knows ns :=
  (List.forall_mem_cons.1 h).2

/-- Parts with their types in the table, and calls with all their arguments. -/
def Accepts (m : Machine σ) (ns : List Tree) : Prop :=
  ∀ n ∈ ns, HasTyping m.registry n (m.types.typing n.id) ∧ n.FullCall m.registry

theorem expected_eq {s : Signature} {i : Nat} (hi : i < s.parameters.length) :
    s.expected i = s.parameters[i].type := by
  unfold Signature.expected
  rw [List.getElem?_eq_getElem hi]
  rfl

mutual

/-- A typed tree leaves one value of its type, unless a call in it stops the run. -/
theorem course_schedule : ∀ {t : Tree} {ty : Typing} {S : List ValueType},
    HasTyping m.registry t ty → m.Knows t.nodes → m.Course t.schedule S (ty.result :: S)
  | .constant o v, _, S, .constant, h => by
    rw [Tree.nodes] at h
    rw [Tree.schedule]
    exact Course.node .nil (h.typing .constant) .constant
  | .reference o x, _, S, .reference declared, h => by
    rw [Tree.nodes] at h
    rw [Tree.schedule]
    exact Course.node .nil (h.typing (.reference declared)) (.reference declared)
  | .group o x, _, S, .group inner, h => by
    rw [Tree.nodes] at h
    rw [Tree.schedule]
    exact (course_schedule inner h.below).node (h.typing (.group inner)) .group
  | .cast o target x, _, S, .cast operand casts, h => by
    rw [Tree.nodes] at h
    rw [Tree.schedule]
    exact (course_schedule operand h.below).node (h.typing (.cast operand casts)) (.cast casts)
  | .unary o op x, _, S, .unary operand rule, h => by
    rw [Tree.nodes] at h
    have htyping := h.typing (.unary operand rule)
    rw [Tree.schedule]
    exact (course_schedule operand h.below).node htyping
      (.unary rule (congrArg Typing.operand htyping))
  | .choice o c y n, _, S, .choice condition yes no truth rule, h => by
    rw [Tree.nodes] at h
    have htyping := h.typing (.choice condition yes no truth rule)
    obtain ⟨hcy, hn⟩ := h.below.append
    obtain ⟨hc, hy⟩ := hcy.append
    rw [Tree.schedule]
    have hcondition := course_schedule (S := S) condition hc
    have hbelow : m.Course _ S _ :=
      (hcondition.append (course_schedule yes hy)).append (course_schedule no hn)
    exact hbelow.node htyping (.choice truth rule (congrArg Typing.result htyping))
  | .binary o op l x, _, S, .operate plain left right rule, h => by
    rw [Tree.nodes] at h
    have htyping := h.typing (.operate plain left right rule)
    obtain ⟨hl, hx⟩ := h.below.append
    rw [Tree.schedule, if_neg (by rw [plain]; exact Bool.false_ne_true)]
    have hbelow : m.Course _ S _ := (course_schedule left hl).append (course_schedule right hx)
    have hoperand : m.types.operand o.id = (infixTyping op _).operand :=
      congrArg Typing.operand htyping
    rw [infixTyping_operand] at hoperand
    exact hbelow.node htyping (.operate plain rule hoperand)
  | .binary o op (.reference o' target) x, _, S,
    .assign assigns declared writable value rule, h => by
    rw [Tree.nodes] at h
    have htyping := h.typing (.assign assigns declared writable value rule)
    obtain ⟨-, hx⟩ := h.below.append
    rw [Tree.schedule, if_pos assigns]
    exact (course_schedule value hx).node htyping
      (.assign assigns declared rule (congrArg Typing.operand htyping))
  | .call o f args, _, S, .call declared passed, h => by
    rw [Tree.nodes] at h
    have htyping := h.typing (.call declared passed)
    rw [Tree.schedule]
    obtain ⟨as, hlength, hfits, hcourse⟩ := course_arguments passed h.below
    by_cases hfull : (Tree.call o f args).FullCall m.registry
    · obtain ⟨s', hs', hcount⟩ := hfull
      rw [declared] at hs'
      cases hs'
      exact hcourse.node htyping
        (.call declared (hfits (by rw [Nat.zero_add]; exact hcount)) hlength.symm)
    · exact hcourse.append (.stop hfull)

/-- Arguments leave one value each, and those of a full call have types that convert. -/
theorem course_arguments : ∀ {s : Signature} {i : Nat} {args : List Tree} {S : List ValueType},
    HasArguments m.registry s i args → m.Knows (Tree.nodesOfAll args) →
    ∃ as : List ValueType, as.length = args.length ∧
      (i + args.length = s.arity →
        List.Forall₂ (fun a p => a.castsTo p.type = true) as (s.parameters.drop i)) ∧
      m.Course (scheduleAll args) S (as.reverse ++ S)
  | s, i, [], S, .nil, _ => by
    rw [scheduleAll]
    refine ⟨[], rfl, fun hcount => ?_, .nil⟩
    have hdrop : s.parameters.drop i = [] := List.drop_eq_nil_of_le (Nat.le_of_eq hcount.symm)
    rw [hdrop]
    exact .nil
  | s, i, arg :: args, S, @HasArguments.cons _ _ _ _ _ ty first casts rest, h => by
    rw [Tree.nodesOfAll] at h
    obtain ⟨hfirst, hrest⟩ := h.append
    obtain ⟨as, hlength, hfits, hcourse⟩ := course_arguments rest hrest
    refine ⟨ty.result :: as, ?_, fun hcount => ?_, ?_⟩
    · rw [List.length_cons, List.length_cons, hlength]
    · rw [List.length_cons] at hcount
      have hi : i < s.parameters.length := by
        unfold Signature.arity at hcount
        omega
      rw [expected_eq hi] at casts
      rw [List.drop_eq_getElem_cons hi]
      exact .cons casts (hfits (by omega))
    · rw [scheduleAll, List.reverse_cons, List.append_assoc]
      exact (course_schedule first hfirst).append hcourse

end

/-- A typed tree whose calls are full leaves one value of its type. -/
theorem flow_schedule {t : Tree} {ty : Typing} {S : List ValueType}
    (ht : HasTyping m.registry t ty) (h : m.Accepts t.nodes) :
    m.Flow t.schedule S (ty.result :: S) :=
  (course_schedule ht fun n hn => (h n hn).1).flow fun n hn =>
    (h n (Tree.mem_nodes_of_mem_schedule hn)).2

/-! ## runs -/

section
variable {t : Tree} {ts : List Tree} {s s' : ValueStack} {w w' : World σ} {S T : List ValueType}

theorem run_cons_ok (h : (m.step t s w).1 = .ok s') :
    m.run (t :: ts) s w = m.run ts s' (m.step t s w).2 := by
  have hstep : m.step t s w = (.ok s', (m.step t s w).2) := Prod.ext h rfl
  rw [run, hstep]

theorem run_cons_error {e : EvalError} (h : (m.step t s w).1 = .error e) :
    m.run (t :: ts) s w = (.error e, (m.step t s w).2) := by
  have hstep : m.step t s w = (.error e, (m.step t s w).2) := Prod.ext h rfl
  rw [run, hstep]

/-- A run has the effect of its parts, or fails for an expected reason. -/
theorem run_safe (h : m.Flow ts S T) (hs : s.map Value.type = S) :
    Safely (m.run ts s w).1 fun s' => s'.map Value.type = T := by
  induction h generalizing s w with
  | nil => exact .ok hs
  | cons part _ ih =>
    rcases step_safe part hs with ⟨s', hstep, hs'⟩ | ⟨e, hstep, he⟩
    · rw [run_cons_ok hstep]
      exact ih hs'
    · rw [run_cons_error hstep]
      exact .error he

/-- All calls of a run pass what their functions declare. -/
theorem run_calls (h : m.Flow ts S T) (hs : s.map Value.type = S)
    (hw : ∀ c ∈ w.calls, c.Fits m.registry) :
    ∀ c ∈ (m.run ts s w).2.calls, c.Fits m.registry := by
  induction h generalizing s w with
  | nil => exact hw
  | cons part _ ih =>
    have hcalls := step_calls part hs hw
    rcases step_safe part hs with ⟨s', hstep, hs'⟩ | ⟨e, hstep, -⟩
    · rw [run_cons_ok hstep]
      exact ih hs' hcalls
    · rw [run_cons_error hstep]
      exact hcalls

end

/-! ## evaluation -/

section
variable {t : Tree} {ty : Typing} {w : World σ}

theorem toggled?_ok {r : Registry} {x : VarId} {v : Variable} (h : toggled? r t = some (x, v)) :
    (∃ o, t = .reference o x) ∧ r.variableAt? x = some v ∧ v.type = .bool := by
  unfold toggled? at h
  split at h
  · obtain ⟨y, hy, h⟩ := Option.bind_eq_some_iff.1 h
    obtain ⟨u, hu, h⟩ := Option.bind_eq_some_iff.1 h
    split at h
    · rename_i hbool
      cases h
      exact ⟨singleVariable?_eq_some hy, hu, hbool.1⟩
    · cases h
  · cases h

theorem toggle_safe {o : Origin} {x : VarId} {v : Variable} :
    Safely (toggle o x v w).1 fun u => u.type = .bool := by
  unfold toggle
  rcases @readBinding_safe σ o w.state x v with ⟨u, hu, -⟩ | ⟨e, he, hx⟩
  · rw [hu]
    exact .ok rfl
  · rw [he]
    exact .error hx

theorem toggle_calls {o : Origin} {x : VarId} {v : Variable} :
    (toggle o x v w).2.calls = w.calls := by
  unfold toggle
  split
  · rfl
  · rfl

theorem result_safe {s : ValueStack} {a : ValueType} (h : s.map Value.type = [a]) :
    Safely (result t s) fun v => v.type = a := by
  obtain ⟨v, rfl, hv⟩ := List.map_eq_singleton_iff.1 h
  exact .ok hv

theorem evaluate_eq_run (h : toggled? m.registry t = none) :
    m.evaluate t w = ((m.run t.schedule [] w).1 >>= result t, (m.run t.schedule [] w).2) := by
  unfold evaluate
  rw [h]
  dsimp only
  split
  · rename_i s w' hrun
    rw [hrun]
    rfl
  · rename_i e w' hrun
    rw [hrun]
    rfl

/-- A typed tree has a value of its type, or fails for an expected reason. -/
theorem evaluate_safe (ht : HasTyping m.registry t ty) (h : m.Accepts t.nodes) :
    Safely (m.evaluate t w).1 fun v => v.type = ty.result := by
  cases htoggle : toggled? m.registry t with
  | none =>
    rw [evaluate_eq_run htoggle]
    exact (run_safe (flow_schedule ht h) rfl).bind fun s hs => result_safe hs
  | some p =>
    obtain ⟨⟨o, rfl⟩, hv, hbool⟩ := toggled?_ok htoggle
    have hty : ty.result = .bool := by
      rw [ht.unique (.reference hv)]
      exact hbool
    unfold evaluate
    rw [htoggle, hty]
    exact toggle_safe

theorem evaluate_calls (ht : HasTyping m.registry t ty) (h : m.Accepts t.nodes)
    (hw : ∀ c ∈ w.calls, c.Fits m.registry) :
    ∀ c ∈ (m.evaluate t w).2.calls, c.Fits m.registry := by
  cases htoggle : toggled? m.registry t with
  | none =>
    rw [evaluate_eq_run htoggle]
    exact run_calls (flow_schedule ht h) rfl hw
  | some p =>
    unfold evaluate
    rw [htoggle]
    dsimp only
    rw [toggle_calls]
    exact hw

/-- A part was executed in the run of a tree, and left this stack. -/
def Executed (m : Machine σ) (root : Tree) (w₀ : World σ) (t : Tree) (s' : ValueStack) : Prop :=
  ∃ before after s w w', root.schedule = before ++ t :: after ∧
    m.run before [] w₀ = (.ok s, w) ∧ m.step t s w = (.ok s', w')

/-- Every executed part has left a value of its own type on top. -/
theorem executed_result {part : Tree} {s' : ValueStack} (ht : HasTyping m.registry t ty)
    (h : m.Accepts t.nodes) (hexec : m.Executed t w part s') :
    ∃ v below, s' = v :: below ∧ v.type = m.types.result part.id := by
  obtain ⟨before, after, s, w₁, w₂, hschedule, hrun, hstep⟩ := hexec
  have hflow : m.Flow t.schedule [] [ty.result] := flow_schedule ht h
  rw [hschedule] at hflow
  obtain ⟨T, hbefore, hrest⟩ := hflow.split
  have hs : s.map Value.type = T := by
    have hsafe : Safely (m.run before [] w).1 fun s => s.map Value.type = T :=
      run_safe hbefore rfl
    rw [hrun] at hsafe
    exact hsafe.of_ok
  cases hrest with
  | cons hpart _ =>
    have hsafe : Safely (m.step part s w₁).1 fun s' =>
        s'.map Value.type = m.types.result part.id :: _ := step_safe hpart hs
    rw [hstep] at hsafe
    obtain ⟨v, below, rfl, hv, -⟩ := List.map_eq_cons_iff.1 hsafe.of_ok
    exact ⟨v, below, rfl, hv⟩

end

end Machine
end ExprEngine
