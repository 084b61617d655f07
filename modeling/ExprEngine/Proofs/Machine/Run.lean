import ExprEngine.Proofs.Machine.Flow
import ExprEngine.Proofs.Tree

/-!
# Steps and runs, types apart

A step first performs its part, which alone may change the world, and then pushes the value. The
bound on the stack matters only to the push.

* `perform`            a part without the push of its value;
* `step_eq_perform`    a step as the one after the other;
* `Acts`               all that a part may do to the world;
* `step_acts`          a step does one of these things;
* `Overflows`          a failure for want of room;
* `run_widen`          more room changes nothing in a run that had enough;
* `evaluate_widen`     nor in an evaluation;
* `Comes`              a part that is executed in a run, with the stack and the world before it;
* `run_invariant`      what the executed parts keep, the run keeps.
-/

namespace ExprEngine

/-- Whether a part leaves the stack as it is. -/
def Tree.passes : Tree → Bool
  | .hole => true
  | .group _ _ => true
  | _ => false

namespace Machine

variable {σ : Type} {m : Machine σ} {t : Tree} {ts : List Tree} {s s' : ValueStack}
  {w w' : World σ}

/-! ## a step -/

/-- A part without the push of its value: the value, the stack below it, and the world after. -/
def perform (m : Machine σ) (t : Tree) (s : ValueStack) (w : World σ) :
    Except EvalError (Value × ValueStack) × World σ :=
  match t with
  | .call o f args =>
    match m.arguments o f args.length s with
    | .error e => (.error e, w)
    | .ok (sig, args, s) =>
      let reply := m.reply f args w.state
      ((returned o sig reply.value).map fun v => (v, s),
        ⟨w.state.afterReply m.registry reply, w.calls ++ [⟨f, args⟩]⟩)
  | .binary o op l x =>
    if op.isAssignment then
      match m.assignment w.state o op l s with
      | .error e => (.error e, w)
      | .ok (x, v, s) => (.ok (v, s), { w with state := w.state.store x v })
    else (m.compute w.state (.binary o op l x) s, w)
  | t => (m.compute w.state t s, w)

theorem step_of_passes (h : t.passes = true) : m.step t s w = (.ok s, w) := by
  cases t with
  | hole => rfl
  | group => rfl
  | _ => cases h

theorem step_eq_perform (h : t.passes = false) :
    m.step t s w =
      ((m.perform t s w).1 >>= fun p => m.push t.origin p.1 p.2, (m.perform t s w).2) := by
  cases t with
  | hole => cases h
  | group => cases h
  | call o f args =>
    unfold step perform
    dsimp only
    cases m.arguments o f args.length s with
    | error e => rfl
    | ok p =>
      dsimp only
      cases returned o p.1 (m.reply f p.2.1 w.state).value <;> rfl
  | binary o op l x =>
    unfold step perform
    dsimp only
    by_cases hop : op.isAssignment = true
    · rw [if_pos hop, if_pos hop]
      cases m.assignment w.state o op l s <;> rfl
    · rw [if_neg hop, if_neg hop]
      rfl
  | _ => rfl

theorem push_eq_ok {o : Origin} {v : Value} :
    m.push o v s = .ok s' ↔ s.length < m.maxValues ∧ s' = v :: s := by
  unfold push
  by_cases h : m.maxValues ≤ s.length
  · rw [if_pos h]
    exact ⟨nofun, fun hs => absurd hs.1 (by omega)⟩
  · rw [if_neg h]
    constructor
    · intro hs
      exact ⟨by omega, (Except.ok.inj hs).symm⟩
    · rintro ⟨-, rfl⟩
      rfl

/-- A stack within its bound stays within it. -/
theorem length_step (h : (m.step t s w).1 = .ok s') (hs : s.length ≤ m.maxValues) :
    s'.length ≤ m.maxValues := by
  cases ht : t.passes with
  | true =>
    rw [step_of_passes ht] at h
    cases h
    exact hs
  | false =>
    rw [step_eq_perform ht] at h
    obtain ⟨p, -, hp⟩ := bind_eq_ok.1 h
    obtain ⟨hlt, rfl⟩ := push_eq_ok.1 hp
    rw [List.length_cons]
    omega

/-! ## what parts do to the world -/

/-- All that a part may do to the world: nothing, one write, or one call with what its callback
does. -/
inductive Acts (m : Machine σ) (s : ValueStack) (w : World σ) : Tree → World σ → Prop
  | still {t : Tree} : Acts m s w t w
  | write {o : Origin} {op : BinaryOp} {l x : Tree} {target : VarId} {v : Value}
      {below : ValueStack} (assigns : op.isAssignment = true)
      (stored : m.assignment w.state o op l s = .ok (target, v, below)) :
      Acts m s w (.binary o op l x) { w with state := w.state.store target v }
  | call {o : Origin} {f : FuncId} {args : List Tree} {sig : Signature} {values : List Value}
      {below : ValueStack} (passed : m.arguments o f args.length s = .ok (sig, values, below)) :
      Acts m s w (.call o f args)
        ⟨w.state.afterReply m.registry (m.reply f values w.state), w.calls ++ [⟨f, values⟩]⟩

theorem perform_acts (m : Machine σ) (t : Tree) (s : ValueStack) (w : World σ) :
    m.Acts s w t (m.perform t s w).2 := by
  cases t with
  | call o f args =>
    unfold perform
    dsimp only
    cases hargs : m.arguments o f args.length s with
    | error e => exact .still
    | ok p => exact .call hargs
  | binary o op l x =>
    unfold perform
    dsimp only
    by_cases hop : op.isAssignment = true
    · rw [if_pos hop]
      cases hassign : m.assignment w.state o op l s with
      | error e => exact .still
      | ok p => exact .write hop hassign
    · rw [if_neg hop]
      exact .still
  | _ => exact .still

theorem step_acts (m : Machine σ) (t : Tree) (s : ValueStack) (w : World σ) :
    m.Acts s w t (m.step t s w).2 := by
  cases ht : t.passes with
  | true =>
    rw [step_of_passes ht]
    exact .still
  | false =>
    rw [step_eq_perform ht]
    exact perform_acts m t s w

/-! ## room -/

/-- A failure for want of room on the stack. -/
def Overflows {α : Type} (x : Except EvalError α) : Prop :=
  ∃ e max, x = .error e ∧ e.cause = .valueOverflow max

theorem Overflows.bind {α β : Type} {x : Except EvalError α} {f : α → Except EvalError β}
    (h : Overflows x) : Overflows (x >>= f) := by
  obtain ⟨e, max, rfl, he⟩ := h
  exact ⟨e, max, rfl, he⟩

/-- The machine with another bound on its stack. -/
def widen (m : Machine σ) (n : Nat) : Machine σ := { m with maxValues := n }

theorem perform_widen (n : Nat) : (m.widen n).perform t s w = m.perform t s w := by
  cases t with
  | binary o op l x => cases op <;> rfl
  | _ => rfl

theorem push_widen {n : Nat} (hn : m.maxValues ≤ n) {o : Origin} {v : Value}
    (h : ¬ Overflows (m.push o v s)) : (m.widen n).push o v s = m.push o v s := by
  by_cases hs : m.maxValues ≤ s.length
  · have hpush : m.push o v s = .error (o.evalError (.valueOverflow m.maxValues)) := if_pos hs
    exact absurd ⟨_, _, hpush, rfl⟩ h
  · have hpush : m.push o v s = .ok (v :: s) := if_neg hs
    rw [hpush]
    exact push_eq_ok.2 ⟨show s.length < n by omega, rfl⟩

theorem step_widen {n : Nat} (hn : m.maxValues ≤ n) (h : ¬ Overflows (m.step t s w).1) :
    (m.widen n).step t s w = m.step t s w := by
  cases ht : t.passes with
  | true => rw [step_of_passes ht, step_of_passes ht]
  | false =>
    rw [step_eq_perform ht] at h
    rw [step_eq_perform ht, step_eq_perform ht, perform_widen]
    cases hp : (m.perform t s w).1 with
    | error e => rfl
    | ok p =>
      rw [hp] at h
      have hpush : (m.widen n).push t.origin p.1 p.2 = m.push t.origin p.1 p.2 := push_widen hn h
      exact congrArg (fun x => (x, (m.perform t s w).2)) hpush

/-- A run that did not want for room goes the same way with more of it. -/
theorem run_widen {n : Nat} (hn : m.maxValues ≤ n) (h : ¬ Overflows (m.run ts s w).1) :
    (m.widen n).run ts s w = m.run ts s w := by
  induction ts generalizing s w with
  | nil => rfl
  | cons t ts ih =>
    cases hstep : (m.step t s w).1 with
    | error e =>
      -- the run ends here, so the failure of the step is that of the run
      rw [run_cons_error hstep] at h ⊢
      have hsame : (m.widen n).step t s w = m.step t s w := step_widen hn (by rwa [hstep])
      rw [run_cons_error (by rw [hsame, hstep]), hsame]
    | ok s' =>
      rw [run_cons_ok hstep] at h ⊢
      have hroom : ¬ Overflows (m.step t s w).1 := by
        rw [hstep]
        rintro ⟨e, max, he, -⟩
        cases he
      have hsame : (m.widen n).step t s w = m.step t s w := step_widen hn hroom
      rw [run_cons_ok (by rw [hsame, hstep]), hsame]
      exact ih h

/-- An evaluation that did not want for room goes the same way with more of it. -/
theorem evaluate_widen {n : Nat} (hn : m.maxValues ≤ n) (h : ¬ Overflows (m.evaluate t w).1) :
    (m.widen n).evaluate t w = m.evaluate t w := by
  have hregistry : (m.widen n).registry = m.registry := rfl
  cases htoggled : toggled? m.registry t with
  | some p =>
    rw [evaluate, evaluate, hregistry, htoggled]
  | none =>
    have hrun : ¬ Overflows (m.run t.schedule [] w).1 := by
      intro hover
      rw [evaluate_eq_run htoggled] at h
      exact h hover.bind
    rw [evaluate_eq_run htoggled, evaluate_eq_run (hregistry ▸ htoggled), run_widen hn hrun]

/-! ## parts of a run -/

/-- A part that is executed in a run of some parts, with the stack and the world before it. -/
def Comes (m : Machine σ) (ts : List Tree) (s : ValueStack) (w : World σ) (t : Tree)
    (s' : ValueStack) (w' : World σ) : Prop :=
  ∃ before after, ts = before ++ t :: after ∧ m.run before s w = (.ok s', w')

theorem Comes.first : m.Comes (t :: ts) s w t s w := ⟨[], ts, rfl, rfl⟩

theorem Comes.later {u : Tree} {s₁ s₂ : ValueStack} {w₂ : World σ}
    (h : (m.step t s w).1 = .ok s₁) (hu : m.Comes ts s₁ (m.step t s w).2 u s₂ w₂) :
    m.Comes (t :: ts) s w u s₂ w₂ := by
  obtain ⟨before, after, rfl, hrun⟩ := hu
  refine ⟨t :: before, after, rfl, ?_⟩
  rw [run_cons_ok h, hrun]

theorem Comes.mem {u : Tree} (h : m.Comes ts s w u s' w') : u ∈ ts := by
  obtain ⟨before, after, rfl, -⟩ := h
  exact List.mem_append_right _ (List.mem_cons_self ..)

/-- What every executed part keeps holds at the end of a run, however it ends. -/
theorem run_invariant {I : World σ → Prop} (hw : I w)
    (part : ∀ u s' w', m.Comes ts s w u s' w' → I w' → I (m.step u s' w').2) :
    I (m.run ts s w).2 := by
  induction ts generalizing s w with
  | nil => exact hw
  | cons t ts ih =>
    have hfirst : I (m.step t s w).2 := part t s w .first hw
    cases hstep : (m.step t s w).1 with
    | error e =>
      rw [run_cons_error hstep]
      exact hfirst
    | ok s' =>
      rw [run_cons_ok hstep]
      exact ih hfirst fun u s₂ w₂ hu => part u s₂ w₂ (hu.later hstep)

theorem length_run (h : m.run ts s w = (.ok s', w')) (hs : s.length ≤ m.maxValues) :
    s'.length ≤ m.maxValues := by
  induction ts generalizing s w with
  | nil =>
    cases h
    exact hs
  | cons t ts ih =>
    cases hstep : (m.step t s w).1 with
    | error e =>
      rw [run_cons_error hstep] at h
      cases h
    | ok s₁ =>
      rw [run_cons_ok hstep] at h
      exact ih h (length_step hstep hs)

end Machine
end ExprEngine
