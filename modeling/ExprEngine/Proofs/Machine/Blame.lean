import ExprEngine.Proofs.Machine.Causes

/-!
# The part a failed run names

A step that fails names its own part, with its span. Only what concerns the whole names none, and
then the span is the extent of the whole.

* `Origin.Names`     a computation whose errors name one part;
* `step_names`       a step names its part;
* `run_names`        a run names one of its parts;
* `evaluate_names`   an evaluation names a part, or the whole.
-/

namespace ExprEngine

/-- A computation whose errors name a part. -/
def Origin.Names {α : Type} (o : Origin) : Except EvalError α → Prop :=
  Ends (fun e => ∃ cause, e = o.evalError cause) fun _ => True

theorem FailsAt.names {α : Type} {o : Origin} {P : EvalCause → Prop} {x : Except EvalError α}
    (h : FailsAt o P x) : o.Names x :=
  Ends.mono h fun _ ⟨cause, _, he⟩ => ⟨cause, he⟩

/-- Any cause will do to tell what names a part. -/
theorem causes_any {r : Registry} : Causes r fun _ => True where
  operator _ _ := trivial
  missingContext := trivial
  unbalancedStack _ := trivial
  valueOverflow _ := trivial
  noValue := trivial
  returnType _ _ _ _ _ := trivial

theorem State.reads_any {σ : Type} {r : Registry} (s : State σ) : s.Reads r fun _ => True :=
  fun _ _ _ _ => Machine.readBinding_fails fun _ _ => trivial

namespace Machine

variable {σ : Type} {m : Machine σ}

/-- A step that fails names its part. -/
theorem step_names (t : Tree) (s : ValueStack) (w : World σ) :
    t.origin.Names (m.step t s w).1 := (step_fails causes_any w.state.reads_any).names

/-- A run that fails names one of its parts. -/
theorem run_names (ts : List Tree) (s : ValueStack) (w : World σ) :
    Ends (fun e => ∃ t ∈ ts, ∃ cause, e = t.origin.evalError cause) (fun _ => True)
      (m.run ts s w).1 := by
  refine run_ends (I := fun _ => True) trivial fun u s' w' hu _ => ⟨?_, trivial⟩
  exact (step_names u s' w').mono fun e he => ⟨u, hu.mem, he⟩

/-- An evaluation that fails names a part of the tree with its span, or nothing with the extent of
the whole. -/
theorem evaluate_names (t : Tree) (w : World σ) :
    Ends (fun e => (∃ n ∈ t.nodes, ∃ cause, e = n.origin.evalError cause) ∨
      e.part = none ∧ e.span = t.extent) (fun _ => True) (m.evaluate t w).1 := by
  cases htoggle : toggled? m.registry t with
  | none =>
    rw [evaluate_eq_run htoggle]
    refine Ends.bind ((run_names t.schedule [] w).mono ?_) fun s _ _ => ?_
    · rintro e ⟨n, hn, he⟩
      exact .inl ⟨n, Tree.mem_nodes_of_mem_schedule hn, he⟩
    · unfold result
      split
      · exact .inr ⟨rfl, rfl⟩
      · trivial
      · exact .inr ⟨rfl, rfl⟩
  | some p =>
    obtain ⟨⟨o, rfl⟩, hv, -⟩ := toggled?_ok htoggle
    unfold evaluate
    rw [htoggle]
    exact (toggle_fails w.state.reads_any hv).names.mono fun e he =>
      .inl ⟨_, List.mem_singleton_self _, he⟩

end Machine
end ExprEngine
