import ExprEngine.Proofs.Machine.Causes

/-!
# Bound states

A state is bound if every variable holds a value that converts to the type it is declared with. Only
reading a variable that does not can fail for its binding. Steps keep states bound, callbacks apart,
as long as they assign only to variables whose values suit all that share the cell.

* `State.Bound`          every variable can be read;
* `State.Suits`          a variable whose values suit all variables of its cell;
* `EvalCause.IsBinding`  a failure to read a variable;
* `step_bound`           a step keeps a state bound;
* `run_unbinding`        a run from a bound state does not fail to read.
-/

namespace ExprEngine

variable {σ : Type} {r : Registry} {x y : VarId}

/-- A state in which every declared variable holds a value that converts to its type. -/
def State.Bound (r : Registry) (s : State σ) : Prop :=
  ∀ x v, r.variableAt? x = some v → (s.value x).type.castsTo v.type = true

/-- A variable whose values, once they are of its declared type, can be read from every variable
that shares its cell. -/
def State.Suits (r : Registry) (s : State σ) (y : VarId) : Prop :=
  ∀ x v w, s.Shares x y → r.variableAt? x = some v → r.variableAt? y = some w →
    w.type.castsTo v.type = true

theorem State.suits_congr {s s' : State σ} (h : s'.places = s.places) :
    s'.Suits r y ↔ s.Suits r y := by
  unfold Suits
  simp only [shares_congr h]

/-- A variable with a cell of its own suits all that share it. -/
theorem State.suits_of_alone {s : State σ}
    (h : ∀ x v, r.variableAt? x = some v → s.Shares x y → x = y) : s.Suits r y := by
  intro x v w hshares hv hw
  rw [h x v hv hshares, hw] at hv
  cases hv
  exact ValueType.castsTo_self _

/-- A failure to read a variable in its declared type. -/
def EvalCause.IsBinding : EvalCause → Prop
  | .bindingType _ _ _ => True
  | _ => False

/-- Not a failure to read a variable. -/
def Unbinding (c : EvalCause) : Prop := ¬ c.IsBinding

theorem unbinding_ofOperator {c : EvalCause} (h : c.OfOperator) : Unbinding c := by
  cases c with
  | bindingType => exact h.elim
  | _ => exact not_false

theorem causes_unbinding : Causes r Unbinding where
  operator _ := unbinding_ofOperator
  missingContext := not_false
  unbalancedStack _ := not_false
  valueOverflow _ := not_false
  noValue := not_false
  returnType _ _ _ _ _ := not_false

theorem State.Bound.reads {s : State σ} (h : s.Bound r) : s.Reads r Unbinding := by
  intro x v hv o
  obtain ⟨u, hu, -⟩ := Value.cast?_of_castsTo (h x v hv)
  unfold Machine.readBinding
  rw [hu]
  exact .ok _

namespace Machine

variable {m : Machine σ} {t : Tree} {ts : List Tree} {s : ValueStack} {o : Origin}

/-- A step keeps a state bound unless its callback writes a variable, or it assigns to a variable
that does not suit those of its cell. -/
theorem step_bound {w : World σ} (h : w.state.Bound m.registry) (own : ∀ x, ¬ m.Sets t s w x)
    (hsuits : ∀ y, t.target? = some y → w.state.Suits m.registry y) :
    (m.step t s w).2.state.Bound m.registry := by
  intro x v hv
  rcases m.step_value t s w x with hsame | ⟨y, htarget, hshares, u, hu, hnew⟩ | hsets
  · rw [hsame]
    exact h x v hv
  · rw [hnew]
    exact hsuits y htarget x v u hshares hv hu
  · exact absurd hsets (own x)

section

variable {w : World σ} (h : w.state.Bound m.registry) (own : ∀ x, ¬ m.HostSets ts s w x)
  (hsuits : ∀ y ∈ ts.filterMap Tree.target?, w.state.Suits m.registry y)
include own hsuits

theorem Comes.step_bound {u : Tree} {s' : ValueStack} {w' : World σ} (hu : m.Comes ts s w u s' w')
    (hw' : w'.state.Bound m.registry) : (m.step u s' w').2.state.Bound m.registry := by
  refine Machine.step_bound hw' (fun x hx => own x ⟨u, s', w', hu, hx⟩) fun y hy => ?_
  rw [State.suits_congr hu.places]
  exact hsuits y (List.mem_filterMap.2 ⟨u, hu.mem, hy⟩)

include h

theorem run_bound : (m.run ts s w).2.state.Bound m.registry :=
  run_invariant (I := fun w' => w'.state.Bound m.registry) h fun _ _ _ =>
    Comes.step_bound own hsuits

/-- A run from a bound state in which no callback writes a variable, and no assignment one that
does not suit those of its cell, reads all that it needs. -/
theorem run_unbinding : Fails Unbinding (m.run ts s w).1 :=
  run_fails (I := fun w' => w'.state.Bound m.registry) causes_unbinding h (fun _ hw' => hw'.reads)
    fun _ _ _ => Comes.step_bound own hsuits

end

/-! ## the interactive shortcut -/

theorem toggle_bound {w : World σ} {v : Variable} (h : w.state.Bound r)
    (hv : r.variableAt? x = some v) (hbool : v.type = .bool) (hsuits : w.state.Suits r x) :
    (toggle o x v w).2.state.Bound r := by
  intro y u hu
  by_cases hy : w.state.Shares y x
  · rcases toggle_value (o := o) (v := v) hy with hsame | hnew
    · rw [hsame]
      exact h y u hu
    · rw [hnew, ← hbool]
      exact hsuits y u v hy hu hv
  · rw [toggle_value_of_not_shares hy]
    exact h y u hu

/-! ## evaluations -/

section

variable {w : World σ} (h : w.state.Bound m.registry)
  (own : ∀ x, ¬ m.HostSets t.schedule [] w x)
  (hsuits : ∀ y ∈ t.schedule.filterMap Tree.target?, w.state.Suits m.registry y)
include h own hsuits

theorem evaluate_bound (htoggled : ∀ y v, toggled? m.registry t = some (y, v) →
    w.state.Suits m.registry y) : (m.evaluate t w).2.state.Bound m.registry := by
  cases htoggle : toggled? m.registry t with
  | none =>
    rw [evaluate_eq_run htoggle]
    exact run_bound h own hsuits
  | some p =>
    obtain ⟨-, hv, hbool⟩ := toggled?_ok htoggle
    unfold evaluate
    rw [htoggle]
    exact toggle_bound h hv hbool (htoggled p.1 p.2 htoggle)

theorem evaluate_unbinding : Fails Unbinding (m.evaluate t w).1 :=
  evaluate_fails causes_unbinding h.reads (run_unbinding h own hsuits)

end

end Machine
end ExprEngine
