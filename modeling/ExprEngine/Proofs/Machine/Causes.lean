import ExprEngine.Proofs.Machine.Failure
import ExprEngine.Proofs.Machine.Frame

/-!
# The causes of an evaluation

Whatever a run fails for was noticed by one of its steps. A set of causes with those of operators,
of the stack and of what functions return is left by a step only where it reads a variable.

* `Causes`            a set of causes that only the reading of a variable leaves;
* `State.Reads`       a state whose variables are read within the set;
* `step_fails`        a step from such a state stays within it, and fails at its part;
* `run_ends`          a run has the errors of its parts;
* `run_fails`         it stays within the set while it comes to such states only;
* `evaluate_fails`    so does the evaluation.
-/

namespace ExprEngine

variable {σ : Type} {r : Registry} {P : EvalCause → Prop} {x : VarId}

/-- A set of causes with all those that steps and results have, but the reading of a variable. -/
structure Causes (r : Registry) (P : EvalCause → Prop) : Prop where
  operator : ∀ c : EvalCause, c.OfOperator → P c
  missingContext : P .missingContext
  unbalancedStack : ∀ n, P (.unbalancedStack n)
  valueOverflow : ∀ n, P (.valueOverflow n)
  noValue : P .noValue
  returnType : ∀ f sig a b, r.functionAt? f = some sig → P (.returnType sig.name a b)

namespace Causes

variable {α : Type} {o : Origin} (h : Causes r P)
include h

theorem unchecked : P .uncheckedOperand := h.operator _ trivial

theorem pop {s : ValueStack} : FailsAt o P (Machine.pop o s) := Machine.pop_fails h.unbalancedStack

theorem convert {v : Value} {t : ValueType} : FailsAt o P (Machine.convert o v t) :=
  Machine.convert_fails h.unchecked

theorem located {x : Except EvalCause α} (hx : Confined x) : FailsAt o P (Machine.located o x) :=
  Machine.located_fails hx h.operator

end Causes

/-- A state whose declared variables are read within a set of causes. -/
def State.Reads (r : Registry) (P : EvalCause → Prop) (s : State σ) : Prop :=
  ∀ x v, r.variableAt? x = some v →
    ∀ o, FailsAt o P (Machine.located o (Machine.readBinding s x v))

namespace Machine

variable {m : Machine σ} {t : Tree} {ts : List Tree} {s : ValueStack} {o : Origin}

/-! ## the parts of a step -/

theorem compute_fails {w : State σ} (hP : Causes m.registry P) (hw : w.Reads m.registry P) :
    FailsAt t.origin P (m.compute w t s) := by
  unfold compute
  split
  · refine (declared_fails hP.missingContext).bind fun v hv => ?_
    exact (hw _ v (declared_ok hv) _).bind fun _ _ => .ok _
  · exact hP.pop.bind fun _ _ => hP.convert.bind fun _ _ => .ok _
  · exact hP.pop.bind fun _ _ => hP.convert.bind fun _ _ =>
      (hP.located (UnaryOp.apply_confined _ _)).bind fun _ _ => .ok _
  · exact hP.pop.bind fun _ _ => hP.pop.bind fun _ _ => hP.pop.bind fun cond _ =>
      (hP.located cond.1.truth_confined).bind fun _ _ => hP.convert.bind fun _ _ => .ok _
  · exact hP.pop.bind fun _ _ => hP.pop.bind fun _ _ =>
      (hP.located (LogicOp.apply_confined _ _ _)).bind fun _ _ => .ok _
  · exact hP.pop.bind fun _ _ => hP.pop.bind fun _ _ => hP.convert.bind fun _ _ =>
      hP.convert.bind fun _ _ =>
        (hP.located (BinaryOp.apply_confined _ _ _)).bind fun _ _ => .ok _
  · exact .ok _
  · exact .error hP.unchecked

theorem stored_fails {w : State σ} {op : BinaryOp} {v : Variable} {u : Value}
    (hP : Causes m.registry P) (hw : w.Reads m.registry P)
    (hv : m.registry.variableAt? x = some v) : FailsAt o P (m.stored o op x v u w) := by
  unfold stored
  split
  · exact (hw x v hv o).bind fun _ _ => hP.convert.bind fun _ _ => hP.convert.bind fun _ _ =>
      (hP.located (BinaryOp.apply_confined _ _ _)).bind fun _ _ => hP.convert
  · exact hP.convert

theorem assignment_fails {w : State σ} {op : BinaryOp} {l : Tree} (hP : Causes m.registry P)
    (hw : w.Reads m.registry P) : FailsAt o P (m.assignment w o op l s) := by
  cases s with
  | nil => exact .error (hP.unbalancedStack 0)
  | cons u s =>
    cases l with
    | reference o' y =>
      rw [assignment_reference]
      exact (declared_fails hP.missingContext).bind fun v hv =>
        (stored_fails hP hw (declared_ok hv)).bind fun _ _ => .ok _
    | _ => exact .error hP.unchecked

theorem arguments_fails {f : FuncId} {count : Nat} (hP : Causes m.registry P) :
    FailsAt o P (m.arguments o f count s) := by
  unfold arguments
  refine (popMany_fails hP.unbalancedStack).bind fun p _ => ?_
  dsimp only
  split
  · exact .error hP.missingContext
  · split
    · exact .error hP.unchecked
    · exact (convertArguments_fails hP.unchecked).bind fun _ _ => .ok _

/-- The arguments of a call are those of a declared function. -/
theorem arguments_declared {f : FuncId} {count : Nat} {sig : Signature} {args : List Value}
    {below : ValueStack} (h : m.arguments o f count s = .ok (sig, args, below)) :
    m.registry.functionAt? f = some sig := by
  obtain ⟨p, -, h⟩ := bind_eq_ok.1 h
  dsimp only at h
  split at h
  · cases h
  · rename_i sig' hsig
    split at h
    · cases h
    · obtain ⟨args', -, h⟩ := bind_eq_ok.1 h
      cases h
      exact hsig

theorem perform_fails {w : World σ} (hP : Causes m.registry P)
    (hw : w.state.Reads m.registry P) : FailsAt t.origin P (m.perform t s w).1 := by
  have hcompute : FailsAt t.origin P (m.compute w.state t s) := compute_fails hP hw
  cases t with
  | call o f args =>
    have hargs : FailsAt o P (m.arguments o f args.length s) := arguments_fails hP
    unfold perform
    dsimp only
    cases hp : m.arguments o f args.length s with
    | error e => exact hargs.of_error hp
    | ok p =>
      have hreturned : FailsAt o P (returned o p.1 (m.reply f p.2.1 w.state).value) :=
        returned_fails fun a b => hP.returnType f p.1 a b (arguments_declared hp)
      exact hreturned.map fun _ _ => trivial
  | binary o op l x =>
    unfold perform
    dsimp only
    by_cases hop : op.isAssignment = true
    · rw [if_pos hop]
      have hassign : FailsAt o P (m.assignment w.state o op l s) := assignment_fails hP hw
      cases hp : m.assignment w.state o op l s with
      | error e => exact hassign.of_error hp
      | ok p => exact .ok _
    · rw [if_neg hop]
      exact hcompute
  | _ => exact hcompute

/-- A step fails at its part, for a cause of the set if its variables are read within it. -/
theorem step_fails {w : World σ} (hP : Causes m.registry P) (hw : w.state.Reads m.registry P) :
    FailsAt t.origin P (m.step t s w).1 := by
  cases ht : t.passes with
  | true =>
    rw [step_of_passes ht]
    exact .ok _
  | false =>
    rw [step_eq_perform ht]
    exact (perform_fails hP hw).bind fun _ _ => push_fails hP.valueOverflow

/-! ## runs -/

/-- A run has the errors of the parts that are executed in it. -/
theorem run_ends {E : EvalError → Prop} {I : World σ → Prop} {w : World σ} (hw : I w)
    (part : ∀ u s' w', m.Comes ts s w u s' w' → I w' →
      Ends E (fun _ => True) (m.step u s' w').1 ∧ I (m.step u s' w').2) :
    Ends E (fun _ => True) (m.run ts s w).1 := by
  induction ts generalizing s w with
  | nil => trivial
  | cons t ts ih =>
    obtain ⟨hfirst, hnext⟩ := part t s w .first hw
    cases hstep : (m.step t s w).1 with
    | error e =>
      rw [run_cons_error hstep]
      exact hfirst.of_error hstep
    | ok s' =>
      rw [run_cons_ok hstep]
      exact ih hnext fun u s₂ w₂ hu => part u s₂ w₂ (hu.later hstep)

/-- A run stays within the set if the states that it comes to are read within it. -/
theorem run_fails {I : World σ → Prop} {w : World σ} (hP : Causes m.registry P) (hw : I w)
    (reads : ∀ w', I w' → w'.state.Reads m.registry P)
    (keeps : ∀ u s' w', m.Comes ts s w u s' w' → I w' → I (m.step u s' w').2) :
    Fails P (m.run ts s w).1 := by
  have hrun : Ends (fun e => P e.cause) (fun _ => True) (m.run ts s w).1 := by
    refine run_ends hw fun u s' w' hu hw' => ⟨?_, keeps u s' w' hu hw'⟩
    refine (step_fails hP (reads w' hw')).mono ?_
    rintro _ ⟨cause, hcause, rfl⟩
    exact hcause
  exact fun e he => hrun.of_error he

theorem result_fails (hP : Causes r P) : Fails P (result t s) := by
  unfold result
  split
  · exact .error hP.noValue
  · exact .ok
  · exact .error (hP.unbalancedStack _)

theorem toggle_fails {w : World σ} {v : Variable} (hw : w.state.Reads r P)
    (hv : r.variableAt? x = some v) : FailsAt o P (toggle o x v w).1 := by
  have hread : FailsAt o P (located o (readBinding w.state x v)) := hw x v hv o
  unfold toggle
  split
  · rename_i e he
    exact hread.of_error he
  · exact .ok _

/-- An evaluation fails for a cause of the set if its run does and its first state is read within
it. -/
theorem evaluate_fails {w : World σ} (hP : Causes m.registry P)
    (hw : w.state.Reads m.registry P) (hrun : Fails P (m.run t.schedule [] w).1) :
    Fails P (m.evaluate t w).1 := by
  cases htoggle : toggled? m.registry t with
  | none =>
    rw [evaluate_eq_run htoggle]
    exact hrun.bind fun _ _ => result_fails hP
  | some p =>
    obtain ⟨-, hv, -⟩ := toggled?_ok htoggle
    unfold evaluate
    rw [htoggle]
    exact (toggle_fails hw hv).fails

end Machine
end ExprEngine
