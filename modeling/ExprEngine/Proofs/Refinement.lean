import ExprEngine.Proofs.Engine
import ExprEngine.Proofs.Machine.Callees
import ExprEngine.Proofs.Machine.Schedule

/-!
# A run computes the meaning of its expression

Where the interactive shortcut does not apply, the flat schedule of an expression and its recursive
meaning agree in everything that a host can observe.

* `Engine.Overflows`   a run that fails for want of room;
* `Expression.outcome` the outcome that the meaning of an expression promises;
* `Engine.Refines`     a run that agrees with the meaning of its expression;
* `run_refines`        every run that does not overflow does.
-/

namespace ExprEngine

variable {σ : Type} {r : Registry}

/-- A run that fails for want of room. -/
def Engine.Overflows (engine : Engine) (e : Expression) (c : Context σ) : Prop :=
  ∃ err max, (engine.run e c).result = .error (.eval err) ∧ err.cause = .valueOverflow max

/-- A run that agrees with the meaning of its expression: in its value or its error, in the state
that it leaves, and in its calls with their arguments. It makes one call for every call part, in
the order of these parts, unless an error keeps it from the last of them. -/
structure Engine.Refines (engine : Engine) (e : Expression) (c : Context σ) : Prop where
  result : (engine.run e c).result = liftError .eval (e.meaning c).1
  state : (engine.run e c).context.state = (e.meaning c).2.state
  calls : (engine.run e c).calls = (e.meaning c).2.calls
  called : ∀ v, (engine.run e c).result = .ok v →
    (engine.run e c).calls.map Call.function = e.expr.tree.callees
  begun : (engine.run e c).calls.map Call.function <+: e.expr.tree.callees
  once : e.expr.tree.callees.Perm (e.expr.tree.nodes.filterMap Tree.callee?)

/-- The outcome that the meaning of an expression promises. -/
def Expression.outcome (e : Expression) (c : Context σ) : Outcome σ Error :=
  ⟨liftError .eval (e.meaning c).1, { c with state := (e.meaning c).2.state }, (e.meaning c).2.calls⟩

/-- Expressions whose meanings succeed together promise the same where one succeeds. -/
theorem Expression.outcome_congr
    {f g : Expression} {c : Context σ}
    (h : ∀ u w, f.meaning c = (.ok u, w) → g.meaning c = (.ok u, w)) {u : Value}
    (hu : (f.outcome c).result = .ok u) : f.outcome c = g.outcome c := by
  have hmeaning : f.meaning c = (.ok u, (f.meaning c).2) := Prod.ext (liftError_eq_ok hu) rfl
  rw [outcome, outcome, h _ _ hmeaning, hmeaning]

namespace Expression.Compiled

variable {e : Expression} {c : Context σ} {engine : Engine}

theorem complete (h : e.Compiled c.registry) : e.expr.tree.Complete := by
  obtain ⟨ty, hty, -⟩ := h.whole
  exact hty.complete

/-- The calls that the meaning makes, and the reasons that it may fail for. -/
theorem meaning_orderly (h : e.Compiled c.registry) :
    ∃ gs, (e.meaning c).2.calls.map Call.function = gs ∧ gs <+: e.expr.tree.callees ∧
      (∀ v, (e.meaning c).1 = .ok v → gs = e.expr.tree.callees) ∧
      Fails Evaluation.Roomy (e.meaning c).1 := by
  obtain ⟨ty, hty, -⟩ := h.whole
  exact eval_orderly (g := ⟨c.registry, c.callbacks, e.types⟩) hty ⟨c.state, []⟩

/-- With room for it, a run is the meaning of its expression. -/
theorem run_eq (h : e.Compiled c.registry)
    (plain : Machine.toggled? c.registry e.expr.tree = none)
    (room : e.expr.tree.demand ≤ engine.limits.maxValues) :
    engine.run e c = e.outcome c := by
  have hmeaning : (engine.machine e c).evaluate e.expr.tree ⟨c.state, []⟩ = e.meaning c :=
    Machine.evaluate_eq_eval h.complete plain room
  unfold Expression.outcome
  rw [← hmeaning]
  rfl

/-- The room that a tree demands is enough. -/
theorem not_overflows (h : e.Compiled c.registry)
    (plain : Machine.toggled? c.registry e.expr.tree = none)
    (room : e.expr.tree.demand ≤ engine.limits.maxValues) : ¬ engine.Overflows e c := by
  rintro ⟨err, max, hresult, hcause⟩
  have hmeaning : (engine.machine e c).evaluate e.expr.tree ⟨c.state, []⟩ = e.meaning c :=
    Machine.evaluate_eq_eval h.complete plain room
  rw [engine.run_result, hmeaning] at hresult
  obtain ⟨gs, -, -, -, hfails⟩ := h.meaning_orderly
  cases hvalue : (e.meaning c).1 with
  | ok v =>
    rw [hvalue] at hresult
    cases hresult
  | error err' =>
    rw [hvalue] at hresult
    cases hresult
    have hroomy : Evaluation.Roomy err.cause := hfails _ hvalue
    rw [hcause] at hroomy
    exact hroomy

theorem refines (h : e.Compiled c.registry)
    (plain : Machine.toggled? c.registry e.expr.tree = none) (room : ¬ engine.Overflows e c) :
    engine.Refines e c := by
  have hroom : ¬ Machine.Overflows
      ((engine.machine e c).evaluate e.expr.tree ⟨c.state, []⟩).1 := by
    rintro ⟨err, max, herr, hcause⟩
    refine room ⟨err, max, ?_, hcause⟩
    rw [engine.run_result, herr]
    rfl
  have hmeaning : (engine.machine e c).evaluate e.expr.tree ⟨c.state, []⟩ = e.meaning c :=
    Machine.evaluate_of_not_overflows h.complete plain hroom
  have hresult : (engine.run e c).result = liftError .eval (e.meaning c).1 :=
    by
    rw [engine.run_result, hmeaning]
  have hcalls : (engine.run e c).calls = (e.meaning c).2.calls :=
    by
    rw [engine.run_calls, hmeaning]
  have hstate : (engine.run e c).context.state = (e.meaning c).2.state :=
    congrArg (fun p : _ × World σ => p.2.state) hmeaning
  obtain ⟨gs, hgs, hprefix, hall, -⟩ := h.meaning_orderly
  refine ⟨hresult, hstate, hcalls, ?_, ?_, callees_perm _⟩
  · intro v hv
    rw [hresult] at hv
    rw [hcalls, hgs, hall v (liftError_eq_ok hv)]
  · rw [hcalls, hgs]
    exact hprefix

end Expression.Compiled

/-- What was compiled against a context runs, in every later state of the context in which the
interactive shortcut does not apply, to the meaning of its tree, if it does not overflow. With room
for what the tree demands it does not. -/
theorem run_refines {memory : σ} {c₀ c : Context σ} (h₀ : (Context.empty memory).Reaches c₀)
    (h : c₀.Reaches c) {compiler engine : Engine} {source : String} {e : Expression}
    (hc : compiler.compile source c₀.registry = .ok e)
    (plain : Machine.toggled? c.registry e.expr.tree = none) :
    (e.expr.tree.demand ≤ engine.limits.maxValues → ¬ engine.Overflows e c) ∧
      (¬ engine.Overflows e c → engine.Refines e c) := by
  have hcompiled : e.Compiled c.registry := h₀.compiled h hc
  exact ⟨hcompiled.not_overflows plain, hcompiled.refines plain⟩

theorem run_refines_sample :
    ({} : Engine).Refines sampleExpression (sampleContext.setVariable 0 (.string "y")) := by
  let engine : Engine := {}
  have hrefines : (sampleExpression.expr.tree.demand ≤ engine.limits.maxValues → _) ∧
      (_ → engine.Refines sampleExpression _) :=
    run_refines reaches_sample (.single (.setVariable sampleContext 0 (.string "y")))
      compile_sample rfl
  exact hrefines.2 (hrefines.1 (by decide))

end ExprEngine
