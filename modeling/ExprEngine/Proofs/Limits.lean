import ExprEngine.Proofs.Engine
import ExprEngine.Proofs.Machine.Run
import ExprEngine.Proofs.Parse.Agreement
import ExprEngine.Proofs.Parse.Nesting

/-!
# Limits only cut off

An engine with wider limits gives what an engine with narrower ones gives, as long as that one is
not stopped by a limit.

* `Error.IsLimit`        an error that a limit is the cause of;
* `compile_follows`      compilation under wider limits, where names mean the same;
* `evaluate_of_le`       evaluation under wider limits;
* `parse_fits`           a parsed tree fits the limits it was parsed under;
* `limits_only_cut`      what limits decide, and what they do not.
-/

namespace ExprEngine

variable {σ : Type} {L L' : Limits} {r r' : Registry}

/-- Whether a full stack is the cause. -/
def EvalCause.IsLimit : EvalCause → Prop
  | .valueOverflow _ => True
  | _ => False

/-- An error that a limit is the cause of. -/
def Error.IsLimit : Error → Prop
  | .parse e => e.cause.IsLimit
  | .eval e => e.cause.IsLimit
  | _ => False

/-! ## compilation -/

theorem liftError_follows {α ε : Type} {cut : ε → Prop} {f : ε → Error} {x' x : Except ε α}
    (h : Follows cut x' x) :
    Follows (fun e => ∃ e', e = f e' ∧ cut e') (liftError f x') (liftError f x) := by
  rcases h with rfl | ⟨e, rfl, he⟩
  · exact .refl _
  · exact .of_cut ⟨e, rfl, he⟩

namespace Engine

/-- Compilation goes the same way under wider limits, where the names of the source mean the same
and its tree has the same types. -/
theorem compile_follows (h : L ≤ L') {source : String}
    (hsame : ∀ ts, tokenize source = .ok ts →
      ∀ t ∈ TokenStream.lexemes ⟨source.toList, ts⟩, t.kind = .identifier → r.SameFor r' t.text)
    (hcheck : ∀ ts e, tokenize source = .ok ts → parse ⟨source.toList, ts⟩ r L = .ok e →
      check e r' = check e r) :
    Follows (fun e => L ≠ L' ∧ e.IsLimit) (compile ⟨L'⟩ source r') (compile ⟨L⟩ source r) := by
  cases hts : tokenize source with
  | error e =>
    unfold compile parseSource
    rw [hts]
    exact .refl _
  | ok ts =>
    rw [compile_of_tokenize _ hts, compile_of_tokenize _ hts]
    have hparse : Follows (fun e => L ≠ L' ∧ e.IsLimit)
        (liftError .parse (parse ⟨source.toList, ts⟩ r' L'))
        (liftError .parse (parse ⟨source.toList, ts⟩ r L)) :=
      (liftError_follows (parse_follows h (hsame ts hts))).mono fun e ⟨e', he, hcut⟩ => he ▸ hcut
    refine hparse.bind fun expr hexpr => ?_
    rw [hcheck ts expr hts (liftError_eq_ok hexpr)]
    exact .refl _

/-! ## evaluation -/

/-- A run that is not cut off goes the same way under wider limits. -/
theorem run_of_le (h : L ≤ L') (e : Expression) (c : Context σ)
    (hspared : ∀ err, (run ⟨L⟩ e c).result = .error err → ¬ err.IsLimit) :
    run ⟨L'⟩ e c = run ⟨L⟩ e c := by
  let m := machine ⟨L⟩ e c
  have hroom : ¬ Machine.Overflows (m.evaluate e.expr.tree ⟨c.state, []⟩).1 := by
    rintro ⟨err, max, herr, hcause⟩
    refine hspared (.eval err) ?_ ?_
    · rw [run_result, herr]
      rfl
    · show err.cause.IsLimit
      rw [hcause]
      trivial
  have hwide : (m.widen L'.maxValues).evaluate e.expr.tree ⟨c.state, []⟩ =
      m.evaluate e.expr.tree ⟨c.state, []⟩ := Machine.evaluate_widen h.values hroom
  unfold run ExprEngine.evaluate
  exact congrArg (fun p : Except EvalError Value × World σ =>
    (⟨liftError .eval p.1, { c with state := p.2.state }, p.2.calls⟩ : Outcome σ Error)) hwide

/-- An evaluation that is not cut off goes the same way under wider limits. -/
theorem evaluate_of_le (h : L ≤ L') (source : String) (c : Context σ)
    (hspared : ∀ err, (evaluate ⟨L⟩ source c).result = .error err → ¬ err.IsLimit) :
    evaluate ⟨L'⟩ source c = evaluate ⟨L⟩ source c := by
  have hcompile : Follows (fun e => L ≠ L' ∧ e.IsLimit) (compile ⟨L'⟩ source c.registry)
      (compile ⟨L⟩ source c.registry) :=
    compile_follows h (fun _ _ _ _ _ => .refl _ _) fun _ _ _ _ => rfl
  unfold evaluate at hspared ⊢
  rcases hcompile with heq | ⟨err, herr, -, hlimit⟩
  · rw [heq]
    cases hcompiled : compile ⟨L⟩ source c.registry with
    | error err => rfl
    | ok e =>
      rw [hcompiled] at hspared
      exact run_of_le h e c hspared
  · rw [herr] at hspared
    exact absurd hlimit (hspared err rfl)

end Engine

/-! ## what limits promise -/

/-- A parsed tree fits the limits it was parsed under: in the number of its parts, and in the length
of every chain of groups and calls, each below the one before. -/
theorem parse_fits {s : TokenStream} {e : Expr} (h : parse s r L = .ok e) :
    e.tree.nodes.length ≤ L.maxParts ∧
      ∀ chain : List Tree, (∀ n ∈ chain, n ∈ e.tree.nodes ∧ n.isBracket = true) →
        (chain.IsChain fun a b => b.Below a) → chain.length ≤ L.maxNesting := by
  have hanywhere : Span.Covering fun _ => True := ⟨trivial, fun _ _ => trivial⟩
  have hcount : e.partCount ≤ L.maxParts :=
    (parse_ends hanywhere (fun _ _ => trivial) trivial).of_ok h
  refine ⟨?_, fun chain hchain hbelow => ?_⟩
  · have hlength := (parse_ids h).length_eq
    rw [List.length_map, List.length_range] at hlength
    rw [hlength]
    exact hcount
  · cases chain with
    | nil => exact Nat.zero_le _
    | cons n ns =>
      have hnesting := Tree.chain_le_nesting hbelow fun m hm => (hchain m hm).2
      have hn := Tree.nesting_le_of_mem (hchain n (List.mem_cons_self ..)).1
      exact Nat.le_trans (Nat.le_trans hnesting hn) (parse_nesting h)

/-- Limits only cut off. An evaluation that no limit stops has the same result, the same final
context and the same calls under wider limits. A tree that is parsed has no more parts than the
limits allow, and no chain of groups and calls below each other is longer than they allow. -/
theorem limits_only_cut (h : L ≤ L') (source : String) (c : Context σ) :
    ((∀ err, (Engine.evaluate ⟨L⟩ source c).result = .error err → ¬ err.IsLimit) →
      Engine.evaluate ⟨L'⟩ source c = Engine.evaluate ⟨L⟩ source c) ∧
    ∀ stream registry e, parse stream registry L = .ok e →
      e.tree.nodes.length ≤ L.maxParts ∧
        ∀ chain : List Tree, (∀ n ∈ chain, n ∈ e.tree.nodes ∧ n.isBracket = true) →
          (chain.IsChain fun a b => b.Below a) → chain.length ≤ L.maxNesting :=
  ⟨Engine.evaluate_of_le h source c, fun _ _ _ hparse => parse_fits hparse⟩

/-- The sample under the narrowest limits that let it pass. -/
theorem compile_sample_narrow :
    Engine.compile ⟨⟨9, 3, 1, 3⟩⟩ sampleSource sampleContext.registry = .ok sampleExpression := by
  unfold Engine.compile Engine.parseSource
  rw [tokenize_sample]
  rfl

theorem limits_only_cut_sample :
    (⟨9, 3, 1, 3⟩ : Limits) ≤ {} ∧
      Engine.evaluate ⟨⟨9, 3, 1, 3⟩⟩ sampleSource sampleContext =
        ⟨.ok (.int (.wrap ⟨true, .w32⟩ 2)),
          sampleContext.setVariable 0 (.int (.wrap ⟨true, .w32⟩ 2)),
          [⟨0, [.bool true, .bool true]⟩]⟩ ∧
      Engine.evaluate ⟨{}⟩ sampleSource sampleContext =
        Engine.evaluate ⟨⟨9, 3, 1, 3⟩⟩ sampleSource sampleContext := by
  have hle : (⟨9, 3, 1, 3⟩ : Limits) ≤ {} := ⟨by decide, by decide, by decide, by decide⟩
  have hnarrow : Engine.evaluate ⟨⟨9, 3, 1, 3⟩⟩ sampleSource sampleContext =
      ⟨.ok (.int (.wrap ⟨true, .w32⟩ 2)),
        sampleContext.setVariable 0 (.int (.wrap ⟨true, .w32⟩ 2)),
        [⟨0, [.bool true, .bool true]⟩]⟩ := by
    unfold Engine.evaluate
    rw [compile_sample_narrow]
    rfl
  refine ⟨hle, hnarrow, (limits_only_cut hle sampleSource sampleContext).1 fun err herr => ?_⟩
  rw [hnarrow] at herr
  cases herr

end ExprEngine
