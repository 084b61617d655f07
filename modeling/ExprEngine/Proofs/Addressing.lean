import ExprEngine.Proofs.Engine
import ExprEngine.Proofs.Machine.Blame
import ExprEngine.Proofs.Token.Offsets
import ExprEngine.Proofs.Typing.Blame

/-!
# Errors point into their source

Whatever stage an evaluation fails in, its error points at a piece of the source: the spans of
tokens lie in it, and all others are put together from those.

* `Error.spans`           the spans that an error points at;
* `compile_addresses`     the errors of compilation, and the parts of what compiles;
* `errors_address`        every error of an evaluation.
-/

namespace ExprEngine

/-- The spans that an error points at: its own, and that of an earlier operand it refers to. -/
def Error.spans : Error → List Span
  | .parse e => e.span :: e.related.toList
  | e => [e.span]

/-- An error whose spans address a source. -/
def Error.Addresses (e : Error) (source : String) : Prop :=
  ∀ s ∈ e.spans, s.Addresses source.toList

theorem Error.addresses_of_span {source : String} {e : Error} (hspans : e.spans = [e.span])
    (h : e.span.Addresses source.toList) : e.Addresses source := by
  rw [Addresses, hspans]
  exact List.forall_mem_singleton.2 h

theorem ParseError.Spans.addresses {source : String} {e : ParseError}
    (h : e.Spans fun s => s.Addresses source.toList) : (Error.parse e).Addresses source := by
  refine List.forall_mem_cons.2 ⟨h.span, fun s hs => ?_⟩
  exact h.related s (Option.mem_toList.1 hs)

theorem liftError_ends {α ε : Type} {E : ε → Prop} {E' : Error → Prop} {P : α → Prop}
    {f : ε → Error} {x : Except ε α} (h : Ends E P x) (hf : ∀ e, E e → E' (f e)) :
    Ends E' P (liftError f x) := by
  cases x with
  | ok a => exact h
  | error e => exact hf e h

namespace Engine

/-- What compiles has parts that address its source, and what does not has errors that do. -/
theorem compile_addresses (engine : Engine) (source : String) (r : Registry) :
    Ends (fun err => err.Addresses source)
      (fun e => e.expr.tree.Spans fun s => s.Addresses source.toList)
      (engine.compile source r) := by
  have hQ := Span.addresses_covering source.toList
  cases hts : tokenize source with
  | error e =>
    have he : e.span.Addresses source.toList := (tokenize_ends source).of_error hts
    unfold compile parseSource
    rw [hts]
    exact Error.addresses_of_span rfl he
  | ok ts =>
    rw [compile_of_tokenize _ hts]
    have hlexemes := lexemes_address hts
    have hparse : Ends (fun err : Error => err.Addresses source) _
        (liftError .parse (parse ⟨source.toList, ts⟩ r engine.limits)) :=
      liftError_ends (parse_ends hQ hlexemes (end_addresses hts)) fun e he => he.addresses
    refine hparse.bind fun expr hexpr _ => ?_
    have htree := (phrase_of_parse (liftError_eq_ok hexpr)).spans hQ hlexemes
    have hcheck : Ends (fun err : Error => err.Addresses source) _
        (liftError .type (check expr r)) :=
      liftError_ends (check_ends hQ htree) fun e he => Error.addresses_of_span rfl he
    exact hcheck.bind fun types _ _ => htree

/-- A run of what addresses a source has errors that do. -/
theorem run_addresses {σ : Type} (engine : Engine) {source : String} {e : Expression}
    (he : e.expr.tree.Spans fun s => s.Addresses source.toList) (c : Context σ) :
    Ends (fun err => err.Addresses source) (fun _ => True) (engine.run e c).result := by
  have hQ := Span.addresses_covering source.toList
  rw [engine.run_result]
  refine liftError_ends (Machine.evaluate_names e.expr.tree ⟨c.state, []⟩) fun err herr => ?_
  refine Error.addresses_of_span rfl ?_
  show err.span.Addresses source.toList
  rcases herr with ⟨n, hn, cause, rfl⟩ | ⟨-, hspan⟩
  · exact he n hn
  · rw [hspan]
    exact he.extent hQ

end Engine

/-- Every error of an evaluation, whatever stage it comes from, points at pieces of the source:
its spans have their ends in order, do not reach beyond the source and cut no character. -/
theorem errors_address {σ : Type} (engine : Engine) (source : String) (c : Context σ)
    {err : Error} (h : (engine.evaluate source c).result = .error err) :
    ∀ s ∈ err.spans, s.Addresses source.toList := by
  have hcompile := engine.compile_addresses source c.registry
  unfold Engine.evaluate at h
  cases hcompiled : engine.compile source c.registry with
  | error e =>
    rw [hcompiled] at h
    cases h
    exact hcompile.of_error hcompiled
  | ok e =>
    rw [hcompiled] at h
    exact (engine.run_addresses (hcompile.of_ok hcompiled) c).of_error h

/-- Two operands without an operator between them, the first of more bytes than characters. -/
def accentedSource : String := "\"é\" 1"

def accentedTokens : List Token := [⟨.string, ⟨1, 3⟩⟩, ⟨.number, ⟨5, 6⟩⟩]

theorem tokenize_accented : tokenize accentedSource = .ok accentedTokens := by decide +kernel

theorem errors_address_accented :
    (({} : Engine).evaluate accentedSource sampleContext).result =
        .error (.parse ⟨.missingOperator, some 1, ⟨5, 6⟩, some ⟨1, 3⟩⟩) ∧
      Span.Addresses ⟨5, 6⟩ accentedSource.toList ∧
      Span.Addresses ⟨1, 3⟩ accentedSource.toList := by
  have hfails : (({} : Engine).evaluate accentedSource sampleContext).result =
      .error (.parse ⟨.missingOperator, some 1, ⟨5, 6⟩, some ⟨1, 3⟩⟩) := by
    unfold Engine.evaluate Engine.compile Engine.parseSource
    rw [tokenize_accented]
    rfl
  have haddress := errors_address {} accentedSource sampleContext hfails
  exact ⟨hfails, haddress _ (by simp [Error.spans]), haddress _ (by simp [Error.spans])⟩

end ExprEngine
