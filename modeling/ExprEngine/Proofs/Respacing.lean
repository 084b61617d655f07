import ExprEngine.Proofs.Engine
import ExprEngine.Proofs.Machine.Likeness
import ExprEngine.Proofs.Token.Spacing
import ExprEngine.Proofs.Typing.Placement

/-!
# Space between tokens means nothing

No stage after the tokenizer looks at where a token stands. So a source that is written anew, with
single spaces between its tokens, has the same value or fails for the same reason.

* `Error.unplaced`       an error with its spans forgotten: its stage, its cause and what it blames;
* `Outcome.SameButPlaces`   outcomes that differ at most in the spans of an error;
* `Outcome.SameUpTo`     outcomes that differ at most in what is forgotten of an error;
* `evaluate_of_lexemes`  sources with the same lexemes, spans apart, are evaluated alike;
* `evaluate_respaced`    so is a source that was written anew.
-/

namespace ExprEngine

/-! ## errors without their places -/

def LexError.unplaced (e : LexError) : LexError := { e with span := .zero }

def EvalError.unplaced (e : EvalError) : EvalError := { e with span := .zero }

/-- An error with its spans forgotten: its stage, its cause and the token or part that it blames. -/
def Error.unplaced : Error → Error
  | lex e => lex e.unplaced
  | parse e => parse e.unplaced
  | type e => type e.unplaced
  | eval e => eval e.unplaced

variable {σ : Type}

/-- Outcomes with the same value, or with errors that differ in their spans only, with the same
context after them and the same calls. -/
structure Outcome.SameButPlaces (out out' : Outcome σ Error) : Prop where
  result : mapOutcome Error.unplaced id out.result = mapOutcome Error.unplaced id out'.result
  context : out.context = out'.context
  calls : out.calls = out'.calls

theorem Outcome.SameButPlaces.trans {a b c : Outcome σ Error} (h : a.SameButPlaces b)
    (h' : b.SameButPlaces c) : a.SameButPlaces c :=
  ⟨h.result.trans h'.result, h.context.trans h'.context, h.calls.trans h'.calls⟩

theorem Outcome.SameButPlaces.symm {a b : Outcome σ Error} (h : a.SameButPlaces b) :
    b.SameButPlaces a :=
  ⟨h.result.symm, h.context.symm, h.calls.symm⟩

/-- Outcomes with the same value, or with errors that are equal up to what `K` forgets of them, with
the same context after them and the same calls. -/
structure Outcome.SameUpTo (K : Error → Error) (out out' : Outcome σ Error) : Prop where
  result : mapOutcome K id out.result = mapOutcome K id out'.result
  context : out.context = out'.context
  calls : out.calls = out'.calls

theorem liftError_congr {α β ε : Type} {K : Error → Error} {f : ε → Error} {κ : ε → ε} {g : α → β}
    (hf : ∀ e, K (f e) = f (κ e)) (x : Except ε α) :
    mapOutcome K g (liftError f x) = liftError f (mapOutcome κ g x) := by
  cases x with
  | ok a => rfl
  | error e => exact congrArg Except.error (hf e)

/-! ## runs -/

/-- Runs agree where the evaluations do. -/
theorem Engine.run_of_agree {engine : Engine} {e f : Expression} {c : Context σ}
    {K : Error → Error} {κ : EvalError → EvalError}
    (hlift : ∀ err : EvalError, K (.eval err) = .eval (κ err))
    (h : Machine.AgreeIn κ ((engine.machine e c).evaluate e.expr.tree ⟨c.state, []⟩)
      ((engine.machine f c).evaluate f.expr.tree ⟨c.state, []⟩)) :
    (engine.run e c).SameUpTo K (engine.run f c) := by
  refine ⟨?_, ?_, ?_⟩
  · rw [engine.run_result, engine.run_result, liftError_congr hlift, liftError_congr hlift]
    exact congrArg (liftError Error.eval) h.result
  · show Context.mk _ _ _ = Context.mk _ _ _
    exact congrArg (fun w : World σ => ({ c with state := w.state } : Context σ)) h.world
  · exact congrArg World.calls h.world

def Expression.unplaced (e : Expression) : Expression := ⟨e.expr.unplaced, e.types⟩

/-- A run does not look at spans. -/
theorem Engine.run_unplaced (engine : Engine) (e : Expression) (c : Context σ) :
    (engine.run e c).SameButPlaces (engine.run e.unplaced c) := by
  have hbare : e.expr.tree.bare = e.expr.tree.unplaced.bare := (Tree.bare_mapOrigin _).symm
  have hparts : List.Forall₂ (Machine.Alike EvalError.unplaced e.types e.types)
      e.expr.tree.schedule e.expr.tree.unplaced.schedule := by
    rw [Tree.unplaced, Tree.schedule_mapOrigin]
    refine List.forall₂_map_right_iff.2 (List.forall₂_same.2 fun n _ => ⟨?_, ?_, ?_⟩)
    · exact (Tree.bare_mapOrigin n).symm
    · intro cause
      show _ = EvalError.unplaced (n.unplaced.origin.evalError cause)
      rw [n.origin_unplaced]
      rfl
    · exact congrArg e.types.typing n.id_unplaced.symm
  have horigin : e.expr.tree.origin.Alike EvalError.unplaced e.expr.tree.unplaced.origin := by
    intro cause
    rw [Tree.origin_unplaced]
    rfl
  have hwhole : ∀ cause, EvalError.unplaced ⟨cause, none, e.expr.tree.extent⟩ =
      EvalError.unplaced ⟨cause, none, e.expr.tree.unplaced.extent⟩ := by
    intro cause
    rw [Tree.extent_unplaced]
    rfl
  have hevaluate : Machine.AgreeIn EvalError.unplaced
      ((engine.machine e c).evaluate e.expr.tree ⟨c.state, []⟩)
      ((engine.machine e.unplaced c).evaluate e.unplaced.expr.tree ⟨c.state, []⟩) :=
    Machine.evaluate_agree (m := engine.machine e c) hbare hparts horigin hwhole _
  have hsame := Engine.run_of_agree (K := Error.unplaced) (fun _ => rfl) hevaluate
  exact ⟨hsame.result, hsame.context, hsame.calls⟩

/-! ## compilation -/

variable {source source' : String} {ts ts' : List Token}

/-- The engine does not look at spans when it compiles. -/
theorem Engine.compile_of_lexemes (engine : Engine) (h : tokenize source = .ok ts)
    (h' : tokenize source' = .ok ts')
    (hlexemes : (TokenStream.lexemes ⟨source.toList, ts⟩).map Lexeme.unplaced =
      (TokenStream.lexemes ⟨source'.toList, ts'⟩).map Lexeme.unplaced) (r : Registry) :
    mapOutcome Error.unplaced Expression.unplaced (engine.compile source r) =
      mapOutcome Error.unplaced Expression.unplaced (engine.compile source' r) := by
  rw [engine.compile_of_tokenize h, engine.compile_of_tokenize h']
  rcases mapOutcome_eq (parse_congr r engine.limits hlexemes) with
    ⟨e, e', he, he', heq⟩ | ⟨err, err', herr, herr', heq⟩
  · rw [he, he']
    show mapOutcome _ _ (liftError .type (check e r) >>= _) =
      mapOutcome _ _ (liftError .type (check e' r) >>= _)
    rcases mapOutcome_eq (check_congr r heq) with
      ⟨ty, ty', hty, hty', hteq⟩ | ⟨err, err', herr, herr', hteq⟩
    · rw [hty, hty']
      show Except.ok (Expression.unplaced ⟨e, ty⟩) = Except.ok (Expression.unplaced ⟨e', ty'⟩)
      rw [Expression.unplaced, Expression.unplaced, heq, show ty = ty' from hteq]
    · rw [herr, herr']
      exact congrArg (fun e => Except.error (Error.type e)) hteq
  · rw [herr, herr']
    exact congrArg (fun e => Except.error (Error.parse e)) heq

/-- Sources whose lexemes differ in their spans only are evaluated alike. -/
theorem Engine.evaluate_of_lexemes (engine : Engine) (h : tokenize source = .ok ts)
    (h' : tokenize source' = .ok ts')
    (hlexemes : (TokenStream.lexemes ⟨source.toList, ts⟩).map Lexeme.unplaced =
      (TokenStream.lexemes ⟨source'.toList, ts'⟩).map Lexeme.unplaced) (c : Context σ) :
    (engine.evaluate source c).SameButPlaces (engine.evaluate source' c) := by
  unfold evaluate
  rcases mapOutcome_eq (engine.compile_of_lexemes h h' hlexemes c.registry) with
    ⟨e, e', he, he', heq⟩ | ⟨err, err', herr, herr', heq⟩
  · rw [he, he']
    have hrun := engine.run_unplaced e c
    rw [heq] at hrun
    exact hrun.trans (engine.run_unplaced e' c).symm
  · rw [herr, herr']
    exact ⟨congrArg Except.error heq, rfl, rfl⟩

/-! ## written anew -/

theorem lexemesFrom_unplaced {text text' : Text} (i : Nat)
    (hparts : ts.map (fun t => (t.kind, t.span.slice text)) =
      ts'.map fun t => (t.kind, t.span.slice text')) :
    (TokenStream.lexemesFrom text i ts).map Lexeme.unplaced =
      (TokenStream.lexemesFrom text' i ts').map Lexeme.unplaced := by
  induction ts generalizing ts' i with
  | nil =>
    obtain rfl := List.map_eq_nil_iff.1 hparts.symm
    rfl
  | cons t ts ih =>
    obtain ⟨t', ts', rfl, hpart, hparts⟩ := List.map_eq_cons_iff.1 hparts.symm
    obtain ⟨hkind, htext⟩ := Prod.mk.inj hpart
    have hlexeme : (TokenStream.lexeme text i t).unplaced =
        (TokenStream.lexeme text' i t').unplaced := by
      dsimp only [TokenStream.lexeme, Lexeme.unplaced]
      rw [hkind, htext]
    rw [TokenStream.lexemesFrom, TokenStream.lexemesFrom, List.map_cons, List.map_cons,
      ih (i + 1) hparts.symm, hlexeme]

/-- A source that is written anew with single spaces, if it is not too long then, has tokens of the
same kinds and texts, and is evaluated alike in every context under all limits. -/
theorem evaluate_respaced (h : tokenize source = .ok ts)
    (hlength : Text.byteLength (respaced source ts).toList ≤ Span.maxOffset) :
    ∃ ts', tokenize (respaced source ts) = .ok ts' ∧
      ts'.map Token.kind = ts.map Token.kind ∧
      ts'.map (fun t => t.span.slice (respaced source ts).toList) =
        ts.map (fun t => t.span.slice source.toList) ∧
      ∀ (σ : Type) (engine : Engine) (c : Context σ),
        (engine.evaluate (respaced source ts) c).SameButPlaces (engine.evaluate source c) := by
  obtain ⟨ts', hts', hparts⟩ := tokenize_respaced h hlength
  refine ⟨ts', hts', ?_, ?_, fun σ engine c => ?_⟩
  · have hkinds := congrArg (List.map Prod.fst) hparts
    rwa [List.map_map, List.map_map] at hkinds
  · have htexts := congrArg (List.map Prod.snd) hparts
    rwa [List.map_map, List.map_map] at htexts
  · exact engine.evaluate_of_lexemes hts' h (lexemesFrom_unplaced 0 hparts) c

theorem evaluate_respaced_sample :
    respaced sampleSource sampleTokens = "x = f ( 1 ) ? 2 : ~ x" ∧
      (({} : Engine).evaluate "x = f ( 1 ) ? 2 : ~ x" sampleContext).SameButPlaces
        (({} : Engine).evaluate sampleSource sampleContext) := by
  have hrespaced : respaced sampleSource sampleTokens = "x = f ( 1 ) ? 2 : ~ x" := by
    decide +kernel
  have hlength : Text.byteLength (respaced sampleSource sampleTokens).toList ≤ Span.maxOffset := by
    rw [hrespaced]
    decide
  obtain ⟨-, -, -, -, hsame⟩ := evaluate_respaced tokenize_sample hlength
  have hsame := hsame Unit {} sampleContext
  rw [hrespaced] at hsame
  exact ⟨hrespaced, hsame⟩

end ExprEngine
