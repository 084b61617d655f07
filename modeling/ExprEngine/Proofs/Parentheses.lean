import ExprEngine.Proofs.Machine.Grouping
import ExprEngine.Proofs.Respacing

/-!
# Parentheses around operands mean nothing

The grouping of a source can be written out, with parentheses around every operand of an operator
or a cast. What is written then is read as the tree of the source with groups in it. A group has the
type of what it holds, and a run passes it by.

* `HasTyping.explicit`       groups change no type;
* `reads_bracketed`          the text with parentheses is read as the tree with groups;
* `Error.unlocated`          an error with its place and the part that it blames forgotten;
* `Engine.run_explicit`      a run does not notice groups;
* `bracketed_agrees`         the source with parentheses compiles and runs alike.
-/

namespace ExprEngine

variable {r : Registry} {source : String} {ts : List Token}

/-! ## types -/

theorem HasTyping.grouping {t : Tree} {ty : Typing} (h : HasTyping r t ty) :
    HasTyping r t.grouping (.same ty.result) := .group h

mutual

/-- A tree has the type that it has without groups around its operands. -/
theorem HasTyping.explicit : ∀ {t : Tree} {ty : Typing}, HasTyping r t ty →
    HasTyping r t.explicit ty
  | _, _, .constant => .constant
  | _, _, .reference declared => .reference declared
  | _, _, .group inner => .group inner.explicit
  -- a rule reads what its operands result in, and that a group leaves alone
  | _, _, .cast operand casts => (HasTyping.cast operand.explicit.grouping casts :)
  | _, _, .unary operand rule => (HasTyping.unary operand.explicit.grouping rule :)
  | _, _, .choice condition yes no truth rule =>
    (HasTyping.choice condition.explicit.grouping yes.explicit.grouping no.explicit.grouping truth
      rule :)
  | _, _, .operate plain left right rule => by
    rw [Tree.explicit, if_neg (Bool.eq_false_iff.1 plain)]
    exact (HasTyping.operate plain left.explicit.grouping right.explicit.grouping rule :)
  | _, _, .assign assigns declared writable value rule => by
    rw [Tree.explicit, if_pos assigns]
    exact (HasTyping.assign assigns declared writable value.explicit.grouping rule :)
  | _, _, .call declared passed => .call declared passed.explicit

theorem HasArguments.explicit : ∀ {s : Signature} {i : Nat} {args : List Tree},
    HasArguments r s i args → HasArguments r s i (explicitAll args)
  | _, _, _, .nil => .nil
  | _, _, _, .cons first casts rest => .cons first.explicit casts rest.explicit

end

/-! ## reading -/

theorem bare_surround (source : Text) (brackets : List Span) (i : Nat) (t : Token) :
    (surround brackets (TokenStream.lexeme source i t)).map Lexeme.bare =
      (wrappedParts (t.span.opens brackets) (t.span.closes brackets)
        (t.kind, t.span.slice source)).map Lexeme.ofPart := by
  rw [surround, wrappedParts, List.map_append, List.map_append, List.map_cons, List.map_cons]
  simp only [List.map_replicate]
  rfl

/-- What the lexemes of a stream say, with parentheses around spans. -/
theorem bare_enclose (source : Text) (brackets : List Span) (i : Nat) (ts : List Token) :
    (enclose brackets (TokenStream.lexemesFrom source i ts)).map Lexeme.bare =
      (ts.flatMap fun t => wrappedParts (t.span.opens brackets) (t.span.closes brackets)
        (t.kind, t.span.slice source)).map Lexeme.ofPart := by
  induction ts generalizing i with
  | nil => rfl
  | cons t ts ih =>
    rw [enclose, TokenStream.lexemesFrom, List.flatMap_cons, List.map_append, ← enclose, ih,
      bare_surround, List.flatMap_cons, List.map_append]

/-- A source that compiles, written anew with parentheses around its operands, is read as its tree
with groups around them. -/
theorem reads_bracketed (hr : r.Declared) {engine compiler : Engine} {e : Expression}
    (htokens : tokenize source = .ok ts) (hc : compiler.compile source r = .ok e) (pad : Nat)
    (hlength : Text.byteLength (bracketed pad source ts e.expr.tree.brackets).toList ≤
      Span.maxOffset)
    (room : Room engine.limits e.expr.tree.explicit.nodes.length 0 0 0) :
    engine.Reads r (bracketed pad source ts e.expr.tree.brackets) e.expr.tree.explicit := by
  obtain ⟨ts', htokens', hparse, -⟩ := stages_of_compile hc
  cases htokens.symm.trans htokens'
  obtain ⟨ts', htokens', hparts⟩ := tokenize_bracketed htokens pad e.expr.tree.brackets hlength
  obtain ⟨u, hphrase, hbare⟩ := (phrase_of_parse hparse).explicit (laid_of_tokenize htokens)
  refine reads_of_phrase hr htokens' hphrase ?_ hbare
    (Tree.wellGrouped_explicit (wellGrouped_of_parse hparse)) room
  rw [TokenStream.lexemes, TokenStream.lexemes, bare_lexemesFrom, hparts, bare_enclose]

/-! ## runs -/

def EvalError.unlocated (e : EvalError) : EvalError := { e with part := none, span := .zero }

/-- An error of a run with its place and the part that it blames forgotten. What is left is its
cause. -/
def Error.unlocated : Error → Error
  | eval e => eval e.unlocated
  | e => e

variable {σ : Type}

/-- Expressions whose trees differ in groups around operands run alike. -/
theorem Engine.run_explicit (engine : Engine) {e f : Expression} {c : Context σ}
    (he : e.Compiled c.registry) (hf : f.Compiled c.registry)
    (hbare : e.expr.tree.explicit.bare = f.expr.tree.bare) :
    (engine.run e c).SameUpTo Error.unlocated (engine.run f c) := by
  have htyping : ∀ n ∈ e.expr.tree.nodes, ∀ n' ∈ f.expr.tree.nodes, n.explicit.bare = n'.bare →
      e.types.typing n.id = f.types.typing n'.id := by
    intro n hn n' hn' hsame
    have hty := (he.parts n hn).1.explicit.congr hsame
    exact hty.unique (hf.parts n' hn').1
  have hevaluate : Machine.AgreeIn EvalError.unlocated
      ((engine.machine e c).evaluate e.expr.tree ⟨c.state, []⟩)
      ((engine.machine f c).evaluate f.expr.tree ⟨c.state, []⟩) :=
    Machine.evaluate_explicit hbare (fun _ _ _ => rfl) (fun _ => rfl) htyping _
  exact Engine.run_of_agree (fun _ => rfl) hevaluate

/-! ## both -/

/-- A source that compiles is written anew, with parentheses around every operand of its operators
and casts but the targets of assignments. If that is not too long and the limits leave room for its
tree, then it compiles to the tree with groups, has the same type, and runs alike in every later
state of the context: to the same value or an error for the same cause, with the same context and
the same calls. -/
theorem bracketed_agrees {memory : σ} {c₀ : Context σ} (h₀ : (Context.empty memory).Reaches c₀)
    {compiler engine : Engine} {e : Expression} (htokens : tokenize source = .ok ts)
    (hc : compiler.compile source c₀.registry = .ok e) (pad : Nat)
    (hlength : Text.byteLength (bracketed pad source ts e.expr.tree.brackets).toList ≤
      Span.maxOffset)
    (room : Room engine.limits e.expr.tree.explicit.nodes.length 0 0 0) :
    ∃ f, engine.compile (bracketed pad source ts e.expr.tree.brackets) c₀.registry = .ok f ∧
      f.resultType = e.resultType ∧ f.expr.tree.bare = e.expr.tree.explicit.bare ∧
      ∀ (runner : Engine) (c : Context σ), c₀.Reaches c →
        (runner.run e c).SameUpTo Error.unlocated (runner.run f c) := by
  have hdeclared : c₀.registry.Declared := h₀.declared .empty
  have hreads := reads_bracketed hdeclared htokens hc pad hlength room
  obtain ⟨ty, hty, hresult⟩ := (compile_ok hdeclared hc).whole
  obtain ⟨f, hf⟩ := hreads.compiles.2 ⟨ty, hty.explicit⟩
  have hbare := hreads.tree f hf
  refine ⟨f, hf, ?_, hbare, fun runner c h => ?_⟩
  · obtain ⟨ty', hty', hresult'⟩ := (compile_ok hdeclared hf).whole
    rw [← hresult, ← hresult', hty'.unique (hty.explicit.congr hbare.symm)]
  · exact runner.run_explicit (h₀.compiled h hc) (h₀.compiled h hf) hbare.symm

theorem bracketed_agrees_sample :
    bracketed 0 sampleSource sampleTokens sampleTree.brackets =
        "x = ((f ( 1 )) ? (2) : (~ (x)))" ∧
      ∃ f, ({} : Engine).compile "x = ((f ( 1 )) ? (2) : (~ (x)))" sampleContext.registry = .ok f ∧
        f.resultType = .int ⟨true, .w32⟩ ∧ f.expr.tree.bare = sampleTree.explicit.bare ∧
        (({} : Engine).run sampleExpression sampleContext).SameUpTo Error.unlocated
          (({} : Engine).run f sampleContext) := by
  have htext : bracketed 0 sampleSource sampleTokens sampleTree.brackets =
      "x = ((f ( 1 )) ? (2) : (~ (x)))" := by
    decide +kernel
  have hlength : Text.byteLength
      (bracketed 0 sampleSource sampleTokens sampleTree.brackets).toList ≤ Span.maxOffset := by
    rw [htext]
    decide
  have hroom : Room ({} : Engine).limits sampleTree.explicit.nodes.length 0 0 0 :=
    ⟨by decide, by decide, by decide⟩
  obtain ⟨f, hf, htype, hbare, hruns⟩ :=
    bracketed_agrees reaches_sample tokenize_sample compile_sample 0 hlength hroom
  refine ⟨htext, f, ?_, htype, hbare, hruns {} sampleContext .refl⟩
  rw [← htext]
  exact hf

end ExprEngine
