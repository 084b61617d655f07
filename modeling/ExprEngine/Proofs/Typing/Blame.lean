import ExprEngine.Proofs.Parse.Bounds
import ExprEngine.Typing

/-!
# What the checker blames

A typing error blames the token of a part or the whole extent of one, so its span is put together
from spans of the tree.

* `Tree.typeError_spans`, `Tree.typeErrorOver_spans`, `blame_spans`   the errors that there are;
* `checkTree_ends`   the error of a tree;
* `check_ends`       the error of an expression.
-/

namespace ExprEngine

variable {Q : Span → Prop} {r : Registry}

theorem Tree.typeError_spans (hQ : Span.Covering Q) {t : Tree} (h : t.Spans Q)
    (cause : TypeCause) : Q (t.typeError cause).span := h.origin hQ

theorem Tree.typeErrorOver_spans (hQ : Span.Covering Q) {t : Tree} (h : t.Spans Q)
    (cause : TypeCause) : Q (t.typeErrorOver cause).span := h.extent hQ

theorem blame_spans (hQ : Span.Covering Q) {whole left right : Tree} (hwhole : whole.Spans Q)
    (hleft : left.Spans Q) (hright : right.Spans Q) (cause : TypeCause) :
    Q (blame whole left right cause).span := by
  unfold blame
  split
  · exact left.typeErrorOver_spans hQ hleft _
  · exact right.typeErrorOver_spans hQ hright _
  · exact whole.typeError_spans hQ hwhole _

theorem raise_ends {α : Type} {E : TypeError → Prop} {f : TypeCause → TypeError}
    (h : ∀ cause, E (f cause)) (x : Except TypeCause α) : Ends E (fun _ => True) (raise f x) := by
  cases x with
  | ok a => trivial
  | error cause => exact h cause

/-- A computation whose error blames a span with a property. -/
abbrev Blames {α : Type} (Q : Span → Prop) : Except TypeError α → Prop :=
  Ends (fun e => Q e.span) fun _ => True

mutual

/-- The error of a tree blames a span put together from those of its parts. -/
theorem checkTree_ends (hQ : Span.Covering Q) : ∀ {t : Tree}, t.Spans Q → Blames Q (checkTree r t)
  | .hole, h => Tree.typeError_spans hQ h _
  | .constant _ _, _ => trivial
  | .reference o x, h => by
    unfold checkTree
    split
    · exact Tree.typeError_spans hQ h _
    · trivial
  | .group o x, h => by
    unfold checkTree
    exact (checkTree_ends hQ (Tree.spans_group.1 h).2).bind fun _ _ _ => trivial
  | .cast o target x, h => by
    unfold checkTree
    split
    · exact Tree.typeError_spans hQ h _
    refine (checkTree_ends hQ (Tree.spans_cast.1 h).2).bind fun t _ _ => ?_
    split
    · trivial
    · exact Tree.typeError_spans hQ h _
  | .unary o op x, h => by
    have hx := (Tree.spans_unary.1 h).2
    unfold checkTree
    split
    · exact Tree.typeError_spans hQ h _
    exact (checkTree_ends hQ hx).bind fun t _ _ =>
      (raise_ends (x.typeErrorOver_spans hQ hx) _).bind fun _ _ _ => trivial
  | .choice o c y n, h => by
    obtain ⟨-, hc, hy, hn⟩ := Tree.spans_choice.1 h
    unfold checkTree
    dsimp only
    split
    · exact Tree.typeError_spans hQ h _
    refine (checkTree_ends hQ hc).bind fun tc _ _ => (checkTree_ends hQ hy).bind fun ty _ _ =>
      (checkTree_ends hQ hn).bind fun tn _ _ => ?_
    split
    · exact c.typeErrorOver_spans hQ hc _
    · exact (raise_ends (Tree.typeError_spans hQ h) _).bind fun _ _ _ => trivial
  | .binary o op l x, h => by
    obtain ⟨-, hl, hx⟩ := Tree.spans_binary.1 h
    unfold checkTree
    dsimp only
    split
    · exact Tree.typeError_spans hQ h _
    split
    · refine (checkTree_ends hQ hl).bind fun tl _ _ => ?_
      split
      · exact l.typeErrorOver_spans hQ hl _
      split
      · exact l.typeError_spans hQ hl _
      refine (checkTree_ends hQ hx).bind fun tx _ _ => ?_
      split
      · exact l.typeError_spans hQ hl _
      · exact (raise_ends (blame_spans hQ h hl hx) _).bind fun _ _ _ => trivial
    · exact (checkTree_ends hQ hl).bind fun tl _ _ => (checkTree_ends hQ hx).bind fun tx _ _ =>
        (raise_ends (blame_spans hQ h hl hx) _).bind fun _ _ _ => trivial
  | .call o f args, h => by
    unfold checkTree
    split
    · exact Tree.typeError_spans hQ h _
    · exact (checkArguments_ends hQ (Tree.spans_call.1 h).2).bind fun _ _ _ => trivial

theorem checkArguments_ends (hQ : Span.Covering Q) {s : Signature} : ∀ {index : Nat}
    {args : List Tree}, (∀ n ∈ Tree.nodesOfAll args, Q n.origin.span) →
      Blames Q (checkArguments r s index args)
  | _, [], _ => trivial
  | index, arg :: args, h => by
    rw [Tree.nodesOfAll] at h
    obtain ⟨harg, hargs⟩ := List.forall_mem_append.1 h
    unfold checkArguments
    refine (checkTree_ends hQ harg).bind fun t _ _ => ?_
    dsimp only
    split
    · exact arg.typeErrorOver_spans hQ harg _
    · exact (checkArguments_ends hQ hargs).bind fun _ _ _ => trivial

end

theorem check_ends (hQ : Span.Covering Q) {e : Expr} (h : e.tree.Spans Q) :
    Blames Q (check e r) := (checkTree_ends hQ h).map fun _ _ => trivial

end ExprEngine
