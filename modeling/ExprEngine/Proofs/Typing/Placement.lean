import ExprEngine.Proofs.Parse.Placement
import ExprEngine.Proofs.Typing.Judgement

/-!
# Typing does not look at places

The checker commutes with forgetting spans: the types are the same, and an error blames the same
part for the same cause. The judgement does not look at origins at all.

* `TypeError.unplaced`    an error with its span forgotten;
* `checkTree_unplaced`    the checker on a tree without spans;
* `check_congr`           trees that differ in their spans are typed alike;
* `HasTyping.congr`       trees that differ in their origins have the same types.
-/

namespace ExprEngine

/-- An error with its span forgotten. -/
def TypeError.unplaced (e : TypeError) : TypeError := { e with span := .zero }

namespace Tree

variable (t : Tree) (cause : TypeCause)

theorem id_unplaced : t.unplaced.id = t.id := by
  rw [id, origin_unplaced]
  rfl

theorem typeError_unplaced : t.unplaced.typeError cause = (t.typeError cause).unplaced := by
  rw [typeError, id_unplaced, origin_unplaced]
  rfl

theorem typeErrorOver_unplaced :
    t.unplaced.typeErrorOver cause = (t.typeErrorOver cause).unplaced := by
  rw [typeErrorOver, id_unplaced, extent_unplaced]
  rfl

end Tree

theorem blame_unplaced (whole left right : Tree) (cause : TypeCause) :
    blame whole.unplaced left.unplaced right.unplaced cause = (blame whole left right cause).unplaced := by
  cases cause <;> simp only [blame, Tree.typeError_unplaced, Tree.typeErrorOver_unplaced]

theorem raise_unplaced {α : Type} {f f' : TypeCause → TypeError} (x : Except TypeCause α)
    (h : ∀ cause, f' cause = (f cause).unplaced) :
    raise f' x = mapOutcome TypeError.unplaced id (raise f x) := by
  cases x with
  | ok a => rfl
  | error c => exact congrArg Except.error (h c)

variable {r : Registry}

theorem Tree.isHole_unplaced (t : Tree) : t.unplaced.isHole = t.isHole := isHole_mapOrigin t

mutual

/-- The checker does not look at spans. -/
theorem checkTree_unplaced : ∀ t : Tree,
    checkTree r t.unplaced = mapOutcome TypeError.unplaced id (checkTree r t)
  | .hole => by
    rw [Tree.unplaced_hole, checkTree]
    rfl
  | .constant o v => by
    rw [Tree.unplaced_constant, checkTree, checkTree]
    rfl
  | .reference o x => by
    have herror := Tree.typeError_unplaced (.reference o x)
    rw [Tree.unplaced_reference] at herror ⊢
    rw [checkTree, checkTree, herror]
    split <;> rfl
  | .group o x => by
    rw [Tree.unplaced_group, checkTree, checkTree, checkTree_unplaced x]
    refine Eq.symm (mapOutcome_bind fun _ => ?_)
    rfl
  | .cast o target x => by
    have herror := Tree.typeError_unplaced (.cast o target x)
    rw [Tree.unplaced_cast] at herror ⊢
    rw [checkTree, checkTree, herror, x.isHole_unplaced]
    split
    · rfl
    rw [checkTree_unplaced x]
    refine Eq.symm (mapOutcome_bind fun d => ?_)
    show _ = if d.type.castsTo target then _ else Except.error _
    rw [herror]
    split <;> rfl
  | .unary o op x => by
    have herror := Tree.typeError_unplaced (.unary o op x)
    rw [Tree.unplaced_unary] at herror ⊢
    rw [checkTree, checkTree, herror, x.isHole_unplaced]
    split
    · rfl
    rw [checkTree_unplaced x]
    refine Eq.symm (mapOutcome_bind fun d => ?_)
    rw [raise_unplaced (unaryType op (id d).type) x.typeErrorOver_unplaced]
    refine mapOutcome_bind fun ty => ?_
    rfl
  | .choice o c y n => by
    have herror := Tree.typeError_unplaced (.choice o c y n)
    rw [Tree.unplaced_choice] at herror ⊢
    rw [checkTree, checkTree, herror, c.isHole_unplaced, y.isHole_unplaced, n.isHole_unplaced]
    split
    · rfl
    rw [checkTree_unplaced c]
    refine Eq.symm (mapOutcome_bind fun dc => ?_)
    rw [checkTree_unplaced y]
    refine mapOutcome_bind fun dy => ?_
    rw [checkTree_unplaced n]
    refine mapOutcome_bind fun dn => ?_
    show _ = if (!dc.type.isBoolable) = true then Except.error _ else _
    split
    · exact congrArg Except.error (c.typeErrorOver_unplaced _).symm
    · rw [raise_unplaced (branchType (id dy).type (id dn).type) herror]
      refine mapOutcome_bind fun ty => ?_
      rfl
  | .binary o op l x => by
    have herror := Tree.typeError_unplaced (.binary o op l x)
    have hblame := blame_unplaced (.binary o op l x) l x
    rw [Tree.unplaced_binary] at herror hblame ⊢
    rw [checkTree, checkTree, herror, l.isHole_unplaced, x.isHole_unplaced]
    split
    · rfl
    split
    · rw [checkTree_unplaced l]
      refine Eq.symm (mapOutcome_bind fun dl => ?_)
      rw [show l.unplaced.singleVariable? = l.singleVariable? from l.singleVariable?_mapOrigin,
        l.typeErrorOver_unplaced, l.typeError_unplaced]
      split
      · rfl
      split
      · rfl
      rw [checkTree_unplaced x]
      refine mapOutcome_bind fun dx => ?_
      rw [l.typeError_unplaced]
      split
      · rfl
      rename_i v _ _
      rw [raise_unplaced (assignmentType op v.type (id dx).type) hblame]
      refine mapOutcome_bind fun ty => ?_
      rfl
    · rw [checkTree_unplaced l]
      refine Eq.symm (mapOutcome_bind fun dl => ?_)
      rw [checkTree_unplaced x]
      refine mapOutcome_bind fun dx => ?_
      rw [raise_unplaced (infixType op (id dl).type (id dx).type) hblame]
      refine mapOutcome_bind fun ty => ?_
      rfl
  | .call o f args => by
    have herror := Tree.typeError_unplaced (.call o f args)
    rw [Tree.unplaced_call] at herror ⊢
    rw [checkTree, checkTree, herror]
    split
    · rfl
    · rw [checkArguments_unplaced _ 0 args]
      refine Eq.symm (mapOutcome_bind fun records => ?_)
      rfl

theorem checkArguments_unplaced (s : Signature) : ∀ (i : Nat) (args : List Tree),
    checkArguments r s i (args.map Tree.unplaced) =
      mapOutcome TypeError.unplaced id (checkArguments r s i args)
  | _, [] => by
    rw [List.map_nil, checkArguments]
    rfl
  | i, arg :: args => by
    rw [List.map_cons, checkArguments, checkArguments, checkTree_unplaced arg]
    refine Eq.symm (mapOutcome_bind fun d => ?_)
    dsimp only
    rw [arg.typeErrorOver_unplaced]
    show _ = if (!d.type.castsTo _) = true then _ else _
    split
    · rfl
    · rw [checkArguments_unplaced s (i + 1) args]
      refine mapOutcome_bind fun rest => ?_
      rfl

end

/-- Trees that differ in their spans only are typed alike. -/
theorem check_congr {e e' : Expr} (r : Registry) (h : e.unplaced = e'.unplaced) :
    mapOutcome TypeError.unplaced id (check e r) = mapOutcome TypeError.unplaced id (check e' r) := by
  have hcheck : ∀ e : Expr, mapOutcome TypeError.unplaced id (check e r) = check e.unplaced r := by
    intro e
    show _ = (checkTree r e.tree.unplaced).map _
    rw [checkTree_unplaced]
    refine mapOutcome_map fun d => ?_
    rfl
  rw [hcheck, hcheck, h]

/-! ## trees that differ in their origins -/

mutual

/-- Trees that differ in their origins have the same types. -/
theorem HasTyping.congr : ∀ {t t' : Tree} {ty : Typing}, HasTyping r t ty → t.bare = t'.bare →
    HasTyping r t' ty
  | _, _, _, .constant, h => by
    obtain ⟨o', rfl⟩ := Tree.bare_eq_constant h
    exact .constant
  | _, _, _, .reference declared, h => by
    obtain ⟨o', rfl⟩ := Tree.bare_eq_reference h
    exact .reference declared
  | _, _, _, .group inner, h => by
    obtain ⟨o', x', rfl, hx⟩ := Tree.bare_eq_group h
    exact .group (inner.congr hx)
  | _, _, _, .cast operand casts, h => by
    obtain ⟨o', x', rfl, hx⟩ := Tree.bare_eq_cast h
    exact .cast (operand.congr hx) casts
  | _, _, _, .unary operand rule, h => by
    obtain ⟨o', x', rfl, hx⟩ := Tree.bare_eq_unary h
    exact .unary (operand.congr hx) rule
  | _, _, _, .choice condition yes no truth rule, h => by
    obtain ⟨o', c', y', n', rfl, hc, hy, hn⟩ := Tree.bare_eq_choice h
    exact .choice (condition.congr hc) (yes.congr hy) (no.congr hn) truth rule
  | _, _, _, .operate plain left right rule, h => by
    obtain ⟨o', l', x', rfl, hl, hx⟩ := Tree.bare_eq_binary h
    exact .operate plain (left.congr hl) (right.congr hx) rule
  | _, _, _, .assign assigns declared writable value rule, h => by
    obtain ⟨o', l', x', rfl, hl, hx⟩ := Tree.bare_eq_binary h
    obtain ⟨o'', rfl⟩ := Tree.bare_eq_reference hl
    exact .assign assigns declared writable (value.congr hx) rule
  | _, _, _, .call declared passed, h => by
    obtain ⟨o', args', rfl, hargs⟩ := Tree.bare_eq_call h
    exact .call declared (passed.congr hargs)

theorem HasArguments.congr : ∀ {s : Signature} {i : Nat} {args args' : List Tree},
    HasArguments r s i args → args.map Tree.bare = args'.map Tree.bare →
    HasArguments r s i args'
  | _, _, _, _, .nil, h => by
    obtain rfl := List.map_eq_nil_iff.1 h.symm
    exact .nil
  | _, _, _, _, .cons first casts rest, h => by
    obtain ⟨arg', args', rfl, hfirst, hrest⟩ := List.map_eq_cons_iff.1 h.symm
    exact .cons (first.congr hfirst.symm) casts (rest.congr hrest.symm)

end

end ExprEngine
