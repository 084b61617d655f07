import ExprEngine.Proofs.Parse.Step
import ExprEngine.Proofs.Registry

/-!
# Brackets around a phrase

The parentheses of a phrase match, so looking for the end of a bracket passes over the phrases in
it. A name in brackets is a phrase only when it is not the name of a type.

* `Balanced`               lexemes that the search for a closing parenthesis passes over;
* `Phrase.balanced`        a phrase is balanced;
* `closing?_brackets`      the end of a bracket with balanced lexemes in it;
* `castTarget?_group`      a bracket around a phrase is no cast.
-/

namespace ExprEngine

/-! ## balanced lexemes -/

/-- Lexemes that the search for a closing parenthesis passes over. -/
def Balanced (ls : List Lexeme) : Prop :=
  ∀ depth ys, closing? (depth + 1) (ls ++ ys) = closing? (depth + 1) ys

theorem Balanced.nil : Balanced [] := fun _ _ => rfl

theorem Balanced.append {as bs : List Lexeme} (ha : Balanced as) (hb : Balanced bs) :
    Balanced (as ++ bs) := by
  intro depth ys
  rw [List.append_assoc, ha, hb]

theorem Balanced.cons {u : Lexeme} (hu : u.kind ≠ .parenthesis) {ls : List Lexeme}
    (h : Balanced ls) : Balanced (u :: ls) := by
  intro depth ys
  rw [List.cons_append, closing?, if_pos hu, h]

theorem Balanced.brackets {opening close : Lexeme} (hk : opening.kind = .parenthesis)
    (ho : opening.isOpening = true) (hc : close.Closes) {ls : List Lexeme} (h : Balanced ls) :
    Balanced (opening :: (ls ++ [close])) := by
  intro depth ys
  rw [List.cons_append, closing?, if_neg (not_not.2 hk), if_pos ho, List.append_assoc, h,
    List.cons_append, List.nil_append, closing?, if_neg (not_not.2 hc.1),
    if_neg (by rw [hc.2]; exact Bool.false_ne_true)]
  exact if_neg (Nat.succ_ne_zero depth)

/-- The end of a bracket with balanced lexemes in it. -/
theorem closing?_brackets {opening close : Lexeme} (hk : opening.kind = .parenthesis)
    (ho : opening.isOpening = true) (hc : close.Closes) {ls : List Lexeme} (h : Balanced ls)
    (ys : List Lexeme) : closing? 0 (opening :: (ls ++ close :: ys)) = some close := by
  rw [closing?, if_neg (not_not.2 hk), if_pos ho, h, closing?, if_neg (not_not.2 hc.1),
    if_neg (by rw [hc.2]; exact Bool.false_ne_true)]
  exact if_pos rfl

theorem Lexeme.Signs.ne_parenthesis {l : Lexeme} {s : String} (h : l.Signs s) :
    l.kind ≠ .parenthesis := by
  rw [h.1]
  decide

variable {r : Registry}

mutual

/-- A phrase is balanced. -/
theorem Phrase.balanced : ∀ {t : Tree} {ls : List Lexeme}, Phrase r t ls →
    (∀ l ∈ ls, l.Proper) → Balanced ls
  | _, _, .number kind _, _ => .cons (by rw [kind]; decide) .nil
  | _, _, .string kind, _ => .cons (by rw [kind]; decide) .nil
  | _, _, .boolean kind _, _ => .cons (by rw [kind]; decide) .nil
  | _, _, .reference kind _, _ => .cons (by rw [kind]; decide) .nil
  | _, _, .unary sign operand, hp =>
    .cons sign.ne_parenthesis (operand.balanced (List.forall_mem_cons.1 hp).2)
  | _, _, .binary sign left right, hp => by
    obtain ⟨ha, hb⟩ := List.forall_mem_append.1 hp
    exact (left.balanced ha).append
      (.cons sign.ne_parenthesis (right.balanced (List.forall_mem_cons.1 hb).2))
  | _, _, .choice sign separator condition yes no, hp => by
    obtain ⟨hc, hs⟩ := List.forall_mem_append.1 hp
    obtain ⟨hy, hn⟩ := List.forall_mem_append.1 (List.forall_mem_cons.1 hs).2
    exact (condition.balanced hc).append (.cons sign.ne_parenthesis ((yes.balanced hy).append
      (.cons separator.ne_parenthesis (no.balanced (List.forall_mem_cons.1 hn).2))))
  | _, _, @Phrase.cast _ _ opening name close _ _ _ bracket opens kind _ closes operand, hp => by
    have hx := operand.balanced fun l hl => hp l (by simp [hl])
    have hc : Balanced (opening :: ([name] ++ [close])) :=
      .brackets bracket opens closes (.cons (by rw [kind]; decide) .nil)
    exact hc.append hx
  | _, _, .group bracket opens closes inner, hp => by
    have hx := inner.balanced fun l hl => hp l (by simp [hl])
    exact .brackets bracket opens closes hx
  | _, _, .call kind opens closes _ _ args _, hp => by
    have hx := args.balanced fun l hl => hp l (by simp [hl])
    have ho := (hp _ (by simp)).opens opens
    exact .cons (by rw [kind]; decide) (.brackets ho.1 opens closes hx)

theorem PhraseList.balanced : ∀ {ts : List Tree} {ls : List Lexeme}, PhraseList r ts ls →
    (∀ l ∈ ls, l.Proper) → Balanced ls
  | _, _, .nil, _ => .nil
  | _, _, .one only, hp => only.balanced hp
  | _, _, .cons first separates rest, hp => by
    obtain ⟨ha, hb⟩ := List.forall_mem_append.1 hp
    exact (first.balanced ha).append
      (.cons (by rw [separates]; decide) (rest.balanced (List.forall_mem_cons.1 hb).2))

end

/-! ## casts and groups -/

/-- No name of a type is a boolean constant. -/
theorem ofName?_of_booleanNamed? {s : String} {v : Bool} (h : booleanNamed? s = some v) :
    ValueType.ofName? s = none := by
  have hs : Text.sameIgnoringCase s "true" = true ∨ Text.sameIgnoringCase s "false" = true := by
    unfold booleanNamed? at h
    split at h
    · exact .inl ‹_›
    split at h
    · exact .inr ‹_›
    · cases h
  refine List.find?_eq_none.2 fun ty _ hty => ?_
  have trans : ∀ {c}, Text.sameIgnoringCase s c = true →
      Text.sameIgnoringCase ty.name c = true := fun hc =>
    beq_iff_eq.2 ((beq_iff_eq.1 hty).trans (beq_iff_eq.1 hc))
  have none_same : ∀ ty ∈ ValueType.all, Text.sameIgnoringCase ty.name "true" = false ∧
      Text.sameIgnoringCase ty.name "false" = false := by decide
  obtain ⟨h1, h2⟩ := none_same ty ty.mem_all
  rcases hs with hs | hs
  · rw [trans hs] at h1
    cases h1
  · rw [trans hs] at h2
    cases h2

theorem unreserved {s : String} (h : isReserved s = false) :
    booleanNamed? s = none ∧ ValueType.ofName? s = none := by
  simpa [isReserved] using h

/-- A phrase that is one name is not the name of a type. -/
theorem Phrase.ofName?_eq_none (hr : r.Declared) {t : Tree} {l : Lexeme} (h : Phrase r t [l])
    (hk : l.kind = .identifier) : ValueType.ofName? l.text = none := by
  rcases h.single_cases with ⟨-, -, -, hname⟩ | ⟨-, x, -, found⟩
  · obtain ⟨b, value⟩ := hname hk
    exact ofName?_of_booleanNamed? value
  · exact (unreserved (hr.variable_unreserved found)).2

/-- A bracket around a phrase is no cast. -/
theorem castTarget?_group (hr : r.Declared) {t : Tree} {xs : List Lexeme} (h : Phrase r t xs)
    {opening close : Lexeme} {i : Nat} {ys zs : List Lexeme}
    (hn : Numbered i (opening :: (xs ++ close :: ys))) :
    ParseState.castTarget? opening close (xs ++ close :: zs) = none := by
  obtain ⟨name, xs', rfl⟩ := List.exists_cons_of_ne_nil h.ne_nil
  rw [List.cons_append, ParseState.castTarget?]
  split
  · rename_i hc
    obtain ⟨ho, hrest⟩ := hn
    have hlen := (Numbered.append.1 hrest).2.1
    rw [List.length_cons] at hlen
    have hnil : xs' = [] := List.length_eq_zero_iff.1 (by omega)
    subst hnil
    exact h.ofName?_eq_none hr hc.2
  · rfl

end ExprEngine
