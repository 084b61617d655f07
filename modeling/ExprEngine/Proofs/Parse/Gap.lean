import ExprEngine.Proofs.Extent
import ExprEngine.Proofs.Parse.Fault

/-!
# Where an operator is missing

The error about a missing operator refers to the first of two operands by its extent, and points at
the second by the token of its topmost part. Where that part is an operator between operands, its
left operand lies between the two.

* `Tree.leading?`               the operand before the mark of a part;
* `Phrase.marked`               a phrase, its leading operand and its mark told apart;
* `ParseError.Juxtaposes`       an error about two operands, told by their lexemes;
* `missing_operator_exact`      every error about a missing operator is one;
* `missing_operator_off_gap`    it need not point behind the first operand.
-/

namespace ExprEngine

/-- The operand that a part has before its own mark: that on the left of an operator between
operands. -/
def Tree.leading? : Tree → Option Tree
  | .binary _ _ l _ => some l
  | .choice _ c _ _ => some c
  | _ => none

/-- A lexeme behind one span and before another one. -/
def Lexeme.Between (l : Lexeme) (a b : Span) : Prop := a.Precedes l.span ∧ l.span.Precedes b

instance (a b : Span) : Decidable (a.Precedes b) :=
  decidable_of_iff (a.start < b.start ∧ a.stop < b.stop ∧ a.stop ≤ b.start)
    ⟨fun ⟨start, stop, apart⟩ => ⟨start, stop, apart⟩, fun h => ⟨h.start, h.stop, h.apart⟩⟩

instance (l : Lexeme) (a b : Span) : Decidable (l.Between a b) :=
  inferInstanceAs (Decidable (_ ∧ _))

variable {r : Registry}

/-! ## marks of phrases -/

/-- A phrase whose part has its mark behind the leading operand. -/
structure Marked (r : Registry) (t : Tree) (led : List Lexeme) (mark : Lexeme) : Prop where
  leading : ∀ x, t.leading? = some x → Phrase r x led
  leads : led = [] ↔ t.leading? = none
  token : t.origin.token = mark.index
  starts : t.origin.span.start = mark.span.start
  covers : mark.span.stop ≤ t.origin.span.stop

namespace Marked

variable {t : Tree} {mark : Lexeme}

theorem first (bare : t.leading? = none) (token : t.origin.token = mark.index)
    (starts : t.origin.span.start = mark.span.start)
    (covers : mark.span.stop ≤ t.origin.span.stop) : Marked r t [] mark where
  leading _ hx := nomatch bare.symm.trans hx
  leads := iff_of_true rfl bare
  token := token
  starts := starts
  covers := covers

theorem behind {x : Tree} {led : List Lexeme} (leading : t.leading? = some x)
    (operand : Phrase r x led) (token : t.origin.token = mark.index)
    (span : t.origin.span = mark.span) : Marked r t led mark where
  leading _ hy := Option.some.inj (leading.symm.trans hy) ▸ operand
  leads := iff_of_false operand.ne_nil fun hbare => nomatch leading.symm.trans hbare
  token := token
  starts := congrArg Span.start span
  covers := Nat.le_of_eq (congrArg Span.stop span.symm)

end Marked

/-- Every phrase is the lexemes of the leading operand, if there is one, then the mark of its part,
then the rest. -/
theorem Phrase.marked {t : Tree} {ls : List Lexeme} (h : Phrase r t ls) (laid : Laid ls) :
    ∃ led mark rest, ls = led ++ mark :: rest ∧ Marked r t led mark := by
  -- the span of brackets starts with the opening one
  have hmerge : ∀ {opening close : Lexeme} (between : List Lexeme),
      Laid (opening :: (between ++ [close])) →
        (opening.span.merge close.span).start = opening.span.start := fun _ hlaid =>
    Nat.min_eq_left (Nat.le_of_lt
      (List.rel_of_pairwise_cons hlaid.ordered (by simp)).start)
  cases h with
  | number => exact ⟨[], _, [], rfl, .first rfl rfl rfl (Nat.le_refl _)⟩
  | string => exact ⟨[], _, [], rfl, .first rfl rfl rfl (Nat.le_refl _)⟩
  | boolean => exact ⟨[], _, [], rfl, .first rfl rfl rfl (Nat.le_refl _)⟩
  | reference => exact ⟨[], _, [], rfl, .first rfl rfl rfl (Nat.le_refl _)⟩
  | @unary _ l _ _ xs => exact ⟨[], l, xs, rfl, .first rfl rfl rfl (Nat.le_refl _)⟩
  | @binary _ l _ _ _ as bs _ left => exact ⟨as, l, bs, rfl, .behind rfl left rfl rfl⟩
  | @choice _ l colon _ _ _ cs ys ns _ _ condition =>
    exact ⟨cs, l, ys ++ colon :: ns, rfl, .behind rfl condition rfl rfl⟩
  | @cast _ opening name close _ _ xs =>
    have hlaid : Laid ([opening, name, close] ++ xs) := laid
    exact ⟨[], opening, _, rfl,
      .first rfl rfl (hmerge [name] hlaid.left) (Nat.le_max_left _ _)⟩
  | @group _ opening close _ xs =>
    exact ⟨[], opening, _, rfl, .first rfl rfl (hmerge _ laid) (Nat.le_max_left _ _)⟩
  | @call _ name opening close _ _ _ ls =>
    exact ⟨[], name, _, rfl,
      .first rfl rfl (hmerge (opening :: ls) laid) (Nat.le_max_left _ _)⟩

/-! ## two operands one behind the other -/

/-- An error about two operands with no operator between them. It points at the mark of the second
one; between that and the first operand lies exactly what the second has before its mark. -/
structure ParseError.Juxtaposes (r : Registry) (ls : List Lexeme) (e : ParseError) (a b : Tree)
    (first led : List Lexeme) (mark : Lexeme) (rest : List Lexeme) : Prop where
  adjacent : first ++ (led ++ mark :: rest) <:+: ls
  left : Phrase r a first
  right : Phrase r b (led ++ mark :: rest)
  leading : ∀ x, b.leading? = some x → Phrase r x led
  leads : led = [] ↔ b.leading? = none
  names : e = ⟨.missingOperator, some mark.index, b.origin.span, some a.extent⟩
  starts : e.span.start = mark.span.start
  previous : Spanned first a.extent
  between : ∀ l ∈ ls, l.Between a.extent e.span ↔ l ∈ led

/-- Between a span of some lexemes and one that starts with a mark behind them lie the lexemes up to
the mark. -/
theorem Spanned.between {ls first led rest : List Lexeme} {mark l : Lexeme} {a b : Span}
    (laid : Laid ls) (hls : first ++ (led ++ mark :: rest) <:+: ls) (ha : Spanned first a)
    (hstart : b.start = mark.span.start) (hstop : mark.span.stop ≤ b.stop) (hl : l ∈ ls) :
    l.Between a b ↔ l ∈ led := by
  obtain ⟨before, behind, rfl⟩ := hls
  have hpiece : Laid (first ++ (led ++ mark :: rest)) := laid.left.right
  obtain ⟨⟨head, hhead, hheadStart⟩, last, hlast, hlastStop⟩ := id ha
  constructor
  · rintro ⟨hbehind, hbefore⟩
    have hnotMark : ¬ mark.span.start ≤ l.span.start := by
      rw [← hstart]
      exact Nat.not_le.2 hbefore.start
    rw [List.append_assoc] at hl laid
    rcases List.mem_append.1 hl with hl | hl
    · have := (laid.precedes hl (b := head) (by simp [List.mem_of_mem_head? hhead])).start
      have := hbehind.start
      omega
    rcases List.mem_append.1 hl with hl | hl
    · rcases List.mem_append.1 hl with hl | hl
      · have := (ha.covers hpiece.left hl).2
        have := hbehind.stop
        omega
      rcases List.mem_append.1 hl with hl | hl
      · exact hl
      rcases List.mem_cons.1 hl with rfl | hl
      · exact absurd (Nat.le_refl _) hnotMark
      · have hafter := List.rel_of_pairwise_cons hpiece.right.right.ordered hl
        exact absurd (Nat.le_of_lt hafter.start) hnotMark
    · have hafter := (laid.right.precedes (a := mark) (by simp) hl).start
      exact absurd (Nat.le_of_lt hafter) hnotMark
  · intro hl
    have hbehind := hpiece.precedes (List.mem_of_getLast? hlast) (List.mem_append_left _ hl)
    have hhead := hpiece.precedes (List.mem_of_mem_head? hhead) (List.mem_append_left _ hl)
    have hbefore := hpiece.right.precedes hl (List.mem_cons_self ..)
    refine ⟨⟨hheadStart ▸ hhead.start, hlastStop ▸ hbehind.stop, hlastStop ▸ hbehind.apart⟩, ?_⟩
    exact ⟨hstart ▸ hbefore.start, Nat.lt_of_lt_of_le hbefore.stop hstop, hstart ▸ hbefore.apart⟩

variable {limits : Limits}

/-- An error about a missing operator is about two operands one behind the other. It refers to the
extent of the first and points at the mark of the second, so the tokens between them are those of
the second's leading operand: none exactly if the second is no operator between operands. -/
theorem missing_operator_exact {source : String} {tokens : List Token}
    (ht : tokenize source = .ok tokens) {e : ParseError}
    (h : parse ⟨source.toList, tokens⟩ r limits = .error e) (hcause : e.cause = .missingOperator) :
    ∃ a b first led mark rest,
      e.Juxtaposes r (TokenStream.lexemes ⟨source.toList, tokens⟩) a b first led mark rest := by
  have laid := laid_of_tokenize ht
  cases (parse_explained ⟨source.toList, tokens⟩).of_error h with
  | @apart a b first second adjacent left right =>
    have hpiece := laid.sublist adjacent.sublist
    obtain ⟨led, mark, rest, rfl, hmarked⟩ := right.marked hpiece.right
    have hprevious := left.extent hpiece.left
    refine ⟨a, b, first, led, mark, rest, adjacent, left, right, hmarked.leading, hmarked.leads, ?_,
      hmarked.starts, hprevious, fun l hl => ?_⟩
    · rw [← hmarked.token]
      rfl
    · exact hprevious.between laid adjacent hmarked.starts hmarked.covers hl
  | constant => cases hcause
  | other cause => exact absurd hcause cause.1

/-- Two operands without an operator between them, the second a sum. -/
def adjoinedSource : String := "1 2 + 3"

def adjoinedTokens : List Token :=
  [⟨.number, ⟨0, 1⟩⟩, ⟨.number, ⟨2, 3⟩⟩, ⟨.operator, ⟨4, 5⟩⟩, ⟨.number, ⟨6, 7⟩⟩]

theorem tokenize_adjoined : tokenize adjoinedSource = .ok adjoinedTokens := by decide +kernel

def adjoinedError : ParseError := ⟨.missingOperator, some 2, ⟨4, 5⟩, some ⟨0, 1⟩⟩

theorem parse_adjoined :
    parse ⟨adjoinedSource.toList, adjoinedTokens⟩ sampleRegistry {} = .error adjoinedError := rfl

theorem missing_operator_exact_adjoined :
    ∃ a b first led mark rest,
      adjoinedError.Juxtaposes sampleRegistry
        (TokenStream.lexemes ⟨adjoinedSource.toList, adjoinedTokens⟩) a b first led mark rest :=
  missing_operator_exact tokenize_adjoined parse_adjoined rfl

/-- Not every error about a missing operator points at the gap: here the left operand of the sum
lies between. -/
theorem missing_operator_off_gap :
    ¬ ∀ (source : String) (tokens : List Token) (r : Registry) (limits : Limits) (e : ParseError),
      tokenize source = .ok tokens → parse ⟨source.toList, tokens⟩ r limits = .error e →
      e.cause = .missingOperator →
      ∃ s, e.related = some s ∧
        ∀ l ∈ TokenStream.lexemes ⟨source.toList, tokens⟩, ¬ l.Between s e.span := by
  intro hall
  obtain ⟨s, hs, hnone⟩ := hall _ _ _ _ _ tokenize_adjoined parse_adjoined rfl
  cases hs
  exact hnone ⟨1, .number, ⟨2, 3⟩, "2"⟩ (by decide) (by decide)

end ExprEngine
