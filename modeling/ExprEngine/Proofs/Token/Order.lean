import ExprEngine.Proofs.Token.Exact

/-!
# Tokens one behind the other

The spans of a tokenized source follow one another, and even an empty string is told apart from its
neighbours by its quotes. So the span of a token tells which one it is.

* `Span.Precedes`       a span that starts and ends before another one, and does not reach into it;
* `Laid`                lexemes one behind the other;
* `Laid.eq_of_start`    the start of its span tells which lexeme it is;
* `laid_of_tokenize`    those of a source are.
-/

namespace ExprEngine

/-- A span that starts and ends before another one, and does not reach into it. -/
structure Span.Precedes (a b : Span) : Prop where
  start : a.start < b.start
  stop : a.stop < b.stop
  apart : a.stop ≤ b.start

/-- Lexemes one behind the other, their spans in order. -/
structure Laid (ls : List Lexeme) : Prop where
  upright : ∀ l ∈ ls, l.span.start ≤ l.span.stop
  ordered : ls.Pairwise fun a b => a.span.Precedes b.span

namespace Laid

variable {as bs ls ms : List Lexeme}

theorem sublist (h : Laid ls) (hms : ms.Sublist ls) : Laid ms :=
  ⟨fun l hl => h.upright l (hms.subset hl), h.ordered.sublist hms⟩

theorem left (h : Laid (as ++ bs)) : Laid as := h.sublist (List.sublist_append_left as bs)

theorem right (h : Laid (as ++ bs)) : Laid bs := h.sublist (List.sublist_append_right as bs)

theorem tail {l : Lexeme} (h : Laid (l :: ls)) : Laid ls := h.sublist (List.sublist_cons_self l ls)

theorem precedes (h : Laid (as ++ bs)) {a b : Lexeme} (ha : a ∈ as) (hb : b ∈ bs) :
    a.span.Precedes b.span :=
  (List.pairwise_append.1 h.ordered).2.2 a ha b hb

/-- No two lexemes start at one offset. -/
theorem eq_of_start (h : Laid ls) {a b : Lexeme} (ha : a ∈ ls) (hb : b ∈ ls)
    (hab : a.span.start = b.span.start) : a = b := by
  obtain ⟨front, back, rfl⟩ := List.append_of_mem ha
  rcases List.mem_append.1 hb with hfront | hback
  · have hbefore := (h.precedes hfront (List.mem_cons_self ..)).start
    omega
  rcases List.mem_cons.1 hback with rfl | hback
  · rfl
  · have hbehind := (List.rel_of_pairwise_cons h.right.ordered hback).start
    omega

end Laid

/-! ## the tokens of words -/

theorem TokenKind.Spells.ne_nil {kind : TokenKind} {text : Text} (h : kind.Spells text)
    (hkind : kind ≠ .string) : text ≠ [] := by
  rintro rfl
  cases kind with
  | operator =>
    obtain ⟨c, cs, htext, -⟩ := Scan.plain_of_operator h
    cases htext
  | parenthesis => rcases h with h | h <;> cases h
  | comma => cases h
  | number =>
    have hnumeral : Numeral [] := h
    generalize htext : ([] : Text) = text at hnumeral
    cases hnumeral with
    | whole signed digits nonempty => exact nonempty (List.append_eq_nil_iff.1 htext.symm).2
    | pointed => simp at htext
    | fraction => cases htext
  | string => exact hkind rfl
  | identifier => cases h

/-- The span of a word's token lies behind what is written before the word and before what is
written behind it. -/
structure Word.Holds (offset : Nat) (w : Word) (s : Span) : Prop where
  behind : offset ≤ s.start
  upright : s.start ≤ s.stop
  starts : s.start < w.stop offset
  ends : offset < s.stop
  before : s.stop ≤ w.stop offset

theorem Word.holds_token (offset : Nat) (w : Word) (h : w.kind.Spells w.text) :
    w.Holds offset (w.token offset).span := by
  have hstart : offset ≤ w.start offset := Nat.le_add_right ..
  by_cases hkind : w.kind = .string
  · have hlexeme : Text.byteLength w.lexeme = 1 + (Text.byteLength w.text + 1) := by
      rw [Word.lexeme, TokenKind.lexeme, if_pos hkind, Text.byteLength_cons, Text.byteLength_append]
      rfl
    have htoken : w.token offset =
        ⟨w.kind, ⟨w.start offset + 1, w.start offset + 1 + Text.byteLength w.text⟩⟩ := by
      rw [Word.token, if_pos hkind]
    rw [htoken]
    constructor <;> simp only [Word.stop, hlexeme] <;> omega
  · have hlexeme : w.lexeme = w.text := by rw [Word.lexeme, TokenKind.lexeme, if_neg hkind]
    have hlength : 0 < Text.byteLength w.text := by
      obtain ⟨c, cs, htext⟩ := List.exists_cons_of_ne_nil (h.ne_nil hkind)
      rw [htext, Text.byteLength_cons]
      exact Nat.add_pos_left (Nat.pos_of_ne_zero (Text.utf8Size_ne_zero c)) _
    have htoken : w.token offset =
        ⟨w.kind, ⟨w.start offset, w.start offset + Text.byteLength w.text⟩⟩ := by
      rw [Word.token, if_neg hkind]
      rfl
    rw [htoken]
    constructor <;> simp only [Word.stop, hlexeme] <;> omega

/-- The tokens of words that fit lie behind the offset of the first word, one behind the other. -/
theorem tokensOf_laid {previous : Option TokenKind} {ws : List Word} {tail : Text} (offset : Nat)
    (h : Fitting previous ws tail) :
    (∀ t ∈ tokensOf offset ws,
      offset ≤ t.span.start ∧ offset < t.span.stop ∧ t.span.start ≤ t.span.stop) ∧
      (tokensOf offset ws).Pairwise fun a b => a.span.Precedes b.span := by
  induction ws generalizing previous offset with
  | nil => exact ⟨nofun, List.Pairwise.nil⟩
  | cons w ws ih =>
    obtain ⟨hbehind, hordered⟩ := ih (w.stop offset) h.2
    have hw : w.Holds offset (w.token offset).span := w.holds_token offset h.1.spelled
    have hstop : offset ≤ w.stop offset :=
      Nat.le_trans (Nat.le_add_right ..) (Nat.le_add_right ..)
    rw [tokensOf]
    refine ⟨List.forall_mem_cons.2 ⟨⟨hw.behind, hw.ends, hw.upright⟩, fun t ht => ?_⟩,
      List.pairwise_cons.2 ⟨fun t ht => ?_, hordered⟩⟩
    · obtain ⟨hstart, hends, hupright⟩ := hbehind t ht
      exact ⟨Nat.le_trans hstop hstart, Nat.lt_of_le_of_lt hstop hends, hupright⟩
    · obtain ⟨hstart, hends, -⟩ := hbehind t ht
      exact ⟨Nat.lt_of_lt_of_le hw.starts hstart, Nat.lt_of_le_of_lt hw.before hends,
        Nat.le_trans hw.before hstart⟩

/-! ## the lexemes of a source -/

theorem map_span_lexemesFrom (source : Text) (i : Nat) (ts : List Token) :
    (TokenStream.lexemesFrom source i ts).map Lexeme.span = ts.map Token.span := by
  induction ts generalizing i with
  | nil => rfl
  | cons t ts ih =>
    rw [TokenStream.lexemesFrom, List.map_cons, List.map_cons, ih]
    rfl

/-- The lexemes of a tokenized source follow one another. -/
theorem laid_of_tokenize {source : String} {ts : List Token} (h : tokenize source = .ok ts) :
    Laid (TokenStream.lexemes ⟨source.toList, ts⟩) := by
  obtain ⟨ws, tail, -, hfitting, rfl⟩ := written_of_tokenize h
  obtain ⟨hbehind, hordered⟩ := tokensOf_laid 0 hfitting
  have hspans := map_span_lexemesFrom source.toList 0 (tokensOf 0 ws)
  constructor
  · intro l hl
    have hspan : l.span ∈ (tokensOf 0 ws).map Token.span := by
      rw [← hspans]
      exact List.mem_map_of_mem hl
    obtain ⟨t, ht, hspan⟩ := List.mem_map.1 hspan
    rw [← hspan]
    exact (hbehind t ht).2.2
  · rw [← List.pairwise_map (f := Lexeme.span) (R := Span.Precedes)]
    show ((TokenStream.lexemesFrom source.toList 0 (tokensOf 0 ws)).map Lexeme.span).Pairwise _
    rw [hspans, List.pairwise_map]
    exact hordered

end ExprEngine
