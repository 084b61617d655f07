import ExprEngine.Proofs.Token.Offsets
import ExprEngine.Token.Literal

/-!
# String literals

Two readers decide what a backslash escapes: the scanner, which looks for the closing quote, and the
expansion of what it found. Both step along the same pieces, a character by itself or one behind a
backslash.

* `Escaping`             the spellings of a text between quotes;
* `Escaping.unescape`    expanding one gives the text back;
* `StringPiece`          a step of a reader;
* `Literal.pieces`       the steps of the expansion;
* `Scan.pieces?`         the steps of the scanner;
* `Scan.pieces?_eq`      they are the same;
* `StringToken`          a string token with its quotes, and the readers in step on it;
* `strings_in_step`      every string token of a source is one.
-/

namespace ExprEngine

/-! ## spellings -/

/-- The escapes that a text may be spelled with: a character, and what stands for it behind a
backslash. -/
def escapes : List (Char × Char) :=
  [('\\', '\\'), ('"', '"'), ('\n', 'n'), ('\r', 'r'), ('\t', 't')]

/-- The spellings of a text between quotes. A backslash and a quote are always escaped; line feed,
carriage return and tab may be. -/
inductive Escaping : Text → Text → Prop
  | nil : Escaping [] []
  | plain {c : Char} {s t : Text} (backslash : c ≠ '\\') (quote : c ≠ '"') (rest : Escaping s t) :
      Escaping (c :: s) (c :: t)
  | escaped {c d : Char} {s t : Text} (pair : (c, d) ∈ escapes) (rest : Escaping s t) :
      Escaping (c :: s) ('\\' :: d :: t)

theorem escapeTarget?_of_mem {c d : Char} (h : (c, d) ∈ escapes) :
    Literal.escapeTarget? d = some c := by
  simp only [escapes, List.mem_cons, Prod.mk.injEq, List.not_mem_nil, or_false] at h
  rcases h with ⟨rfl, rfl⟩ | ⟨rfl, rfl⟩ | ⟨rfl, rfl⟩ | ⟨rfl, rfl⟩ | ⟨rfl, rfl⟩ <;> rfl

namespace Escaping

variable {s t : Text}

/-- Every text has a spelling. -/
theorem total (s : Text) : ∃ t, Escaping s t := by
  induction s with
  | nil => exact ⟨[], .nil⟩
  | cons c s ih =>
    obtain ⟨t, ht⟩ := ih
    by_cases hbackslash : c = '\\'
    · subst hbackslash
      exact ⟨_, .escaped (d := '\\') (by decide) ht⟩
    by_cases hquote : c = '"'
    · subst hquote
      exact ⟨_, .escaped (d := '"') (by decide) ht⟩
    · exact ⟨_, .plain hbackslash hquote ht⟩

/-- A spelling may stand between quotes. -/
theorem quotable (h : Escaping s t) : Quotable t := by
  induction h with
  | nil => exact .nil
  | plain backslash quote _ ih => exact .plain quote backslash ih
  | escaped _ _ ih => exact .escape ih

/-- A spelling stands for its text. -/
theorem unescape (h : Escaping s t) : Literal.unescape t = s := by
  induction h with
  | nil => rfl
  | @plain c s t backslash _ _ ih =>
    rw [Literal.unescape.eq_3 c t fun _ _ hc => absurd hc backslash, ih]
  | escaped pair _ ih => rw [Literal.unescape, escapeTarget?_of_mem pair, ih]

end Escaping

/-! ## steps of the expansion -/

/-- A step of a reader of a string literal: a character by itself, or one behind a backslash. -/
inductive StringPiece
  | plain (c : Char)
  | escaped (c : Char)
deriving DecidableEq, Repr

namespace StringPiece

/-- How a piece is written. -/
def text : StringPiece → Text
  | plain c => [c]
  | escaped c => ['\\', c]

/-- What a piece stands for. -/
def value : StringPiece → Text
  | plain c => [c]
  | escaped c =>
    match Literal.escapeTarget? c with
    | some d => [d]
    | none => ['\\', c]

end StringPiece

namespace Literal

/-- The steps that the expansion of escapes takes. A backslash at the end is a piece by itself. -/
def pieces : Text → List StringPiece
  | [] => []
  | '\\' :: c :: cs => .escaped c :: pieces cs
  | c :: cs => .plain c :: pieces cs

/-- The expansion takes these steps. -/
theorem unescape_pieces (cs : Text) : unescape cs = (pieces cs).flatMap StringPiece.value := by
  fun_induction unescape cs with
  | case1 => rfl
  | case2 c cs d hd ih =>
    rw [pieces, List.flatMap_cons, ← ih, StringPiece.value, hd]
    rfl
  | case3 c cs hc ih =>
    rw [pieces, List.flatMap_cons, ← ih, StringPiece.value, hc]
    rfl
  | case4 c cs hc ih =>
    rw [pieces.eq_3 c cs hc, List.flatMap_cons, ← ih]
    rfl

/-- The pieces of a text make it up. -/
theorem text_pieces (cs : Text) : (pieces cs).flatMap StringPiece.text = cs := by
  fun_induction pieces cs with
  | case1 => rfl
  | case2 c cs ih => exact congrArg ('\\' :: c :: ·) ih
  | case3 c cs hc ih => exact congrArg (c :: ·) ih

theorem pieces_plain {c : Char} (h : c ≠ '\\') (cs : Text) :
    pieces (c :: cs) = .plain c :: pieces cs :=
  pieces.eq_3 c cs fun _ _ hc => absurd hc h

end Literal

/-! ## steps of the scanner -/

namespace Scan

/-- The steps that the scanner takes up to the closing quote, and what follows the quote. -/
def pieces? : Text → Option (List StringPiece × Text)
  | [] => none
  | '"' :: cs => some ([], cs)
  | '\\' :: c :: cs => (pieces? cs).map fun (ps, rest) => (.escaped c :: ps, rest)
  | c :: cs => (pieces? cs).map fun (ps, rest) => (.plain c :: ps, rest)

/-- The scanner takes these steps. -/
theorem content?_pieces (cs : Text) :
    content? cs = (pieces? cs).map fun (ps, rest) => (ps.flatMap StringPiece.text, rest) := by
  fun_induction content? cs with
  | case1 => rfl
  | case2 => rfl
  | case3 c cs ih =>
    rw [ih, pieces?, Option.map_map, Option.map_map]
    rfl
  | case4 c cs hquote hescape ih =>
    rw [ih, pieces?.eq_4 c cs hquote hescape, Option.map_map, Option.map_map]
    rfl

variable {cs text rest : Text}

/-- Scanner and expansion take the same steps. -/
theorem pieces?_eq (h : content? cs = some (text, rest)) :
    pieces? cs = some (Literal.pieces text, rest) := by
  fun_induction content? cs generalizing text with
  | case1 => cases h
  | case2 =>
    cases h
    rfl
  | case3 c cs ih =>
    obtain ⟨⟨t, r⟩, ht, he⟩ := Option.map_eq_some_iff.1 h
    cases he
    rw [pieces?, ih ht]
    rfl
  | case4 c cs hquote hescape ih =>
    obtain ⟨⟨t, r⟩, ht, he⟩ := Option.map_eq_some_iff.1 h
    cases he
    have hplain : c ≠ '\\' := by
      rintro rfl
      cases cs with
      | nil => cases ht
      | cons d ds => exact hescape d ds rfl rfl
    rw [pieces?.eq_4 c cs hquote hescape, ih ht, Literal.pieces_plain hplain]
    rfl

end Scan

/-! ## backslashes in pairs -/

namespace Quotable

variable {text : Text}

/-- No backslash is a piece by itself. -/
theorem paired (h : Quotable text) : .plain '\\' ∉ Literal.pieces text := by
  induction h with
  | nil => exact List.not_mem_nil
  | @plain c cs _ backslash _ ih =>
    rw [Literal.pieces_plain backslash, List.mem_cons, StringPiece.plain.injEq, not_or]
    exact ⟨backslash.symm, ih⟩
  | @escape c cs _ ih =>
    rw [Literal.pieces, List.mem_cons, not_or]
    exact ⟨nofun, ih⟩

/-- The backslashes at the end are even in number. -/
theorem even (h : Quotable text) {front : Text} {n : Nat}
    (htext : text = front ++ List.replicate n '\\') (hfront : front.getLast? ≠ some '\\') :
    n % 2 = 0 := by
  induction h generalizing front n with
  | nil =>
    obtain ⟨-, hn⟩ := List.append_eq_nil_iff.1 htext.symm
    rw [(List.replicate_eq_nil_iff _).1 hn]
  | @plain c cs _ backslash _ ih =>
    cases front with
    | nil =>
      cases n with
      | zero => rfl
      | succ n => exact absurd (List.cons.inj htext).1 backslash
    | cons d front =>
      refine ih (List.cons.inj htext).2 fun hlast => hfront ?_
      rw [List.getLast?_cons, hlast]
      rfl
  | @escape c cs _ ih =>
    cases front with
    | nil =>
      match n with
      | 0 => rfl
      | 1 => cases htext
      | n + 2 =>
        have hrest : cs = [] ++ List.replicate n '\\' := (List.cons.inj (List.cons.inj htext).2).2
        rw [Nat.add_mod_right]
        exact ih hrest nofun
    | cons d front =>
      cases front with
      | nil => exact absurd (congrArg some (List.cons.inj htext).1.symm) hfront
      | cons d' front =>
        refine ih (List.cons.inj (List.cons.inj htext).2).2 fun hlast => hfront ?_
        rw [List.getLast?_cons, List.getLast?_cons, hlast]
        rfl

end Quotable

/-! ## string tokens -/

/-- A string token of a source, with what stands before its opening quote and behind its closing
one. On its text the scanner, by characters and by bytes, and the expansion are in step, and no
backslash is left without a character. -/
structure StringToken (source : Text) (t : Token) (before text behind : Text) : Prop where
  around : source = before ++ '"' :: (text ++ '"' :: behind)
  span : t.span =
    ⟨Text.byteLength before + 1, Text.byteLength before + 1 + Text.byteLength text⟩
  covers : t.span.slice source = text
  made : (Literal.pieces text).flatMap StringPiece.text = text
  scanned : Scan.pieces? (text ++ '"' :: behind) = some (Literal.pieces text, behind)
  bytes : Scan.quoteOffset? (Text.bytes (text ++ '"' :: behind)) = some (Text.byteLength text)
  paired : .plain '\\' ∉ Literal.pieces text
  even : ∀ front n, text = front ++ List.replicate n '\\' → front.getLast? ≠ some '\\' →
    n % 2 = 0

/-- Every string token of a source is read in step. -/
theorem strings_in_step {source : String} {ts : List Token} (h : tokenize source = .ok ts)
    {t : Token} (ht : t ∈ ts) (hkind : t.kind = .string) :
    ∃ before text behind, StringToken source.toList t before text behind := by
  obtain ⟨w, front, behind, hspelled, hsource, rfl⟩ := word_of_tokenize h ht
  have hstring : w.kind = .string := hkind
  have hquotable : Quotable w.text := by
    rw [hstring] at hspelled
    exact hspelled
  have hcontent : Scan.content? (w.text ++ '"' :: behind) = some (w.text, behind) :=
    Scan.content?_iff.2 ⟨hquotable, rfl⟩
  have hlexeme : w.lexeme = '"' :: (w.text ++ ['"']) := by
    rw [Word.lexeme, TokenKind.lexeme, if_pos hstring]
  refine ⟨front ++ w.gap, w.text, behind, ?_, ?_, ?_, Literal.text_pieces w.text,
    Scan.pieces?_eq hcontent, ?_, hquotable.paired, fun _ _ => hquotable.even⟩
  · rw [hsource, hlexeme]
    simp
  · rw [Word.token, if_pos hstring, Word.start, Text.byteLength_append]
  · rw [hsource]
    exact w.slice_token front behind
  · rw [Scan.quoteOffset?_bytes, hcontent]
    rfl

/-- A spelling between quotes is one string token. -/
theorem tokenize_quoted {s t : Text} (h : Escaping s t)
    (hlength : Text.byteLength t ≤ Span.maxOffset - 2) :
    tokenize (String.ofList ('"' :: (t ++ ['"']))) =
      .ok [⟨.string, ⟨1, 1 + Text.byteLength t⟩⟩] := by
  have hfitting : Fitting none [⟨[], .string, t⟩] [] :=
    ⟨⟨nofun, h.quotable, trivial, trivial⟩, nofun⟩
  refine tokenize_written ?_ ?_ hfitting
  · rw [String.toList_ofList, Text.byteLength_cons, Text.byteLength_append]
    have hquotes : '"'.utf8Size + Text.byteLength ['"'] = 2 := rfl
    have hmax : 2 ≤ Span.maxOffset := by decide
    omega
  · rw [String.toList_ofList]
    simp [written, Word.lexeme, TokenKind.lexeme]

end ExprEngine
