import ExprEngine.Operator
import ExprEngine.Proofs.Token.Lexemes
import Mathlib.Logic.Basic

/-!
# How tokens are written

A source is written as words, each of them a lexeme with the blanks in front of it, and blanks
after the last one. Which texts a kind of token has, and what may stand directly behind it, is said
here without the scanner.

* `TokenKind.Spells`   the texts of a kind;
* `TokenKind.Ends`     what a token may have directly behind it;
* `TokenKind.Signs`    when a sign or a point belongs to the number behind it;
* `written`            the text of some words and of the blanks behind them;
* `Fitting`            words each of which fits its place;
* `tokensOf`           the tokens of some words;
* `parts_tokensOf`     their kinds and the texts that they cover.
-/

namespace ExprEngine

/-! ## spelling -/

/-- A text of digits. -/
def Text.Digits (ds : Text) : Prop := ∀ c ∈ ds, c.isDigit = true

/-- The texts of numbers: digits, after an optional sign, with an optional fraction behind them, or
a fraction of its own. -/
inductive Numeral : Text → Prop
  | whole {sign ds : Text} (signed : sign = [] ∨ sign = ['-']) (digits : ds.Digits)
      (nonempty : ds ≠ []) : Numeral (sign ++ ds)
  | pointed {sign ds fs : Text} (signed : sign = [] ∨ sign = ['-']) (digits : ds.Digits)
      (nonempty : ds ≠ []) (fraction : fs.Digits) : Numeral (sign ++ (ds ++ '.' :: fs))
  | fraction {fs : Text} (fraction : fs.Digits) (nonempty : fs ≠ []) : Numeral ('.' :: fs)

/-- The texts that may stand between quotes: a backslash comes with the character after it. -/
inductive Quotable : Text → Prop
  | nil : Quotable []
  | plain {c : Char} {cs : Text} (quote : c ≠ '"') (backslash : c ≠ '\\') (rest : Quotable cs) :
      Quotable (c :: cs)
  | escape {c : Char} {cs : Text} (rest : Quotable cs) : Quotable ('\\' :: c :: cs)

namespace TokenKind

/-- The texts that a kind of token may have. -/
def Spells : TokenKind → Text → Prop
  | operator, text => text = branchSymbol.toList ∨ ∃ o : Operator, text = o.symbol.toList
  | parenthesis, text => text = ['('] ∨ text = [')']
  | comma, text => text = [',']
  | number, text => Numeral text
  | string, text => Quotable text
  | identifier, text => Text.isName text = true

/-- What may stand directly behind a token: nothing that would make it a longer one. -/
def Ends : TokenKind → Text → Text → Prop
  | operator, text, rest => ∀ c, rest.head? = some c → ∀ o : Operator, o.symbol.toList ≠ text ++ [c]
  | number, text, rest =>
    rest.head?.any Text.isNameRest = false ∧ ('.' ∉ text → rest.head? ≠ some '.')
  | identifier, _, rest => rest.head?.any Text.isNameRest = false
  | _, _, _ => True

/-- A number has a sign or starts with a point only if the token before it, where there is one, ends
no operand. There a minus sign before a digit always belongs to the number. -/
def Signs : TokenKind → Option TokenKind → Text → Text → Prop
  | number, previous, text, _ =>
    text.head? = some '-' ∨ text.head? = some '.' → ∀ k, previous = some k → k.endsOperand = false
  | operator, previous, text, rest =>
    text = ['-'] → rest.head?.any Char.isDigit = true → ∃ k, previous = some k ∧ k.endsOperand = true
  | _, _, _, _ => True

end TokenKind

/-! ## words -/

/-- A space or a tab. -/
def Blank (c : Char) : Prop := c = ' ' ∨ c = '\t'

/-- A token as it is written, with the blanks in front of it. -/
structure Word where
  gap : Text
  kind : TokenKind
  /-- the text of the token, for a string what is between its quotes -/
  text : Text

/-- The characters of a token: its text, a string between its quotes. -/
def TokenKind.lexeme (kind : TokenKind) (text : Text) : Text :=
  if kind = .string then '"' :: (text ++ ['"']) else text

namespace Word

def lexeme (w : Word) : Text := w.kind.lexeme w.text

/-- A word that fits between the token before it and the text behind it. -/
structure Fits (w : Word) (previous : Option TokenKind) (rest : Text) : Prop where
  gap : ∀ c ∈ w.gap, Blank c
  spelled : w.kind.Spells w.text
  ends : w.kind.Ends w.text rest
  signs : w.kind.Signs previous w.text rest

/-- The offset where the lexeme of a word starts, the word itself being at an offset. -/
def start (offset : Nat) (w : Word) : Nat := offset + Text.byteLength w.gap

/-- The offset behind a word. -/
def stop (offset : Nat) (w : Word) : Nat := w.start offset + Text.byteLength w.lexeme

/-- The token of a word. The span of a string leaves out its quotes. -/
def token (offset : Nat) (w : Word) : Token :=
  let start := w.start offset + if w.kind = .string then 1 else 0
  ⟨w.kind, ⟨start, start + Text.byteLength w.text⟩⟩

end Word

/-- The text of some words, and what follows them. -/
def written : List Word → Text → Text
  | [], tail => tail
  | w :: ws, tail => w.gap ++ (w.lexeme ++ written ws tail)

/-- Words that fit their places, with blanks behind the last one. -/
def Fitting : Option TokenKind → List Word → Text → Prop
  | _, [], tail => ∀ c ∈ tail, Blank c
  | previous, w :: ws, tail => w.Fits previous (written ws tail) ∧ Fitting (some w.kind) ws tail

/-- The tokens of some words, the first of them at an offset. -/
def tokensOf : Nat → List Word → List Token
  | _, [] => []
  | offset, w :: ws => w.token offset :: tokensOf (w.stop offset) ws

/-! ## the text that a span covers -/

theorem Word.slice_token (w : Word) (before rest : Text) :
    (w.token (Text.byteLength before)).span.slice (before ++ (w.gap ++ (w.lexeme ++ rest))) =
      w.text := by
  by_cases hs : w.kind = .string
  · have hsource : before ++ (w.gap ++ (w.lexeme ++ rest)) =
        (before ++ w.gap ++ ['"']) ++ (w.text ++ '"' :: rest) := by
      simp [Word.lexeme, TokenKind.lexeme, hs]
    have hstart : w.start (Text.byteLength before) + 1 =
        Text.byteLength (before ++ w.gap ++ ['"']) := by
      rw [Text.byteLength_append, Text.byteLength_append]
      rfl
    show Span.slice _ _ = _
    simp only [Word.token, if_pos hs]
    rw [hsource, hstart, Tokenizer.slice_piece]
  · have hsource : before ++ (w.gap ++ (w.lexeme ++ rest)) =
        (before ++ w.gap) ++ (w.text ++ rest) := by
      simp [Word.lexeme, TokenKind.lexeme, hs]
    have hstart : w.start (Text.byteLength before) + 0 = Text.byteLength (before ++ w.gap) := by
      rw [Text.byteLength_append]
      rfl
    simp only [Word.token, if_neg hs]
    rw [hsource, hstart, Tokenizer.slice_piece]

/-- The span of a token covers the text of its word. -/
theorem slice_tokensOf (before : Text) (ws : List Word) (tail : Text) :
    (tokensOf (Text.byteLength before) ws).map
        (fun t => t.span.slice (before ++ written ws tail)) = ws.map Word.text := by
  induction ws generalizing before with
  | nil => rfl
  | cons w ws ih =>
    have hstop : w.stop (Text.byteLength before) =
        Text.byteLength (before ++ w.gap ++ w.lexeme) := by
      rw [Text.byteLength_append, Text.byteLength_append]
      rfl
    have hsource : before ++ written (w :: ws) tail =
        (before ++ w.gap ++ w.lexeme) ++ written ws tail := by
      simp [written]
    rw [tokensOf, List.map_cons, List.map_cons, written, w.slice_token before (written ws tail),
      hstop]
    have hrest := ih (before ++ w.gap ++ w.lexeme)
    rw [← hsource] at hrest
    exact congrArg (w.text :: ·) hrest

theorem kind_tokensOf (offset : Nat) (ws : List Word) :
    (tokensOf offset ws).map Token.kind = ws.map Word.kind := by
  induction ws generalizing offset with
  | nil => rfl
  | cons w ws ih => rw [tokensOf, List.map_cons, List.map_cons, ih]; rfl

/-- Every token is that of a word, which is spelled as its kind asks and stands where the token
does. -/
theorem word_of_mem_tokensOf {previous : Option TokenKind} {ws : List Word} {tail : Text}
    (h : Fitting previous ws tail) (before : Text) {t : Token}
    (ht : t ∈ tokensOf (Text.byteLength before) ws) :
    ∃ (w : Word) (front behind : Text), w.kind.Spells w.text ∧
      before ++ written ws tail = front ++ (w.gap ++ (w.lexeme ++ behind)) ∧
      t = w.token (Text.byteLength front) := by
  induction ws generalizing previous before with
  | nil => cases ht
  | cons w ws ih =>
    obtain ⟨hw, hws⟩ := h
    have hstop : w.stop (Text.byteLength before) =
        Text.byteLength (before ++ w.gap ++ w.lexeme) := by
      rw [Text.byteLength_append, Text.byteLength_append]
      rfl
    rw [tokensOf, hstop] at ht
    rcases List.mem_cons.1 ht with rfl | ht
    · exact ⟨w, before, written ws tail, hw.spelled, rfl, rfl⟩
    · obtain ⟨w', front, behind, hspelled, hsource, hplace⟩ := ih hws _ ht
      refine ⟨w', front, behind, hspelled, ?_, hplace⟩
      rw [← hsource]
      simp [written]

/-- The kinds and texts of the tokens of some words. -/
theorem parts_tokensOf {source : Text} {ws : List Word} {tail : Text} (h : source = written ws tail) :
    (tokensOf 0 ws).map (fun t => (t.kind, t.span.slice source)) =
      ws.map fun w => (w.kind, w.text) := by
  have hslices : (tokensOf 0 ws).map (fun t => t.span.slice source) = ws.map Word.text := by
    rw [h]
    exact slice_tokensOf [] ws tail
  have hzip := congrArg₂ (List.zipWith Prod.mk) (kind_tokensOf 0 ws) hslices
  rwa [List.zipWith_map, List.zipWith_map, List.zipWith_self, List.zipWith_self] at hzip

end ExprEngine
