import ExprEngine.Token
import ExprEngine.Text.Ascii
import ExprEngine.Text.Escape

/-!
# Cutting text into tokens

Spaces and tabs separate tokens; every other character belongs to one, or is an error. An operator
is the longest one that fits. A `-` or a `.` before a digit starts a number where an operand is
expected, that is unless the token before ended one.

* `Scan`         what stands at the front of a text;
* `Scan.front`   the scan of a text after a token of a given kind.
-/

namespace ExprEngine

/-- Why a text cannot be cut into tokens. -/
inductive LexCause
  /-- a character that starts no token -/
  | invalidChar (found : Char)
  /-- a number that runs into a letter -/
  | invalidIdentifier
  /-- a string that reaches the end of the source -/
  | missingQuote
  /-- a source longer than offsets reach -/
  | sourceTooLong (length : Nat)
deriving DecidableEq, Repr

/-- A scanning error and where it stands. -/
structure LexError where
  cause : LexCause
  span : Span
deriving DecidableEq, Repr

/-- What stands at the front of a text: a token with its text, a string literal with the text
between its quotes, or an error with the text it points at. -/
inductive Scan
  | token (kind : TokenKind) (text rest : Text)
  | quoted (content rest : Text)
  | error (cause : LexCause) (text : Text)
deriving DecidableEq

namespace Scan

/-- A space or a tab. -/
def isBlank (c : Char) : Bool := c == ' ' || c == '\t'

/-- The operators of two characters. -/
def pairs : List (Char × Char) :=
  [('=', '='), ('!', '='), ('>', '='), ('<', '='), ('|', '|'), ('&', '&'), ('+', '='), ('-', '='),
   ('*', '='), ('/', '='), ('|', '='), ('&', '='), ('^', '=')]

/-- The operators of one character, and the sign between the branches of a choice. -/
def singles : List Char :=
  ['+', '-', '*', '/', '%', '<', '>', '!', '|', '&', '^', '~', '?', ':', '=']

/-- The text of an operator at the front, the longest that fits. -/
def operator? : Text → Option (Text × Text)
  | a :: b :: cs =>
    if pairs.contains (a, b) then some ([a, b], cs)
    else if singles.contains a then some ([a], b :: cs)
    else none
  | [a] => if singles.contains a then some ([a], []) else none
  | [] => none

/-- The digits of a number, with at most one point among them, and what follows. -/
def digits (cs : Text) : Text × Text :=
  match cs.dropWhile Char.isDigit with
  | '.' :: ds =>
    (cs.takeWhile Char.isDigit ++ '.' :: ds.takeWhile Char.isDigit, ds.dropWhile Char.isDigit)
  | ds => (cs.takeWhile Char.isDigit, ds)

/-- A minus sign at the front, and what follows. -/
def takeMinus : Text → Text × Text
  | '-' :: cs => (['-'], cs)
  | cs => ([], cs)

/-- Whether a text goes on with a character of a name. -/
def runsIntoName (cs : Text) : Bool := cs.head?.any Text.isNameRest

/-- A number at the front, after an optional minus sign. It must not run into a letter. -/
def number (cs : Text) : Scan :=
  let m := takeMinus cs
  let d := digits m.2
  if runsIntoName d.2 then .error .invalidIdentifier (m.1 ++ d.1 ++ d.2.takeWhile Text.isNameRest)
  else .token .number (m.1 ++ d.1) d.2

/-- The text up to the closing quote, and what follows the quote. A backslash keeps the character
after it from closing. -/
def content? : Text → Option (Text × Text)
  | [] => none
  | '"' :: cs => some ([], cs)
  | '\\' :: c :: cs => (content? cs).map fun (text, rest) => ('\\' :: c :: text, rest)
  | c :: cs => (content? cs).map fun (text, rest) => (c :: text, rest)

/-- Whether a text starts with a digit. -/
def startsWithDigit : Text → Bool
  | c :: _ => c.isDigit
  | [] => false

/-- Whether a sign or a point in front of a digit starts a number here. -/
def expectsOperand (previous : Option TokenKind) : Bool := !(previous.any TokenKind.endsOperand)

/-- The scan of a text that starts with a character that is no blank. -/
def front (previous : Option TokenKind) (c : Char) (cs : Text) : Scan :=
  if c.isDigit then number (c :: cs)
  else if (c == '-' || c == '.') && expectsOperand previous && startsWithDigit cs then
    number (c :: cs)
  else if c == '"' then
    match content? cs with
    | some (text, rest) => .quoted text rest
    | none => .error .missingQuote (c :: cs)
  else if c == '(' || c == ')' then .token .parenthesis [c] cs
  else if c == ',' then .token .comma [c] cs
  else if Text.isNameStart c then
    .token .identifier (c :: cs.takeWhile Text.isNameRest) (cs.dropWhile Text.isNameRest)
  else
    match operator? (c :: cs) with
    | some (text, rest) => .token .operator text rest
    | none => .error (.invalidChar c) [c]

/-! ## a scan loses nothing -/

theorem operator?_append {cs text rest : Text} (h : operator? cs = some (text, rest)) :
    text ++ rest = cs ∧ text ≠ [] := by
  match cs, h with
  | a :: b :: cs, h =>
    simp only [operator?] at h
    split at h
    · obtain ⟨rfl, rfl⟩ := Prod.mk.inj (Option.some.inj h)
      simp
    · split at h
      · obtain ⟨rfl, rfl⟩ := Prod.mk.inj (Option.some.inj h)
        simp
      · cases h
  | [a], h =>
    simp only [operator?] at h
    split at h
    · obtain ⟨rfl, rfl⟩ := Prod.mk.inj (Option.some.inj h)
      simp
    · cases h

theorem digits_append (cs : Text) : (digits cs).1 ++ (digits cs).2 = cs := by
  unfold digits
  split
  · rename_i ds h
    simp only [List.append_assoc, List.cons_append, List.takeWhile_append_dropWhile]
    rw [← h, List.takeWhile_append_dropWhile]
  · exact List.takeWhile_append_dropWhile

theorem takeMinus_append (cs : Text) : (takeMinus cs).1 ++ (takeMinus cs).2 = cs := by
  unfold takeMinus
  split <;> rfl

theorem number_append {cs text rest : Text} {kind : TokenKind}
    (h : number cs = .token kind text rest) : text ++ rest = cs := by
  simp only [number] at h
  split at h
  · cases h
  · cases h
    rw [List.append_assoc, digits_append, takeMinus_append]

theorem number_ne_quoted (cs content rest : Text) : number cs ≠ .quoted content rest := by
  simp only [number]
  split <;> simp

theorem content?_append {cs text rest : Text} (h : content? cs = some (text, rest)) :
    text ++ '"' :: rest = cs := by
  fun_induction content? cs generalizing text rest with
  | case1 => cases h
  | case2 cs => cases h; rfl
  | case3 c cs ih =>
    obtain ⟨⟨t, r⟩, ht, he⟩ := Option.map_eq_some_iff.1 h
    cases he
    rw [List.cons_append, List.cons_append, ih ht]
  | case4 c cs _ _ ih =>
    obtain ⟨⟨t, r⟩, ht, he⟩ := Option.map_eq_some_iff.1 h
    cases he
    rw [List.cons_append, ih ht]

theorem front_token {previous : Option TokenKind} {c : Char} {cs text rest : Text}
    {kind : TokenKind} (h : front previous c cs = .token kind text rest) :
    text ++ rest = c :: cs := by
  unfold front at h
  split at h
  · exact number_append h
  split at h
  · exact number_append h
  split at h
  · split at h <;> cases h
  split at h
  · cases h; rfl
  split at h
  · cases h; rfl
  split at h
  · cases h
    rw [List.cons_append, List.takeWhile_append_dropWhile]
  split at h
  · rename_i t r ho
    cases h
    exact (operator?_append ho).1
  · cases h

theorem number_ne_nil {c : Char} {cs text rest : Text} {kind : TokenKind}
    (hc : c.isDigit ∨ c = '-' ∨ c = '.') (h : number (c :: cs) = .token kind text rest) :
    text ≠ [] := by
  simp only [number] at h
  split at h
  · cases h
  · cases h
    rcases hc with hc | rfl | rfl
    · have hm : takeMinus (c :: cs) = ([], c :: cs) := by
        unfold takeMinus
        split
        · rename_i heq
          cases heq
          cases hc
        · rfl
      rw [hm]
      unfold digits
      split <;> simp [hc]
    · simp [takeMinus]
    · simp [takeMinus, digits]

theorem front_token_ne_nil {previous : Option TokenKind} {c : Char} {cs text rest : Text}
    {kind : TokenKind} (h : front previous c cs = .token kind text rest) : text ≠ [] := by
  unfold front at h
  split at h
  · rename_i hc
    exact number_ne_nil (.inl hc) h
  split at h
  · rename_i hc
    simp only [Bool.and_eq_true, Bool.or_eq_true, beq_iff_eq] at hc
    exact number_ne_nil (.inr hc.1.1) h
  split at h
  · split at h <;> cases h
  split at h
  · cases h; simp
  split at h
  · cases h; simp
  split at h
  · cases h; simp
  split at h
  · rename_i t r ho
    cases h
    exact (operator?_append ho).2
  · cases h

theorem front_quoted {previous : Option TokenKind} {c : Char} {cs content rest : Text}
    (h : front previous c cs = .quoted content rest) :
    c = '"' ∧ content ++ '"' :: rest = cs := by
  unfold front at h
  split at h
  · exact absurd h (number_ne_quoted _ _ _)
  split at h
  · exact absurd h (number_ne_quoted _ _ _)
  split at h
  · rename_i hq
    split at h
    · rename_i ho
      cases h
      exact ⟨by simpa using hq, content?_append ho⟩
    · cases h
  split at h
  · cases h
  split at h
  · cases h
  split at h
  · cases h
  split at h <;> cases h

end Scan
end ExprEngine
