/-!
# Byte offsets in text

Positions in an expression count UTF-8 bytes, while the text itself is a list of characters.

* `Text.byteLength`   the bytes a text takes;
* `Text.dropBytes`    what follows the first `n` bytes, if a character ends there;
* `Text.takeBytes`    the first `n` bytes as text, if a character ends there;
* `Text.slice?`       the text between two offsets, when both fall between characters.
-/

namespace ExprEngine

/-- Text as the stages read it: its characters in order. -/
abbrev Text := List Char

namespace Text

/-- The number of UTF-8 bytes a text takes. -/
def byteLength : Text → Nat
  | [] => 0
  | c :: cs => c.utf8Size + byteLength cs

theorem byteLength_nil : byteLength [] = 0 := rfl
theorem byteLength_cons (c : Char) (cs : Text) :
    byteLength (c :: cs) = c.utf8Size + byteLength cs := rfl

theorem byteLength_append (a b : Text) : byteLength (a ++ b) = byteLength a + byteLength b := by
  induction a with
  | nil => simp [byteLength_nil]
  | cons c cs ih => rw [List.cons_append, byteLength_cons, byteLength_cons, ih, Nat.add_assoc]

/-- What follows the first `n` bytes. Nothing past the end, nor inside a character. -/
def dropBytes : Nat → Text → Option Text
  | 0, cs => some cs
  | _ + 1, [] => none
  | n + 1, c :: cs => if c.utf8Size ≤ n + 1 then dropBytes (n + 1 - c.utf8Size) cs else none

/-- The first `n` bytes. Nothing past the end, nor inside a character. -/
def takeBytes : Nat → Text → Option Text
  | 0, _ => some []
  | _ + 1, [] => none
  | n + 1, c :: cs =>
    if c.utf8Size ≤ n + 1 then (takeBytes (n + 1 - c.utf8Size) cs).map (c :: ·) else none

/-- The text from byte `start` up to byte `stop`, when both fall between characters in order. -/
def slice? (start stop : Nat) (cs : Text) : Option Text :=
  if start ≤ stop then (dropBytes start cs).bind (takeBytes (stop - start)) else none

theorem utf8Size_ne_zero (c : Char) : c.utf8Size ≠ 0 := by
  have := c.utf8Size_pos
  omega

theorem dropBytes_zero (cs : Text) : dropBytes 0 cs = some cs := by cases cs <;> rfl
theorem takeBytes_zero (cs : Text) : takeBytes 0 cs = some [] := by cases cs <;> rfl

theorem dropBytes_append (a b : Text) : dropBytes (byteLength a) (a ++ b) = some b := by
  induction a with
  | nil => exact dropBytes_zero b
  | cons c cs ih =>
    obtain ⟨k, hk⟩ := Nat.exists_eq_succ_of_ne_zero (utf8Size_ne_zero c)
    have e : byteLength (c :: cs) = (k + byteLength cs) + 1 := by
      rw [byteLength_cons, hk]; omega
    rw [e, List.cons_append, dropBytes, if_pos (by omega), hk]
    have : k + byteLength cs + 1 - k.succ = byteLength cs := by omega
    rw [this, ih]

theorem takeBytes_append (a b : Text) : takeBytes (byteLength a) (a ++ b) = some a := by
  induction a with
  | nil => exact takeBytes_zero b
  | cons c cs ih =>
    obtain ⟨k, hk⟩ := Nat.exists_eq_succ_of_ne_zero (utf8Size_ne_zero c)
    have e : byteLength (c :: cs) = (k + byteLength cs) + 1 := by
      rw [byteLength_cons, hk]; omega
    rw [e, List.cons_append, takeBytes, if_pos (by omega), hk]
    have : k + byteLength cs + 1 - k.succ = byteLength cs := by omega
    rw [this, ih]
    rfl

/-- A piece of a text is found again at its own offsets. -/
theorem slice?_append (a b c : Text) :
    slice? (byteLength a) (byteLength a + byteLength b) (a ++ (b ++ c)) = some b := by
  rw [slice?, if_pos (Nat.le_add_right _ _), dropBytes_append, Option.bind_some,
    Nat.add_sub_cancel_left, takeBytes_append]

end Text
end ExprEngine
