import ExprEngine.Text.Offset

/-!
# Spans of the expression text

* `Span`           byte offsets `start..stop`, the end exclusive;
* `Span.merge`     the least span that covers two;
* `Span.slice`     the text a span covers, empty when it does not lie in the text;
* `Span.ofRange`   a span from two offsets, refused beyond what an offset may hold.
-/

namespace ExprEngine

/-- Byte range of the expression text, `stop` exclusive. -/
structure Span where
  start : Nat
  stop : Nat
deriving DecidableEq, Repr

namespace Span

/-- The largest offset a span may name. -/
def maxOffset : Nat := 4294967295

/-- The span of a part that has no text of its own. -/
def zero : Span := ⟨0, 0⟩

def point (offset : Nat) : Span := ⟨offset, offset⟩

/-- Bytes covered, when the ends are in order. -/
def length? (s : Span) : Option Nat := if s.start ≤ s.stop then some (s.stop - s.start) else none

/-- Whether both ends agree. -/
def isEmpty (s : Span) : Bool := s.start == s.stop

/-- The least span that covers both. -/
def merge (a b : Span) : Span := ⟨min a.start b.start, max a.stop b.stop⟩

/-- The span that covers a list of spans, starting from one. -/
def cover (s : Span) (l : List Span) : Span := l.foldl merge s

/-- The text covered, empty when the span does not lie in the text between characters. -/
def slice (s : Span) (source : Text) : Text := (Text.slice? s.start s.stop source).getD []

/-- Two offsets with two dots between them. -/
def display (s : Span) : String := toString s.start ++ ".." ++ toString s.stop

theorem merge_assoc (a b c : Span) : (a.merge b).merge c = a.merge (b.merge c) := by
  simp only [merge, Span.mk.injEq]
  omega

theorem merge_comm (a b : Span) : a.merge b = b.merge a := by
  simp only [merge, Span.mk.injEq]
  omega

theorem merge_self (a : Span) : a.merge a = a := by
  cases a
  simp [merge]

end Span

/-- Why a pair of offsets makes no span. -/
inductive SpanError
  | startTooLarge (offset : Nat)
  | endTooLarge (offset : Nat)
deriving DecidableEq, Repr

def SpanError.message : SpanError → String
  | .startTooLarge n => "span start " ++ toString n ++ " exceeds u32::MAX (4294967295)"
  | .endTooLarge n => "span end " ++ toString n ++ " exceeds u32::MAX (4294967295)"

/-- A span from two offsets; the start is judged first. -/
def Span.ofRange (start stop : Nat) : Except SpanError Span :=
  if Span.maxOffset < start then .error (.startTooLarge start)
  else if Span.maxOffset < stop then .error (.endTooLarge stop)
  else .ok ⟨start, stop⟩

end ExprEngine
