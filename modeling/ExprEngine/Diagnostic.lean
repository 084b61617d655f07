import ExprEngine.Diagnostic.Code
import ExprEngine.Span

/-!
# Reports of errors

* `Label`                  a span of the expression with a short remark;
* `Diagnostic`             a coded message with labels, notes and suggestions;
* `Diagnostic.display`     its text without the source.
-/

namespace ExprEngine

/-- A span of the expression with a remark. The primary label marks the error itself, others mark
what explains it. -/
structure Label where
  span : Span
  message : String
  primary : Bool
deriving DecidableEq, Repr

structure Diagnostic where
  code : ErrorCode
  message : String
  labels : List Label := []
  notes : List String := []
  suggestions : List String := []
deriving DecidableEq, Repr

/-- What stands in front of a label's span. -/
def Label.arrow (l : Label) : String := if l.primary then "-->" else "   "

namespace Diagnostic

def primarySpan? (d : Diagnostic) : Option Span := (d.labels.find? Label.primary).map Label.span

def addNote (d : Diagnostic) (note : String) : Diagnostic := { d with notes := d.notes ++ [note] }

/-- The report as text, a line for each of its parts. -/
def display (d : Diagnostic) : String :=
  "error[" ++ d.code.text ++ "]: " ++ d.message ++
    String.join (d.labels.map fun l =>
      "\n  " ++ l.arrow ++ " " ++ l.span.display ++ ": " ++ l.message) ++
    String.join (d.notes.map ("\n  = note: " ++ ·)) ++
    String.join (d.suggestions.map ("\n  = help: " ++ ·))

end Diagnostic
end ExprEngine
