import ExprEngine.Diagnostic

/-!
# Reports on a terminal

A report is laid out as pieces of text, some of them in a style; only the last step knows whether
the terminal shows colours. An emitter writes reports without a layout, line by line, and keeps
what it has written.

* `Piece`                   text with an optional style;
* `Diagnostic.pieces`       the layout of a report, the source underlined when it is at hand;
* `Diagnostic.render`       the layout as text;
* `Emitter`                 a terminal that reports are written to;
* `Emitter.emit`            one report more;
* `renderAll`               several reports, one after the other.
-/

namespace ExprEngine

/-- When a terminal shows colours. -/
inductive ColorMode
  | auto | always | never
deriving DecidableEq, Repr

/-- Whether to write colours, given whether the output is a terminal. -/
def ColorMode.usesColors (m : ColorMode) (terminal : Bool) : Bool :=
  match m with
  | auto => terminal
  | always => true
  | never => false

inductive Style
  | error | help | bold | secondary
deriving DecidableEq, Repr

/-- The escape sequence that starts a style. -/
def Style.escape : Style → String
  | error => "\x1b[1;31m"
  | help => "\x1b[1;32m"
  | bold => "\x1b[1m"
  | secondary => "\x1b[1;34m"

/-- The escape sequence that ends every style. -/
def Style.reset : String := "\x1b[0m"

/-- Text with an optional style. -/
structure Piece where
  style : Option Style
  text : String
deriving DecidableEq, Repr

namespace Piece

def plain (s : String) : Piece := ⟨none, s⟩

def styled (style : Style) (s : String) : Piece := ⟨some style, s⟩

def render (colors : Bool) (p : Piece) : String :=
  match p.style with
  | some style => if colors then style.escape ++ p.text ++ Style.reset else p.text
  | none => p.text

end Piece

namespace Label

def style (l : Label) : Style := if l.primary then .error else .secondary

/-- The mark that underlines a label's span. -/
def mark (l : Label) : Char := if l.primary then '^' else '-'

/-- The column, in characters, where the underline starts. A span past the end of the source starts
just after it; a start inside a character counts bytes. -/
def column (source : Text) (l : Label) : Nat :=
  let start := min l.span.start (Text.byteLength source)
  match Text.takeBytes start source with
  | some before => before.length
  | none => start

/-- The length of the underline in characters, at least one. -/
def width (source : Text) (l : Label) : Nat :=
  let start := min l.span.start (Text.byteLength source)
  let stop := min (max l.span.stop start) (Text.byteLength source)
  max 1 ((Text.slice? start stop source).getD []).length

/-- The row under the source that marks a label. -/
def underline (source : Text) (l : Label) : List Piece :=
  [.plain ("   | " ++ String.ofList (List.replicate (l.column source) ' ')),
   .styled l.style (String.ofList (List.replicate (l.width source) l.mark) ++ " " ++ l.message),
   .plain "\n"]

/-- The line of a label without a source. -/
def line (l : Label) : List Piece :=
  [.plain ("  " ++ l.arrow ++ " " ++ l.span.display ++ ": "), .styled l.style l.message,
   .plain "\n"]

end Label

namespace Diagnostic

def header (d : Diagnostic) : List Piece :=
  [.styled .error "error", .styled .bold ("[" ++ d.code.text ++ "]"),
   .plain (": " ++ d.message ++ "\n")]

/-- The source with a row of marks for each label. -/
def snippet (source : Text) (d : Diagnostic) : List Piece :=
  (match d.primarySpan? with
    | some span => [.plain ("  --> " ++ span.display ++ "\n")]
    | none => []) ++
  [.plain "   |\n", .plain ("   | " ++ String.ofList source ++ "\n")] ++
  d.labels.flatMap (Label.underline source)

/-- The labels, on the source when it is at hand and there is something to mark. -/
def labelPieces (source : Option Text) (d : Diagnostic) : List Piece :=
  match source with
  | some source => if d.labels.isEmpty then [] else d.snippet source
  | none => d.labels.flatMap Label.line

/-- A line of advice below the labels. -/
def advice (style : Style) (title text : String) : List Piece :=
  [.plain "   = ", .styled style title, .plain (": " ++ text ++ "\n")]

/-- The layout of a report. -/
def pieces (source : Option Text) (d : Diagnostic) : List Piece :=
  d.header ++ d.labelPieces source ++ d.notes.flatMap (advice .bold "note") ++
    d.suggestions.flatMap (advice .help "help")

/-- The report as a terminal shows it. -/
def render (colors : Bool) (source : Option Text) (d : Diagnostic) : String :=
  String.join ((d.pieces source).map (Piece.render colors))

end Diagnostic

/-! ## emitters -/

/-- A terminal that reports are written to: whether it shows colours, the source to underline, and
all that was written so far. -/
structure Emitter where
  colors : Bool
  source : Option Text := none
  written : String := ""
deriving DecidableEq, Repr

namespace Emitter

/-- A terminal that nothing was written to. -/
def fresh (mode : ColorMode) (terminal : Bool) (source : Option Text) : Emitter :=
  { colors := mode.usesColors terminal, source }

def write (s : String) (e : Emitter) : Emitter := { e with written := e.written ++ s }

/-- Writes text in a style, without it where no colours are shown. -/
def writeStyled (style : Style) (s : String) (e : Emitter) : Emitter :=
  if e.colors then e.write (style.escape ++ s ++ Style.reset) else e.write s

/-- Writes a code between brackets. -/
def writeCode (code : String) (e : Emitter) : Emitter :=
  if e.colors then e.write (Style.bold.escape ++ "[" ++ code ++ "]" ++ Style.reset)
  else e.write ("[" ++ code ++ "]")

/-- Writes a label without a source. -/
def writeLine (e : Emitter) (l : Label) : Emitter :=
  e |>.write ("  " ++ l.arrow ++ " " ++ l.span.display ++ ": ")
    |>.writeStyled l.style l.message
    |>.write "\n"

/-- Writes the row under the source that marks a label. -/
def writeUnderline (source : Text) (e : Emitter) (l : Label) : Emitter :=
  e |>.write ("   | " ++ String.ofList (List.replicate (l.column source) ' '))
    |>.writeStyled l.style
      (String.ofList (List.replicate (l.width source) l.mark) ++ " " ++ l.message)
    |>.write "\n"

/-- Writes the source with a row of marks for each label. -/
def writeSnippet (source : Text) (labels : List Label) (e : Emitter) : Emitter :=
  labels.foldl (writeUnderline source)
    (e |>.write "   |\n" |>.write ("   | " ++ String.ofList source ++ "\n"))

/-- The source, which the emitter is left without. -/
def takeSource (e : Emitter) : Option Text × Emitter := (e.source, { e with source := none })

def putSource (source : Option Text) (e : Emitter) : Emitter := { e with source }

/-- Writes the labels of a report, on the source when it is at hand and there is something to mark.
The source is taken out of the emitter for that and put back. -/
def writeLabels (d : Diagnostic) (e : Emitter) : Emitter :=
  match e.takeSource with
  | (some source, e) =>
    if d.labels.isEmpty then d.labels.foldl writeLine (e.putSource (some source))
    else
      let e := match d.primarySpan? with
        | some span => e.write ("  --> " ++ span.display ++ "\n")
        | none => e
      (e.writeSnippet source d.labels).putSource (some source)
  | (none, e) => d.labels.foldl writeLine (e.putSource none)

/-- Writes a line of advice. -/
def writeAdvice (style : Style) (title : String) (e : Emitter) (text : String) : Emitter :=
  e |>.write "   = " |>.writeStyled style title |>.write (": " ++ text ++ "\n")

/-- Writes a report. -/
def emit (e : Emitter) (d : Diagnostic) : Emitter :=
  let e := e |>.writeStyled .error "error" |>.writeCode d.code.text
    |>.write (": " ++ d.message ++ "\n")
    |>.writeLabels d
  let e := d.notes.foldl (writeAdvice .bold "note") e
  d.suggestions.foldl (writeAdvice .help "help") e

/-- Writes reports one after the other. -/
def emitAll (e : Emitter) (ds : List Diagnostic) : Emitter := ds.foldl emit e

end Emitter

/-- Reports one after the other, all on the same source. -/
def renderAll (colors : Bool) (source : Option Text) (ds : List Diagnostic) : String :=
  (Emitter.emitAll { colors, source } ds).written

end ExprEngine
