import ExprEngine.Diagnostic.Terminal
import ExprEngine.Proofs.Text.Lines

/-!
# Reports written one after the other

An emitter writes a report piece by piece and has its source out of hand while it does so. It gets
the source back whatever labels the report has, so that every report is written as a fresh emitter
would write it. The colours of a report only decorate it: without them the same text is left.

* `Emitter.put`         the pieces of a layout, written;
* `emit_eq_put`         a report is written as its layout, and nothing else of the emitter changes;
* `emitAll_eq_put`      so are several reports;
* `Text.stripColors`    a text without its colour sequences;
* `Text.Plain`          a text without the character that starts such a sequence;
* `stripColors_pieces`  a layout in colours and the same layout without;
* `emission_exact`      what an emitter writes for several reports.
-/

namespace ExprEngine

/-! ## what an emitter writes -/

namespace Emitter

variable {α : Type} {e : Emitter} {d : Diagnostic}

/-- Writes the pieces of a layout. -/
def put (ps : List Piece) (e : Emitter) : Emitter :=
  e.write (String.join (ps.map (Piece.render e.colors)))

@[simp] theorem put_source (ps : List Piece) : (e.put ps).source = e.source := rfl

theorem put_written (ps : List Piece) :
    (e.put ps).written = e.written ++ String.join (ps.map (Piece.render e.colors)) := rfl

theorem put_nil : e.put [] = e := by
  show ({ e with written := e.written ++ "" } : Emitter) = e
  rw [String.append_empty]

@[simp] theorem put_put (ps qs : List Piece) : (e.put ps).put qs = e.put (ps ++ qs) := by
  unfold put write
  simp only [List.map_append, String.join_append, String.append_assoc]

theorem putSource_put (source : Option Text) (ps : List Piece) :
    (e.put ps).putSource source = (e.putSource source).put ps := rfl

/-- What is written for each element of a list is written for the list. -/
theorem foldl_put {f : Emitter → α → Emitter} {g : α → List Piece}
    (h : ∀ e x, f e x = e.put (g x)) (l : List α) : l.foldl f e = e.put (l.flatMap g) := by
  induction l generalizing e with
  | nil => exact put_nil.symm
  | cons x l ih => rw [List.foldl_cons, ih, h, put_put, List.flatMap_cons]

theorem write_eq_put (s : String) : e.write s = e.put [.plain s] := by
  show e.write s = e.write (String.join [s])
  rw [String.join_cons, String.join_nil, String.append_empty]

theorem writeStyled_eq_put (style : Style) (s : String) :
    e.writeStyled style s = e.put [.styled style s] := by
  unfold writeStyled put Piece.styled Piece.render
  split <;> simp_all

theorem writeCode_eq_put (code : String) :
    e.writeCode code = e.put [.styled .bold ("[" ++ code ++ "]")] := by
  rw [← writeStyled_eq_put]
  simp only [writeCode, writeStyled, String.append_assoc]

theorem writeLine_eq_put (l : Label) : e.writeLine l = e.put l.line := by
  simp only [writeLine, write_eq_put, writeStyled_eq_put, put_put]
  rfl

theorem writeUnderline_eq_put (source : Text) (l : Label) :
    e.writeUnderline source l = e.put (l.underline source) := by
  simp only [writeUnderline, write_eq_put, writeStyled_eq_put, put_put]
  rfl

theorem writeAdvice_eq_put (style : Style) (title text : String) :
    e.writeAdvice style title text = e.put (Diagnostic.advice style title text) := by
  simp only [writeAdvice, write_eq_put, writeStyled_eq_put, put_put]
  rfl

theorem writeSnippet_eq_put (source : Text) (labels : List Label) :
    e.writeSnippet source labels =
      e.put ([.plain "   |\n", .plain ("   | " ++ String.ofList source ++ "\n")] ++
        labels.flatMap (Label.underline source)) := by
  unfold writeSnippet
  rw [foldl_put fun e l => writeUnderline_eq_put source l]
  simp only [write_eq_put, put_put]
  rfl

/-- The labels are written on the source that the emitter has, and it has the source again when
they are written. -/
theorem writeLabels_eq_put : e.writeLabels d = e.put (d.labelPieces e.source) := by
  obtain ⟨colors, source, written⟩ := e
  cases source with
  | none => exact foldl_put (fun e l => writeLine_eq_put l) d.labels
  | some source =>
    simp only [writeLabels, takeSource, Diagnostic.labelPieces]
    by_cases hlabels : d.labels.isEmpty
    · rw [if_pos hlabels, if_pos hlabels, List.isEmpty_iff.1 hlabels]
      exact put_nil.symm
    · rw [if_neg hlabels, if_neg hlabels]
      simp only [Diagnostic.snippet, writeSnippet_eq_put]
      cases d.primarySpan? with
      | none => rfl
      | some span =>
        simp only [write_eq_put, put_put, putSource_put]
        rfl

/-- A report is written as its layout on the source of the emitter. -/
theorem emit_eq_put : e.emit d = e.put (d.pieces e.source) := by
  unfold emit
  simp only [foldl_put fun e text => writeAdvice_eq_put (e := e) .bold "note" text,
    foldl_put fun e text => writeAdvice_eq_put (e := e) .help "help" text,
    writeLabels_eq_put, write_eq_put, writeStyled_eq_put, writeCode_eq_put, put_put, put_source]
  rfl

theorem emitAll_eq_put (ds : List Diagnostic) :
    e.emitAll ds = e.put (ds.flatMap (Diagnostic.pieces e.source)) := by
  unfold emitAll
  induction ds generalizing e with
  | nil => exact put_nil.symm
  | cons d ds ih => rw [List.foldl_cons, ih, emit_eq_put, put_put, put_source, List.flatMap_cons]

/-- What an emitter writes at first for several reports it writes at first for each of them. -/
theorem emitAll_fresh (h : e.written = "") (ds : List Diagnostic) :
    e.emitAll ds = { e with written := String.join (ds.map fun d => (e.emit d).written) } := by
  have hwritten : ∀ ps, (e.put ps).written = String.join (ps.map (Piece.render e.colors)) := by
    intro ps
    rw [put_written, h, String.empty_append]
  have hjoin : (e.emitAll ds).written = String.join (ds.map fun d => (e.emit d).written) := by
    apply String.toList_injective
    simp only [emitAll_eq_put, emit_eq_put, hwritten, String.toList_join, List.flatMap_map,
      List.flatMap_assoc]
  rw [← hjoin, emitAll_eq_put]
  rfl

end Emitter

/-! ## colour sequences -/

namespace Text

/-- The character that starts a colour sequence. -/
def esc : Char := '\x1b'

/-- What the parameters of a colour sequence are written with. -/
def isColorParameter (c : Char) : Bool := c.isDigit || c == ';'

/-- What follows the colour sequence that a text starts with: the escape character, a bracket,
parameters and the letter `m`. -/
def afterColor? : Text → Option Text
  | c :: '[' :: cs =>
    if c = esc then
      match cs.dropWhile isColorParameter with
      | 'm' :: rest => some rest
      | _ => none
    else none
  | _ => none

theorem afterColor?_length {cs rest : Text} (h : afterColor? cs = some rest) :
    rest.length < cs.length := by
  unfold afterColor? at h
  split at h
  · rename_i c cs
    split at h
    · split at h
      · rename_i rest' hdrop
        have hle := (List.dropWhile_sublist (l := cs) isColorParameter).length_le
        rw [hdrop, List.length_cons] at hle
        cases h
        simp only [List.length_cons]
        omega
      · cases h
    · cases h
  · cases h

/-- A text without its colour sequences. -/
def stripColors (cs : Text) : Text :=
  match _h : afterColor? cs with
  | some rest => stripColors rest
  | none =>
    match cs with
    | [] => []
    | c :: cs => c :: stripColors cs
termination_by cs.length
decreasing_by
  · exact afterColor?_length ‹_›
  · exact Nat.lt_succ_self _

theorem stripColors_nil : stripColors [] = [] := by
  rw [stripColors]
  rfl

theorem stripColors_of_color {cs rest : Text} (h : afterColor? cs = some rest) :
    stripColors cs = stripColors rest := by
  rw [stripColors]
  split
  · rename_i rest' h'
    rw [h] at h'
    rw [Option.some.inj h']
  · rename_i h'
    rw [h] at h'
    cases h'

theorem stripColors_cons {c : Char} {cs : Text} (h : c ≠ esc) :
    stripColors (c :: cs) = c :: stripColors cs := by
  have hnone : afterColor? (c :: cs) = none := by
    unfold afterColor?
    split
    · rename_i heq
      cases heq
      exact if_neg h
    · rfl
  rw [stripColors]
  split
  · rename_i h'
    rw [hnone] at h'
    cases h'
  · rfl

/-- A sequence that starts or ends a style is deleted. -/
theorem stripColors_sequence (parameters : Text) {rest : Text}
    (h : parameters.all isColorParameter) :
    stripColors (esc :: '[' :: (parameters ++ 'm' :: rest)) = stripColors rest := by
  have hm : ¬ isColorParameter 'm' := by decide
  have hdrop : (parameters ++ 'm' :: rest).dropWhile isColorParameter = 'm' :: rest := by
    rw [List.dropWhile_append_of_pos (List.all_eq_true.1 h), List.dropWhile_cons_of_neg hm]
  apply stripColors_of_color
  simp only [afterColor?, hdrop, if_true]

/-- A text that starts no colour sequence. -/
def Plain (s : String) : Prop := esc ∉ s.toList

instance (s : String) : Decidable (Plain s) := inferInstanceAs (Decidable (esc ∉ s.toList))

theorem stripColors_append {a : Text} (h : esc ∉ a) (b : Text) :
    stripColors (a ++ b) = a ++ stripColors b := by
  induction a with
  | nil => rfl
  | cons c a ih =>
    rw [List.mem_cons, not_or] at h
    rw [List.cons_append, stripColors_cons (Ne.symm h.1), ih h.2, List.cons_append]

@[simp] theorem plain_append {a b : String} : Plain (a ++ b) ↔ Plain a ∧ Plain b := by
  unfold Plain
  rw [String.toList_append, List.mem_append, not_or]

@[simp] theorem plain_ofList {cs : Text} : Plain (String.ofList cs) ↔ esc ∉ cs := by
  unfold Plain
  rw [String.toList_ofList]

theorem plain_nat (n : Nat) : Plain (toString n) := by
  show esc ∉ n.repr.toList
  rw [Nat.toList_repr]
  intro h
  obtain ⟨k, hk⟩ := mem_toDigits (by decide) h
  exact Nat.digitChar_ne esc rfl hk.symm

end Text

@[simp] theorem Span.plain_display (s : Span) : Text.Plain s.display := by
  unfold display
  rw [Text.plain_append, Text.plain_append]
  exact ⟨⟨Text.plain_nat _, by decide⟩, Text.plain_nat _⟩

@[simp] theorem ErrorCode.plain_text (c : ErrorCode) : Text.Plain c.text := by
  cases c <;> decide

/-! ## pieces -/

namespace Style

theorem stripColors_escape (style : Style) (rest : Text) :
    Text.stripColors (style.escape.toList ++ rest) = Text.stripColors rest := by
  cases style with
  | error => exact Text.stripColors_sequence "1;31".toList (by decide)
  | help => exact Text.stripColors_sequence "1;32".toList (by decide)
  | bold => exact Text.stripColors_sequence "1".toList (by decide)
  | secondary => exact Text.stripColors_sequence "1;34".toList (by decide)

theorem stripColors_reset (rest : Text) :
    Text.stripColors (reset.toList ++ rest) = Text.stripColors rest :=
  Text.stripColors_sequence "0".toList (by decide)

end Style

namespace Piece

/-- The text of a piece is what is left of it without colours. -/
theorem stripColors_render {p : Piece} (h : Text.Plain p.text) (rest : Text) :
    Text.stripColors ((p.render true).toList ++ rest) =
      (p.render false).toList ++ Text.stripColors rest := by
  obtain ⟨style, text⟩ := p
  cases style with
  | none => exact Text.stripColors_append h rest
  | some style =>
    show Text.stripColors ((style.escape ++ text ++ Style.reset).toList ++ rest) =
      text.toList ++ Text.stripColors rest
    rw [String.toList_append, String.toList_append, List.append_assoc, List.append_assoc,
      Style.stripColors_escape, Text.stripColors_append h, Style.stripColors_reset]

end Piece

theorem stripColors_pieces {ps : List Piece} (h : ∀ p ∈ ps, Text.Plain p.text) :
    Text.stripColors (String.join (ps.map (Piece.render true))).toList =
      (String.join (ps.map (Piece.render false))).toList := by
  simp only [String.toList_join, List.flatMap_map]
  induction ps with
  | nil => exact Text.stripColors_nil
  | cons p ps ih =>
    obtain ⟨hp, hps⟩ := List.forall_mem_cons.1 h
    rw [List.flatMap_cons, Piece.stripColors_render hp, ih hps, List.flatMap_cons]

/-! ## layouts -/

namespace Label

variable {l : Label} {source : Text}

theorem plain_line (h : Text.Plain l.message) : ∀ p ∈ l.line, Text.Plain p.text := by
  have harrow : Text.Plain l.arrow := by
    unfold arrow
    split <;> decide
  have hgap : Text.Plain "  " ∧ Text.Plain " " ∧ Text.Plain ": " ∧ Text.Plain "\n" := by decide
  simp [line, Piece.plain, Piece.styled, h, harrow, hgap]

theorem plain_underline (h : Text.Plain l.message) :
    ∀ p ∈ l.underline source, Text.Plain p.text := by
  have hmark : Text.esc ≠ l.mark := by
    unfold mark
    split <;> decide
  have hspace : Text.esc ≠ ' ' := by decide
  have hgap : Text.Plain "   | " ∧ Text.Plain " " ∧ Text.Plain "\n" := by decide
  simp [underline, Piece.plain, Piece.styled, h, hmark, hspace, hgap]

end Label

namespace Diagnostic

variable {d : Diagnostic} {source : Option Text}

/-- The texts that a report was made with. -/
def texts (d : Diagnostic) : List String :=
  d.message :: d.labels.map Label.message ++ d.notes ++ d.suggestions

theorem plain_header (h : Text.Plain d.message) : ∀ p ∈ d.header, Text.Plain p.text := by
  have hgap : Text.Plain "error" ∧ Text.Plain "[" ∧ Text.Plain "]" ∧ Text.Plain ": " ∧
      Text.Plain "\n" := by decide
  simp [header, Piece.plain, Piece.styled, h, hgap]

theorem plain_advice {style : Style} {title text : String} (htitle : Text.Plain title)
    (htext : Text.Plain text) : ∀ p ∈ advice style title text, Text.Plain p.text := by
  have hgap : Text.Plain "   = " ∧ Text.Plain ": " ∧ Text.Plain "\n" := by decide
  simp [advice, Piece.plain, Piece.styled, htitle, htext, hgap]

theorem plain_snippet {source : Text} (hsource : Text.esc ∉ source)
    (h : ∀ l ∈ d.labels, Text.Plain l.message) : ∀ p ∈ d.snippet source, Text.Plain p.text := by
  have hgap : Text.Plain "  --> " ∧ Text.Plain "   |\n" ∧ Text.Plain "   | " ∧
      Text.Plain "\n" := by decide
  intro p hp
  simp only [snippet, List.mem_append, List.mem_flatMap] at hp
  rcases hp with (hp | hp) | ⟨l, hl, hp⟩
  · split at hp
    · rw [List.mem_singleton.1 hp]
      simp [Piece.plain, hgap]
    · cases hp
  · revert p
    simp [Piece.plain, hsource, hgap]
  · exact l.plain_underline (h l hl) p hp

theorem plain_labelPieces (hsource : ∀ s ∈ source, Text.esc ∉ s)
    (h : ∀ l ∈ d.labels, Text.Plain l.message) :
    ∀ p ∈ d.labelPieces source, Text.Plain p.text := by
  intro p hp
  cases source with
  | none =>
    obtain ⟨l, hl, hp⟩ := List.mem_flatMap.1 hp
    exact l.plain_line (h l hl) p hp
  | some source =>
    unfold labelPieces at hp
    dsimp only at hp
    split at hp
    · cases hp
    · exact plain_snippet (hsource source rfl) h p hp

/-- A layout is plain if the texts it is made of are. -/
theorem plain_pieces (hsource : ∀ s ∈ source, Text.esc ∉ s) (h : ∀ text ∈ d.texts, Text.Plain text) :
    ∀ p ∈ d.pieces source, Text.Plain p.text := by
  simp only [texts, List.cons_append, List.forall_mem_cons, List.forall_mem_append,
    List.forall_mem_map] at h
  obtain ⟨hmessage, hrest⟩ := h
  intro p hp
  simp only [pieces, List.mem_append, List.mem_flatMap] at hp
  rcases hp with ((hp | hp) | ⟨text, htext, hp⟩) | ⟨text, htext, hp⟩
  · exact plain_header hmessage p hp
  · exact plain_labelPieces hsource hrest.1.1 p hp
  · exact plain_advice (by decide) (hrest.1.2 text htext) p hp
  · exact plain_advice (by decide) (hrest.2 text htext) p hp

end Diagnostic

/-! ## several reports -/

/-- An emitter that writes several reports has its settings and its source afterwards, and what it
wrote is what fresh emitters write for each of the reports. Without its colour sequences this is,
for plain texts, what an emitter without colours writes. -/
theorem emission_exact (source : Option Text) (ds : List Diagnostic) :
    (∀ mode terminal, (Emitter.fresh mode terminal source).emitAll ds =
      { Emitter.fresh mode terminal source with
        written := String.join (ds.map fun d =>
          ((Emitter.fresh mode terminal source).emit d).written) }) ∧
    ((∀ s ∈ source, Text.esc ∉ s) → (∀ d ∈ ds, ∀ text ∈ d.texts, Text.Plain text) →
      ∀ terminal terminal',
        Text.stripColors ((Emitter.fresh .always terminal source).emitAll ds).written.toList =
          ((Emitter.fresh .never terminal' source).emitAll ds).written.toList) := by
  constructor
  · intro mode terminal
    exact Emitter.emitAll_fresh rfl ds
  · intro hsource htexts terminal terminal'
    have hplain : ∀ p ∈ ds.flatMap (Diagnostic.pieces source), Text.Plain p.text := by
      intro p hp
      obtain ⟨d, hd, hp⟩ := List.mem_flatMap.1 hp
      exact Diagnostic.plain_pieces hsource (htexts d hd) p hp
    rw [Emitter.emitAll_eq_put, Emitter.emitAll_eq_put, Emitter.put_written, Emitter.put_written]
    show Text.stripColors ("" ++ String.join _).toList = ("" ++ String.join _).toList
    rw [String.empty_append, String.empty_append]
    exact stripColors_pieces hplain

/-- A report with two labels, one of them primary, and advice, and a report without labels. -/
def twoReports : List Diagnostic :=
  [{ code := .missingOperator, message := "Expected an operator between two operands",
     labels := [⟨⟨4, 6⟩, "second operand", true⟩, ⟨⟨0, 3⟩, "first operand", false⟩],
     notes := ["every operand is separated by an operator"], suggestions := ["try `+`"] },
   { code := .emptyExpression, message := "Expected an expression" }]

theorem emission_exact_twoReports :
    ((∀ s ∈ some "1.5 é".toList, Text.esc ∉ s) ∧
      (∀ d ∈ twoReports, ∀ text ∈ d.texts, Text.Plain text)) ∧
    ∀ terminal terminal',
      Text.stripColors
          ((Emitter.fresh .always terminal (some "1.5 é".toList)).emitAll twoReports).written.toList =
        ((Emitter.fresh .never terminal' (some "1.5 é".toList)).emitAll twoReports).written.toList := by
  have hsource : ∀ s ∈ some "1.5 é".toList, Text.esc ∉ s := by decide
  have htexts : ∀ d ∈ twoReports, ∀ text ∈ d.texts, Text.Plain text := by decide
  exact ⟨⟨hsource, htexts⟩, (emission_exact _ twoReports).2 hsource htexts⟩

end ExprEngine
