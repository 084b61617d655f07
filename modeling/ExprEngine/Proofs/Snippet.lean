import ExprEngine.Proofs.Wording

/-!
# The source in a report

A report shows the source behind a bar and, below it, a row for each label. Its marks stand under
the characters of the label's span, which are counted in bytes there and in columns here. The bar
stands in front of the first line only, so all this is one line as long as the source is.

* `Error.lines`           the lines of a report;
* `Label.Row`             a row with its marks under a label's span;
* `row_text`              the row of a span that addresses the source;
* `splitOn_lines`         lines with their ends, split again;
* `snippet_exact`         the lines of every report on a source.
-/

namespace ExprEngine

/-- The lines of the report of an error on a source. -/
def Error.lines (e : Error) (source : String) : List Text := (e.render source).toList.splitOn '\n'

/-! ## rows -/

namespace Label

/-- A row with a mark under every character that a label covers, or one mark at the place of a
label that covers none, and the remark behind the marks. -/
def Row (source : Text) (l : Label) (row : Text) : Prop :=
  ∃ before covered behind, source = before ++ (covered ++ behind) ∧
    l.span = ⟨Text.byteLength before, Text.byteLength before + Text.byteLength covered⟩ ∧
    row = "   | ".toList ++ (List.replicate before.length ' ' ++
      (List.replicate (max 1 covered.length) l.mark ++ ' ' :: l.message.toList))

/-- The row of a label, without the end of its line. -/
def rowText (source : Text) (l : Label) : Text :=
  "   | ".toList ++ (List.replicate (l.column source) ' ' ++
    (List.replicate (l.width source) l.mark ++ ' ' :: l.message.toList))

variable {source before covered behind : Text} {l : Label}

theorem column_eq (hsource : source = before ++ (covered ++ behind))
    (hspan : l.span =
      ⟨Text.byteLength before, Text.byteLength before + Text.byteLength covered⟩) :
    l.column source = before.length := by
  have hinside : Text.byteLength before ≤ Text.byteLength source := by
    rw [hsource, Text.byteLength_append]
    exact Nat.le_add_right ..
  unfold column
  rw [hspan]
  dsimp only
  rw [Nat.min_eq_left hinside, hsource, Text.takeBytes_append]

theorem width_eq (hsource : source = before ++ (covered ++ behind))
    (hspan : l.span =
      ⟨Text.byteLength before, Text.byteLength before + Text.byteLength covered⟩) :
    l.width source = max 1 covered.length := by
  have hinside : Text.byteLength before + Text.byteLength covered ≤ Text.byteLength source := by
    rw [hsource, Text.byteLength_append, Text.byteLength_append, ← Nat.add_assoc]
    exact Nat.le_add_right ..
  unfold width
  rw [hspan]
  dsimp only
  rw [Nat.min_eq_left (Nat.le_trans (Nat.le_add_right ..) hinside),
    Nat.max_eq_left (Nat.le_add_right ..), Nat.min_eq_left hinside, hsource, Text.slice?_append]
  rfl

/-- The row of a label whose span addresses the source marks what it covers. -/
theorem row_text (h : l.span.Addresses source) : l.Row source (l.rowText source) := by
  obtain ⟨before, covered, behind, hsource, hspan⟩ := Span.addresses_iff.1 h
  refine ⟨before, covered, behind, hsource, hspan, ?_⟩
  rw [rowText, column_eq hsource hspan, width_eq hsource hspan]

theorem newline_notMem_rowText (h : Text.OneLine l.message) : '\n' ∉ l.rowText source := by
  have hmark : l.mark ≠ '\n' := by
    unfold mark
    split <;> decide
  have hbar : '\n' ∉ "   | ".toList := by decide
  simp only [rowText, List.mem_append, List.mem_cons, List.mem_replicate, not_or, not_and]
  exact ⟨hbar, fun _ => by decide, fun _ hmark' => hmark hmark'.symm, by decide, h⟩

theorem toList_underline :
    ((l.underline source).flatMap fun p => p.text.toList) = l.rowText source ++ ['\n'] := by
  simp [underline, rowText, Piece.plain, Piece.styled]

end Label

/-! ## reports -/

/-- Lines with their ends, split again. -/
theorem splitOn_lines {lines : List Text} (h : ∀ line ∈ lines, '\n' ∉ line) (rest : Text) :
    (lines.flatMap (· ++ ['\n']) ++ rest).splitOn '\n' = lines ++ rest.splitOn '\n' := by
  induction lines with
  | nil => rfl
  | cons line lines ih =>
    obtain ⟨hline, hlines⟩ := List.forall_mem_cons.1 h
    rw [List.flatMap_cons, List.append_assoc, List.append_assoc, List.singleton_append,
      List.splitOn_append_cons_self_of_not_mem hline, ih hlines, List.cons_append]

/-- A text is the first of its lines if it has no line break. -/
theorem head?_splitOn {text : Text} : (text.splitOn '\n').head? = some text ↔ '\n' ∉ text := by
  constructor
  · intro h hmem
    obtain ⟨line, rest, rfl, hline⟩ := List.eq_append_cons_of_mem hmem
    rw [List.splitOn_append_cons_self_of_not_mem hline] at h
    have hlength := congrArg List.length (Option.some.inj h)
    rw [List.length_append, List.length_cons] at hlength
    omega
  · intro h
    rw [List.splitOn_eq_singleton h]
    rfl

namespace Diagnostic

variable {d : Diagnostic} {source : Text} {span : Span}

/-- The lines above the source. -/
def above (d : Diagnostic) (span : Span) : List Text :=
  [("error[" ++ d.code.text ++ "]: " ++ d.message).toList, ("  --> " ++ span.display).toList,
    "   |".toList]

/-- What stands below the rows of the labels. -/
def below (d : Diagnostic) : Text :=
  (d.notes.flatMap (advice .bold "note") ++ d.suggestions.flatMap (advice .help "help")).flatMap
    fun p => p.text.toList

theorem toList_render (source : Option Text) :
    (d.render false source).toList = (d.pieces source).flatMap fun p => p.text.toList := by
  have hplain : ∀ p : Piece, (p.render false).toList = p.text.toList := by
    intro p
    unfold Piece.render
    split <;> rfl
  unfold render
  simp only [String.toList_join, List.flatMap_map, hplain]

/-- A report with the source, line by line. -/
theorem render_lines (h : d.primarySpan? = some span) :
    (d.render false (some source)).toList =
      (d.above span).flatMap (· ++ ['\n']) ++ ("   | ".toList ++ source ++ '\n' ::
        ((d.labels.map (Label.rowText source)).flatMap (· ++ ['\n']) ++ d.below)) := by
  have hlabels : d.labels.isEmpty = false := by
    unfold primarySpan? at h
    cases hl : d.labels with
    | nil =>
      rw [hl] at h
      cases h
    | cons => rfl
  have hrows : ((d.labels.flatMap (Label.underline source)).flatMap fun p => p.text.toList) =
      (d.labels.map (Label.rowText source)).flatMap (· ++ ['\n']) := by
    simp only [List.flatMap_assoc, Label.toList_underline, List.flatMap_map]
  rw [toList_render]
  simp [pieces, labelPieces, hlabels, snippet, h, header, above, below, hrows, Piece.plain,
    Piece.styled]

theorem above_oneLine (h : Text.OneLine d.message) : ∀ line ∈ d.above span, '\n' ∉ line := by
  have hheader : Text.OneLine ("error[" ++ d.code.text ++ "]: " ++ d.message) :=
    Text.oneLine_append.2 ⟨Text.oneLine_between (by decide) d.code.oneLine_text (by decide), h⟩
  have hplace : Text.OneLine ("  --> " ++ span.display) :=
    Text.oneLine_append.2 ⟨by decide, span.oneLine_display⟩
  simp only [above, List.forall_mem_cons, List.not_mem_nil, false_implies, implies_true, and_true]
  exact ⟨hheader, hplace, by decide⟩

end Diagnostic

/-! ## errors -/

namespace Error

variable {e : Error} {source : String}

theorem labels_spans (e : Error) (source : String) :
    (e.diagnostic source).labels.map Label.span = e.spans := by
  cases e with
  | parse e =>
    show e.span :: (e.related.map fun s => (⟨s, "previous operand", false⟩ : Label)).toList.map
      Label.span = e.span :: e.related.toList
    cases e.related <;> rfl
  | _ => rfl

theorem primarySpan_diagnostic : (e.diagnostic source).primarySpan? = some e.span := by
  cases e with
  | _ => rfl

/-- The lines of a report whose spans address the source and whose message is of one line. -/
theorem lines_eq (haddress : e.Addresses source) (hmessage : Text.OneLine e.causeMessage) :
    ∃ top rows below, e.lines source =
        top ++ ("   | ".toList ++ source.toList).splitOn '\n' ++ rows ++ below ∧
      top.length = 3 ∧
      List.Forall₂ (Label.Row source.toList) (e.diagnostic source).labels rows := by
  have habove : ∀ line ∈ (e.diagnostic source).above e.span, '\n' ∉ line := by
    refine Diagnostic.above_oneLine ?_
    cases e with
    | _ => exact hmessage
  have hrows : ∀ row ∈ (e.diagnostic source).labels.map (Label.rowText source.toList),
      '\n' ∉ row :=
    List.forall_mem_map.2 fun l hl => Label.newline_notMem_rowText (oneLine_label hl)
  refine ⟨(e.diagnostic source).above e.span,
    (e.diagnostic source).labels.map (Label.rowText source.toList),
    (e.diagnostic source).below.splitOn '\n', ?_, rfl, ?_⟩
  · unfold lines render
    rw [Diagnostic.render_lines primarySpan_diagnostic, splitOn_lines habove,
      List.splitOn_append_cons_self, splitOn_lines hrows]
    simp only [List.append_assoc]
  · refine List.forall₂_map_right_iff.2 (List.forall₂_same.2 fun l hl => Label.row_text ?_)
    exact haddress _ (labels_spans e source ▸ List.mem_map_of_mem hl)

end Error

/-- The report of every error that an evaluation may have, line by line: three lines, the source
behind a bar, a row for each label with its marks under the characters of the label's span, and
then the rest. The source takes the fourth line, and no other, if it has no line break. One that
has is broken there as well, so that the rows are not below the line that they speak of. -/
theorem snippet_exact {σ : Type} {memory : σ} {c : Context σ}
    (hc : (Context.empty memory).Reaches c) (engine : Engine) (source : String) {e : Error}
    (h : (engine.evaluate source c).result = .error e) :
    (∃ top rows below, e.lines source =
        top ++ ("   | ".toList ++ source.toList).splitOn '\n' ++ rows ++ below ∧
      top.length = 3 ∧
      List.Forall₂ (Label.Row source.toList) (e.diagnostic source).labels rows) ∧
    ((e.lines source)[3]? = some ("   | ".toList ++ source.toList) ↔ '\n' ∉ source.toList) := by
  have hquotes := engine.evaluate_quotes (hc.declared .empty) h
  have hmessage : Text.OneLine e.causeMessage :=
    Error.oneLine_message fun text htext => (hquotes text htext).oneLine (hc.declared .empty)
  have hlines := Error.lines_eq (errors_address engine source c h) hmessage
  refine ⟨hlines, ?_⟩
  obtain ⟨top, rows, below, hlines, htop, -⟩ := hlines
  have hbar : '\n' ∉ "   | ".toList := by decide
  have hfourth : (e.lines source)[3]? =
      (("   | ".toList ++ source.toList).splitOn '\n').head? := by
    rw [hlines, List.append_assoc, List.append_assoc, ← htop, List.getElem?_append_right le_rfl,
      Nat.sub_self, ← List.head?_eq_getElem?, List.head?_append_of_ne_nil _ (List.splitOn_ne_nil _ _)]
  rw [hfourth, head?_splitOn, List.mem_append, not_or]
  exact ⟨And.right, And.intro hbar⟩

/-- Two labels, the second for a span of more bytes than characters. -/
theorem snippet_exact_accented :
    let e : Error := .parse ⟨.missingOperator, some 1, ⟨5, 6⟩, some ⟨1, 3⟩⟩
    (Context.empty ()).Reaches sampleContext ∧
      (({} : Engine).evaluate accentedSource sampleContext).result = .error e ∧
      (∃ top rows below, e.lines accentedSource =
          top ++ ("   | ".toList ++ accentedSource.toList).splitOn '\n' ++ rows ++ below ∧
        top.length = 3 ∧
        List.Forall₂ (Label.Row accentedSource.toList)
          [⟨⟨5, 6⟩, "expected an operator before this", true⟩,
            ⟨⟨1, 3⟩, "previous operand", false⟩] rows) ∧
      (e.lines accentedSource)[3]? = some ("   | ".toList ++ accentedSource.toList) := by
  intro e
  have hfails := errors_address_accented.1
  have hsnippet := snippet_exact reaches_sample {} accentedSource hfails
  exact ⟨reaches_sample, hfails, hsnippet.1, hsnippet.2.2 (by decide)⟩

/-- A string with a line break in it, and a character that starts no token. -/
def tornSource : String := "\"a\nb\" @"

def tornError : Error := .lex ⟨.invalidChar '@', ⟨6, 7⟩⟩

/-- A source with a line break takes two lines of its report, the second without a bar, and the
marks stand under the column of no character of it. -/
theorem snippet_torn :
    (({} : Engine).evaluate tornSource (Context.empty ())).result = .error tornError ∧
      tornError.lines tornSource = List.map String.toList
        ["error[E0001]: invalid character `@`", "  --> 6..7", "   |", "   | \"a", "b\" @",
          "   |       ^ not valid here", "   = note: tokenize failed at `@`", ""] ∧
      (tornError.lines tornSource)[3]? ≠ some ("   | ".toList ++ tornSource.toList) := by
  have htokens : tokenize tornSource = .error ⟨.invalidChar '@', ⟨6, 7⟩⟩ := by decide +kernel
  have hlines : tornError.lines tornSource = List.map String.toList
      ["error[E0001]: invalid character `@`", "  --> 6..7", "   |", "   | \"a", "b\" @",
        "   |       ^ not valid here", "   = note: tokenize failed at `@`", ""] := by
    decide +kernel
  refine ⟨?_, hlines, ?_⟩
  · unfold Engine.evaluate Engine.compile Engine.parseSource
    rw [htokens]
    rfl
  · rw [hlines]
    decide

end ExprEngine
