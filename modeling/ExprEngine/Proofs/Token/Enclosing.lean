import ExprEngine.Proofs.Token.Spacing

/-!
# A source between parentheses

What fits at the start and the end of a source fits between parentheses as well, so a source keeps
its tokens inside a longer one.

* `Word.Fits.congr`, `Word.Fits.after`   a word before other text, or behind what ends no operand;
* `fitting_marked`                       the words of a source before a mark that separates;
* `fitting_enclosed`                     the words of a source between parentheses;
* `tokenize_enclosed`                    the tokens of a source with another inside it.
-/

namespace ExprEngine

namespace TokenKind

variable {text rest rest' : Text} (kind : TokenKind)

theorem ends_congr (h : rest'.head? = rest.head?) : kind.Ends text rest' ↔ kind.Ends text rest := by
  cases kind <;> simp only [Ends, h]

theorem signs_congr {previous : Option TokenKind} (h : rest'.head? = rest.head?) :
    kind.Signs previous text rest' ↔ kind.Signs previous text rest := by
  cases kind <;> simp only [Signs, h]

end TokenKind

namespace Word

variable {w : Word} {rest rest' : Text} {previous : Option TokenKind}

/-- Of the text behind a word only the first character matters. -/
theorem Fits.congr (h : w.Fits previous rest) (hhead : rest'.head? = rest.head?) :
    w.Fits previous rest' :=
  ⟨h.gap, h.spelled, (w.kind.ends_congr hhead).2 h.ends, (w.kind.signs_congr hhead).2 h.signs⟩

/-- What fits at the start fits behind a token that ends no operand. -/
theorem Fits.after (h : w.Fits none rest) {k : TokenKind} (hk : k.endsOperand = false) :
    w.Fits (some k) rest := by
  obtain ⟨hgap, hspelled, hends, hsigns⟩ := h
  refine ⟨hgap, hspelled, hends, ?_⟩
  cases hkind : w.kind with
  | number =>
    rintro - _ ⟨⟩
    exact hk
  | operator =>
    rw [hkind] at hsigns
    intro hminus hdigit
    obtain ⟨k, hnone, -⟩ := hsigns hminus hdigit
    cases hnone
  | _ => trivial

/-- A word that is no number fits wherever a text follows that separates. -/
theorem fits_of_separates (hgap : ∀ c ∈ w.gap, Blank c) (hspelled : w.kind.Spells w.text)
    (hkind : w.kind ≠ .number) (hrest : Separates rest) : w.Fits previous rest :=
  ⟨hgap, hspelled, w.kind.ends_of_separates hrest,
    TokenKind.signs_of_separates hkind hrest⟩

end Word

/-- The closing parenthesis behind a gap. -/
def closing (gap : Text) : Word := ⟨gap, .parenthesis, [')']⟩

/-- The opening parenthesis. -/
def opening : Word := ⟨[], .parenthesis, ['(']⟩

theorem written_append (ws ws' : List Word) (tail : Text) :
    written (ws ++ ws') tail = written ws (written ws' tail) := by
  induction ws with
  | nil => rfl
  | cons w ws ih => rw [List.cons_append, written, ih, written]

theorem written_eq (ws : List Word) (tail : Text) : written ws tail = written ws [] ++ tail := by
  induction ws with
  | nil => rfl
  | cons w ws ih => rw [written, ih, written, List.append_assoc, List.append_assoc]

/-- Words, then a word whose gap is the blanks behind them. -/
theorem written_marked (ws : List Word) (mark : Word) (ms : List Word) (tail : Text) :
    written (ws ++ mark :: ms) tail =
      written ws mark.gap ++ (mark.lexeme ++ written ms tail) := by
  rw [written_append, written_eq ws mark.gap, written_eq, written, List.append_assoc]

theorem written_closing (ws : List Word) (tail : Text) :
    written (ws ++ [closing tail]) [] = written ws tail ++ [')'] :=
  written_marked ws (closing tail) [] []

theorem fitting_after {ws : List Word} {tail : Text} (h : Fitting none ws tail) {k : TokenKind}
    (hk : k.endsOperand = false) : Fitting (some k) ws tail := by
  cases ws with
  | nil => exact h
  | cons w ws => exact ⟨h.1.after hk, h.2⟩

/-- The words of a source fit before a mark that separates. -/
theorem fitting_marked {previous : Option TokenKind} {ws ms : List Word} (mark : Word) {tail : Text}
    (h : Fitting previous ws mark.gap) (hmark : Separates (mark.lexeme ++ written ms tail))
    (hrest : ∀ p, Fitting p (mark :: ms) tail) : Fitting previous (ws ++ mark :: ms) tail := by
  induction ws generalizing previous with
  | nil => exact hrest previous
  | cons w ws ih =>
    refine ⟨?_, ih h.2⟩
    show w.Fits previous (written (ws ++ mark :: ms) tail)
    rw [written_marked]
    cases hgap : written ws mark.gap with
    | nil => exact h.1.move h.1.gap hmark
    | cons c cs =>
      refine h.1.congr ?_
      rw [hgap]
      rfl

/-- The blanks behind the last word. -/
theorem blank_of_fitting {previous : Option TokenKind} {ws : List Word} {tail : Text}
    (h : Fitting previous ws tail) : ∀ c ∈ tail, Blank c := by
  induction ws generalizing previous with
  | nil => exact h
  | cons w ws ih => exact ih h.2

theorem fitting_closing {previous : Option TokenKind} {ws : List Word} {tail : Text}
    (h : Fitting previous ws tail) : Fitting previous (ws ++ [closing tail]) [] :=
  fitting_marked (closing tail) h (separates_close _) fun _ =>
    ⟨⟨blank_of_fitting h, .inr rfl, trivial, trivial⟩, List.forall_mem_nil _⟩

/-- The words of a source fit behind an opening parenthesis and before a closing one. -/
theorem fitting_enclosed {ws : List Word} {tail : Text} (h : Fitting none ws tail) :
    Fitting (some .parenthesis) (ws ++ [closing tail]) [] :=
  fitting_closing (fitting_after h rfl)

/-- Words with spaces around them fit before a parenthesis, if they are no numbers. -/
theorem fitting_opening {previous : Option TokenKind} {front ws : List Word}
    (hfront : ∀ w ∈ front, w.kind.Spells w.text ∧ w.kind ≠ .number)
    (h : Fitting (some .parenthesis) ws []) :
    Fitting previous ((front ++ [opening]).map Word.spaced ++ ws) [] := by
  have hspace : ∀ c ∈ [' '], Blank c := fun c hc => .inl (List.mem_singleton.1 hc)
  induction front generalizing previous with
  | nil => exact ⟨⟨hspace, .inl rfl, trivial, trivial⟩, h⟩
  | cons w front ih =>
    obtain ⟨⟨hspelled, hkind⟩, hfront⟩ := List.forall_mem_cons.1 hfront
    refine ⟨Word.fits_of_separates hspace hspelled hkind ?_, ih hfront⟩
    cases front with
    | nil => exact separates_space _
    | cons v front => exact separates_space _

/-- A source between parentheses keeps its tokens, whatever words stand in front. -/
theorem tokenize_enclosed {source text : String} {ts : List Token} (h : tokenize source = .ok ts)
    {first : Word} {front : List Word}
    (hfront : ∀ w ∈ first :: front, w.kind.Spells w.text ∧ w.kind ≠ .number)
    (htext : text.toList =
      written (spacing (first :: front)) [] ++ ([' ', '('] ++ (source.toList ++ [')'])))
    (hlength : Text.byteLength text.toList ≤ Span.maxOffset) :
    ∃ ts', tokenize text = .ok ts' ∧
      ts'.map (fun t => (t.kind, t.span.slice text.toList)) =
        (first :: front).map (fun w => (w.kind, w.text)) ++ (.parenthesis, ['(']) ::
          (ts.map (fun t => (t.kind, t.span.slice source.toList)) ++ [(.parenthesis, [')'])]) := by
  obtain ⟨ws, tail, hsource, hfitting, rfl⟩ := written_of_tokenize h
  have hspacing : spacing (first :: (front ++ [opening])) =
      spacing (first :: front) ++ [opening.spaced] := by
    simp [spacing]
  have hwritten : text.toList =
      written (spacing (first :: (front ++ [opening])) ++ (ws ++ [closing tail])) [] := by
    rw [written_append, written_closing, written_eq, hspacing, written_append,
      written_eq (spacing (first :: front)), htext, hsource, List.append_assoc]
    rfl
  have hwords : Fitting none (spacing (first :: (front ++ [opening])) ++ (ws ++ [closing tail])) [] := by
    obtain ⟨⟨hspelled, hkind⟩, hfront⟩ := List.forall_mem_cons.1 hfront
    refine ⟨Word.fits_of_separates (List.forall_mem_nil _) hspelled hkind ?_,
      fitting_opening hfront (fitting_enclosed hfitting)⟩
    cases front with
    | nil => exact separates_space _
    | cons v front => exact separates_space _
  refine ⟨_, tokenize_written hlength hwritten hwords, ?_⟩
  rw [parts_tokensOf hwritten, parts_tokensOf hsource, hspacing]
  cases front <;> simp [spacing, Word.spaced, opening, closing]

end ExprEngine
