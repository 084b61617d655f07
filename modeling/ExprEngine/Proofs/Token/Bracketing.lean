import ExprEngine.Proofs.Token.Enclosing
import ExprEngine.Proofs.Token.Spacing

/-!
# Parentheses between tokens

The tokens of a source, written anew with parentheses around some spans, are the tokens of what was
written with the parentheses between them. A parenthesis ends no operand for the tokenizer, so a
sign may stand behind it wherever it might before.

* `bracketed`            the lexemes of a source with parentheses around spans;
* `Spelled`              kinds and texts that follow one another in some source;
* `Word.wrap`            a word between parentheses;
* `tokenize_bracketed`   the tokens of a source with parentheses.
-/

namespace ExprEngine

/-! ## the text -/

/-- How many spans start where one does. -/
def Span.opens (s : Span) (brackets : List Span) : Nat :=
  brackets.countP fun b => b.start == s.start

/-- How many spans end where one does. -/
def Span.closes (s : Span) (brackets : List Span) : Nat :=
  brackets.countP fun b => b.stop == s.stop

/-- A text between opening and closing parentheses, with a gap on the inside of each. -/
def wrapped (gap : Text) (opens closes : Nat) (text : Text) : Text :=
  (List.replicate opens ('(' :: gap)).flatten ++
    (text ++ (List.replicate closes (gap ++ [')'])).flatten)

/-- The lexemes of some tokens of a source with single spaces between them, and with a pair of
parentheses around each of some spans. On the inside of every parenthesis are `pad` spaces. -/
def bracketed (pad : Nat) (source : String) (ts : List Token) (brackets : List Span) : String :=
  String.intercalate " " (ts.map fun t => String.ofList
    (wrapped (List.replicate pad ' ') (t.span.opens brackets) (t.span.closes brackets)
      (t.kind.lexeme (t.span.slice source.toList))))

/-! ## tokens without their places -/

/-- Kinds and texts of words that may follow one another, whatever is written between them. -/
def Spelled : Option TokenKind → List (TokenKind × Text) → Prop
  | _, [] => True
  | previous, (kind, text) :: ps =>
    (kind.Spells text ∧ (kind = .number → kind.Signs previous text [])) ∧ Spelled (some kind) ps

theorem Fitting.spelled {previous : Option TokenKind} {ws : List Word} {tail : Text}
    (h : Fitting previous ws tail) : Spelled previous (ws.map fun w => (w.kind, w.text)) := by
  induction ws generalizing previous with
  | nil => trivial
  | cons w ws ih =>
    refine ⟨⟨h.1.spelled, fun hkind => ?_⟩, ih h.2⟩
    -- whether a number may have a sign depends only on the token before it
    have hsigns := h.1.signs
    rw [hkind] at hsigns ⊢
    exact hsigns

theorem spelled_of_tokenize {source : String} {ts : List Token} (h : tokenize source = .ok ts) :
    Spelled none (ts.map fun t => (t.kind, t.span.slice source.toList)) := by
  obtain ⟨ws, tail, hsource, hfitting, rfl⟩ := written_of_tokenize h
  rw [parts_tokensOf hsource]
  exact hfitting.spelled

/-- A number may have a sign behind a parenthesis. -/
theorem TokenKind.Signs.behind {kind : TokenKind} {previous previous' : Option TokenKind}
    {text rest : Text} (hkind : kind = .number) (h : kind.Signs previous text rest)
    (hprevious : previous' = previous ∨ previous' = some .parenthesis) :
    kind.Signs previous' text rest := by
  subst hkind
  intro hsign k hk
  rcases hprevious with rfl | rfl
  · exact h hsign k hk
  · cases hk
    rfl

/-- A token between parentheses, without its place. -/
def wrappedParts (opens closes : Nat) (part : TokenKind × Text) : List (TokenKind × Text) :=
  List.replicate opens (.parenthesis, ['(']) ++
    part :: List.replicate closes (.parenthesis, [')'])

/-! ## words between parentheses -/

namespace Word

/-- A word between parentheses, with a gap on the inside of each. -/
def wrap (gap : Text) : Nat → Nat → Word → List Word
  | 0, closes, w => w :: List.replicate closes (closing gap)
  | opens + 1, closes, w =>
    { w with kind := .parenthesis, text := ['('] } :: wrap gap opens closes { w with gap }

variable {gap : Text} {opens closes : Nat} {w : Word}

theorem parts_wrap :
    (w.wrap gap opens closes).map (fun w => (w.kind, w.text)) =
      wrappedParts opens closes (w.kind, w.text) := by
  induction opens generalizing w with
  | zero =>
    rw [wrap, List.map_cons, List.map_replicate]
    rfl
  | succ opens ih =>
    rw [wrap, List.map_cons, ih, wrappedParts, wrappedParts, List.replicate_succ]
    rfl

theorem written_wrap (tail : Text) :
    written (w.wrap gap opens closes) tail =
      w.gap ++ (wrapped gap opens closes w.lexeme ++ tail) := by
  have hclosing : ∀ n, written (List.replicate n (closing gap)) tail =
      (List.replicate n (gap ++ [')'])).flatten ++ tail := by
    intro n
    induction n with
    | zero => rfl
    | succ n ih =>
      rw [List.replicate_succ, written, ih, List.replicate_succ, List.flatten_cons]
      simp [closing, lexeme, TokenKind.lexeme]
  induction opens generalizing w with
  | zero =>
    rw [wrap, written, hclosing, wrapped]
    simp
  | succ opens ih =>
    rw [wrap, written, ih, wrapped, wrapped, List.replicate_succ, List.flatten_cons]
    simp [lexeme, TokenKind.lexeme]

theorem separates_closing (hgap : ∀ c ∈ gap, c = ' ') {ws : List Word}
    (h : Separates (written ws [])) :
    Separates (written (List.replicate closes (closing gap) ++ ws) []) := by
  cases closes with
  | zero => exact h
  | succ closes =>
    rw [List.replicate_succ, List.cons_append, written]
    cases hg : gap with
    | nil => exact separates_close _
    | cons c cs =>
      rw [hgap c (hg ▸ List.mem_cons_self ..)]
      exact separates_space _

/-- A word between parentheses fits wherever it fitted without them, and so does what follows. -/
theorem fitting_wrap {previous previous' : Option TokenKind} {ws : List Word}
    (hgap : ∀ c ∈ gap, c = ' ') (hw : ∀ c ∈ w.gap, c = ' ') (spelled : w.kind.Spells w.text)
    (signs : w.kind = .number → w.kind.Signs previous w.text [])
    (hprevious : previous' = previous ∨ previous' = some .parenthesis)
    (separates : Separates (written ws []))
    (rest : ∀ p, p = some w.kind ∨ p = some .parenthesis → Fitting p ws []) :
    Fitting previous' (w.wrap gap opens closes ++ ws) [] := by
  have hblank : ∀ {cs : Text}, (∀ c ∈ cs, c = ' ') → ∀ c ∈ cs, Blank c :=
    fun h c hc => .inl (h c hc)
  have hclosing : ∀ n p, p = some w.kind ∨ p = some .parenthesis →
      Fitting p (List.replicate n (closing gap) ++ ws) [] := by
    intro n
    induction n with
    | zero => exact rest
    | succ n ih =>
      intro p hp
      rw [List.replicate_succ, List.cons_append]
      exact ⟨⟨hblank hgap, .inr rfl, trivial, trivial⟩, ih _ (.inr rfl)⟩
  induction opens generalizing w previous' with
  | zero =>
    refine ⟨⟨hblank hw, spelled, w.kind.ends_of_separates (separates_closing hgap separates), ?_⟩,
      hclosing closes _ (.inl rfl)⟩
    by_cases hkind : w.kind = .number
    · have hsigns := (signs hkind).behind hkind hprevious
      rw [hkind] at hsigns ⊢
      exact hsigns
    · exact TokenKind.signs_of_separates hkind (separates_closing hgap separates)
  | succ opens ih =>
    rw [wrap, List.cons_append]
    exact ⟨⟨hblank hw, .inl rfl, trivial, trivial⟩,
      ih (w := { w with gap }) hgap spelled signs (.inr rfl) rest hclosing⟩

end Word

/-! ## sources with parentheses -/

section

variable {source : String} {ts : List Token} {gap : Text} {brackets : List Span}

/-- A token behind a gap and between the parentheses that start and end where it does. -/
def Token.wrap (t : Token) (source : String) (before gap : Text) (brackets : List Span) :
    List Word :=
  Word.wrap gap (t.span.opens brackets) (t.span.closes brackets)
    ⟨before, t.kind, t.span.slice source.toList⟩

/-- The words of the tokens of a source with parentheses around spans, each behind a space. -/
def wrappedWords (source : String) (gap : Text) (brackets : List Span) (ts : List Token) :
    List Word :=
  ts.flatMap fun t => t.wrap source [' '] gap brackets

theorem written_wrappedWords :
    written (wrappedWords source gap brackets ts) [] = (ts.map fun t =>
      wrapped gap (t.span.opens brackets) (t.span.closes brackets)
        (t.kind.lexeme (t.span.slice source.toList))).flatMap (' ' :: ·) := by
  induction ts with
  | nil => rfl
  | cons t ts ih =>
    rw [wrappedWords, List.flatMap_cons, written_append, ← wrappedWords, ih, Token.wrap,
      Word.written_wrap, List.map_cons, List.flatMap_cons]
    rfl

theorem separates_wrappedWords : Separates (written (wrappedWords source gap brackets ts) []) := by
  rw [written_wrappedWords]
  cases ts with
  | nil => exact separates_nil
  | cons t ts => exact separates_space _

theorem fitting_wrappedWords {previous previous' : Option TokenKind} (hgap : ∀ c ∈ gap, c = ' ')
    (h : Spelled previous (ts.map fun t => (t.kind, t.span.slice source.toList)))
    (hprevious : previous' = previous ∨ previous' = some .parenthesis) :
    Fitting previous' (wrappedWords source gap brackets ts) [] := by
  induction ts generalizing previous previous' with
  | nil => exact List.forall_mem_nil _
  | cons t ts ih =>
    obtain ⟨⟨hspelled, hsigns⟩, hrest⟩ := h
    exact Word.fitting_wrap hgap (fun c hc => List.mem_singleton.1 hc) hspelled hsigns hprevious
      separates_wrappedWords fun p hp => ih hrest hp

/-- The tokens of a source that was written anew with parentheses around some spans, if it is not
too long then: those of the source, with parentheses between them. -/
theorem tokenize_bracketed (h : tokenize source = .ok ts) (pad : Nat) (brackets : List Span)
    (hlength : Text.byteLength (bracketed pad source ts brackets).toList ≤ Span.maxOffset) :
    ∃ ts', tokenize (bracketed pad source ts brackets) = .ok ts' ∧
      ts'.map (fun t => (t.kind, t.span.slice (bracketed pad source ts brackets).toList)) =
        ts.flatMap fun t => wrappedParts (t.span.opens brackets) (t.span.closes brackets)
          (t.kind, t.span.slice source.toList) := by
  have hspelled := spelled_of_tokenize h
  have hgap : ∀ c ∈ List.replicate pad ' ', c = ' ' := fun c hc => List.eq_of_mem_replicate hc
  generalize htext : bracketed pad source ts brackets = text at hlength ⊢
  rw [bracketed] at htext
  generalize List.replicate pad ' ' = gap at hgap htext
  -- the first token has no space in front of it
  let words : List Word := match ts with
    | [] => []
    | t :: ts => t.wrap source [] gap brackets ++ wrappedWords source gap brackets ts
  have hwritten : text.toList = written words [] := by
    rw [← htext, String.toList_intercalate, List.map_map]
    cases ts with
    | nil => rfl
    | cons t ts =>
      show List.intercalate [' '] _ = written (t.wrap source [] gap brackets ++ _) []
      rw [List.map_cons, intercalate_space, written_append, written_wrappedWords, Token.wrap,
        Word.written_wrap]
      simp [Function.comp_def, Word.lexeme]
  have hfitting : Fitting none words [] := by
    cases ts with
    | nil => exact List.forall_mem_nil _
    | cons t ts =>
      obtain ⟨⟨hspells, hsigns⟩, hrest⟩ := hspelled
      exact Word.fitting_wrap hgap (List.forall_mem_nil _) hspells hsigns (.inl rfl)
        separates_wrappedWords fun p hp => fitting_wrappedWords hgap hrest hp
  refine ⟨tokensOf 0 words, tokenize_written hlength hwritten hfitting, ?_⟩
  rw [parts_tokensOf hwritten]
  cases ts with
  | nil => rfl
  | cons t ts =>
    show List.map _ (t.wrap source [] gap brackets ++ ts.flatMap _) = _
    rw [List.map_append, Token.wrap, Word.parts_wrap, List.flatMap_cons, List.map_flatMap]
    simp only [Token.wrap, Word.parts_wrap]

end

end ExprEngine
