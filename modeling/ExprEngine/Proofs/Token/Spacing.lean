import ExprEngine.Proofs.Token.Exact

/-!
# Space between tokens

The tokens of a source, written anew with one space between any two of them, are the tokens of what
was written. What stood close to a token matters only where it would make another token of it, and a
space never does.

* `respaced`           the lexemes of a source with single spaces between them;
* `Separates`          a text that makes no token before it longer;
* `Word.Fits.move`     a word that fits one place fits any other behind the same token;
* `tokenize_respaced`  the tokens of a source that was written anew.
-/

namespace ExprEngine

/-- The lexemes of some tokens of a source with single spaces between them. -/
def respaced (source : String) (ts : List Token) : String :=
  String.intercalate " "
    (ts.map fun t => String.ofList (t.kind.lexeme (t.span.slice source.toList)))

/-! ## words and the text behind them -/

/-- A text that makes no token before it longer: nothing, or a space, a closing parenthesis or a comma
with anything behind it. -/
def Separates (rest : Text) : Prop := ∀ c, rest.head? = some c → c ∈ [' ', ')', ',']

theorem separates_nil : Separates [] := nofun

theorem separates_cons {c : Char} (hc : c ∈ [' ', ')', ',']) (rest : Text) : Separates (c :: rest) := by
  rintro _ ⟨⟩
  exact hc

theorem separates_space (rest : Text) : Separates (' ' :: rest) := separates_cons (by decide) rest

theorem separates_close (rest : Text) : Separates (')' :: rest) := separates_cons (by decide) rest

theorem separates_comma (rest : Text) : Separates (',' :: rest) := separates_cons (by decide) rest

theorem symbol_ne_append (o : Operator) (text : Text) {c : Char} (hc : c ∈ [' ', ')', ',']) :
    o.symbol.toList ≠ text ++ [c] := by
  have hnot : ∀ o ∈ Operator.all, [' ', ')', ','].any o.symbol.toList.contains = false := by decide
  intro h
  refine List.any_eq_false.1 (hnot o (Operator.mem_all o)) c hc ?_
  rw [h, List.contains_iff_mem]
  simp

theorem Separates.any_eq_false {rest : Text} (h : Separates rest) {p : Char → Bool}
    (hp : [' ', ')', ','].any p = false) : rest.head?.any p = false := by
  cases hrest : rest.head? with
  | none => rfl
  | some c => exact Bool.eq_false_iff.2 (List.any_eq_false.1 hp c (h c hrest))

namespace TokenKind

variable {previous : Option TokenKind} {text rest : Text}

theorem ends_of_separates (kind : TokenKind) (h : Separates rest) : kind.Ends text rest := by
  cases kind with
  | operator => exact fun c hc o => symbol_ne_append o text (h c hc)
  | number => exact ⟨h.any_eq_false (by decide), fun _ hdot => absurd (h '.' hdot) (by decide)⟩
  | identifier => exact h.any_eq_false (by decide)
  | _ => trivial

/-- A minus sign before a text that separates is an operator. -/
theorem signs_of_separates {kind : TokenKind} (hkind : kind ≠ .number) (h : Separates rest) :
    kind.Signs previous text rest := by
  cases kind with
  | number => exact absurd rfl hkind
  | operator =>
    intro _ hdigit
    rw [h.any_eq_false (by decide)] at hdigit
    cases hdigit
  | _ => trivial

end TokenKind

namespace Word

variable {w : Word} {gap rest rest' : Text} {previous : Option TokenKind}

/-- A word that fits one place fits any other that is behind the same token and before a text that
separates. -/
theorem Fits.move (h : w.Fits previous rest) (hgap : ∀ c ∈ gap, Blank c) (hrest : Separates rest') :
    { w with gap }.Fits previous rest' := by
  refine ⟨hgap, h.spelled, w.kind.ends_of_separates hrest, ?_⟩
  show w.kind.Signs previous w.text rest'
  by_cases hk : w.kind = .number
  · -- whether a number may have a sign depends only on the token before it
    have hsigns := h.signs
    rw [hk] at hsigns ⊢
    exact hsigns
  · exact TokenKind.signs_of_separates hk hrest

/-- The word behind a gap of one space. -/
def spaced (w : Word) : Word := { w with gap := [' '] }

end Word

/-! ## written anew -/

/-- Words with one space in front of each but the first. -/
def spacing : List Word → List Word
  | [] => []
  | w :: ws => { w with gap := [] } :: ws.map Word.spaced

theorem parts_spacing (ws : List Word) :
    (spacing ws).map (fun w => (w.kind, w.text)) = ws.map fun w => (w.kind, w.text) := by
  cases ws with
  | nil => rfl
  | cons w ws => simp [spacing, Word.spaced]

theorem written_spaced (ws : List Word) :
    written (ws.map Word.spaced) [] = ws.flatMap fun w => ' ' :: w.lexeme := by
  induction ws with
  | nil => rfl
  | cons w ws ih =>
    rw [List.map_cons, written, ih, List.flatMap_cons]
    rfl

theorem separates_spaced (ws : List Word) : Separates (written (ws.map Word.spaced) []) := by
  cases ws with
  | nil => exact separates_nil
  | cons w ws => exact separates_space _

theorem intercalate_space (text : Text) (texts : List Text) :
    [' '].intercalate (text :: texts) = text ++ texts.flatMap (' ' :: ·) := by
  induction texts generalizing text with
  | nil => simp
  | cons next texts ih =>
    rw [List.intercalate_cons_cons, ih next, List.flatMap_cons]
    simp

theorem written_spacing (ws : List Word) :
    written (spacing ws) [] = [' '].intercalate (ws.map Word.lexeme) := by
  cases ws with
  | nil => rfl
  | cons w ws =>
    show w.lexeme ++ written (ws.map Word.spaced) [] = _
    rw [written_spaced, List.map_cons, intercalate_space, List.flatMap_map]

theorem fitting_spaced {previous : Option TokenKind} {ws : List Word} {tail : Text}
    (h : Fitting previous ws tail) : Fitting previous (ws.map Word.spaced) [] := by
  induction ws generalizing previous with
  | nil => exact List.forall_mem_nil _
  | cons w ws ih =>
    refine ⟨h.1.move ?_ (separates_spaced ws), ih h.2⟩
    exact fun c hc => .inl (List.mem_singleton.1 hc)

theorem fitting_spacing {ws : List Word} {tail : Text} (h : Fitting none ws tail) :
    Fitting none (spacing ws) [] := by
  cases ws with
  | nil => exact List.forall_mem_nil _
  | cons w ws => exact ⟨h.1.move (List.forall_mem_nil _) (separates_spaced ws), fitting_spaced h.2⟩

/-- The tokens of a source that was written anew, if it is not too long then: as many, of the same
kinds and with the same texts. -/
theorem tokenize_respaced {source : String} {ts : List Token} (h : tokenize source = .ok ts)
    (hlength : Text.byteLength (respaced source ts).toList ≤ Span.maxOffset) :
    ∃ ts', tokenize (respaced source ts) = .ok ts' ∧
      ts'.map (fun t => (t.kind, t.span.slice (respaced source ts).toList)) =
        ts.map fun t => (t.kind, t.span.slice source.toList) := by
  obtain ⟨ws, tail, hsource, hfitting, rfl⟩ := written_of_tokenize h
  have hparts := parts_tokensOf hsource
  have hlexemes : (tokensOf 0 ws).map (fun t => t.kind.lexeme (t.span.slice source.toList)) =
      ws.map Word.lexeme := by
    have hmap := congrArg (List.map fun p => TokenKind.lexeme p.1 p.2) hparts
    rwa [List.map_map, List.map_map] at hmap
  have hwritten : (respaced source (tokensOf 0 ws)).toList = written (spacing ws) [] := by
    rw [written_spacing, ← hlexemes, respaced, String.toList_intercalate, List.map_map]
    simp only [Function.comp_def, String.toList_ofList]
    rfl
  refine ⟨tokensOf 0 (spacing ws), tokenize_written hlength hwritten (fitting_spacing hfitting), ?_⟩
  rw [parts_tokensOf hwritten, parts_spacing, hparts]

end ExprEngine
