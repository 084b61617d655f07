import ExprEngine.Proofs.Engine
import ExprEngine.Proofs.Token.Quoting

/-!
# A spelled text evaluates to itself

* `Limits.Admit`              limits under which a single part is parsed and run;
* `Engine.evaluate_string`    a source of one string token;
* `strings_round_trip`        a spelling evaluates to its text, and both readers of a string token
                              take the same steps.
-/

namespace ExprEngine

variable {r : Registry} {limits : Limits} {σ : Type}

/-- Limits under which a single part is parsed and run. -/
structure Limits.Admit (limits : Limits) : Prop where
  parts : 0 < limits.maxParts
  operands : 0 < limits.maxOperands
  values : 0 < limits.maxValues

/-- The constant that a string lexeme denotes. -/
def Lexeme.stringTree (l : Lexeme) : Tree :=
  .constant ⟨0, l.index, l.span⟩ (.string (String.ofList (Literal.unescape l.text.toList)))

theorem parse_string {s : TokenStream} {l : Lexeme} (hs : s.lexemes = [l]) (kind : l.kind = .string)
    (room : limits.Admit) : parse s r limits = .ok ⟨l.stringTree, 1⟩ := by
  have halloc : ¬ limits.maxParts ≤ 0 := Nat.not_le.2 room.parts
  have hpush : ¬ limits.maxOperands ≤ 0 := Nat.not_le.2 room.operands
  have hplace : ParseState.place limits l.index l.span
      (.constant · (.string (String.ofList (Literal.unescape l.text.toList)))) {} =
        .ok ⟨⟨.whole, [.done l.stringTree], []⟩, [], 1, 0⟩ := by
    unfold ParseState.place ParseState.alloc
    rw [if_neg halloc, ok_bind]
    dsimp only [OperandStack.connect, OperandStack.push, List.length_nil]
    rw [if_neg hpush]
    rfl
  have hstep : ParseState.step r limits l [] {} =
      .ok ⟨⟨.whole, [.done l.stringTree], []⟩, [], 1, 0⟩ := by
    have htoken : ParseState.token r limits l [] {} =
        .ok ⟨⟨.whole, [.done l.stringTree], []⟩, [], 1, 0⟩ := by
      rw [ParseState.token, kind]
      exact hplace
    have hopen : ({} : ParseState).level.bracket.close? ≠ some l.index := nofun
    show (if ({} : ParseState).level.bracket.close? = some l.index then
      ParseState.ascend r limits {} else ParseState.token r limits l [] {}) = _
    rw [if_neg hopen, htoken]
  unfold parse
  rw [hs, ParseState.run, hstep]
  rfl

theorem Machine.evaluate_constant (m : Machine σ) (h : 0 < m.maxValues) (o : Origin) (v : Value)
    (w : World σ) : m.evaluate (.constant o v) w = (.ok v, w) := by
  have hplain : toggled? m.registry (.constant o v) = none := by
    unfold toggled?
    split
    · rfl
    · rfl
  have hpush : m.push o v [] = .ok [v] := if_neg (Nat.not_le.2 h)
  have hrun : m.run (Tree.constant o v).schedule [] w = (.ok [v], w) := by
    have hstep : m.step (.constant o v) [] w = (.ok [v], w) := by
      show (m.push o v [], w) = _
      rw [hpush]
    rw [Tree.schedule, run, hstep]
    rfl
  unfold evaluate
  rw [hplain]
  dsimp only
  rw [hrun]
  rfl

/-- A source of one string token evaluates to the text that it stands for. -/
theorem Engine.evaluate_string (engine : Engine) (room : engine.limits.Admit) (c : Context σ)
    {source : String} {span : Span} (ht : tokenize source = .ok [⟨.string, span⟩]) :
    engine.evaluate source c =
      ⟨.ok (.string (String.ofList (Literal.unescape (span.slice source.toList)))), c, []⟩ := by
  let l : Lexeme := TokenStream.lexeme source.toList 0 ⟨.string, span⟩
  have hlexemes : TokenStream.lexemes ⟨source.toList, [⟨.string, span⟩]⟩ = [l] := rfl
  have hcompiled : engine.compile source c.registry =
      .ok ⟨⟨l.stringTree, 1⟩, ⟨[.same .string], .string⟩⟩ := by
    rw [engine.compile_of_tokenize ht c.registry, parse_string hlexemes rfl room]
    rfl
  unfold evaluate
  rw [hcompiled]
  unfold run ExprEngine.evaluate
  dsimp only
  rw [Lexeme.stringTree, Machine.evaluate_constant _ room.values]
  have htext : l.text.toList = span.slice source.toList := String.toList_ofList
  rw [htext]
  rfl

/-- A spelling of a text between quotes is one string token, which covers the spelling and
evaluates to the text, in every context and with no effect. And on every string token of a source
the steps of the scanner are those of the expansion: no backslash at its end is without a
character. -/
theorem strings_round_trip :
    (∀ s t : Text, Escaping s t → Text.byteLength t ≤ Span.maxOffset - 2 →
      let source := String.ofList ('"' :: (t ++ ['"']))
      let span : Span := ⟨1, 1 + Text.byteLength t⟩
      tokenize source = .ok [⟨.string, span⟩] ∧ span.slice source.toList = t ∧
        ∀ (σ : Type) (engine : Engine) (c : Context σ), engine.limits.Admit →
          engine.evaluate source c = ⟨.ok (.string (String.ofList s)), c, []⟩) ∧
    (∀ cs : Text, Scan.content? cs =
      (Scan.pieces? cs).map fun (ps, rest) => (ps.flatMap StringPiece.text, rest)) ∧
    (∀ cs : Text, Literal.unescape cs = (Literal.pieces cs).flatMap StringPiece.value) ∧
    ∀ (source : String) (ts : List Token), tokenize source = .ok ts →
      ∀ t ∈ ts, t.kind = .string →
        ∃ before text behind, StringToken source.toList t before text behind := by
  refine ⟨fun s t h hlength => ?_, Scan.content?_pieces, Literal.unescape_pieces,
    fun source ts ht t hmem hkind => strings_in_step ht hmem hkind⟩
  have htokens := tokenize_quoted h hlength
  have hslice : Span.slice ⟨1, 1 + Text.byteLength t⟩
      (String.ofList ('"' :: (t ++ ['"']))).toList = t := by
    rw [String.toList_ofList]
    exact Tokenizer.slice_piece ['"'] t ['"']
  refine ⟨htokens, hslice, fun σ engine c room => ?_⟩
  rw [engine.evaluate_string room c htokens, hslice, h.unescape]

/-- A quote, a backslash, a letter of two bytes and a line break. -/
def quotedText : Text := ['"', '\\', 'é', '\n']

/-- A spelling of it, which keeps the line break. -/
def quotedSpelling : Text := ['\\', '"', '\\', '\\', 'é', '\n']

theorem escaping_quoted : Escaping quotedText quotedSpelling :=
  .escaped (by decide) (.escaped (by decide) (.plain (by decide) (by decide)
    (.plain (by decide) (by decide) .nil)))

theorem strings_round_trip_quoted :
    evaluateText "\"\\\"\\\\é\n\"" sampleContext =
        ⟨.ok (.string "\"\\é\n"), sampleContext, []⟩ ∧
      ∃ before text behind,
        StringToken "\"\\\"\\\\é\n\"".toList ⟨.string, ⟨1, 8⟩⟩ before text behind := by
  obtain ⟨htokens, -, hvalue⟩ := strings_round_trip.1 quotedText quotedSpelling escaping_quoted
    (by decide)
  refine ⟨hvalue Unit {} sampleContext ⟨by decide, by decide, by decide⟩, ?_⟩
  exact strings_round_trip.2.2.2 _ _ htokens _ (List.mem_singleton_self _) rfl

end ExprEngine
