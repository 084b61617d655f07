import ExprEngine.Proofs.Parse.Grouping
import ExprEngine.Proofs.Parse.Transport
import ExprEngine.Proofs.Token.Enclosing
import ExprEngine.Proofs.Typing.Exact
import ExprEngine.Proofs.Typing.Placement

/-!
# Reading a source inside a longer one

A source that compiles can be put between parentheses behind other words. The longer text is then
read as the phrase of its words around the tree of the source.

* `Engine.Reads`         a text that is read as a tree, origins apart;
* `reads_of_phrase`      a well grouped phrase is read as its tree;
* `phrase_name`, `phrase_binary`, `phrase_enclosed`   phrases made of words;
* `reads_enclosed`       a text with a source between parentheses.
-/

namespace ExprEngine

variable {r : Registry} {source name : String} {x : VarId} {v : Variable}

/-- A text that an engine reads as a tree, origins apart: it compiles exactly when the tree has a
type. -/
structure Engine.Reads (engine : Engine) (r : Registry) (text : String) (u : Tree) : Prop where
  compiles : (∃ f, engine.compile text r = .ok f) ↔ ∃ ty, HasTyping r u ty
  tree : ∀ f, engine.compile text r = .ok f → f.expr.tree.bare = u.bare

/-- A well grouped phrase in the lexemes of a text is what the text is read as. -/
theorem reads_of_phrase (hr : r.Declared) {engine : Engine} {text : String} {ts : List Token}
    (htokens : tokenize text = .ok ts) {t u : Tree} {ls : List Lexeme} (hp : Phrase r t ls)
    (hlexemes : (TokenStream.lexemes ⟨text.toList, ts⟩).map Lexeme.bare = ls.map Lexeme.bare)
    (hbare : t.bare = u.bare) (hg : u.WellGrouped)
    (room : Room engine.limits u.nodes.length 0 0 0) : engine.Reads r text u := by
  obtain ⟨e, he, hebare⟩ := parse_of_phrase hr (proper_of_tokenize htokens) hp hlexemes hbare hg
    room
  have hcompile : engine.compile text r =
      (liftError .type (check e r) >>= fun types => .ok ⟨e, types⟩) := by
    rw [engine.compile_of_tokenize htokens, he]
    rfl
  refine ⟨⟨?_, ?_⟩, fun f hf => ?_⟩
  · rintro ⟨f, hf⟩
    rw [hcompile] at hf
    obtain ⟨types, htypes, -⟩ := bind_eq_ok.1 hf
    obtain ⟨-, ty, hty, -⟩ :=
      typing_of_check (Tree.numbered_of_perm (parse_ids he)) (liftError_eq_ok htypes)
    exact ⟨ty, hty.congr hebare⟩
  · rintro ⟨ty, hty⟩
    obtain ⟨ps, hchecks⟩ := (hty.congr hebare.symm).checks
    have hcheck : check e r = .ok _ := map_eq_ok.2 ⟨_, hchecks, rfl⟩
    rw [hcompile, hcheck]
    exact ⟨_, rfl⟩
  · rw [hcompile] at hf
    obtain ⟨types, -, hf⟩ := bind_eq_ok.1 hf
    cases hf
    exact hebare

/-! ## words -/

/-- A name as a word. -/
def Word.ofName (name : String) : Word := ⟨[], .identifier, name.toList⟩

/-- The symbol of an operator as a word. -/
def Word.ofSign (op : BinaryOp) : Word := ⟨[], .operator, (Operator.binary op).symbol.toList⟩

/-- A word as a lexeme without a place. -/
def Word.bare (w : Word) : Lexeme := .ofPart (w.kind, w.text)

/-- The lexemes of a source between parentheses, with words in front of them. -/
def enclosedLexemes (front : List Word) (ls : List Lexeme) : List Lexeme :=
  front.map Word.bare ++ opening.bare :: (ls ++ [(closing []).bare])

theorem phrase_enclosed {t : Tree} {ls : List Lexeme} (h : Phrase r t ls) :
    ∃ o, Phrase r (.group o t) (opening.bare :: (ls ++ [(closing []).bare])) := by
  have hopens : opening.bare.isOpening = true := by decide
  have hcloses : (closing []).bare.Closes := by decide
  exact ⟨⟨0, _, _⟩, .group rfl hopens hcloses h⟩

theorem phrase_name (hr : r.Declared) (hx : r.variableAt? x = some v) :
    ∃ o, Phrase r (.reference o x) [(Word.ofName v.name).bare] := by
  refine ⟨⟨0, _, _⟩, .reference rfl ?_⟩
  show r.variableNamed? (String.ofList v.name.toList) = some x
  rw [String.ofList_toList]
  exact (hr.indexed.vars v.name x).2 ⟨v, hx, rfl⟩

theorem phrase_binary {b : BinaryOp} {t u : Tree} {ls ls' : List Lexeme} (left : Phrase r t ls)
    (right : Phrase r u ls') :
    ∃ o, Phrase r (.binary o b t u) (ls ++ (Word.ofSign b).bare :: ls') :=
  ⟨⟨0, _, _⟩, .binary ⟨rfl, String.ofList_toList⟩ left right⟩

theorem spells_ofName (h : Nameable name) :
    (Word.ofName name).kind.Spells (Word.ofName name).text ∧ (Word.ofName name).kind ≠ .number :=
  ⟨h.written, TokenKind.noConfusion⟩

theorem spells_ofSign (b : BinaryOp) :
    (Word.ofSign b).kind.Spells (Word.ofSign b).text ∧ (Word.ofSign b).kind ≠ .number :=
  ⟨.inr ⟨.binary b, rfl⟩, TokenKind.noConfusion⟩

theorem wellGrouped_of_parse {limits : Limits} {s : TokenStream} {e : Expr}
    (h : parse s r limits = .ok e) : e.tree.WellGrouped := by
  have hinv := parse_invariant (P := fun levels _ => ∀ l ∈ levels, Level.Grouped l)
    (List.forall_mem_singleton.2 ⟨trivial, nofun⟩) (fun m hp => m.grouped hp) h
  exact (hinv.1 _ (List.mem_singleton_self _)).operands.1

/-- A text with a source between parentheses is read as the phrase of its words. -/
theorem reads_enclosed (hr : r.Declared) {engine compiler : Engine} {e : Expression}
    (hc : compiler.compile source r = .ok e) {text : String} {first : Word} {front : List Word}
    (hfront : ∀ w ∈ first :: front, w.kind.Spells w.text ∧ w.kind ≠ .number)
    (htext : text.toList =
      written (spacing (first :: front)) [] ++ ([' ', '('] ++ (source.toList ++ [')'])))
    (hlength : Text.byteLength text.toList ≤ Span.maxOffset) {u : Tree}
    (hphrase : ∀ ls, Phrase r e.expr.tree ls →
      ∃ t, Phrase r t (enclosedLexemes (first :: front) ls) ∧ t.bare = u.bare)
    (hg : e.expr.tree.WellGrouped → u.WellGrouped)
    (room : Room engine.limits u.nodes.length 0 0 0) : engine.Reads r text u := by
  obtain ⟨ts, htokens, hparse, -⟩ := stages_of_compile hc
  obtain ⟨ts', htokens', hparts⟩ := tokenize_enclosed htokens hfront htext hlength
  obtain ⟨t, hp, hbare⟩ := hphrase _ (phrase_of_parse hparse)
  refine reads_of_phrase hr htokens' hp ?_ hbare (hg (wellGrouped_of_parse hparse)) room
  rw [TokenStream.lexemes, bare_lexemesFrom, hparts, enclosedLexemes]
  simp only [List.map_append, List.map_cons, List.map_map, TokenStream.lexemes, bare_lexemesFrom]
  rfl

end ExprEngine
