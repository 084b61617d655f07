import ExprEngine.Proofs.Token.Enclosing

/-!
# Sources between commas

Sources written one after the other, with a comma between any two and a parenthesis behind the last
one, keep the words that each has alone. The comma and the parenthesis stand behind the blanks at
the end of the source before them.

* `listed`           the words of sources between commas;
* `written_listed`   what they are written as;
* `fitting_listed`   they fit behind a parenthesis or a comma.
-/

namespace ExprEngine

/-- A comma behind a gap. -/
def comma (gap : Text) : Word := ⟨gap, .comma, [',']⟩

/-- Sources, each by its words and the blanks behind them, with commas between them and a closing
parenthesis at the end. -/
def listed : List (List Word × Text) → List Word
  | [] => [closing []]
  | [p] => p.1 ++ [closing p.2]
  | p :: q :: ps => p.1 ++ comma p.2 :: listed (q :: ps)

theorem written_listed (ps : List (List Word × Text)) :
    written (listed ps) [] = [','].intercalate (ps.map fun p => written p.1 p.2) ++ [')'] := by
  induction ps using listed.induct with
  | case1 => rfl
  | case2 p => rw [listed, written_closing, List.map_singleton, List.intercalate_singleton]
  | case3 p q ps ih =>
    simp only [List.map_cons] at ih ⊢
    rw [listed, written_marked, ih, List.intercalate_cons_cons, List.append_assoc, List.append_assoc]
    rfl

/-- What fits at the start fits between commas, behind a token that ends no operand. -/
theorem fitting_listed {ps : List (List Word × Text)} (h : ∀ p ∈ ps, Fitting none p.1 p.2)
    {k : TokenKind} (hk : k.endsOperand = false) : Fitting (some k) (listed ps) [] := by
  induction ps using listed.induct generalizing k with
  | case1 => exact ⟨⟨List.forall_mem_nil _, .inr rfl, trivial, trivial⟩, List.forall_mem_nil _⟩
  | case2 p => exact fitting_closing (fitting_after (h p (List.mem_cons_self ..)) hk)
  | case3 p q ps ih =>
    obtain ⟨hp, hps⟩ := List.forall_mem_cons.1 h
    exact fitting_marked (comma p.2) (fitting_after hp hk) (separates_comma _) fun _ =>
      ⟨⟨blank_of_fitting hp, rfl, trivial, trivial⟩, ih hps rfl⟩

end ExprEngine
