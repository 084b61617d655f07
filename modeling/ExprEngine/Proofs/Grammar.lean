import ExprEngine.Parse
import Mathlib.Data.List.Forall2

/-!
# The grammar of expressions

What a tree looks like when it is written down. A phrase is the run of lexemes that a tree is
written as, every part at its own token. The grammar says nothing about strength: which trees need
no brackets to be read back is said apart.

* `Phrase`              a tree and the lexemes it is written as;
* `PhraseList`          trees written between commas;
* `Tree.Grouped`        a part whose operands bind tightly enough for their places;
* `Tree.WellGrouped`    a tree all of whose parts are grouped;
* `Tree.unnumbered`     a tree without the ids of its parts.
-/

namespace ExprEngine

/-! ## marks -/

/-- A parenthesis that closes: one that does not open. -/
def Lexeme.Closes (l : Lexeme) : Prop := l.kind = .parenthesis ∧ l.isOpening = false

/-- An operator token of a given text. -/
def Lexeme.Signs (l : Lexeme) (s : String) : Prop := l.kind = .operator ∧ l.text = s

instance (l : Lexeme) : Decidable l.Closes := inferInstanceAs (Decidable (_ ∧ _))
instance (l : Lexeme) (s : String) : Decidable (l.Signs s) := inferInstanceAs (Decidable (_ ∧ _))

/-! ## phrases -/

/-- Constants for the defaults of a call, all placed at its closing parenthesis. -/
def Fills (close : Lexeme) : List Value → List Tree → Prop :=
  List.Forall₂ fun v t => ∃ id, t = .constant ⟨id, close.index, close.span⟩ v

mutual

/-- The lexemes a tree is written as, in order. A part carries the position and the span of its own
lexeme; the span of brackets reaches to the closing one. Arguments filled in from defaults are not
written. -/
inductive Phrase (r : Registry) : Tree → List Lexeme → Prop
  | number {id : PartId} {l : Lexeme} {v : Value} (kind : l.kind = .number)
      (value : Literal.number? l.text.toList = some v) :
      Phrase r (.constant ⟨id, l.index, l.span⟩ v) [l]
  | string {id : PartId} {l : Lexeme} (kind : l.kind = .string) :
      Phrase r (.constant ⟨id, l.index, l.span⟩
        (.string (String.ofList (Literal.unescape l.text.toList)))) [l]
  | boolean {id : PartId} {l : Lexeme} {b : Bool} (kind : l.kind = .identifier)
      (value : booleanNamed? l.text = some b) :
      Phrase r (.constant ⟨id, l.index, l.span⟩ (.bool b)) [l]
  | reference {id : PartId} {l : Lexeme} {x : VarId} (kind : l.kind = .identifier)
      (found : r.variableNamed? l.text = some x) :
      Phrase r (.reference ⟨id, l.index, l.span⟩ x) [l]
  | unary {id : PartId} {l : Lexeme} {op : UnaryOp} {x : Tree} {xs : List Lexeme}
      (sign : l.Signs (Operator.unary op).symbol) (operand : Phrase r x xs) :
      Phrase r (.unary ⟨id, l.index, l.span⟩ op x) (l :: xs)
  | binary {id : PartId} {l : Lexeme} {op : BinaryOp} {a b : Tree} {as bs : List Lexeme}
      (sign : l.Signs (Operator.binary op).symbol) (left : Phrase r a as) (right : Phrase r b bs) :
      Phrase r (.binary ⟨id, l.index, l.span⟩ op a b) (as ++ l :: bs)
  | choice {id : PartId} {l colon : Lexeme} {c y n : Tree} {cs ys ns : List Lexeme}
      (sign : l.Signs Operator.choice.symbol) (separator : colon.Signs branchSymbol)
      (condition : Phrase r c cs) (yes : Phrase r y ys) (no : Phrase r n ns) :
      Phrase r (.choice ⟨id, l.index, l.span⟩ c y n) (cs ++ l :: (ys ++ colon :: ns))
  | cast {id : PartId} {opening name close : Lexeme} {target : ValueType} {x : Tree}
      {xs : List Lexeme} (bracket : opening.kind = .parenthesis) (opens : opening.isOpening = true)
      (kind : name.kind = .identifier) (type : ValueType.ofName? name.text = some target)
      (closes : close.Closes) (operand : Phrase r x xs) :
      Phrase r (.cast ⟨id, opening.index, opening.span.merge close.span⟩ target x)
        (opening :: name :: close :: xs)
  | group {id : PartId} {opening close : Lexeme} {x : Tree} {xs : List Lexeme}
      (bracket : opening.kind = .parenthesis) (opens : opening.isOpening = true)
      (closes : close.Closes) (inner : Phrase r x xs) :
      Phrase r (.group ⟨id, opening.index, opening.span.merge close.span⟩ x)
        (opening :: (xs ++ [close]))
  | call {id : PartId} {name opening close : Lexeme} {f : FuncId} {written filled : List Tree}
      {ls : List Lexeme} (kind : name.kind = .identifier) (opens : opening.isOpening = true)
      (closes : close.Closes) (few : written.length ≤ maxArguments)
      (resolves : r.resolve name.text written.length = .ok f) (args : PhraseList r written ls)
      (defaults : Fills close (ParseState.defaultsAfter r f written.length) filled) :
      Phrase r (.call ⟨id, name.index, name.span.merge close.span⟩ f (written ++ filled))
        (name :: opening :: (ls ++ [close]))

/-- The lexemes that trees are written as, with a comma between two of them. -/
inductive PhraseList (r : Registry) : List Tree → List Lexeme → Prop
  | nil : PhraseList r [] []
  | one {t : Tree} {ls : List Lexeme} (only : Phrase r t ls) : PhraseList r [t] ls
  | cons {t u : Tree} {ts : List Tree} {comma : Lexeme} {ls ls' : List Lexeme}
      (first : Phrase r t ls) (separates : comma.kind = .comma)
      (rest : PhraseList r (u :: ts) ls') : PhraseList r (t :: u :: ts) (ls ++ comma :: ls')

end

/-- The lexemes of trees each of which has a comma after it. -/
inductive PhraseEach (r : Registry) : List Tree → List Lexeme → Prop
  | nil : PhraseEach r [] []
  | cons {t : Tree} {ts : List Tree} {comma : Lexeme} {ls ls' : List Lexeme}
      (first : Phrase r t ls) (separates : comma.kind = .comma) (rest : PhraseEach r ts ls') :
      PhraseEach r (t :: ts) (ls ++ comma :: ls')

variable {r : Registry}

theorem Phrase.ne_nil {t : Tree} {ls : List Lexeme} (h : Phrase r t ls) : ls ≠ [] := by
  cases h <;> simp

theorem PhraseList.eq_nil_iff {ts : List Tree} {ls : List Lexeme} (h : PhraseList r ts ls) :
    ts = [] ↔ ls = [] := by
  cases h with
  | nil => simp
  | one only => simp [only.ne_nil]
  | cons => simp

theorem PhraseEach.concat {ts : List Tree} {ls : List Lexeme} (h : PhraseEach r ts ls) {t : Tree}
    {comma : Lexeme} {xs : List Lexeme} (ht : Phrase r t xs) (hc : comma.kind = .comma) :
    PhraseEach r (ts ++ [t]) (ls ++ (xs ++ [comma])) := by
  induction h with
  | nil => exact .cons ht hc .nil
  | cons first separates _ ih =>
    rw [List.append_assoc, List.cons_append]
    exact .cons first separates ih

/-- One tree more, after the last comma, completes the list. -/
theorem PhraseEach.close {ts : List Tree} {ls : List Lexeme} (h : PhraseEach r ts ls) {t : Tree}
    {xs : List Lexeme} (ht : Phrase r t xs) : PhraseList r (ts ++ [t]) (ls ++ xs) := by
  induction h with
  | nil => exact .one ht
  | @cons _ ts _ _ _ first separates _ ih =>
    rw [List.append_assoc, List.cons_append]
    cases ts with
    | nil => exact .cons first separates ih
    | cons => exact .cons first separates ih

theorem PhraseEach.eq_nil {ts : List Tree} (h : PhraseEach r ts []) : ts = [] := by
  generalize e : ([] : List Lexeme) = ls at h
  cases h with
  | nil => rfl
  | cons => simp at e

/-! ## grouping -/

/-- Whether a tree binds at least as tightly as `p`. What is no operator does. -/
def Tree.BindsFrom (t : Tree) (p : Nat) : Prop := ∀ q, t.precedence? = some q → p ≤ q

/-- Whether the operands of a tree's topmost part may stand there without brackets. The right side
of an assignment and the first branch of a choice may be anything. -/
def Tree.Grouped : Tree → Prop
  | .unary _ _ x => ∀ q, x.precedence? = some q → q = castPrecedence
  | .cast _ _ x => ∀ q, x.precedence? = some q → q = castPrecedence
  | .binary _ op l x =>
    if op.isAssignment then l.BindsFrom (op.precedence + 1)
    else l.BindsFrom op.precedence ∧ x.BindsFrom (op.precedence + 1)
  | .choice _ c _ n => c.BindsFrom choicePrecedence ∧ n.BindsFrom (choicePrecedence + 1)
  | _ => True

/-- Whether every part of a tree is grouped. -/
def Tree.WellGrouped (t : Tree) : Prop := ∀ n ∈ t.nodes, n.Grouped

namespace Tree

theorem grouped_binary {o : Origin} {op : BinaryOp} {l x : Tree} :
    (binary o op l x).Grouped ↔
      if op.isAssignment then l.BindsFrom (op.precedence + 1)
      else l.BindsFrom op.precedence ∧ x.BindsFrom (op.precedence + 1) := Iff.rfl

theorem wellGrouped_of_nodes {t : Tree} (hn : t.nodes = [t]) (hg : t.Grouped) : t.WellGrouped := by
  intro n h
  rw [hn, List.mem_singleton] at h
  rwa [h]

theorem wellGrouped_unary {o : Origin} {op : UnaryOp} {x : Tree} :
    (unary o op x).WellGrouped ↔ (unary o op x).Grouped ∧ x.WellGrouped := List.forall_mem_cons

theorem wellGrouped_cast {o : Origin} {ty : ValueType} {x : Tree} :
    (cast o ty x).WellGrouped ↔ (cast o ty x).Grouped ∧ x.WellGrouped := List.forall_mem_cons

theorem wellGrouped_group {o : Origin} {x : Tree} :
    (group o x).WellGrouped ↔ x.WellGrouped :=
  List.forall_mem_cons.trans (and_iff_right trivial)

theorem wellGrouped_binary {o : Origin} {op : BinaryOp} {l x : Tree} :
    (binary o op l x).WellGrouped ↔
      (binary o op l x).Grouped ∧ l.WellGrouped ∧ x.WellGrouped :=
  List.forall_mem_cons.trans (and_congr_right fun _ => List.forall_mem_append)

theorem wellGrouped_choice {o : Origin} {c y n : Tree} :
    (choice o c y n).WellGrouped ↔
      (choice o c y n).Grouped ∧ c.WellGrouped ∧ y.WellGrouped ∧ n.WellGrouped := by
  refine List.forall_mem_cons.trans (and_congr_right fun _ => ?_)
  rw [List.forall_mem_append, List.forall_mem_append, and_assoc]
  rfl

theorem mem_nodesOfAll {n : Tree} {ts : List Tree} :
    n ∈ nodesOfAll ts ↔ ∃ t ∈ ts, n ∈ t.nodes := by
  induction ts with
  | nil => exact iff_of_false List.not_mem_nil nofun
  | cons t ts ih =>
    refine List.mem_append.trans ?_
    rw [ih, List.exists_mem_cons_iff]

theorem wellGrouped_call {o : Origin} {f : FuncId} {args : List Tree} :
    (call o f args).WellGrouped ↔ ∀ t ∈ args, t.WellGrouped := by
  refine List.forall_mem_cons.trans ((and_iff_right trivial).trans ?_)
  simp only [mem_nodesOfAll]
  exact ⟨fun h t ht n hn => h n ⟨t, ht, hn⟩, fun h n ⟨t, ht, hn⟩ => h t ht n hn⟩

end Tree

/-- What is written as a single lexeme: a literal, which is no name but that of a truth value, or the
name of a variable. -/
theorem Phrase.single_cases {t : Tree} {l : Lexeme} (h : Phrase r t [l]) :
    (∃ o v, t = .constant o v ∧
      (l.kind = .identifier → ∃ b, booleanNamed? l.text = some b)) ∨
    ∃ o x, t = .reference o x ∧ r.variableNamed? l.text = some x := by
  generalize e : [l] = ls at h
  cases h with
  | number kind =>
    cases e
    exact .inl ⟨_, _, rfl, fun hk => nomatch kind.symm.trans hk⟩
  | string kind =>
    cases e
    exact .inl ⟨_, _, rfl, fun hk => nomatch kind.symm.trans hk⟩
  | boolean _ value =>
    cases e
    exact .inl ⟨_, _, rfl, fun _ => ⟨_, value⟩⟩
  | reference _ found =>
    cases e
    exact .inr ⟨_, _, rfl, found⟩
  | unary _ operand =>
    cases e
    exact absurd rfl operand.ne_nil
  | binary _ left _ =>
    have := List.length_pos_of_ne_nil left.ne_nil
    have := congrArg List.length e
    simp at this
    omega
  | choice _ _ condition =>
    have := List.length_pos_of_ne_nil condition.ne_nil
    have := congrArg List.length e
    simp at this
    omega
  | cast => cases e
  | group => simp at e
  | call => cases e

/-- A part written as a single lexeme has no operands. -/
theorem Phrase.single_lexeme {t : Tree} {l : Lexeme} (h : Phrase r t [l]) :
    t.precedence? = none ∧ t.Grouped ∧ t.nodes = [t] := by
  rcases h.single_cases with ⟨o, v, rfl, -⟩ | ⟨o, x, rfl, -⟩
  · exact ⟨rfl, trivial, rfl⟩
  · exact ⟨rfl, trivial, rfl⟩

/-! ## trees without ids -/

/-- An origin with its id forgotten. -/
def Origin.unnumbered (o : Origin) : Origin := { o with id := 0 }

mutual

/-- A tree with the ids of its parts forgotten. -/
def Tree.unnumbered : Tree → Tree
  | .hole => .hole
  | .constant o v => .constant o.unnumbered v
  | .reference o x => .reference o.unnumbered x
  | .unary o op x => .unary o.unnumbered op x.unnumbered
  | .binary o op l x => .binary o.unnumbered op l.unnumbered x.unnumbered
  | .choice o c y n => .choice o.unnumbered c.unnumbered y.unnumbered n.unnumbered
  | .cast o ty x => .cast o.unnumbered ty x.unnumbered
  | .group o x => .group o.unnumbered x.unnumbered
  | .call o f args => .call o.unnumbered f (unnumberedAll args)

/-- Trees with the ids of their parts forgotten. -/
def unnumberedAll : List Tree → List Tree
  | [] => []
  | t :: ts => t.unnumbered :: unnumberedAll ts

end

end ExprEngine
