import ExprEngine.Proofs.Outcome
import ExprEngine.Proofs.Parse.Operands
import ExprEngine.Proofs.Token.Lexemes

/-!
# What one token can do

The effects of a successful step, without the bounds and the look-ahead that decide whether it
succeeds. What holds of the parser along a run follows from a look at each of these moves.

* `Effect`         the effect of a token on the operands of the innermost bracket;
* `Move`           the effect of a token on the state;
* `Reads`          open brackets, the lexemes read for them and those still ahead;
* `Reads.move`     a move reads its token.
-/

namespace ExprEngine

/-! ## brackets -/

/-- What looking for a closing parenthesis finds. -/
theorem closing?_eq_some {depth : Nat} {ls : List Lexeme} {c : Lexeme}
    (h : closing? depth ls = some c) : ∃ xs ys, ls = xs ++ c :: ys ∧ c.Closes := by
  induction ls generalizing depth with
  | nil => cases h
  | cons t ts ih =>
    rw [closing?] at h
    split at h
    · obtain ⟨xs, ys, rfl, hc⟩ := ih h
      exact ⟨t :: xs, ys, rfl, hc⟩
    rename_i hk
    split at h
    · obtain ⟨xs, ys, rfl, hc⟩ := ih h
      exact ⟨t :: xs, ys, rfl, hc⟩
    rename_i ho
    split at h
    · cases h
      exact ⟨[], ts, rfl, not_not.1 hk, Bool.not_eq_true _ ▸ ho⟩
    · obtain ⟨xs, ys, rfl, hc⟩ := ih h
      exact ⟨t :: xs, ys, rfl, hc⟩

/-- The arguments of a call whose closing parenthesis is read: none between bare brackets, else
those before the last comma and the one behind it. -/
inductive Level.Arguments : Bool → OperandStack → List Tree → List Tree → Prop
  | bare : Level.Arguments true [] [] []
  | last {args : List Tree} {t : Tree} : Level.Arguments false [.done t] args (args ++ [t])

/-- The constants that complete a call, the first of them with the id `next`. -/
def fillsFrom (close : Lexeme) : PartId → List Value → List Tree
  | _, [] => []
  | next, v :: vs => .constant ⟨next, close.index, close.span⟩ v :: fillsFrom close (next + 1) vs

theorem fills_fillsFrom (close : Lexeme) (next : PartId) (vs : List Value) :
    Fills close vs (fillsFrom close next vs) := by
  induction vs generalizing next with
  | nil => exact .nil
  | cons v vs ih => exact .cons ⟨next, rfl⟩ (ih (next + 1))

/-! ## moves -/

/-- Whether a lexeme stands before the one that closes a level. -/
def Level.Holds (l : Level) (u : Lexeme) : Prop := ∀ i, l.bracket.close? = some i → u.index < i

/-- The effect of a token on the operands of its level: the operands, the next id and the number of
lexemes taken along. -/
inductive Effect (r : Registry) (t : Lexeme) (ahead : List Lexeme) (next : PartId) :
    OperandStack → OperandStack → PartId → Nat → Prop
  | leaf {s : OperandStack} {x : Tree} (phrase : Phrase r x [t]) (id : x.id = next) :
      Effect r t ahead next s (s.attach x) (next + 1) 0
  | unary {s : OperandStack} {op : UnaryOp} (sign : t.Signs (Operator.unary op).symbol) :
      Effect r t ahead next s (.pending (.unary ⟨next, t.index, t.span⟩ op) :: s) (next + 1) 0
  | cast {s : OperandStack} {name close : Lexeme} {rest : List Lexeme} {target : ValueType}
      (bracket : t.kind = .parenthesis) (opens : t.isOpening = true)
      (kind : name.kind = .identifier) (type : ValueType.ofName? name.text = some target)
      (closes : close.Closes) (follows : ahead = name :: close :: rest) :
      Effect r t ahead next s
        (.pending (.cast ⟨next, t.index, t.span.merge close.span⟩ target) :: s) (next + 1) 2
  | binary {s s' : OperandStack} {op : BinaryOp} {left : Tree} {max : Nat}
      (sign : t.Signs (Operator.binary op).symbol)
      (taken : s.takeLeft max ⟨op.precedence, op.isAssignment⟩ t = .ok (left, s')) :
      Effect r t ahead next s (.pending (.binary ⟨next, t.index, t.span⟩ op left) :: s')
        (next + 1) 0
  | condition {s s' : OperandStack} {left : Tree} {max : Nat}
      (sign : t.Signs Operator.choice.symbol)
      (taken : s.takeLeft max ⟨choicePrecedence, false⟩ t = .ok (left, s')) :
      Effect r t ahead next s (.pending (.condition ⟨next, t.index, t.span⟩ left) :: s')
        (next + 1) 0
  | separate {s s' : OperandStack} (sign : t.Signs branchSymbol)
      (separated : s.separate t = .ok s') : Effect r t ahead next s s' next 0

/-- The effect of a token on the state. -/
inductive Move (r : Registry) (t : Lexeme) (ahead : List Lexeme) : ParseState → ParseState → Prop
  | operands {l : Level} {outer : List Level} {s : OperandStack} {next next' : PartId} {skip : Nat}
      (effect : Effect r t ahead next l.operands s next' skip)
      (inside : ∀ u ∈ t :: ahead.take skip, l.Holds u) :
      Move r t ahead ⟨l, outer, next, 0⟩ ⟨{ l with operands := s }, outer, next', skip⟩
  | comma {name close : Lexeme} {span : Span} {bare : Bool} {x : Tree} {args : List Tree}
      {outer : List Level} {next : PartId} (kind : t.kind = .comma)
      (inside : Level.Holds ⟨.call name span close bare, [.done x], args⟩ t) :
      Move r t ahead ⟨⟨.call name span close bare, [.done x], args⟩, outer, next, 0⟩
        ⟨⟨.call name span close bare, [], args ++ [x]⟩, outer, next, 0⟩
  | openGroup {l : Level} {outer : List Level} {next : PartId} {close : Lexeme}
      {before rest : List Lexeme} (bracket : t.kind = .parenthesis) (opens : t.isOpening = true)
      (closes : close.Closes) (follows : ahead = before ++ close :: rest)
      (inside : ∀ u ∈ t :: (before ++ [close]), l.Holds u) :
      Move r t ahead ⟨l, outer, next, 0⟩
        ⟨{ bracket := .group t.index (t.span.merge close.span) close.index }, l :: outer, next, 0⟩
  | openCall {l : Level} {outer : List Level} {next : PartId} {opening close : Lexeme}
      {before rest : List Lexeme} (kind : t.kind = .identifier) (opens : opening.isOpening = true)
      (closes : close.Closes) (follows : ahead = opening :: (before ++ close :: rest))
      (inside : ∀ u ∈ t :: opening :: (before ++ [close]), l.Holds u) :
      Move r t ahead ⟨l, outer, next, 0⟩
        ⟨{ bracket := .call t (t.span.merge close.span) close (close.index == opening.index + 1) },
          l :: outer, next, 1⟩
  | closeGroup {l : Level} {outer : List Level} {next : PartId} {opening : Nat} {span : Span}
      {x : Tree} :
      Move r t ahead ⟨⟨.group opening span t.index, [.done x], []⟩, l :: outer, next, 0⟩
        ⟨{ l with operands := l.operands.attach (.group ⟨next, opening, span⟩ x) },
          outer, next + 1, 0⟩
  | closeCall {l : Level} {outer : List Level} {next : PartId} {name : Lexeme} {span : Span}
      {bare : Bool} {s : OperandStack} {args written : List Tree} {f : FuncId} {vs : List Value}
      (complete : Level.Arguments bare s args written) (few : written.length ≤ maxArguments)
      (resolves : r.resolve name.text written.length = .ok f)
      (defaults : vs = ParseState.defaultsAfter r f written.length) :
      Move r t ahead ⟨⟨.call name span t bare, s, args⟩, l :: outer, next, 0⟩
        ⟨{ l with
            operands := l.operands.attach
              (.call ⟨next + vs.length, name.index, span⟩ f (written ++ fillsFrom t next vs)) },
          outer, next + vs.length + 1, 0⟩

/-! ## brackets, read and ahead -/

/-- A call whose brackets have nothing between them. -/
def Level.Bare (l : Level) : Prop := ∃ name span close, l.bracket = .call name span close true

/-- Open brackets, the innermost first, with the lexemes read for them so far and the lexemes ahead,
among which each of them closes. -/
inductive Reads (r : Registry) : List Level → List Lexeme → List Lexeme → Prop
  | whole {s : OperandStack} {ls ahead : List Lexeme} (stack : StackPhrase r s ls) :
      Reads r [⟨.whole, s, []⟩] ls ahead
  | group {opening close : Lexeme} {s : OperandStack} {l : Level} {outer : List Level}
      {ls done inside rest : List Lexeme} (bracket : opening.kind = .parenthesis)
      (opens : opening.isOpening = true) (closes : close.Closes) (stack : StackPhrase r s ls)
      (used : ¬ l.Bare) (around : Reads r (l :: outer) done rest) :
      Reads r
        (⟨.group opening.index (opening.span.merge close.span) close.index, s, []⟩ :: l :: outer)
        (done ++ opening :: ls) (inside ++ close :: rest)
  | call {name opening close : Lexeme} {bare : Bool} {s : OperandStack} {args : List Tree}
      {l : Level} {outer : List Level} {as ls done inside rest : List Lexeme}
      (kind : name.kind = .identifier) (opens : opening.isOpening = true) (closes : close.Closes)
      (complete : PhraseEach r args as) (stack : StackPhrase r s ls)
      (nothing : bare = true → as ++ ls = [] ∧ inside = [])
      (used : ¬ l.Bare) (around : Reads r (l :: outer) done rest) :
      Reads r (⟨.call name (name.span.merge close.span) close bare, s, args⟩ :: l :: outer)
        (done ++ name :: opening :: (as ++ ls)) (inside ++ close :: rest)

variable {r : Registry} {l : Level} {outer : List Level} {done ahead : List Lexeme}

/-- Every level closes at a lexeme ahead. -/
theorem Reads.close (h : Reads r (l :: outer) done ahead) {i : Nat}
    (hi : l.bracket.close? = some i) : ∃ c ∈ ahead, c.index = i ∧ c.Closes := by
  cases h with
  | whole => cases hi
  | @group _ close _ _ _ _ _ inside rest _ _ closes =>
    cases hi
    exact ⟨close, by simp, rfl, closes⟩
  | @call _ _ close _ _ _ _ _ _ _ _ inside rest _ _ closes =>
    cases hi
    exact ⟨close, by simp, rfl, closes⟩

/-- A lexeme at the front that does not close the level stands before the one that does. -/
theorem Reads.holds {t : Lexeme} {i : Nat} (h : Reads r (l :: outer) done (t :: ahead))
    (hn : Numbered i (t :: ahead)) (ht : l.bracket.close? ≠ some t.index) : l.Holds t := by
  intro j hj
  obtain ⟨c, hc, rfl, _⟩ := h.close hj
  have hle := hn.2.le (l := c)
  rcases List.mem_cons.1 hc with rfl | hc
  · exact absurd hj ht
  · have := hle hc
    have := hn.1
    omega

/-- Lexemes inside a level lie before the one that closes it. -/
theorem eq_append_of_lt {us inside rest : List Lexeme} {c : Lexeme}
    (e : us ++ ahead = inside ++ c :: rest) (hu : ∀ u ∈ us, u.index < c.index) :
    ∃ inside', inside = us ++ inside' ∧ ahead = inside' ++ c :: rest := by
  rcases List.append_eq_append_iff.1 e with ⟨a, hi, ha⟩ | ⟨a, hus, ha⟩
  · exact ⟨a, hi, ha⟩
  · cases a with
    | nil => exact ⟨[], by simpa using hus.symm, ha.symm⟩
    | cons b bs =>
      obtain ⟨rfl, -⟩ := List.cons_eq_cons.1 ha
      have := hu c (by rw [hus]; simp)
      omega

/-- Lexemes inside the innermost level may be passed over. A level that has some is not bare. -/
theorem Reads.pass {us : List Lexeme} (h : Reads r (l :: outer) done (us ++ ahead))
    (hu : ∀ u ∈ us, l.Holds u) :
    Reads r (l :: outer) done ahead ∧ (us ≠ [] → ¬ l.Bare) := by
  generalize e : us ++ ahead = all at h
  cases h with
  | whole stack => exact ⟨.whole stack, fun _ ⟨_, _, _, hb⟩ => nomatch hb⟩
  | group bracket opens closes stack used around =>
    obtain ⟨inside', rfl, rfl⟩ := eq_append_of_lt e fun u h => hu u h _ rfl
    exact ⟨.group bracket opens closes stack used around, fun _ ⟨_, _, _, hb⟩ => nomatch hb⟩
  | call kind opens closes complete stack nothing used around =>
    obtain ⟨inside', rfl, rfl⟩ := eq_append_of_lt e fun u h => hu u h _ rfl
    refine ⟨.call kind opens closes complete stack (fun hb => ?_) used around, fun hne hb => ?_⟩
    · obtain ⟨h1, h2⟩ := nothing hb
      exact ⟨h1, (List.append_eq_nil_iff.1 h2).2⟩
    · obtain ⟨_, _, _, hb⟩ := hb
      cases hb
      exact hne (List.append_eq_nil_iff.1 (nothing rfl).2).1

/-- Operands of the innermost level that stand for more lexemes. -/
theorem Reads.extend {s : OperandStack} {us : List Lexeme} (h : Reads r (l :: outer) done ahead)
    (hb : ¬ l.Bare)
    (hs : ∀ ls, StackPhrase r l.operands ls → StackPhrase r s (ls ++ us)) :
    Reads r ({ l with operands := s } :: outer) (done ++ us) ahead := by
  cases h with
  | whole stack => exact .whole (hs _ stack)
  | group bracket opens closes stack used around =>
    rw [List.append_assoc, List.cons_append]
    exact .group bracket opens closes (hs _ stack) used around
  | @call name _ close bare _ _ _ _ _ _ _ _ _ kind opens closes complete stack _ used around =>
    rw [List.append_assoc, List.cons_append, List.cons_append, List.append_assoc]
    refine .call kind opens closes complete (hs _ stack) (fun h => ?_) used around
    subst h
    exact absurd ⟨_, _, _, rfl⟩ hb

/-- The front lexeme is the one that closes the level when it has its position. -/
theorem Numbered.front {t close : Lexeme} {inside rest : List Lexeme} {i : Nat}
    (hn : Numbered i (t :: ahead)) (e : t :: ahead = inside ++ close :: rest)
    (hi : close.index = t.index) : inside = [] ∧ close = t ∧ rest = ahead := by
  cases inside with
  | nil =>
    obtain ⟨rfl, rfl⟩ := List.cons_eq_cons.1 e
    exact ⟨rfl, rfl, rfl⟩
  | cons u us =>
    obtain ⟨rfl, rfl⟩ := List.cons_eq_cons.1 e
    have := hn.2.le (l := close) (by simp)
    have := hn.1
    omega

theorem Reads.group_front {o i : Nat} {span : Span} {s : OperandStack} {args : List Tree}
    {outer : List Level} {t : Lexeme}
    (h : Reads r (⟨.group o span t.index, s, args⟩ :: outer) done (t :: ahead))
    (hn : Numbered i (t :: ahead)) :
    ∃ opening l outer' ls done', opening.kind = .parenthesis ∧ opening.isOpening = true ∧
      t.Closes ∧ o = opening.index ∧ span = opening.span.merge t.span ∧ args = [] ∧
      StackPhrase r s ls ∧ outer = l :: outer' ∧ ¬ l.Bare ∧ done = done' ++ opening :: ls ∧
      Reads r (l :: outer') done' ahead := by
  generalize e : t :: ahead = all at h
  generalize hi : t.index = c at h
  cases h with
  | group bracket opens closes stack used around =>
    obtain ⟨rfl, rfl, rfl⟩ := hn.front e hi.symm
    exact ⟨_, _, _, _, _, bracket, opens, closes, rfl, rfl, rfl, stack, rfl, used, rfl, around⟩

theorem Reads.call_inv {name close : Lexeme} {span : Span} {bare : Bool} {s : OperandStack}
    {args : List Tree} {outer : List Level}
    (h : Reads r (⟨.call name span close bare, s, args⟩ :: outer) done ahead) :
    ∃ opening l outer' as ls done' inside rest, name.kind = .identifier ∧
      opening.isOpening = true ∧ close.Closes ∧ span = name.span.merge close.span ∧
      PhraseEach r args as ∧ StackPhrase r s ls ∧ (bare = true → as ++ ls = [] ∧ inside = []) ∧
      outer = l :: outer' ∧ ¬ l.Bare ∧ done = done' ++ name :: opening :: (as ++ ls) ∧
      ahead = inside ++ close :: rest ∧ Reads r (l :: outer') done' rest := by
  cases h with
  | call kind opens closes complete stack nothing used around =>
    exact ⟨_, _, _, _, _, _, _, _, kind, opens, closes, rfl, complete, stack, nothing, rfl, used,
      rfl, rfl, around⟩

/-! ## a move reads its token -/

theorem Effect.phrase {t : Lexeme} {next next' : PartId} {s s' : OperandStack} {skip : Nat}
    (h : Effect r t ahead next s s' next' skip) {ls : List Lexeme} (hs : StackPhrase r s ls) :
    StackPhrase r s' (ls ++ t :: ahead.take skip) := by
  cases h with
  | leaf phrase => exact hs.attach phrase
  | unary sign => exact .cons hs (Pending.Phrase.unary sign)
  | cast bracket opens kind type closes follows =>
    subst follows
    exact .cons hs (Pending.Phrase.cast bracket opens kind type closes)
  | binary sign taken =>
    obtain ⟨us, vs, rfl, hu, hv⟩ := hs.takeLeft taken
    rw [List.append_assoc]
    exact .cons hu (Pending.Phrase.binary sign hv)
  | condition sign taken =>
    obtain ⟨us, vs, rfl, hu, hv⟩ := hs.takeLeft taken
    rw [List.append_assoc]
    exact .cons hu (Pending.Phrase.condition sign hv)
  | separate sign separated => exact hs.separate sign separated

/-- A finished argument list is written as the lexemes read for it. -/
theorem Level.Arguments.phrase {bare : Bool} {s : OperandStack} {args written : List Tree}
    (h : Level.Arguments bare s args written) {as ls : List Lexeme} (ha : PhraseEach r args as)
    (hs : StackPhrase r s ls) : PhraseList r written (as ++ ls) := by
  cases h with
  | bare =>
    cases ha
    cases hs
    exact .nil
  | last => exact ha.close hs.done

theorem Reads.move {st st' : ParseState} {t : Lexeme} {i : Nat}
    (h : Reads r (st.level :: st.outer) done (t :: ahead)) (hn : Numbered i (t :: ahead))
    (m : Move r t ahead st st') :
    Reads r (st'.level :: st'.outer) (done ++ t :: ahead.take st'.skip) (ahead.drop st'.skip) := by
  cases m with
  | @operands _ _ _ _ _ skip effect inside =>
    have e : t :: ahead = (t :: ahead.take skip) ++ ahead.drop skip := by simp
    have hp := (e ▸ h).pass inside
    exact hp.1.extend (hp.2 (List.cons_ne_nil _ _)) fun ls hs => effect.phrase hs
  | comma kind inside =>
    have e : t :: ahead = [t] ++ ahead := rfl
    have hp := (e ▸ h).pass fun u hu => List.mem_singleton.1 hu ▸ inside
    obtain ⟨opening, l, outer', as, ls, done', inside', rest, kind', opens, closes, rfl, each,
      stack, -, rfl, used, rfl, rfl, around⟩ := hp.1.call_inv
    have hbare := hp.2 (List.cons_ne_nil _ _)
    rw [List.append_assoc, List.cons_append, List.cons_append, List.append_assoc,
      ← List.append_nil (as ++ _)]
    exact .call kind' opens closes (each.concat stack.done kind) .nil
      (fun hb => absurd ⟨_, _, _, congrArg _ hb⟩ hbare) used around
  | openGroup bracket opens closes follows inside =>
    subst follows
    rw [List.append_cons, ← List.cons_append] at h
    have hp := h.pass inside
    exact .group bracket opens closes .nil (hp.2 (List.cons_ne_nil _ _)) hp.1
  | openCall kind opens closes follows inside =>
    subst follows
    rw [List.append_cons, ← List.cons_append, ← List.cons_append] at h
    have hp := h.pass inside
    refine .call kind opens closes .nil .nil (fun hb => ⟨rfl, ?_⟩)
      (hp.2 (List.cons_ne_nil _ _)) hp.1
    obtain ⟨-, ho, hrest⟩ := hn
    have hc := (Numbered.append.1 hrest).2.1
    have := beq_iff_eq.1 hb
    exact List.length_eq_zero_iff.1 (by omega)
  | closeGroup =>
    obtain ⟨opening, l, outer', ls, done', bracket, opens, closes, rfl, rfl, -, stack, e, used, rfl,
      around⟩ := h.group_front hn
    obtain ⟨rfl, rfl⟩ := List.cons_eq_cons.1 e
    rw [List.append_assoc, List.cons_append]
    exact around.extend used fun _ hs => hs.attach (.group bracket opens closes stack.done)
  | closeCall complete few resolves defaults =>
    obtain ⟨opening, l, outer', as, ls, done', inside, rest, kind, opens, closes, rfl, each,
      stack, -, e, used, rfl, hr, around⟩ := h.call_inv
    obtain ⟨rfl, rfl⟩ := List.cons_eq_cons.1 e
    obtain ⟨rfl, -, rfl⟩ := hn.front hr rfl
    subst defaults
    rw [List.append_assoc, List.cons_append, List.cons_append]
    exact around.extend used fun _ hs => hs.attach (.call kind opens closes few resolves
      (complete.phrase each stack) (fills_fillsFrom ..))

end ExprEngine
