import ExprEngine.Proofs.Parse.Move

/-!
# A successful step is a move

One lemma for each function a step is made of: what it yields when it succeeds.

* `move_of_ascend`    a bracket that closes;
* `move_of_token`     a token that nothing was waiting for;
* `move_of_step`      any token.
-/

namespace ExprEngine.ParseState

variable {r : Registry} {limits : Limits} {t : Lexeme} {ahead : List Lexeme} {l : Level}
  {outer : List Level} {next : PartId} {st' : ParseState}

/-! ## building blocks -/

theorem alloc_ok {token : Nat} {span : Span} {st st' : ParseState} {o : Origin}
    (h : st.alloc limits token span = .ok (o, st')) :
    o = ⟨st.next, token, span⟩ ∧ st' = { st with next := st.next + 1 } := by
  unfold alloc at h
  split at h
  · cases h
  · cases h
    exact ⟨rfl, rfl⟩

theorem place_ok {token : Nat} {span : Span} {make : Origin → Tree} {st st' : ParseState}
    (h : st.place limits token span make = .ok st') :
    st' = { st with
      level := { st.level with
        operands := st.level.operands.attach (make ⟨st.next, token, span⟩) }
      next := st.next + 1 } := by
  unfold place at h
  obtain ⟨⟨o, st₁⟩, ha, h⟩ := bind_eq_ok.1 h
  obtain ⟨rfl, rfl⟩ := alloc_ok ha
  obtain ⟨s, hs, h⟩ := bind_eq_ok.1 h
  rw [OperandStack.connect_ok hs] at h
  exact (Except.ok.inj h).symm

theorem await_ok {token : Nat} {span : Span} {make : Origin → Pending} {st st' : ParseState}
    (h : st.await limits token span make = .ok st') :
    st' = { st with
      level := { st.level with
        operands := .pending (make ⟨st.next, token, span⟩) :: st.level.operands }
      next := st.next + 1 } := by
  unfold await at h
  obtain ⟨⟨o, st₁⟩, ha, h⟩ := bind_eq_ok.1 h
  obtain ⟨rfl, rfl⟩ := alloc_ok ha
  obtain ⟨s, hs, h⟩ := bind_eq_ok.1 h
  rw [OperandStack.push_ok hs] at h
  exact (Except.ok.inj h).symm

theorem infixOperator_ok {b : Binding} {make : Tree → Origin → Pending} {st st' : ParseState}
    (h : st.infixOperator limits t b make = .ok st') :
    ∃ left s, st.level.operands.takeLeft limits.maxOperands b t = .ok (left, s) ∧
      st' = { st with
        level := { st.level with
          operands := .pending (make left ⟨st.next, t.index, t.span⟩) :: s }
        next := st.next + 1 } := by
  unfold infixOperator at h
  obtain ⟨⟨left, s⟩, ht, h⟩ := bind_eq_ok.1 h
  exact ⟨left, s, ht, await_ok h⟩

theorem descend_ok {opening : Lexeme} {bracket : Bracket} {skip : Nat} {st st' : ParseState}
    (h : st.descend limits opening bracket skip = .ok st') :
    st' = { st with level := { bracket }, outer := st.level :: st.outer, skip } := by
  unfold descend at h
  split at h
  · cases h
  · exact (Except.ok.inj h).symm

theorem fillDefaults_ok {close : Lexeme} {vs : List Value} {st st' : ParseState}
    {filled : List Tree} (h : fillDefaults limits close vs st = .ok (filled, st')) :
    filled = fillsFrom close st.next vs ∧ st' = { st with next := st.next + vs.length } := by
  induction vs generalizing st st' filled with
  | nil =>
    cases h
    exact ⟨rfl, rfl⟩
  | cons v vs ih =>
    unfold fillDefaults at h
    obtain ⟨⟨o, st₁⟩, ha, h⟩ := bind_eq_ok.1 h
    obtain ⟨rfl, rfl⟩ := alloc_ok ha
    obtain ⟨⟨args, st₂⟩, hf, h⟩ := bind_eq_ok.1 h
    obtain ⟨rfl, rfl⟩ := ih hf
    cases h
    refine ⟨rfl, ?_⟩
    rw [List.length_cons, Nat.add_comm vs.length, ← Nat.add_assoc]

theorem resolveCall_ok {name : Lexeme} {count : Nat} {f : FuncId}
    (h : resolveCall r name count = .ok f) :
    count ≤ maxArguments ∧ r.resolve name.text count = .ok f := by
  unfold resolveCall at h
  split at h
  · cases h
  · rename_i hc
    refine ⟨Nat.le_of_not_lt hc, ?_⟩
    split at h <;> cases h
    assumption

theorem closeArguments_ok {close : Lexeme} {bare : Bool} {written : List Tree} {l : Level}
    (h : closeArguments close bare l = .ok written) :
    (bare = true ∧ written = []) ∨
      (bare = false ∧ ∃ x, l.operands = [.done x] ∧ written = l.args ++ [x]) := by
  unfold closeArguments at h
  split at h
  · rename_i hb
    exact .inl ⟨hb, (Except.ok.inj h).symm⟩
  · rename_i hb
    obtain ⟨x, hx, hw⟩ := map_eq_ok.1 h
    exact .inr ⟨Bool.not_eq_true _ ▸ hb, x, OperandStack.single_ok hx, hw.symm⟩

/-! ## looking ahead -/

/-- What stands in front of a lexeme inside the innermost bracket stands in front of it anywhere,
and all of it lies before the closing lexeme. -/
theorem within_split {st : ParseState} {xs ys : List Lexeme} {c : Lexeme}
    (h : st.within ahead = xs ++ c :: ys) :
    (∃ rest, ahead = xs ++ c :: rest) ∧ ∀ u ∈ xs ++ [c], st.level.Holds u := by
  unfold within at h
  split at h
  · rename_i hc
    exact ⟨⟨ys, h⟩, fun u _ i hi => by rw [hc] at hi; cases hi⟩
  · rename_i close hc
    refine ⟨⟨ys ++ ahead.dropWhile fun t => t.index < close, ?_⟩, fun u hu i hi => ?_⟩
    · have e := List.takeWhile_append_dropWhile
        (p := fun t => decide (t.index < close)) (l := ahead)
      rw [h] at e
      simpa using e.symm
    · rw [hc] at hi
      cases hi
      have hm : u ∈ ahead.takeWhile fun t => t.index < close := by
        rw [h]
        rcases List.mem_append.1 hu with hu | hu
        · exact List.mem_append_left _ hu
        · rw [List.mem_singleton.1 hu]
          simp
      exact of_decide_eq_true (List.all_eq_true.1 List.all_takeWhile u hm)

/-- The lexeme that closes what an opening one opens comes after it. -/
theorem closing?_opening {opening c : Lexeme} {ls : List Lexeme} (ho : opening.isOpening = true)
    (h : closing? 0 (opening :: ls) = some c) : ∃ xs ys, ls = xs ++ c :: ys ∧ c.Closes := by
  obtain ⟨xs, ys, e, hc⟩ := closing?_eq_some h
  cases xs with
  | nil =>
    obtain ⟨rfl, -⟩ := List.cons_eq_cons.1 e
    exact absurd ho (by rw [hc.2]; decide)
  | cons u us => exact ⟨us, ys, (List.cons_eq_cons.1 e).2, hc⟩

/-! ## tokens -/

/-- A move within the innermost level. -/
theorem move_of_effect {s : OperandStack} {next' : PartId} (ht : l.Holds t)
    (e : Effect r t ahead next l.operands s next' 0) :
    Move r t ahead ⟨l, outer, next, 0⟩ ⟨{ l with operands := s }, outer, next', 0⟩ :=
  .operands e fun _ hu => List.mem_singleton.1 hu ▸ ht

theorem ofSymbol?_symbol {s : String} {op : Operator} (h : Operator.ofSymbol? s = some op) :
    s = op.symbol := by
  unfold Operator.ofSymbol? at h
  have hs := List.find?_some h
  exact (beq_iff_eq.1 hs).symm

theorem move_of_operator (ht : l.Holds t) (hk : t.kind = .operator)
    (h : operator limits t ⟨l, outer, next, 0⟩ = .ok st') :
    Move r t ahead ⟨l, outer, next, 0⟩ st' := by
  unfold operator at h
  split at h
  · rename_i hb
    obtain ⟨s, hs, rfl⟩ := map_eq_ok.1 h
    exact move_of_effect ht (.separate ⟨hk, beq_iff_eq.1 hb⟩ hs)
  split at h
  · cases h
  · rename_i op ho
    obtain rfl := await_ok h
    exact move_of_effect ht (.unary ⟨hk, ofSymbol?_symbol ho⟩)
  · rename_i op ho
    obtain ⟨left, s, hs, rfl⟩ := infixOperator_ok h
    exact move_of_effect ht (.binary ⟨hk, ofSymbol?_symbol ho⟩ hs)
  · rename_i ho
    obtain ⟨left, s, hs, rfl⟩ := infixOperator_ok h
    exact move_of_effect ht (.condition ⟨hk, ofSymbol?_symbol ho⟩ hs)

theorem move_of_openParenthesis {i : Nat} (ht : l.Holds t) (hn : Numbered i (t :: ahead))
    (hk : t.kind = .parenthesis) (ho : t.isOpening = true)
    (h : openParenthesis limits t (within ⟨l, outer, next, 0⟩ ahead)
      ⟨l, outer, next, 0⟩ = .ok st') :
    Move r t ahead ⟨l, outer, next, 0⟩ st' := by
  unfold openParenthesis at h
  split at h
  · cases h
  rename_i close hc
  obtain ⟨xs, ys, hw, closes⟩ := closing?_opening ho hc
  obtain ⟨⟨rest, follows⟩, inside⟩ := within_split hw
  subst follows
  dsimp only at h
  split at h
  · rename_i target hcast
    obtain ⟨st₁, ha, rfl⟩ := map_eq_ok.1 h
    obtain rfl := await_ok ha
    rw [hw] at hcast
    unfold castTarget? at hcast
    split at hcast
    · rename_i name ns hname
      split at hcast
      · rename_i hname'
        -- the position of the closing lexeme leaves room for the name only
        obtain ⟨hi, hr⟩ := hn
        have hlen := (Numbered.append.1 hr).2.1
        have hone : xs.length = 1 := by omega
        obtain ⟨u, rfl⟩ := List.length_eq_one_iff.1 hone
        obtain ⟨rfl, -⟩ := List.cons_eq_cons.1 hname
        refine .operands (.cast hk ho hname'.2 hcast closes rfl) fun v hv => ?_
        rcases List.mem_cons.1 hv with rfl | hv
        · exact ht
        · exact inside v hv
      · cases hcast
    · cases hcast
  · obtain rfl := descend_ok h
    refine .openGroup hk ho closes rfl fun v hv => ?_
    rcases List.mem_cons.1 hv with rfl | hv
    · exact ht
    · exact inside v hv

theorem move_of_reference (ht : l.Holds t) (hk : t.kind = .identifier)
    (h : reference r limits t ⟨l, outer, next, 0⟩ = .ok st') :
    Move r t ahead ⟨l, outer, next, 0⟩ st' := by
  unfold reference at h
  split at h
  · rename_i x hx
    obtain rfl := place_ok h
    exact move_of_effect ht (.leaf (.reference hk hx) rfl)
  · cases h

theorem move_of_identifier (ht : l.Holds t) (hk : t.kind = .identifier)
    (h : identifier r limits t (within ⟨l, outer, next, 0⟩ ahead) ⟨l, outer, next, 0⟩ = .ok st') :
    Move r t ahead ⟨l, outer, next, 0⟩ st' := by
  unfold identifier at h
  split at h
  · rename_i b hb
    obtain rfl := place_ok h
    exact move_of_effect ht (.leaf (.boolean hk hb) rfl)
  split at h
  · rename_i opening rest hw
    split at h
    · rename_i ho
      unfold openCall at h
      split at h
      · cases h
      rename_i close hc
      obtain rfl := descend_ok h
      obtain ⟨xs, ys, rfl, closes⟩ := closing?_opening ho hc
      rw [← List.cons_append] at hw
      obtain ⟨⟨rest, rfl⟩, inside⟩ := within_split hw
      refine .openCall hk ho closes rfl fun v hv => ?_
      rcases List.mem_cons.1 hv with rfl | hv
      · exact ht
      · exact inside v hv
    · exact move_of_reference ht hk h
  · exact move_of_reference ht hk h

theorem move_of_comma (ht : l.Holds t) (hk : t.kind = .comma)
    (h : comma t ⟨l, outer, next, 0⟩ = .ok st') : Move r t ahead ⟨l, outer, next, 0⟩ st' := by
  obtain ⟨bracket, operands, args⟩ := l
  unfold comma at h
  split at h
  · rename_i name span close bare hb
    obtain ⟨x, hx, rfl⟩ := map_eq_ok.1 h
    obtain rfl : operands = [.done x] := OperandStack.single_ok hx
    obtain rfl : bracket = .call name span close bare := hb
    exact .comma hk ht
  · cases h

/-- A token that no open bracket was waiting for. -/
theorem move_of_token {i : Nat} (ht : l.Holds t) (hn : Numbered i (t :: ahead))
    (h : token r limits t ahead ⟨l, outer, next, 0⟩ = .ok st') :
    Move r t ahead ⟨l, outer, next, 0⟩ st' := by
  unfold token at h
  split at h
  · rename_i hk
    split at h
    · rename_i v hv
      obtain rfl := place_ok h
      exact move_of_effect ht (.leaf (.number hk hv) rfl)
    · cases h
  · rename_i hk
    obtain rfl := place_ok h
    exact move_of_effect ht (.leaf (.string hk) rfl)
  · rename_i hk
    exact move_of_identifier ht hk h
  · rename_i hk
    split at h
    · rename_i ho
      exact move_of_openParenthesis ht hn hk ho h
    · cases h
  · rename_i hk
    exact move_of_operator ht hk h
  · rename_i hk
    exact move_of_comma ht hk h

/-! ## closing brackets -/

/-- A bracket that closes. -/
theorem move_of_ascend {done : List Lexeme} {i : Nat}
    (hr : Reads r (l :: outer) done (t :: ahead)) (hn : Numbered i (t :: ahead))
    (ht : l.bracket.close? = some t.index)
    (h : ascend r limits ⟨l, outer, next, 0⟩ = .ok st') :
    Move r t ahead ⟨l, outer, next, 0⟩ st' := by
  obtain ⟨bracket, operands, args⟩ := l
  cases bracket with
  | whole => cases ht
  | group opening span close =>
    obtain rfl : close = t.index := Option.some.inj ht
    obtain ⟨_, m, outer', _, _, _, _, _, _, _, rfl, _, rfl, _⟩ := hr.group_front hn
    unfold ascend at h
    obtain ⟨x, hx, h⟩ := bind_eq_ok.1 h
    obtain rfl : operands = [.done x] := OperandStack.single_ok hx
    obtain rfl := place_ok h
    exact .closeGroup
  | call name span close bare =>
    have hi : close.index = t.index := Option.some.inj ht
    obtain ⟨_, m, outer', as, ls, _, inside, rest, _, _, _, _, each, stack, nothing, rfl, _, _,
      e, _⟩ := hr.call_inv
    obtain ⟨rfl, rfl, rfl⟩ := hn.front e hi
    unfold ascend at h
    obtain ⟨written, hw, h⟩ := bind_eq_ok.1 h
    obtain ⟨f, hf, h⟩ := bind_eq_ok.1 h
    obtain ⟨few, resolves⟩ := resolveCall_ok hf
    obtain ⟨⟨filled, around⟩, hd, h⟩ := bind_eq_ok.1 h
    obtain ⟨rfl, rfl⟩ := fillDefaults_ok hd
    obtain rfl := place_ok h
    refine .closeCall ?_ few resolves rfl
    rcases closeArguments_ok hw with ⟨rfl, rfl⟩ | ⟨rfl, x, rfl, rfl⟩
    · obtain ⟨rfl, rfl⟩ := List.append_eq_nil_iff.1 (nothing rfl).1
      rw [each.eq_nil, stack.eq_nil]
      exact .bare
    · exact .last

/-- A successful step that takes up a token is a move. -/
theorem move_of_step {st : ParseState} {done : List Lexeme} {i : Nat}
    (hr : Reads r (st.level :: st.outer) done (t :: ahead)) (hn : Numbered i (t :: ahead))
    (hs : st.skip = 0) (h : st.step r limits t ahead = .ok st') : Move r t ahead st st' := by
  obtain ⟨l, outer, next, skip⟩ := st
  obtain rfl : skip = 0 := hs
  change (if l.bracket.close? = some t.index then ascend r limits ⟨l, outer, next, 0⟩
    else token r limits t ahead ⟨l, outer, next, 0⟩) = .ok st' at h
  split at h
  · rename_i ht
    exact move_of_ascend hr hn ht h
  · rename_i ht
    exact move_of_token (hr.holds hn ht) hn h

end ExprEngine.ParseState
