import ExprEngine.Proofs.Extent
import ExprEngine.Proofs.Reading
import ExprEngine.Proofs.Token.Bracketing

/-!
# Parentheses around operands

The grouping that the parser found, written out: every operand of an operator or a cast between
parentheses of its own. The extents of the operands tell where the parentheses belong, and what is
written then is a phrase of the same tree with groups in it.

* `Tree.bracketed`      the operands of the operators and casts of a tree;
* `Tree.explicit`       a tree with a group around each of them;
* `enclose`             lexemes with parentheses around spans;
* `enclose_append`      pieces get the parentheses that lie in them;
* `enclose_spanned`     parentheses around all lexemes;
* `Phrase.explicit`     the phrase of the tree with groups.
-/

namespace ExprEngine

/-! ## operands between parentheses -/

mutual

/-- The operands of the operators and casts of a tree, the targets of assignments apart. -/
def Tree.bracketed : Tree → List Tree
  | .hole => []
  | .constant _ _ => []
  | .reference _ _ => []
  | .unary _ _ x => x :: x.bracketed
  | .binary _ op l x =>
    (if op.isAssignment then l.bracketed else l :: l.bracketed) ++ x :: x.bracketed
  | .choice _ c y n => (c :: c.bracketed) ++ ((y :: y.bracketed) ++ n :: n.bracketed)
  | .cast _ _ x => x :: x.bracketed
  | .group _ x => x.bracketed
  | .call _ _ args => bracketedAll args

def bracketedAll : List Tree → List Tree
  | [] => []
  | t :: ts => t.bracketed ++ bracketedAll ts

end

/-- A tree between parentheses. -/
def Tree.grouping (t : Tree) : Tree := .group Tree.nowhere t

mutual

/-- A tree with a group around every operand of an operator or a cast, the targets of assignments
apart. -/
def Tree.explicit : Tree → Tree
  | .hole => .hole
  | .constant o v => .constant o v
  | .reference o x => .reference o x
  | .unary o op x => .unary o op x.explicit.grouping
  | .binary o op l x =>
    .binary o op (if op.isAssignment then l.explicit else l.explicit.grouping) x.explicit.grouping
  | .choice o c y n => .choice o c.explicit.grouping y.explicit.grouping n.explicit.grouping
  | .cast o ty x => .cast o ty x.explicit.grouping
  | .group o x => .group o x.explicit
  | .call o f args => .call o f (explicitAll args)

def explicitAll : List Tree → List Tree
  | [] => []
  | t :: ts => t.explicit :: explicitAll ts

end

theorem explicitAll_eq (ts : List Tree) : explicitAll ts = ts.map Tree.explicit := by
  induction ts with
  | nil => rfl
  | cons t ts ih => rw [explicitAll, ih, List.map_cons]

theorem mem_bracketedAll {ts : List Tree} {x : Tree} :
    x ∈ bracketedAll ts ↔ ∃ t ∈ ts, x ∈ t.bracketed := by
  induction ts with
  | nil => simp [bracketedAll]
  | cons t ts ih => simp [bracketedAll, ih]

namespace Tree

variable {t x : Tree}

theorem exists_operand_of_bracketed (h : x ∈ t.bracketed) :
    ∃ y ∈ t.operands, x = y ∨ x ∈ y.bracketed := by
  cases t with
  | binary o op l y =>
    rw [bracketed] at h
    simp only [operands, List.mem_cons, List.not_mem_nil, or_false, exists_eq_or_imp,
      exists_eq_left]
    rcases List.mem_append.1 h with h | h
    · left
      split at h
      · exact .inr h
      · exact List.mem_cons.1 h
    · exact .inr (List.mem_cons.1 h)
  | choice => simpa [bracketed, operands, or_assoc] using h
  | call o f args =>
    obtain ⟨y, hy, hx⟩ := mem_bracketedAll.1 h
    exact ⟨y, hy, .inr hx⟩
  | group o y => exact ⟨y, List.mem_singleton_self y, .inr h⟩
  | unary => simpa [bracketed, operands] using h
  | cast => simpa [bracketed, operands] using h
  | _ => cases h

/-- What gets parentheses is a part of the tree. -/
theorem mem_nodes_of_bracketed (complete : t.Complete) (h : x ∈ t.bracketed) : x ∈ t.nodes := by
  induction t using operand_induction with
  | part t ih =>
    obtain ⟨y, hy, hx⟩ := exists_operand_of_bracketed h
    have hcomplete := complete.operands y hy
    rcases hx with rfl | hx
    · exact mem_nodes_of_operand hy (mem_nodes_self hcomplete.isHole)
    · exact mem_nodes_of_operand hy (ih y hy hcomplete hx)

theorem precedence?_explicit : t.explicit.precedence? = t.precedence? := by
  cases t <;> rfl

theorem wellGrouped_grouping (h : t.WellGrouped) : t.grouping.WellGrouped := wellGrouped_group.2 h

/-- What stands between parentheses has no precedence, so it may stand anywhere. -/
theorem of_precedence?_grouping {P : Nat → Prop} :
    ∀ q, t.grouping.precedence? = some q → P q := by
  intro q hq
  cases hq

/-- Groups around operands leave a tree grouped. -/
theorem wellGrouped_explicit (h : t.WellGrouped) : t.explicit.WellGrouped := by
  induction t using operand_induction with
  | part t ih =>
    cases t with
    | hole => exact h
    | constant => exact h
    | reference => exact h
    | unary o op x =>
      have hx := ih x (by simp [operands]) (wellGrouped_unary.1 h).2
      exact wellGrouped_unary.2 ⟨of_precedence?_grouping, wellGrouped_grouping hx⟩
    | cast o type x =>
      have hx := ih x (by simp [operands]) (wellGrouped_cast.1 h).2
      exact wellGrouped_cast.2 ⟨of_precedence?_grouping, wellGrouped_grouping hx⟩
    | group o x =>
      exact wellGrouped_group.2 (ih x (by simp [operands]) (wellGrouped_group.1 h))
    | call o f args =>
      rw [explicit, explicitAll_eq]
      exact wellGrouped_call.2 (List.forall_mem_map.2 fun x hx =>
        ih x hx (wellGrouped_call.1 h x hx))
    | choice o c y n =>
      obtain ⟨-, hc, hy, hn⟩ := wellGrouped_choice.1 h
      refine wellGrouped_choice.2 ⟨⟨of_precedence?_grouping, of_precedence?_grouping⟩, ?_, ?_, ?_⟩
      · exact wellGrouped_grouping (ih c (by simp [operands]) hc)
      · exact wellGrouped_grouping (ih y (by simp [operands]) hy)
      · exact wellGrouped_grouping (ih n (by simp [operands]) hn)
    | binary o op l x =>
      obtain ⟨hgrouped, hl, hx⟩ := wellGrouped_binary.1 h
      have hl := ih l (by simp [operands]) hl
      have hx := wellGrouped_grouping (ih x (by simp [operands]) hx)
      rw [explicit]
      refine wellGrouped_binary.2 ⟨?_, ?_, hx⟩
      · rw [grouped_binary] at hgrouped ⊢
        split at hgrouped
        · rename_i assigns
          -- the target keeps its place, and with it its strength
          rw [if_pos assigns, if_pos assigns, BindsFrom, precedence?_explicit]
          exact hgrouped
        · rename_i plain
          rw [if_neg plain, if_neg plain]
          exact ⟨of_precedence?_grouping, of_precedence?_grouping⟩
      · split
        · exact hl
        · exact wellGrouped_grouping hl

end Tree

/-! ## lexemes between parentheses -/

/-- A lexeme between the parentheses that start and end where it does. -/
def surround (brackets : List Span) (l : Lexeme) : List Lexeme :=
  List.replicate (l.span.opens brackets) opening.bare ++
    l :: List.replicate (l.span.closes brackets) (closing []).bare

/-- Lexemes with parentheses around spans. -/
def enclose (brackets : List Span) (ls : List Lexeme) : List Lexeme :=
  ls.flatMap (surround brackets)

/-- A span that starts and ends with some of the lexemes. -/
def Span.Within (ls : List Lexeme) (s : Span) : Prop :=
  (∃ l ∈ ls, l.span.start = s.start) ∧ ∃ l ∈ ls, l.span.stop = s.stop

section

variable {as bs ls ms : List Lexeme} {A B brackets : List Span} {s : Span}

theorem Span.Within.mono (h : s.Within ms) (hms : ms ⊆ ls) : s.Within ls := by
  obtain ⟨⟨l, hl, hstart⟩, l', hl', hstop⟩ := h
  exact ⟨⟨l, hms hl, hstart⟩, l', hms hl', hstop⟩

theorem Spanned.within (h : Spanned ls s) : s.Within ls := by
  obtain ⟨⟨first, hfirst, hstart⟩, last, hlast, hstop⟩ := h
  exact ⟨⟨first, List.mem_of_mem_head? hfirst, hstart⟩, last, List.mem_of_getLast? hlast, hstop⟩

theorem enclose_nil (ls : List Lexeme) : enclose [] ls = ls := List.flatMap_singleton' ls

theorem enclose_congr (h : ∀ l ∈ ls, l.span.opens A = l.span.opens B ∧
    l.span.closes A = l.span.closes B) : enclose A ls = enclose B ls :=
  List.flatMap_congr fun l hl => by rw [surround, surround, (h l hl).1, (h l hl).2]

theorem Span.opens_append : s.opens (A ++ B) = s.opens A + s.opens B := List.countP_append

theorem Span.closes_append : s.closes (A ++ B) = s.closes A + s.closes B := List.countP_append

/-- Spans that start and end with other lexemes put no parentheses around a lexeme. -/
theorem no_brackets (h : ∀ b ∈ B, ∃ ms, b.Within ms ∧ ∀ m ∈ ms,
    m.span.start ≠ s.start ∧ m.span.stop ≠ s.stop) : s.opens B = 0 ∧ s.closes B = 0 := by
  refine ⟨List.countP_eq_zero.2 fun b hb => ?_, List.countP_eq_zero.2 fun b hb => ?_⟩
  · obtain ⟨ms, ⟨⟨m, hm, hstart⟩, -⟩, hother⟩ := h b hb
    rw [← hstart]
    simpa using (hother m hm).1
  · obtain ⟨ms, ⟨-, m, hm, hstop⟩, hother⟩ := h b hb
    rw [← hstop]
    simpa using (hother m hm).2

/-- Lexemes one behind the other get the parentheses that lie in each piece of them. -/
theorem enclose_append (h : Laid (as ++ bs)) (hA : ∀ s ∈ A, s.Within as)
    (hB : ∀ s ∈ B, s.Within bs) : enclose (A ++ B) (as ++ bs) = enclose A as ++ enclose B bs := by
  have hfront : enclose (A ++ B) as = enclose A as := enclose_congr fun l hl => by
    obtain ⟨hopens, hcloses⟩ := no_brackets (s := l.span) fun b hb => ⟨bs, hB b hb, fun m hm =>
      ⟨Nat.ne_of_gt (h.precedes hl hm).start, Nat.ne_of_gt (h.precedes hl hm).stop⟩⟩
    rw [Span.opens_append, Span.closes_append, hopens, hcloses]
    exact ⟨rfl, rfl⟩
  have hback : enclose (A ++ B) bs = enclose B bs := enclose_congr fun l hl => by
    obtain ⟨hopens, hcloses⟩ := no_brackets (s := l.span) fun b hb => ⟨as, hA b hb, fun m hm =>
      ⟨Nat.ne_of_lt (h.precedes hm hl).start, Nat.ne_of_lt (h.precedes hm hl).stop⟩⟩
    rw [Span.opens_append, Span.closes_append, hopens, hcloses, Nat.zero_add, Nat.zero_add]
    exact ⟨rfl, rfl⟩
  rw [← hfront, ← hback]
  exact List.flatMap_append

/-- Lexemes in front that no span starts or ends with stay as they are. -/
theorem enclose_behind (as : List Lexeme) (h : Laid (as ++ bs)) (hB : ∀ s ∈ B, s.Within bs) :
    enclose B (as ++ bs) = as ++ enclose B bs := by
  have happend := enclose_append (A := []) h nofun hB
  rwa [enclose_nil] at happend

/-- Lexemes behind that no span starts or ends with stay as they are. -/
theorem enclose_before (bs : List Lexeme) (h : Laid (as ++ bs)) (hA : ∀ s ∈ A, s.Within as) :
    enclose A (as ++ bs) = enclose A as ++ bs := by
  have happend := enclose_append (B := []) h hA nofun
  rwa [enclose_nil, List.append_nil] at happend

/-- Two pieces with a lexeme between them. -/
theorem enclose_join (l : Lexeme) (h : Laid (as ++ l :: bs)) (hA : ∀ s ∈ A, s.Within as)
    (hB : ∀ s ∈ B, s.Within bs) :
    enclose (A ++ B) (as ++ l :: bs) = enclose A as ++ l :: enclose B bs := by
  rw [enclose_append h hA fun s hs => (hB s hs).mono (List.subset_cons_self l bs)]
  exact congrArg _ (enclose_behind [l] h.right hB)

theorem within_join (l : Lexeme) (hA : ∀ s ∈ A, s.Within as) (hB : ∀ s ∈ B, s.Within bs) :
    ∀ s ∈ A ++ B, s.Within (as ++ l :: bs) := by
  refine List.forall_mem_append.2 ⟨fun s hs => ?_, fun s hs => ?_⟩
  · exact (hA s hs).mono (List.subset_append_left as (l :: bs))
  · exact (hB s hs).mono fun m hm => List.mem_append_right as (List.mem_cons_of_mem l hm)

/-- A piece between lexemes that no span starts or ends with. -/
theorem enclose_inside (front : List Lexeme) (close : Lexeme) (h : Laid (front ++ (bs ++ [close])))
    (hB : ∀ s ∈ B, s.Within bs) :
    enclose B (front ++ (bs ++ [close])) = front ++ (enclose B bs ++ [close]) := by
  rw [← enclose_before [close] h.right hB]
  exact enclose_behind front h fun s hs => (hB s hs).mono (List.subset_append_left bs [close])

theorem surround_cons (l : Lexeme) : surround (s :: brackets) l =
    (if s.start = l.span.start then [opening.bare] else []) ++ (surround brackets l ++
      if s.stop = l.span.stop then [(closing []).bare] else []) := by
  have hopens : l.span.opens (s :: brackets) =
      l.span.opens brackets + if s.start = l.span.start then 1 else 0 := by
    simp [Span.opens, List.countP_cons]
  have hcloses : l.span.closes (s :: brackets) =
      l.span.closes brackets + if s.stop = l.span.stop then 1 else 0 := by
    simp [Span.closes, List.countP_cons]
  have hclosing : ∀ n, List.replicate (n + 1) (closing []).bare =
      List.replicate n (closing []).bare ++ [(closing []).bare] := fun n => List.replicate_succ'
  rw [surround, hopens, hcloses, surround]
  split <;> split <;> simp [List.replicate_succ, ← hclosing]

/-- A span of all lexemes puts them between parentheses. -/
theorem enclose_spanned (h : Laid ls) (hs : Spanned ls s) :
    enclose (s :: brackets) ls =
      opening.bare :: (enclose brackets ls ++ [(closing []).bare]) := by
  obtain ⟨⟨first, hfirst, hstart⟩, last, hlast, hstop⟩ := hs
  obtain ⟨rest, rfl⟩ := List.head?_eq_some_iff.1 hfirst
  obtain ⟨front, hfront⟩ := List.getLast?_eq_some_iff.1 hlast
  cases front with
  | nil =>
    obtain ⟨rfl, rfl⟩ := List.cons.inj hfront
    simp [enclose, surround_cons, hstart, hstop]
  | cons first' mid =>
    obtain ⟨rfl, rfl⟩ := List.cons.inj (hfront.trans List.cons_append)
    have hlaid : Laid ((first :: mid) ++ [last]) := h
    -- the first lexeme gets the opening parenthesis only, and the last one the closing one
    have hlater : ∀ l ∈ mid ++ [last], s.start ≠ l.span.start := fun l hl => by
      have hbefore := (List.rel_of_pairwise_cons h.ordered hl).start
      omega
    have hearlier : ∀ l ∈ first :: mid, s.stop ≠ l.span.stop := fun l hl => by
      have hbefore := (hlaid.precedes hl (List.mem_singleton_self _)).stop
      omega
    have hmid : enclose (s :: brackets) mid = enclose brackets mid :=
      List.flatMap_congr fun l hl => by
        rw [surround_cons, if_neg (hlater l (List.mem_append_left _ hl)),
          if_neg (hearlier l (List.mem_cons_of_mem _ hl)), List.nil_append, List.append_nil]
    have hstarts : surround (s :: brackets) first = opening.bare :: surround brackets first := by
      rw [surround_cons, if_pos hstart.symm, if_neg (hearlier first (List.mem_cons_self ..)),
        List.append_nil]
      rfl
    have hends : surround (s :: brackets) last =
        surround brackets last ++ [(closing []).bare] := by
      rw [surround_cons, if_pos hstop.symm, if_neg (hlater last (by simp)), List.nil_append]
    have hsplit : ∀ bs, enclose bs (first :: (mid ++ [last])) =
        surround bs first ++ (enclose bs mid ++ surround bs last) := fun bs => by
      simp [enclose]
    rw [hsplit, hsplit, hstarts, hmid, hends]
    simp

end

/-! ## phrases -/

variable {r : Registry}

/-- The spans of what gets parentheses. -/
def Tree.brackets (t : Tree) : List Span := t.bracketed.map Tree.extent

def bracketsAll (ts : List Tree) : List Span := (bracketedAll ts).map Tree.extent

/-- Every part starts and ends with lexemes of its phrase. -/
theorem Phrase.extent_within {t n : Tree} {ls : List Lexeme} (h : Phrase r t ls) (laid : Laid ls)
    (hn : n ∈ t.nodes) : n.extent.Within ls := by
  rcases h.parts n hn with ⟨ms, hms, hphrase⟩ | hfilled
  · exact (hphrase.extent (laid.sublist hms.sublist)).within.mono hms.subset
  · obtain ⟨close, hclose, hspan⟩ := hfilled.extent
    exact hspan.within.mono hclose.subset

theorem Phrase.brackets_within {t : Tree} {ls : List Lexeme} (h : Phrase r t ls)
    (laid : Laid ls) : ∀ s ∈ t.brackets, s.Within ls :=
  List.forall_mem_map.2 fun _ hx =>
    h.extent_within laid (Tree.mem_nodes_of_bracketed h.complete hx)

/-- The spans of what gets parentheses in an operand that gets them too. -/
def Tree.operandBrackets (t : Tree) : List Span := t.extent :: t.brackets

theorem Phrase.operandBrackets_within {t : Tree} {ls : List Lexeme} (h : Phrase r t ls)
    (laid : Laid ls) : ∀ s ∈ t.operandBrackets, s.Within ls :=
  List.forall_mem_cons.2 ⟨(h.extent laid).within, h.brackets_within laid⟩

theorem bracketedAll_append (ts us : List Tree) :
    bracketedAll (ts ++ us) = bracketedAll ts ++ bracketedAll us := by
  induction ts with
  | nil => rfl
  | cons t ts ih => rw [List.cons_append, bracketedAll, bracketedAll, ih, List.append_assoc]

theorem PhraseList.brackets_within {ts : List Tree} {ls : List Lexeme} (h : PhraseList r ts ls)
    (laid : Laid ls) : ∀ s ∈ bracketsAll ts, s.Within ls := by
  refine List.forall_mem_map.2 fun x hx => ?_
  obtain ⟨t, ht, hx⟩ := mem_bracketedAll.1 hx
  obtain ⟨ms, hms, hphrase⟩ := h.members t ht
  have hwithin := hphrase.brackets_within (laid.sublist hms.sublist) _ (List.mem_map_of_mem hx)
  exact hwithin.mono hms.subset

/-- Defaults have no operands. -/
theorem Fills.explicit {close : Lexeme} {vs : List Value} {ts : List Tree}
    (h : Fills close vs ts) : bracketedAll ts = [] ∧ ts.map Tree.explicit = ts := by
  induction h with
  | nil => exact ⟨rfl, rfl⟩
  | cons hfirst _ ih =>
    obtain ⟨id, rfl⟩ := hfirst
    exact ⟨ih.1, congrArg (_ :: ·) ih.2⟩

/-- A tree that is written, origins apart, as some lexemes with parentheses around spans. -/
def Tree.WrittenWith (r : Registry) (t : Tree) (brackets : List Span) (ls : List Lexeme) : Prop :=
  ∃ u, Phrase r u (enclose brackets ls) ∧ u.bare = t.bare

theorem Phrase.leaf {t : Tree} {ls : List Lexeme} (h : Phrase r t ls) : t.WrittenWith r [] ls := by
  refine ⟨t, ?_, rfl⟩
  rwa [enclose_nil]

/-- An operand between parentheses is a group. -/
theorem Phrase.grouping {t u : Tree} {ls : List Lexeme} (h : Phrase r t ls) (laid : Laid ls)
    (hu : u.WrittenWith r t.brackets ls) : u.grouping.WrittenWith r t.operandBrackets ls := by
  obtain ⟨u', hphrase, hbare⟩ := hu
  obtain ⟨o, hgroup⟩ := phrase_enclosed hphrase
  rw [Tree.operandBrackets, Tree.WrittenWith, enclose_spanned laid (h.extent laid)]
  refine ⟨_, hgroup, ?_⟩
  simp_all [Tree.bare, Tree.grouping]

mutual

/-- With parentheses around every operand, a phrase is one of the tree with groups. -/
theorem Phrase.explicit : ∀ {t : Tree} {ls : List Lexeme}, Phrase r t ls → Laid ls →
    t.explicit.WrittenWith r t.brackets ls
  | _, _, .number kind value, _ => (Phrase.number kind value).leaf
  | _, _, .string kind, _ => (Phrase.string kind).leaf
  | _, _, .boolean kind value, _ => (Phrase.boolean kind value).leaf
  | _, _, .reference kind found, _ => (Phrase.reference kind found).leaf
  | _, _, @Phrase.unary _ id l op x xs sign operand, laid => by
    obtain ⟨u, hu, hbare⟩ := operand.grouping laid.tail (operand.explicit laid.tail)
    have hls : enclose x.operandBrackets (l :: xs) = l :: enclose x.operandBrackets xs :=
      enclose_behind [l] laid (operand.operandBrackets_within laid.tail)
    refine ⟨.unary ⟨id, l.index, l.span⟩ op u, ?_, ?_⟩
    · show Phrase r _ (enclose x.operandBrackets (l :: xs))
      rw [hls]
      exact .unary sign hu
    · simp_all [Tree.bare, Tree.explicit]
  | _, _, @Phrase.cast _ id opening name close target x xs bracket opens kind type closes operand,
      laid => by
    have hlaid : Laid xs := laid.tail.tail.tail
    obtain ⟨u, hu, hbare⟩ := operand.grouping hlaid (operand.explicit hlaid)
    have hls : enclose x.operandBrackets (opening :: name :: close :: xs) =
        opening :: name :: close :: enclose x.operandBrackets xs :=
      enclose_behind [opening, name, close] laid (operand.operandBrackets_within hlaid)
    refine ⟨.cast ⟨id, opening.index, opening.span.merge close.span⟩ target u, ?_, ?_⟩
    · show Phrase r _ (enclose x.operandBrackets (opening :: name :: close :: xs))
      rw [hls]
      exact .cast bracket opens kind type closes hu
    · simp_all [Tree.bare, Tree.explicit]
  | _, _, @Phrase.binary _ id l op a b as bs sign left right, laid => by
    have hlaid : Laid bs := laid.right.tail
    -- the target of an assignment gets no parentheses of its own
    have hleft : (if op.isAssignment then a.explicit else a.explicit.grouping).WrittenWith r
        (if op.isAssignment then a.brackets else a.operandBrackets) as ∧
          ∀ s ∈ if op.isAssignment then a.brackets else a.operandBrackets, s.Within as := by
      split
      · exact ⟨left.explicit laid.left, left.brackets_within laid.left⟩
      · exact ⟨left.grouping laid.left (left.explicit laid.left),
          left.operandBrackets_within laid.left⟩
    obtain ⟨⟨u, hu, hubare⟩, hwithin⟩ := hleft
    obtain ⟨v, hv, hvbare⟩ := right.grouping hlaid (right.explicit hlaid)
    have hbrackets : (Tree.binary ⟨id, l.index, l.span⟩ op a b).brackets =
        (if op.isAssignment then a.brackets else a.operandBrackets) ++ b.operandBrackets := by
      rw [Tree.brackets, Tree.bracketed, List.map_append]
      split <;> rfl
    refine ⟨.binary ⟨id, l.index, l.span⟩ op u v, ?_, ?_⟩
    · rw [hbrackets, enclose_join l laid hwithin (right.operandBrackets_within hlaid)]
      exact .binary sign hu hv
    · rw [Tree.explicit]
      simp_all [Tree.bare]
  | _, _, @Phrase.choice _ id l colon c y n cs ys ns sign separator condition yes no, laid => by
    have hys : Laid ys := laid.right.tail.left
    have hns : Laid ns := laid.right.tail.right.tail
    obtain ⟨u, hu, hubare⟩ := condition.grouping laid.left (condition.explicit laid.left)
    obtain ⟨v, hv, hvbare⟩ := yes.grouping hys (yes.explicit hys)
    obtain ⟨w, hw, hwbare⟩ := no.grouping hns (no.explicit hns)
    have hbranches := enclose_join colon laid.right.tail (yes.operandBrackets_within hys)
      (no.operandBrackets_within hns)
    have hwithin := within_join colon (yes.operandBrackets_within hys)
      (no.operandBrackets_within hns)
    have hbrackets : (Tree.choice ⟨id, l.index, l.span⟩ c y n).brackets =
        c.operandBrackets ++ (y.operandBrackets ++ n.operandBrackets) := by
      rw [Tree.brackets, Tree.bracketed, List.map_append, List.map_append]
      rfl
    refine ⟨.choice ⟨id, l.index, l.span⟩ u v w, ?_, ?_⟩
    · rw [hbrackets, enclose_join l laid (condition.operandBrackets_within laid.left) hwithin,
        hbranches]
      exact .choice sign separator hu hv hw
    · simp_all [Tree.bare, Tree.explicit]
  | _, _, @Phrase.group _ id opening close x xs bracket opens closes inner, laid => by
    have hlaid : Laid xs := laid.tail.left
    obtain ⟨u, hu, hbare⟩ := inner.explicit hlaid
    have hls : enclose x.brackets (opening :: (xs ++ [close])) =
        opening :: (enclose x.brackets xs ++ [close]) :=
      enclose_inside [opening] close laid (inner.brackets_within hlaid)
    refine ⟨.group ⟨id, opening.index, opening.span.merge close.span⟩ u, ?_, ?_⟩
    · show Phrase r _ (enclose x.brackets (opening :: (xs ++ [close])))
      rw [hls]
      exact .group bracket opens closes hu
    · simp_all [Tree.bare, Tree.explicit]
  | _, _, @Phrase.call _ id name opening close f written filled ls kind opens closes few resolves
      args defaults, laid => by
    have hlaid : Laid ls := laid.tail.tail.left
    obtain ⟨us, hus, hbare⟩ := args.explicit hlaid
    have hlength : us.length = written.length := by
      have hmap := congrArg List.length hbare
      rwa [List.length_map, List.length_map, explicitAll_eq, List.length_map] at hmap
    have hls : enclose (bracketsAll written) (name :: opening :: (ls ++ [close])) =
        name :: opening :: (enclose (bracketsAll written) ls ++ [close]) :=
      enclose_inside [name, opening] close laid (args.brackets_within hlaid)
    have hfilled := defaults.explicit
    refine ⟨.call ⟨id, name.index, name.span.merge close.span⟩ f (us ++ filled), ?_, ?_⟩
    · show Phrase r _ (enclose (bracketsAll (written ++ filled)) _)
      rw [bracketsAll, bracketedAll_append, hfilled.1, List.append_nil, ← bracketsAll, hls]
      exact .call kind opens closes (by rwa [hlength]) (by rwa [hlength]) hus (by rwa [hlength])
    · rw [Tree.explicit, Tree.bare_call, Tree.bare_call, List.map_append, hbare, explicitAll_eq,
        explicitAll_eq, List.map_append, List.map_append, hfilled.2]

theorem PhraseList.explicit : ∀ {ts : List Tree} {ls : List Lexeme}, PhraseList r ts ls →
    Laid ls → ∃ us, PhraseList r us (enclose (bracketsAll ts) ls) ∧
      us.map Tree.bare = (explicitAll ts).map Tree.bare
  | _, _, .nil, _ => ⟨[], .nil, rfl⟩
  | _, _, @PhraseList.one _ t ls only, laid => by
    obtain ⟨u, hu, hbare⟩ := only.explicit laid
    refine ⟨[u], .one ?_, congrArg (fun b => [b]) hbare⟩
    rwa [bracketsAll, bracketedAll, bracketedAll, List.append_nil]
  | _, _, @PhraseList.cons _ t u ts comma ls ls' first separates rest, laid => by
    have hlaid : Laid ls' := laid.right.tail
    obtain ⟨v, hv, hbare⟩ := first.explicit laid.left
    obtain ⟨vs, hvs, hbares⟩ := rest.explicit hlaid
    have hls : enclose (bracketsAll (t :: u :: ts)) (ls ++ comma :: ls') =
        enclose t.brackets ls ++ comma :: enclose (bracketsAll (u :: ts)) ls' := by
      rw [bracketsAll, bracketedAll, List.map_append]
      exact enclose_join comma laid (first.brackets_within laid.left) (rest.brackets_within hlaid)
    obtain ⟨v', vs', rfl, -⟩ := List.map_eq_cons_iff.1 (hbares.trans List.map_cons)
    refine ⟨v :: v' :: vs', ?_, ?_⟩
    · rw [hls]
      exact .cons hv separates hvs
    · exact congrArg₂ List.cons hbare hbares

end

end ExprEngine
