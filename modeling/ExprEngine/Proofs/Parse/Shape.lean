import ExprEngine.Proofs.Parse.Doom
import Mathlib.Data.Multiset.Bind

/-!
# The shape of a half-built table

Between two tokens a table holds the finished parts and the operators that wait, of all open
brackets at once. What filling, emptying and locking slots relies on holds of each of these parts.

* `PartKind.Shaped`           which slots of a part are filled, and which are locked;
* `Rooted`                    entries, with the ids that are in the slot of no other;
* `Stores.descend_ends`       the way down to a left operand ends;
* `TableState.WellShaped`     a table with the operands of its open brackets;
* `TableLevel.Doomed`         operands, with one below the top that nothing takes any more;
* `half_built_shape`          the table in front of any token.
-/

namespace ExprEngine

/-! ## slots -/

/-- Which slots of an operator or a cast are filled, and which are locked. -/
structure PartKind.Shaped (k : PartKind) : Prop where
  /-- an operator has a slot for each operand -/
  arity : ∀ op, k.operator? = some op → k.slots.length = op.arity
  /-- the filled slots are the first ones -/
  filled : k.slots.Pairwise fun s s' => s'.child.isSome = true → s.child.isSome = true
  /-- an operator between its operands has the left one, for good -/
  left : ∀ op, k.operator? = some op → op.arity ≠ 1 →
    ∃ s, k.slots.head? = some s ∧ s.child.isSome = true ∧ s.locked = true
  /-- behind a filled slot that is not locked no slot is filled -/
  unlocked : k.slots.Pairwise fun s s' =>
    s.child.isSome = true → s.locked = false → s'.child.isSome = false

/-- Whether nothing takes the part once it is covered: it is filled, or a choice whose first branch
is not locked yet. -/
def PartKind.isStuck (k : PartKind) : Bool := k.isReady || k.hasOpenBranch

theorem Pending.shaped_kind (p : Pending) : p.kind.Shaped := by
  cases p <;> constructor <;>
    simp [kind, PartKind.slots, PartKind.operator?, Operator.arity]

variable {t : Tree} {p : Part} {e : Entry} {c : Cell}

theorem Part.shaped_of_complete (ht : t.Complete) (hp : ofTree? t = some p) : p.kind.Shaped := by
  cases t with
  | hole => exact ht.elim
  | unary o op x =>
    cases (ofTree?_unary (x := x) op ht).symm.trans hp
    constructor <;> simp [PartKind.slots, PartKind.operator?, Operator.arity]
  | cast o target x =>
    cases (ofTree?_cast (x := x) target ht).symm.trans hp
    constructor <;> simp [PartKind.slots, PartKind.operator?]
  | binary o op l x =>
    cases (ofTree?_binary op ht.1 ht.2).symm.trans hp
    constructor <;> simp [PartKind.slots, PartKind.operator?, Operator.arity]
  | choice o c y x =>
    cases (ofTree?_choice ht.1 ht.2.1 ht.2.2).symm.trans hp
    constructor <;> simp [PartKind.slots, PartKind.operator?, Operator.arity]
  | _ =>
    cases hp
    constructor <;> simp [PartKind.slots, PartKind.operator?]

/-- Entries that are stuck as trees are so by their slots. -/
theorem Entry.isStuck_part (he : e.Complete) (hp : e.part? = some p) :
    p.kind.isStuck = e.isStuck := by
  unfold PartKind.isStuck
  rw [isReady_part he hp]
  cases e with
  | done t => rfl
  | pending q =>
    cases hp
    cases q <;> rfl

/-! ## all parts of a table -/

theorem Tree.shaped_of_mem (ht : t.Complete) (hc : c ∈ t.cells) : c.2.kind.Shaped := by
  obtain ⟨x, hx, hentry⟩ := List.mem_filterMap.1 (Multiset.mem_coe.1 hc)
  obtain ⟨p, hp, rfl⟩ := Option.map_eq_some_iff.1 hentry
  exact Part.shaped_of_complete (ht.of_mem_nodes hx) hp

theorem Entry.shaped_of_mem (he : e.Complete) (hc : c ∈ e.cells) : c.2.kind.Shaped := by
  cases e with
  | done t => exact Tree.shaped_of_mem he hc
  | pending q =>
    rcases Multiset.mem_add.1 hc with hc | hc
    · rw [Multiset.mem_singleton.1 hc]
      exact q.shaped_kind
    · obtain ⟨x, hx, hc⟩ := mem_sum_map.1 hc
      exact Tree.shaped_of_mem (he x hx) hc

theorem Level.Complete.shaped_of_mem {l : Level} (hl : l.Complete) (hc : c ∈ l.cells) :
    c.2.kind.Shaped := by
  rcases Multiset.mem_add.1 hc with hc | hc
  · obtain ⟨e, he, hc⟩ := mem_sum_map.1 hc
    exact Entry.shaped_of_mem (hl.operands e he) hc
  · obtain ⟨x, hx, hc⟩ := mem_sum_map.1 hc
    exact Tree.shaped_of_mem (hl.args x hx) hc

/-! ## operands of others -/

/-- Entries of a forest: every id is in one slot of another entry, once, or it is a root. -/
def Rooted (M : Multiset Cell) (roots : Multiset PartId) : Prop :=
  (M.bind fun c => (c.2.kind.children : Multiset PartId)) + roots = M.map Prod.fst

namespace Rooted

variable {M M' : Multiset Cell} {R R' : Multiset PartId} {id : PartId}

theorem zero : Rooted 0 0 := rfl

theorem add (h : Rooted M R) (h' : Rooted M' R') : Rooted (M + M') (R + R') := by
  unfold Rooted at *
  rw [Multiset.add_bind, Multiset.map_add, ← h, ← h']
  abel

/-- An entry whose operands are the roots is the one root with them. -/
theorem node (h : Rooted M p.kind.children) : Rooted ({(id, p)} + M) {id} := by
  unfold Rooted at *
  rw [Multiset.add_bind, Multiset.singleton_bind, Multiset.map_add, Multiset.map_singleton, ← h]
  abel

theorem sum {α : Type} {f : α → Multiset Cell} {g : α → Multiset PartId} {xs : List α}
    (h : ∀ x ∈ xs, Rooted (f x) (g x)) : Rooted (xs.map f).sum (xs.map g).sum := by
  induction xs with
  | nil => exact zero
  | cons x xs ih =>
    obtain ⟨hx, hxs⟩ := List.forall_mem_cons.1 h
    exact hx.add (ih hxs)

/-- In a table, where no id is there twice, a root is the operand of no part. -/
theorem not_child (h : Rooted M R) (hnodup : (M.map Prod.fst).Nodup) (hid : id ∈ R) (hc : c ∈ M) :
    id ∉ c.2.kind.children := by
  intro hchild
  -- children and roots are all ids together, so an id in both would be there twice
  unfold Rooted at h
  rw [← h, Multiset.nodup_add] at hnodup
  have hmem : id ∈ M.bind fun c => (c.2.kind.children : Multiset PartId) :=
    Multiset.mem_bind.2 ⟨c, hc, hchild⟩
  exact Multiset.disjoint_left.1 hnodup.2.2 hmem hid

end Rooted

theorem coe_map_id (ts : List Tree) :
    ((ts.map Tree.id : List PartId) : Multiset PartId) = (ts.map fun t => {t.id}).sum := by
  rw [← Multiset.sum_map_singleton (ts.map Tree.id : Multiset PartId), Multiset.map_coe,
    Multiset.sum_coe, List.map_map]
  rfl

theorem Tree.rooted (ht : t.Complete) : Rooted t.cells {t.id} := by
  induction t using Tree.operand_induction with
  | part t ih =>
    obtain ⟨p, hp, -, hchildren⟩ := Arena.ofTree?_complete ht
    rw [Tree.cells_eq hp]
    apply Rooted.node
    rw [hchildren, coe_map_id]
    exact Rooted.sum fun x hx => ih x hx (ht.operands x hx)

theorem Entry.children_part (he : e.Complete) (hp : e.part? = some p) :
    p.kind.children = e.operands.map Tree.id := by
  cases e with
  | done t =>
    obtain ⟨p', hp', -, hchildren⟩ := Arena.ofTree?_complete he
    cases hp'.symm.trans hp
    exact hchildren
  | pending q =>
    cases hp
    cases q <;> rfl

theorem Entry.rooted (he : e.Complete) : Rooted e.cells {e.id} := by
  obtain ⟨p, hp, hcells, -⟩ := e.exists_part he
  rw [hcells]
  apply Rooted.node
  rw [children_part he hp, coe_map_id]
  exact Rooted.sum fun x hx => Tree.rooted (he.operands x hx)

/-- The ids of a level, which are the operands of no part. -/
def Level.roots (l : Level) : Multiset PartId :=
  (l.operands.map fun e => {e.id}).sum + (l.args.map fun x => {x.id}).sum

theorem Level.Complete.rooted {l : Level} (hl : l.Complete) : Rooted l.cells l.roots :=
  (Rooted.sum fun e he => Entry.rooted (hl.operands e he)).add
    (Rooted.sum fun x hx => Tree.rooted (hl.args x hx))

/-! ## the way down -/

theorem PartKind.child_mem_of_stealable {k : PartKind} {i : Nat} {child : PartId}
    (h : k.stealable? = some (i, child)) : child ∈ k.children := by
  obtain ⟨j, -, h⟩ := Option.bind_eq_some_iff.1 h
  obtain ⟨child', hslot, h⟩ := Option.map_eq_some_iff.1 h
  cases h
  obtain ⟨s, hs, hchild⟩ := Option.bind_eq_some_iff.1 hslot
  have hmem := List.mem_of_getElem? hs
  cases k with
  | operator op slots => exact List.mem_filterMap.2 ⟨s, hmem, hchild⟩
  | cast target slot =>
    rw [List.mem_singleton.1 hmem] at hchild
    exact Option.mem_toList.2 hchild
  | _ => cases hmem

theorem Attempt.Ends.bind {α β : Type} {x : Attempt α} {f : α → Attempt β} (h : x.Ends)
    (hf : ∀ y, (f y).Ends) : (x >>= f).Ends := by
  obtain ⟨y, rfl⟩ := h
  cases y with
  | error e => exact ⟨.error e, rfl⟩
  | ok y => exact hf y

namespace Arena

variable {a : Arena} {n : Nat} {M : Multiset Cell}

/-- The way down from an entry takes a step for each part that it passes, at most. -/
theorem Stores.descend_ends (h : a.Stores n M) (b : Binding) {steps : Nat} {e : Entry}
    (he : e.Complete) (hM : e.cells ≤ M) (hsteps : e.cells.card ≤ steps) :
    (a.descend b steps e.id).Ends := by
  induction steps generalizing e with
  | zero =>
    obtain ⟨p, -, hcells, -⟩ := e.exists_part he
    rw [hcells, Multiset.card_add, Multiset.card_singleton] at hsteps
    omega
  | succ steps ih =>
    obtain ⟨p, hp, hpart, -⟩ := h.exists_entry he hM
    cases hwhole : a.test (fun k => k.isReady && b.keepsKind k) e.id with
    | true => exact ⟨.ok ([], e.id), descend_whole hwhole⟩
    | false =>
      cases hsteal : p.kind.stealable? with
      | none => exact ⟨.error _, descend_fail hwhole hpart hsteal⟩
      | some steal =>
        obtain ⟨i, child⟩ := steal
        -- what is given away is an operand, which has fewer entries than the part
        have hchild := PartKind.child_mem_of_stealable hsteal
        rw [Entry.children_part he hp] at hchild
        obtain ⟨x, hx, rfl⟩ := List.mem_map.1 hchild
        obtain ⟨hle, hlt⟩ := Entry.cells_operand he hx
        have hdown : (a.descend b steps x.id).Ends := by
          have hxsteps : x.cells.card ≤ steps := by omega
          exact ih (e := .done x) (he.operands x hx) (hle.trans hM) hxsteps
        rw [descend_steal hwhole hpart hsteal]
        exact hdown.bind fun y => ⟨.ok _, rfl⟩

theorem push_ends (a : Arena) (max : Nat) (id : PartId) (stack : List PartId) :
    (a.push max id stack).Ends := by
  unfold push
  split
  · exact ⟨.error _, rfl⟩
  · exact ⟨.ok _, rfl⟩

theorem reopen_ends (a : Arena) (max : Nat) (path : List (PartId × Nat)) (stack : List PartId) :
    (a.reopen max path stack).Ends := by
  induction path generalizing a stack with
  | nil => exact ⟨.ok _, rfl⟩
  | cons step path ih =>
    exact (push_ends _ max step.1 stack).bind fun x => ih x.1 x.2

end Arena

/-! ## half-built tables -/

/-- A table with the operands of its open brackets. -/
structure TableState.WellShaped (ts : TableState) : Prop where
  shaped : ∀ p ∈ ts.arena.parts, p.kind.Shaped
  /-- an operand of an open bracket is a part, and no part has it in a slot -/
  apart : ∀ l ∈ ts.level :: ts.outer, ∀ id ∈ l.operands,
    id < ts.arena.size ∧ ∀ p ∈ ts.arena.parts, id ∉ p.kind.children
  /-- the left operand of an operator is found in it, or is missing, however the operator binds -/
  splits : ∀ l ∈ ts.level :: ts.outer, ∀ id ∈ l.operands, ∀ stack max b here,
    (ts.arena.takeLeft max b here (id :: stack)).Ends

namespace TableLevel

/-- Below the top of the operands lies one that nothing takes any more. -/
def Doomed (a : Arena) (l : TableLevel) : Prop :=
  ∃ id ∈ l.operands.tail, a.test PartKind.isStuck id = true

/-- A bracket that is still open, with the arguments it had, the brackets that were around it, and
operands that are doomed and leave it no result. -/
def StaysOpen (l : TableLevel) (around : List TableLevel) (ts : TableState) : Prop :=
  ∃ inner l', ts.level :: ts.outer = inner ++ l' :: around ∧ l'.bracket = l.bracket ∧
    l'.args = l.args ∧ l'.Doomed ts.arena ∧
    ∀ ifEmpty, ∃ e, ts.arena.single l'.operands ifEmpty = .error e

/-- Two operands do not leave one. -/
theorem Doomed.single_error {a : Arena} {l : TableLevel} (h : l.Doomed a) (ifEmpty : ParseError) :
    ∃ e, a.single l.operands ifEmpty = .error e := by
  obtain ⟨id, hid, -⟩ := h
  unfold Arena.single
  split
  · exact ⟨_, rfl⟩
  split
  · exact ⟨_, rfl⟩
  · rename_i id' hreverse
    rw [List.reverse_eq_iff.1 hreverse] at hid
    cases hid
  · exact ⟨_, rfl⟩

end TableLevel

theorem cells_le_cellsOfLevels {levels : List Level} {l : Level} (hl : l ∈ levels)
    (he : e ∈ l.operands) : e.cells ≤ cellsOfLevels levels + 0 := by
  have hlevel : l.cells ≤ cellsOfLevels levels := le_sum_map hl
  have hentry : e.cells ≤ l.operands.cells := le_sum_map he
  rw [add_zero]
  exact (hentry.trans (Multiset.le_add_right ..)).trans hlevel

namespace Represents

variable {ts ts' : TableState} {st st' : ParseState} {l : Level}

theorem levels (h : Represents 0 ts st) :
    ts.level :: ts.outer = (st.level :: st.outer).map Level.table := by
  rw [h.level, h.outer]
  rfl

theorem rooted (h : Represents 0 ts st) :
    Rooted (cellsOfLevels (st.level :: st.outer) + 0)
      ((st.level :: st.outer).map Level.roots).sum := by
  rw [add_zero]
  exact Rooted.sum fun l hl => (h.complete l hl).rooted

/-- A table that represents half-built trees has their shape. -/
theorem wellShaped (h : Represents 0 ts st) : ts.WellShaped := by
  have hentry : ∀ p ∈ ts.arena.parts, ∃ id,
      (id, p) ∈ cellsOfLevels (st.level :: st.outer) + 0 := by
    intro p hp
    obtain ⟨id, hid⟩ := List.getElem?_of_mem hp
    exact ⟨id, h.stores.mem_of_part? hid⟩
  have hnodup := h.stores.ids ▸ Multiset.nodup_range st.next
  have hoperand : ∀ l ∈ ts.level :: ts.outer, ∀ id ∈ l.operands,
      ∃ l' ∈ st.level :: st.outer, ∃ e ∈ l'.operands, id = e.id := by
    intro l hl id hid
    rw [h.levels] at hl
    obtain ⟨l', hl', rfl⟩ := List.mem_map.1 hl
    obtain ⟨e, he, rfl⟩ := List.mem_map.1 hid
    exact ⟨l', hl', e, he, rfl⟩
  constructor
  · intro p hp
    obtain ⟨id, hc⟩ := hentry p hp
    rw [add_zero] at hc
    obtain ⟨l, hl, hc⟩ := mem_sum_map.1 hc
    exact (h.complete l hl).shaped_of_mem hc
  · intro l hl id hid
    obtain ⟨l', hl', e, he, rfl⟩ := hoperand l hl id hid
    have hroot : e.id ∈ ((st.level :: st.outer).map Level.roots).sum :=
      mem_sum_map.2 ⟨l', hl', Multiset.mem_add.2
        (.inl (mem_sum_map.2 ⟨e, he, Multiset.mem_singleton_self _⟩))⟩
    constructor
    · have hmem : e.id ∈ Multiset.range st.next := by
        rw [← h.stores.ids, ← h.rooted]
        exact Multiset.mem_add.2 (.inr hroot)
      rw [h.stores.size_eq]
      exact Multiset.mem_range.1 hmem
    · intro p hp
      obtain ⟨id, hc⟩ := hentry p hp
      exact h.rooted.not_child hnodup hroot hc
  · intro l hl id hid stack max b here
    obtain ⟨l', hl', e, he, rfl⟩ := hoperand l hl id hid
    have hle := cells_le_cellsOfLevels hl' he
    have hdown : (ts.arena.descend b ts.arena.size e.id).Ends := by
      apply h.stores.descend_ends b ((h.complete l' hl').operands e he) hle
      rw [h.stores.size_eq]
      exact h.stores.card_le hle
    exact hdown.bind fun x => (ts.arena.reopen_ends max x.1 stack).bind fun _ => ⟨.ok _, rfl⟩

theorem doomed_iff (h : Represents 0 ts st) (hl : l ∈ st.level :: st.outer) :
    l.table.Doomed ts.arena ↔ l.operands.Doomed := by
  have hstuck : ∀ e ∈ l.operands, ts.arena.test PartKind.isStuck e.id = e.isStuck := by
    intro e he
    have hcomplete := (h.complete l hl).operands e he
    obtain ⟨p, hp, hpart, -⟩ := h.stores.exists_entry hcomplete (cells_le_cellsOfLevels hl he)
    rw [Arena.test_eq hpart, Entry.isStuck_part hcomplete hp]
  have htail : l.table.operands.tail = l.operands.tail.map Entry.id := List.map_tail.symm
  unfold TableLevel.Doomed OperandStack.Doomed
  rw [htail]
  constructor
  · rintro ⟨id, hid, htest⟩
    obtain ⟨e, he, rfl⟩ := List.mem_map.1 hid
    exact ⟨e, he, by rw [← hstuck e (List.mem_of_mem_tail he), htest]⟩
  · rintro ⟨e, he, htest⟩
    exact ⟨e.id, List.mem_map_of_mem he, by rw [hstuck e (List.mem_of_mem_tail he), htest]⟩

/-- A doomed bracket of the table is one of the trees. -/
theorem doomedIn (h : Represents 0 ts st) {inner around : List TableLevel} {l : TableLevel}
    (hlevels : ts.level :: ts.outer = inner ++ l :: around) (hdoomed : l.Doomed ts.arena) :
    ∃ (l' : Level) (around' : List Level), l = l'.table ∧ around = around'.map Level.table ∧
      DoomedIn l'.bracket l'.args around' (st.level :: st.outer) := by
  rw [h.levels] at hlevels
  obtain ⟨inner', rest, hsplit, -, hrest⟩ := List.map_eq_append_iff.1 hlevels
  obtain ⟨l', around', rfl, rfl, rfl⟩ := List.map_eq_cons_iff.1 hrest
  have hl : l' ∈ st.level :: st.outer := by
    rw [hsplit]
    simp
  refine ⟨l', around', rfl, rfl, ?_⟩
  rw [hsplit]
  exact .of_append ((h.doomed_iff hl).1 hdoomed)

/-- A doomed bracket of the trees stays open in the table. -/
theorem staysOpen (h : Represents 0 ts st) {around : List Level}
    (hdoomed : DoomedIn l.bracket l.args around (st.level :: st.outer)) :
    l.table.StaysOpen (around.map Level.table) ts := by
  obtain ⟨inner, s, hlevels, hs⟩ := hdoomed.exists_append
  have hl : (⟨l.bracket, s, l.args⟩ : Level) ∈ st.level :: st.outer := by
    rw [hlevels]
    simp
  have htable := (h.doomed_iff hl).2 hs
  refine ⟨inner.map Level.table, Level.table ⟨l.bracket, s, l.args⟩, ?_, rfl, rfl, htable,
    htable.single_error⟩
  rw [h.levels, hlevels, List.map_append]
  rfl

end Represents

/-- The table in front of any token. The filled slots of a part are the first ones, an operator
between its operands keeps the left one locked, and only the last filled slot is not locked; an
operand of an open bracket is in no slot, and the way down from it ends. Once a finished operand,
or a choice before its `:`, lies below the top of a bracket, that bracket stays open whatever tokens
follow, and the parse fails. The table in front of the end is the one of the parsed tree. -/
theorem half_built_shape (stream : TokenStream) (r : Registry) (limits : Limits) :
    parseTable stream r limits =
        .of ((parse stream r limits).map fun e => (e.arena, e.tree.id)) ∧
      ∀ before after ts, stream.lexemes = before ++ after →
        TableState.readBefore r limits after before {} = pure ts →
          ts.WellShaped ∧
            ∀ inner l around, ts.level :: ts.outer = inner ++ l :: around → l.Doomed ts.arena →
              (∃ e, parse stream r limits = .error e) ∧
                ∀ more rest ts', after = more ++ rest →
                  TableState.readBefore r limits rest more ts = pure ts' →
                    l.StaysOpen around ts' := by
  refine ⟨parseTable_eq stream r limits, ?_⟩
  intro before after ts hlexemes hrun
  have hn := numbered_lexemes stream
  rw [hlexemes] at hn
  have hstart := ParseState.reached_start (r := r) (before ++ after)
  obtain ⟨st, hst, h⟩ := (hrun ▸ represents_start.readBefore hstart hn).of_pure
  refine ⟨h.wellShaped, fun inner l around hlevels hdoomed => ?_⟩
  obtain ⟨l', around', rfl, rfl, hin⟩ := h.doomedIn hlevels hdoomed
  refine ⟨parse_of_doomed hlexemes hst hin, ?_⟩
  rintro more rest ts' rfl hmore
  have hreached := hstart.readBefore hn hst
  have hn' := (Numbered.append.1 hn).2
  obtain ⟨st', hst', h'⟩ := (hmore ▸ h.readBefore hreached hn').of_pure
  exact h'.staysOpen (hreached.doomed hn' hst' hin)

/-- A group in which a number covers the first branch of a choice. -/
def coveredStream : TokenStream :=
  ⟨"(1 ? 2 3 + 4)".toList,
    [⟨.parenthesis, ⟨0, 1⟩⟩, ⟨.number, ⟨1, 2⟩⟩, ⟨.operator, ⟨3, 4⟩⟩, ⟨.number, ⟨5, 6⟩⟩,
      ⟨.number, ⟨7, 8⟩⟩, ⟨.operator, ⟨9, 10⟩⟩, ⟨.number, ⟨11, 12⟩⟩, ⟨.parenthesis, ⟨12, 13⟩⟩]⟩

/-- The table in front of its `+`: the branch of part 1 is not locked, and part 3 covers it. -/
def coveredState : TableState where
  arena := ⟨[⟨.constant (.int (.wrap ⟨false, .w8⟩ 1)), 1, ⟨1, 2⟩⟩,
    ⟨.operator .choice [⟨some 0, true⟩, ⟨some 2, false⟩, {}], 2, ⟨3, 4⟩⟩,
    ⟨.constant (.int (.wrap ⟨false, .w8⟩ 2)), 3, ⟨5, 6⟩⟩,
    ⟨.constant (.int (.wrap ⟨false, .w8⟩ 3)), 4, ⟨7, 8⟩⟩]⟩
  level := ⟨.group 0 ⟨0, 13⟩ 7, [3, 1], []⟩
  outer := [⟨.whole, [], []⟩]

/-- The table in front of its `)`, where the sum covers the branch. -/
def coveredEnd : TableState where
  arena := ⟨coveredState.arena.parts ++
    [⟨.operator (.binary (.arith .add)) [⟨some 3, true⟩, ⟨some 5, false⟩], 5, ⟨9, 10⟩⟩,
      ⟨.constant (.int (.wrap ⟨false, .w8⟩ 4)), 6, ⟨11, 12⟩⟩]⟩
  level := ⟨.group 0 ⟨0, 13⟩ 7, [4, 1], []⟩
  outer := [⟨.whole, [], []⟩]

theorem half_built_shape_covered :
    TableState.readBefore sampleRegistry {} (coveredStream.lexemes.drop 5)
        (coveredStream.lexemes.take 5) {} = pure coveredState ∧
      coveredState.WellShaped ∧
      (∃ e, parse coveredStream sampleRegistry {} = .error e) ∧
      TableState.readBefore sampleRegistry {} (coveredStream.lexemes.drop 7)
        ((coveredStream.lexemes.drop 5).take 2) coveredState = pure coveredEnd ∧
      coveredState.level.StaysOpen coveredState.outer coveredEnd := by
  have hrun : TableState.readBefore sampleRegistry {} (coveredStream.lexemes.drop 5)
      (coveredStream.lexemes.take 5) {} = pure coveredState := rfl
  have hmore : TableState.readBefore sampleRegistry {} (coveredStream.lexemes.drop 7)
      ((coveredStream.lexemes.drop 5).take 2) coveredState = pure coveredEnd := rfl
  obtain ⟨-, hshape⟩ := half_built_shape coveredStream sampleRegistry {}
  obtain ⟨hwell, hdoom⟩ := hshape _ _ coveredState rfl hrun
  have hdoomed : coveredState.level.Doomed coveredState.arena := ⟨1, by decide, by decide⟩
  obtain ⟨hfails, hopen⟩ := hdoom [] _ _ rfl hdoomed
  exact ⟨hrun, hwell, hfails, hmore, hopen _ _ coveredEnd rfl hmore⟩

end ExprEngine
