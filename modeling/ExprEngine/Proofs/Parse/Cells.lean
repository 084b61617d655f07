import ExprEngine.Parse.Table
import ExprEngine.Proofs.Arena

/-!
# The table entries of half-built trees

Every part of a stack of operands has one entry in the table: a finished part is filled, a waiting
one has an empty slot for each operand that is missing. The entries are counted with multiplicity,
so that a change of one leaves the others alone.

* `Cell`                       an entry with its id;
* `Pending.kind`               a waiting operator as an entry;
* `Tree.cells`, `Entry.cells`  the entries of all parts, operands included;
* `Arena.Stores`               a table with exactly these entries;
* `Stores.set`, `Stores.alloc` what changes with one slot, or with one part more.
-/

namespace ExprEngine

/-- An entry of a table with its id. -/
abbrev Cell := PartId × Part

theorem mem_sum_map {α β : Type} {f : α → Multiset β} {xs : List α} {y : β} :
    y ∈ (xs.map f).sum ↔ ∃ x ∈ xs, y ∈ f x := by
  induction xs with
  | nil => simp
  | cons x xs ih => simp [ih]

theorem le_sum_map {α β : Type} {f : α → Multiset β} {xs : List α} {x : α} (hx : x ∈ xs) :
    f x ≤ (xs.map f).sum := by
  obtain ⟨us, vs, rfl⟩ := List.append_of_mem hx
  rw [List.map_append, List.sum_append, List.map_cons, List.sum_cons]
  exact (Multiset.le_add_right ..).trans (Multiset.le_add_left ..)

/-! ## the entries of trees -/

/-- The entries of the parts of a tree. -/
def Tree.cells (t : Tree) : Multiset Cell :=
  t.nodes.filterMap fun n => (Part.ofTree? n).map fun p => (n.id, p)

/-- The entries of the parts of some trees. -/
def cellsOfAll (ts : List Tree) : Multiset Cell := (ts.map Tree.cells).sum

@[simp] theorem cellsOfAll_nil : cellsOfAll [] = 0 := rfl

@[simp] theorem cellsOfAll_cons (t : Tree) (ts : List Tree) :
    cellsOfAll (t :: ts) = t.cells + cellsOfAll ts := by
  simp [cellsOfAll]

@[simp] theorem cellsOfAll_append (ts us : List Tree) :
    cellsOfAll (ts ++ us) = cellsOfAll ts + cellsOfAll us := by
  simp [cellsOfAll]

theorem cells_nodesOfAll (ts : List Tree) :
    (((Tree.nodesOfAll ts).filterMap fun n => (Part.ofTree? n).map fun p => (n.id, p) : List Cell) :
      Multiset Cell) = cellsOfAll ts := by
  induction ts with
  | nil => rfl
  | cons t ts ih =>
    rw [Tree.nodesOfAll, List.filterMap_append, ← Multiset.coe_add, ih, cellsOfAll_cons]
    rfl

/-- The entry of the topmost part, and those below it. -/
theorem Tree.cells_eq {t : Tree} {p : Part} (h : Part.ofTree? t = some p) :
    t.cells = {(t.id, p)} + cellsOfAll t.operands := by
  have hole : t.isHole = false := by
    cases t with
    | hole => cases h
    | _ => rfl
  unfold cells
  rw [nodes_eq_cons hole, List.filterMap_cons_some (by rw [h]; rfl), ← Multiset.cons_coe,
    cells_nodesOfAll, Multiset.singleton_add]

namespace Tree

theorem cells_constant (o : Origin) (v : Value) :
    (constant o v).cells = {(o.id, ⟨.constant v, o.token, o.span⟩)} := cells_eq rfl

theorem cells_reference (o : Origin) (x : VarId) :
    (reference o x).cells = {(o.id, ⟨.reference x, o.token, o.span⟩)} := cells_eq rfl

theorem cells_group (o : Origin) (x : Tree) :
    (group o x).cells = {(o.id, ⟨.group x.id, o.token, o.span⟩)} + x.cells := by
  rw [cells_eq rfl]
  exact congrArg _ ((cellsOfAll_cons x []).trans (add_zero _))

theorem cells_call (o : Origin) (f : FuncId) (args : List Tree) :
    (call o f args).cells =
      {(o.id, ⟨.call f (args.map id), o.token, o.span⟩)} + cellsOfAll args := cells_eq rfl

end Tree

theorem Slot.ofTree_complete {x : Tree} (h : x.Complete) (locked : Bool) :
    Slot.ofTree x locked = ⟨some x.id, locked⟩ := by
  unfold Slot.ofTree
  rw [h.isHole]
  rfl

namespace Part

variable {o : Origin} {c l x y : Tree}

theorem ofTree?_unary (op : UnaryOp) (hx : x.Complete) :
    ofTree? (.unary o op x) =
      some ⟨.operator (.unary op) [⟨some x.id, false⟩], o.token, o.span⟩ := by
  rw [← Slot.ofTree_complete hx]
  rfl

theorem ofTree?_cast (target : ValueType) (hx : x.Complete) :
    ofTree? (.cast o target x) = some ⟨.cast target ⟨some x.id, true⟩, o.token, o.span⟩ := by
  rw [← Slot.ofTree_complete hx]
  rfl

theorem ofTree?_binary (op : BinaryOp) (hl : l.Complete) (hx : x.Complete) :
    ofTree? (.binary o op l x) =
      some ⟨.operator (.binary op) [⟨some l.id, true⟩, ⟨some x.id, false⟩], o.token, o.span⟩ := by
  rw [← Slot.ofTree_complete hl, ← Slot.ofTree_complete hx]
  rfl

theorem ofTree?_choice (hc : c.Complete) (hy : y.Complete) (hx : x.Complete) :
    ofTree? (.choice o c y x) =
      some ⟨.operator .choice [⟨some c.id, true⟩, ⟨some y.id, true⟩, ⟨some x.id, false⟩],
        o.token, o.span⟩ := by
  rw [← Slot.ofTree_complete hc, ← Slot.ofTree_complete hy, ← Slot.ofTree_complete hx]
  rfl

end Part

/-! ## the entries of a stack -/

namespace Pending

/-- The operator with its operands in their slots. -/
def kind : Pending → PartKind
  | unary _ op => .operator (.unary op) [{}]
  | cast _ target => .cast target {}
  | binary _ op l => .operator (.binary op) [⟨some l.id, true⟩, {}]
  | condition _ c => .operator .choice [⟨some c.id, true⟩, {}, {}]
  | branch _ c y => .operator .choice [⟨some c.id, true⟩, ⟨some y.id, false⟩, {}]
  | otherwise _ c y => .operator .choice [⟨some c.id, true⟩, ⟨some y.id, true⟩, {}]

def part (p : Pending) : Part := ⟨p.kind, p.origin.token, p.origin.span⟩

/-- The operands that the operator has. -/
def operands : Pending → List Tree
  | unary _ _ => []
  | cast _ _ => []
  | binary _ _ l => [l]
  | condition _ c => [c]
  | branch _ c y => [c, y]
  | otherwise _ c y => [c, y]

def cells (p : Pending) : Multiset Cell := {(p.origin.id, p.part)} + cellsOfAll p.operands

end Pending

namespace Entry

def id (e : Entry) : PartId := e.origin.id

/-- The topmost part of an entry. -/
def part? : Entry → Option Part
  | done t => Part.ofTree? t
  | pending p => some p.part

/-- The operands of the topmost part. -/
def operands : Entry → List Tree
  | done t => t.operands
  | pending p => p.operands

def cells : Entry → Multiset Cell
  | done t => t.cells
  | pending p => p.cells

/-- A finished tree has no holes, and a waiting operator has none in the operands it has. -/
def Complete : Entry → Prop
  | done t => t.Complete
  | pending p => ∀ x ∈ p.operands, x.Complete

theorem Complete.operands {e : Entry} (h : e.Complete) : ∀ x ∈ e.operands, x.Complete := by
  cases e with
  | done t => exact Tree.Complete.operands h
  | pending p => exact h

theorem ofTree?_origin {t : Tree} {p : Part} (h : Part.ofTree? t = some p) :
    p.token = t.origin.token ∧ p.span = t.origin.span := by
  obtain ⟨k, -, rfl⟩ := Option.map_eq_some_iff.1 h
  exact ⟨rfl, rfl⟩

/-- The entry of the topmost part, and those below it. -/
theorem exists_part {e : Entry} (h : e.Complete) :
    ∃ p, e.part? = some p ∧ e.cells = {(e.id, p)} + cellsOfAll e.operands ∧
      p.token = e.origin.token ∧ p.span = e.origin.span := by
  cases e with
  | done t =>
    obtain ⟨p, hp, -⟩ := Arena.ofTree?_complete h
    exact ⟨p, hp, Tree.cells_eq hp, ofTree?_origin hp⟩
  | pending p => exact ⟨p.part, rfl, rfl, rfl, rfl⟩

/-- An operand has fewer entries than the part that has it. -/
theorem cells_operand {e : Entry} {x : Tree} (h : e.Complete) (hx : x ∈ e.operands) :
    x.cells ≤ e.cells ∧ x.cells.card < e.cells.card := by
  obtain ⟨p, -, hcells, -⟩ := exists_part h
  have hle : x.cells ≤ cellsOfAll e.operands := le_sum_map hx
  have hcard := Multiset.card_le_card hle
  rw [hcells, Multiset.card_add, Multiset.card_singleton]
  exact ⟨hle.trans (Multiset.le_add_left ..), by omega⟩

end Entry

/-- The entries of the parts on a stack. -/
def OperandStack.cells (s : OperandStack) : Multiset Cell := (s.map Entry.cells).sum

namespace OperandStack

@[simp] theorem cells_cons (e : Entry) (s : OperandStack) :
    cells (e :: s) = e.cells + cells s := by
  simp [cells]

theorem cells_le_of_mem {e : Entry} {s : OperandStack} (h : e ∈ s) : e.cells ≤ s.cells :=
  le_sum_map h

end OperandStack

/-- The entries of the parts that a level holds. -/
def Level.cells (l : Level) : Multiset Cell := l.operands.cells + cellsOfAll l.args

/-- The entries of the parts that the open brackets hold. -/
def cellsOfLevels (ls : List Level) : Multiset Cell := (ls.map Level.cells).sum

@[simp] theorem cellsOfLevels_nil : cellsOfLevels [] = 0 := rfl

@[simp] theorem cellsOfLevels_cons (l : Level) (ls : List Level) :
    cellsOfLevels (l :: ls) = l.cells + cellsOfLevels ls := by
  simp [cellsOfLevels]

/-! ## tables -/

namespace Arena

/-- A table of some size with exactly these entries. -/
structure Stores (a : Arena) (size : Nat) (M : Multiset Cell) : Prop where
  size_eq : a.size = size
  ids : M.map Prod.fst = Multiset.range size
  entry : ∀ c ∈ M, a.part? c.1 = some c.2

variable {a a' : Arena} {n i : Nat} {M : Multiset Cell} {id : PartId} {p : Part} {s : Slot}

theorem stores_empty : Stores {} 0 0 where
  size_eq := rfl
  ids := rfl
  entry := by simp

theorem Stores.part? (h : a.Stores n M) (hc : {(id, p)} ≤ M) : a.part? id = some p :=
  h.entry (id, p) (Multiset.singleton_le.1 hc)

theorem Stores.lt (h : a.Stores n M) {c : Cell} (hc : c ∈ M) : c.1 < n := by
  have hid := Multiset.mem_map_of_mem Prod.fst hc
  rw [h.ids] at hid
  exact Multiset.mem_range.1 hid

/-- Every part of the table is one of the entries. -/
theorem Stores.mem_of_part? (h : a.Stores n M) (hp : a.part? id = some p) : (id, p) ∈ M := by
  have hid : id ∈ M.map Prod.fst := by
    rw [h.ids, Multiset.mem_range, ← h.size_eq]
    exact (List.getElem?_eq_some_iff.1 hp).1
  obtain ⟨⟨id', p'⟩, hc, rfl⟩ := Multiset.mem_map.1 hid
  have hp' := h.entry _ hc
  rw [hp] at hp'
  cases hp'
  exact hc

/-- The entries are all there is in a table. -/
theorem Stores.eq (h : a.Stores n M) (h' : a'.Stores n M) : a = a' := by
  obtain ⟨parts⟩ := a
  obtain ⟨parts'⟩ := a'
  congr 1
  apply List.ext_getElem?
  intro id
  cases hp : parts[id]? with
  | some p => exact (h'.entry (id, p) (h.mem_of_part? hp)).symm
  | none =>
    have hlt : ¬ id < n := by
      rw [← h.size_eq]
      exact Nat.not_lt.2 (List.getElem?_eq_none_iff.1 hp)
    symm
    apply List.getElem?_eq_none
    show Arena.size ⟨parts'⟩ ≤ id
    rw [h'.size_eq]
    omega

theorem part?_alloc_of_lt (h : id < a.size) : (a.alloc p).part? id = a.part? id :=
  List.getElem?_append_left h

/-- One part more is one entry more. -/
theorem Stores.alloc (h : a.Stores n M) (p : Part) : (a.alloc p).Stores (n + 1) ({(n, p)} + M) where
  size_eq := by
    show (a.parts ++ [p]).length = n + 1
    rw [List.length_append, ← h.size_eq]
    rfl
  ids := by
    rw [Multiset.map_add, h.ids, Multiset.map_singleton, Multiset.range_succ,
      Multiset.singleton_add]
  entry := by
    intro c hc
    rcases Multiset.mem_add.1 hc with hc | hc
    · rw [Multiset.mem_singleton.1 hc, ← h.size_eq]
      exact List.getElem?_concat_length
    · rw [part?_alloc_of_lt (by rw [h.size_eq]; exact h.lt hc)]
      exact h.entry c hc

theorem setSlot_of_part? (h : a.part? id = some p) :
    a.setSlot id i s = ⟨a.parts.set id { p with kind := p.kind.setSlot i s }⟩ := by
  unfold setSlot
  rw [h]

/-- Another slot in one part changes the entry of this part, and no other. -/
theorem Stores.set (h : a.Stores n ({(id, p)} + M)) (i : Nat) (s : Slot) :
    (a.setSlot id i s).Stores n ({(id, { p with kind := p.kind.setSlot i s })} + M) := by
  have hp : a.part? id = some p := h.part? (Multiset.le_add_right ..)
  have hlt : id < a.parts.length := (List.getElem?_eq_some_iff.1 hp).1
  have hnodup : (({(id, p)} + M).map Prod.fst).Nodup := by
    rw [h.ids]
    exact Multiset.nodup_range n
  rw [Multiset.map_add, Multiset.map_singleton, Multiset.singleton_add, Multiset.nodup_cons]
    at hnodup
  rw [setSlot_of_part? hp]
  refine ⟨?_, ?_, ?_⟩
  · rw [← h.size_eq]
    exact List.length_set
  · rw [← h.ids, Multiset.map_add, Multiset.map_add]
    rfl
  · intro c hc
    rcases Multiset.mem_add.1 hc with hc | hc
    · rw [Multiset.mem_singleton.1 hc]
      exact List.getElem?_set_self hlt
    · have hne : id ≠ c.1 := by
        intro he
        have hmem : c.1 ∈ M.map Prod.fst := Multiset.mem_map_of_mem Prod.fst hc
        rw [← he] at hmem
        exact hnodup.1 hmem
      rw [← h.entry c (Multiset.mem_add.2 (.inr hc))]
      exact List.getElem?_set_ne hne

/-- An operand in the first empty slot. -/
theorem Stores.fill (h : a.Stores n ({(id, p)} + M)) (child : PartId) (locked : Bool) :
    (a.fill id child locked).2.Stores n
      ({(id, { p with kind := p.kind.fill child locked })} + M) := by
  have hp : a.part? id = some p := h.part? (Multiset.le_add_right ..)
  unfold Arena.fill PartKind.fill
  rw [hp, Option.bind_some]
  cases p.kind.emptySlot? with
  | none => exact h
  | some i => exact h.set i _

theorem Stores.lock (h : a.Stores n ({(id, p)} + M)) (hs : p.kind.slots[i]? = some s) :
    (a.lock id i).Stores n
      ({(id, { p with kind := p.kind.setSlot i { s with locked := true } })} + M) := by
  have hp : a.part? id = some p := h.part? (Multiset.le_add_right ..)
  unfold Arena.lock
  rw [hp, Option.bind_some, hs]
  exact h.set i _

theorem test_eq (h : a.part? id = some p) (f : PartKind → Bool) : a.test f id = f p.kind := by
  unfold test
  rw [h]
  rfl

/-- The topmost part of an entry whose parts the table has. -/
theorem Stores.exists_entry {e : Entry} (h : a.Stores n M) (he : e.Complete) (hM : e.cells ≤ M) :
    ∃ p, e.part? = some p ∧ a.part? e.id = some p ∧
      e.cells = {(e.id, p)} + cellsOfAll e.operands ∧
      p.token = e.origin.token ∧ p.span = e.origin.span := by
  obtain ⟨p, hp, hcells, horigin⟩ := e.exists_part he
  refine ⟨p, hp, ?_, hcells, horigin⟩
  apply h.part?
  rw [hcells] at hM
  exact (Multiset.le_add_right ..).trans hM

theorem errorAt_eq {e : Entry} (h : a.Stores n M) (he : e.Complete) (hM : e.cells ≤ M)
    (cause : ParseCause) : a.errorAt e.id cause = e.origin.parseError cause := by
  obtain ⟨p, -, hp, -, htoken, hspan⟩ := h.exists_entry he hM
  unfold errorAt Origin.parseError
  rw [hp, ← htoken, ← hspan]

/-! ## whole trees in a table -/

/-- The entries of a tree in a table that has them. -/
theorem Stores.holds {t : Tree} (h : a.Stores n M) (ht : t.Complete) (hM : t.cells ≤ M) :
    a.Holds t.nodes := by
  intro x hx
  obtain ⟨p, hp, -⟩ := ofTree?_complete (ht.of_mem_nodes hx)
  have hc : (x.id, p) ∈ t.cells :=
    Multiset.mem_coe.2 (List.mem_filterMap.2 ⟨x, hx, by rw [hp]; rfl⟩)
  rw [hp]
  exact h.entry _ (Multiset.mem_of_le hM hc)

end Arena

namespace Tree

variable {t : Tree}

/-- The ids of the entries of a tree are those of its parts. -/
theorem map_cells (h : t.Complete) : t.cells.map Prod.fst = t.ids := by
  have hall : ∀ l : List Tree, (∀ x ∈ l, x.Complete) →
      (l.filterMap fun n => (Part.ofTree? n).map fun p => (n.id, p)).map Prod.fst =
        l.map Tree.id := by
    intro l hl
    induction l with
    | nil => rfl
    | cons x l ih =>
      obtain ⟨hx, hl⟩ := List.forall_mem_cons.1 hl
      obtain ⟨p, hp, -⟩ := Arena.ofTree?_complete hx
      rw [List.filterMap_cons_some (by rw [hp]; rfl), List.map_cons, List.map_cons, ih hl]
  exact congrArg _ (hall t.nodes fun x hx => h.of_mem_nodes hx)

theorem card_cells (h : t.Complete) : t.cells.card = t.nodes.length := by
  rw [← Multiset.card_map Prod.fst, map_cells h]
  exact List.length_map Tree.id

end Tree

namespace Arena

variable {a : Arena} {n : Nat} {M : Multiset Cell} {t : Tree}

theorem Stores.card_le {M' : Multiset Cell} (h : a.Stores n M) (hM : M' ≤ M) : M'.card ≤ n := by
  have hcard := Multiset.card_le_card hM
  rw [← Multiset.card_map Prod.fst M, h.ids, Multiset.card_range] at hcard
  exact hcard

theorem Stores.length_le (h : a.Stores n M) (ht : t.Complete) (hM : t.cells ≤ M) :
    t.nodes.length ≤ n := by
  rw [← Tree.card_cells ht]
  exact h.card_le hM

/-- A tree is read back from a table that has its entries. -/
theorem Stores.tree_eq (h : a.Stores n M) (ht : t.Complete) (hM : t.cells ≤ M) :
    a.tree t.id = t := by
  apply unfold_eq (h.holds ht hM) ht
  rw [h.size_eq]
  exact h.length_le ht hM

/-- The table of a tree has its entries. -/
theorem stores_ofTree (ht : t.Complete) (hids : t.ids = Multiset.range n) :
    (ofTree t n).Stores n t.cells := by
  obtain ⟨hholds, hsize⟩ := holds_ofTree ht (Multiset.coe_eq_coe.1 hids)
  refine ⟨hsize, ?_, ?_⟩
  · rw [Tree.map_cells ht, hids]
  · intro c hc
    obtain ⟨x, hx, hentry⟩ := List.mem_filterMap.1 (Multiset.mem_coe.1 hc)
    obtain ⟨p, hp, rfl⟩ := Option.map_eq_some_iff.1 hentry
    exact (hholds x hx).trans hp

end Arena
end ExprEngine
