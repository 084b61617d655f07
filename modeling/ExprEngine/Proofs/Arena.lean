import ExprEngine.Arena
import ExprEngine.Proofs.Parse.Numbering
import ExprEngine.Proofs.Tree

/-!
# The table of a parsed tree

A table is one tree when its root reaches every part along exactly one path. What the parser leaves
is such a table, and reading it from the root gives the parsed tree back.

* `Arena.follow?`      the part at the end of a path through a table;
* `Arena.IsTree`       a table that is one tree below a root;
* `Arena.Holds`        a table with the entries of some parts;
* `Arena.unfold_eq`    such a table is read back as the tree;
* `Expr.isTree_arena`  the table of a parsed expression is one tree.
-/

namespace ExprEngine

/-- A part with all its operands: as many slots as its operator takes, none of them empty. -/
def PartKind.Filled : PartKind → Prop
  | .operator op slots => slots.length = op.arity ∧ ∀ s ∈ slots, s.child.isSome = true
  | .cast _ slot => slot.child.isSome = true
  | _ => True

namespace Arena

/-- The ids directly below an id, in order. -/
def childrenOf (a : Arena) (id : PartId) : List PartId :=
  (a.part? id).elim [] fun p => p.kind.children

/-- The id at the end of a path, which gives the operand position at every step. -/
def follow? (a : Arena) (id : PartId) : List Nat → Option PartId
  | [] => some id
  | i :: path => (a.childrenOf id)[i]?.bind fun child => a.follow? child path

theorem follow?_cons {a : Arena} {id target : PartId} {i : Nat} {path : List Nat} :
    a.follow? id (i :: path) = some target ↔
      ∃ child, (a.childrenOf id)[i]? = some child ∧ a.follow? child path = some target :=
  Option.bind_eq_some_iff

theorem follow?_append {a : Arena} {id mid target : PartId} {p q : List Nat}
    (hp : a.follow? id p = some mid) (hq : a.follow? mid q = some target) :
    a.follow? id (p ++ q) = some target := by
  induction p generalizing id with
  | nil =>
    cases hp
    exact hq
  | cons i p ih =>
    obtain ⟨child, hchild, hp⟩ := follow?_cons.1 hp
    exact follow?_cons.2 ⟨child, hchild, ih hp⟩

/-- A table that is exactly one tree below a root. -/
structure IsTree (a : Arena) (root : PartId) : Prop where
  rooted : root < a.size
  filled : ∀ p ∈ a.parts, p.kind.Filled
  inside : ∀ p ∈ a.parts, ∀ child ∈ p.kind.children, child < a.size
  reached : ∀ id < a.size, ∃! path, a.follow? root path = some id
  acyclic : ∀ id < a.size, ∀ path, a.follow? id path = some id → path = []
  unshared : ∀ id < a.size, ∀ id' < a.size, ∀ (i i' : Nat) (child : PartId),
    (a.childrenOf id)[i]? = some child → (a.childrenOf id')[i']? = some child →
    id = id' ∧ i = i'

theorem lt_size_of_child {a : Arena}
    (inside : ∀ p ∈ a.parts, ∀ child ∈ p.kind.children, child < a.size) {id child : PartId}
    (h : child ∈ a.childrenOf id) : child < a.size := by
  unfold childrenOf at h
  cases hp : a.part? id with
  | none =>
    rw [hp] at h
    cases h
  | some p =>
    rw [hp] at h
    exact inside p (List.mem_of_getElem? hp) child h

/-- One path to every part leaves no cycle and no part below two others. -/
theorem isTree_of_reached {a : Arena} {root : PartId} (hroot : root < a.size)
    (filled : ∀ p ∈ a.parts, p.kind.Filled)
    (inside : ∀ p ∈ a.parts, ∀ child ∈ p.kind.children, child < a.size)
    (reached : ∀ id < a.size, ∃! path, a.follow? root path = some id) : a.IsTree root := by
  refine ⟨hroot, filled, inside, reached, ?_, ?_⟩
  · intro id hid path hpath
    obtain ⟨p, hp, hunique⟩ := reached id hid
    have hlonger : p ++ path = p := hunique _ (follow?_append hp hpath)
    exact List.append_right_eq_self.1 hlonger
  · intro id hid id' hid' i i' child hi hi'
    obtain ⟨p, hp, -⟩ := reached id hid
    obtain ⟨p', hp', -⟩ := reached id' hid'
    have hchild : child < a.size := lt_size_of_child inside (List.mem_of_getElem? hi)
    have hpath : a.follow? root (p ++ [i]) = some child :=
      follow?_append hp (follow?_cons.2 ⟨child, hi, rfl⟩)
    have hpath' : a.follow? root (p' ++ [i']) = some child :=
      follow?_append hp' (follow?_cons.2 ⟨child, hi', rfl⟩)
    have hsame : p ++ [i] = p' ++ [i'] := (reached child hchild).unique hpath hpath'
    obtain ⟨rfl, hlast⟩ := List.append_inj' hsame rfl
    cases hlast
    rw [hp] at hp'
    exact ⟨Option.some.inj hp', rfl⟩

/-! ## entries of parts -/

/-- A table that has the entry of every part in a list. -/
def Holds (a : Arena) (ns : List Tree) : Prop := ∀ n ∈ ns, a.part? n.id = Part.ofTree? n

variable {a : Arena} {t : Tree}

theorem Holds.operand {x : Tree} (h : a.Holds t.nodes) (hx : x ∈ t.operands) : a.Holds x.nodes :=
  fun n hn => h n (Tree.mem_nodes_of_operand hx hn)

theorem child_ofTree {x : Tree} (h : x.Complete) (locked : Bool) :
    (Slot.ofTree x locked).child = some x.id := by
  unfold Slot.ofTree
  rw [h.isHole]
  rfl

/-- The entry of a complete part: it is filled, and its children are the operands. -/
theorem ofTree?_complete (h : t.Complete) : ∃ p, Part.ofTree? t = some p ∧ p.kind.Filled ∧
    p.kind.children = t.operands.map Tree.id := by
  cases t with
  | hole => exact h.elim
  | constant => exact ⟨_, rfl, trivial, rfl⟩
  | reference => exact ⟨_, rfl, trivial, rfl⟩
  | group => exact ⟨_, rfl, trivial, rfl⟩
  | call => exact ⟨_, rfl, trivial, rfl⟩
  | cast o target x =>
    have hx := child_ofTree (x := x) h true
    refine ⟨_, rfl, ?_, ?_⟩
    · simp [PartKind.Filled, hx]
    · simp [PartKind.children, hx, Tree.operands]
  | unary o op x =>
    have hx := child_ofTree (x := x) h false
    refine ⟨_, rfl, ?_, ?_⟩
    · simp [PartKind.Filled, hx, Operator.arity]
    · simp [PartKind.children, hx, Tree.operands]
  | binary o op l x =>
    have hl := child_ofTree h.1 true
    have hx := child_ofTree h.2 false
    refine ⟨_, rfl, ?_, ?_⟩
    · simp [PartKind.Filled, hl, hx, Operator.arity]
    · simp [PartKind.children, hl, hx, Tree.operands]
  | choice o c y n =>
    have hc := child_ofTree h.1 true
    have hy := child_ofTree h.2.1 true
    have hn := child_ofTree h.2.2 false
    refine ⟨_, rfl, ?_, ?_⟩
    · simp [PartKind.Filled, hc, hy, hn, Operator.arity]
    · simp [PartKind.children, hc, hy, hn, Tree.operands]

theorem Holds.childrenOf (h : a.Holds t.nodes) (ht : t.Complete) :
    a.childrenOf t.id = t.operands.map Tree.id := by
  obtain ⟨p, hp, -, hchildren⟩ := ofTree?_complete ht
  unfold Arena.childrenOf
  rw [h t (Tree.mem_nodes_self ht.isHole), hp]
  exact hchildren

/-- Paths through the table are paths through the tree. -/
theorem Holds.follow? (h : a.Holds t.nodes) (ht : t.Complete) (path : List Nat) :
    a.follow? t.id path = (t.at? path).map Tree.id := by
  induction path generalizing t with
  | nil => rfl
  | cons i path ih =>
    unfold Arena.follow? Tree.at?
    rw [h.childrenOf ht, List.getElem?_map]
    cases hi : t.operands[i]? with
    | none => rfl
    | some x =>
      have hx := List.mem_of_getElem? hi
      exact ih (h.operand hx) (ht.operands x hx)

/-! ## reading a table -/

theorem unfold_of_part {p : Part} {id : PartId} (h : a.part? id = some p) (depth : Nat) :
    a.unfold (depth + 1) id =
      (let o : Origin := ⟨id, p.token, p.span⟩
      let operand (s : Option Slot) : Tree := ((s.bind Slot.child).map (a.unfold depth)).getD .hole
      match p.kind with
      | .constant v => .constant o v
      | .reference x => .reference o x
      | .operator (.unary op) slots => .unary o op (operand slots[0]?)
      | .operator (.binary op) slots => .binary o op (operand slots[0]?) (operand slots[1]?)
      | .operator .choice slots =>
        .choice o (operand slots[0]?) (operand slots[1]?) (operand slots[2]?)
      | .call f args => .call o f (args.map (a.unfold depth))
      | .group child => .group o (a.unfold depth child)
      | .cast target slot => .cast o target (operand (some slot))) := by
  rw [unfold]
  revert h
  generalize a.part? id = entry
  rintro rfl
  rfl

/-- A table with the entries of a tree is read back as the tree, when it is read deep enough. -/
theorem unfold_eq (h : a.Holds t.nodes) (ht : t.Complete) {depth : Nat}
    (hdepth : t.nodes.length ≤ depth) : a.unfold depth t.id = t := by
  induction t using Tree.operand_induction generalizing depth with
  | part t ih =>
    have hnodes := Tree.nodes_eq_cons ht.isHole
    rw [hnodes, List.length_cons] at hdepth
    obtain ⟨depth, rfl⟩ : ∃ d, depth = d + 1 := ⟨depth - 1, by omega⟩
    -- an operand has fewer parts, and is read one level less deep
    have hbelow : ∀ x ∈ t.operands, a.unfold depth x.id = x := by
      intro x hx
      refine ih x hx (h.operand hx) (ht.operands x hx) ?_
      have hle := Tree.length_nodes_le hx
      omega
    have hpart := h t (Tree.mem_nodes_self ht.isHole)
    have hslot : ∀ x ∈ t.operands, ∀ locked,
        (((some (Slot.ofTree x locked)).bind Slot.child).map (a.unfold depth)).getD .hole = x := by
      intro x hx locked
      rw [Option.bind_some, child_ofTree (ht.operands x hx), Option.map_some, Option.getD_some]
      exact hbelow x hx
    cases t with
    | hole => exact ht.elim
    | constant => exact unfold_of_part hpart depth
    | reference => exact unfold_of_part hpart depth
    | group o x =>
      refine (unfold_of_part hpart depth).trans ?_
      exact congrArg (Tree.group o) (hbelow x (by simp [Tree.operands]))
    | call o f args =>
      refine (unfold_of_part hpart depth).trans ?_
      have hargs : (args.map Tree.id).map (a.unfold depth) = args := by
        rw [List.map_map]
        exact (List.map_congr_left hbelow).trans (List.map_id args)
      exact congrArg (Tree.call o f) hargs
    | cast o target x =>
      refine (unfold_of_part hpart depth).trans ?_
      exact congrArg (Tree.cast o target) (hslot x (by simp [Tree.operands]) true)
    | unary o op x =>
      refine (unfold_of_part hpart depth).trans ?_
      exact congrArg (Tree.unary o op) (hslot x (by simp [Tree.operands]) false)
    | binary o op l x =>
      refine (unfold_of_part hpart depth).trans ?_
      have hl := hslot l (by simp [Tree.operands]) true
      have hx := hslot x (by simp [Tree.operands]) false
      exact congrArg₂ (Tree.binary o op) hl hx
    | choice o c y n =>
      refine (unfold_of_part hpart depth).trans ?_
      have hc := hslot c (by simp [Tree.operands]) true
      have hy := hslot y (by simp [Tree.operands]) true
      have hn := hslot n (by simp [Tree.operands]) false
      show Tree.choice o (((some (Slot.ofTree c true)).bind Slot.child).map _ |>.getD _)
        (((some (Slot.ofTree y true)).bind Slot.child).map _ |>.getD _)
        (((some (Slot.ofTree n false)).bind Slot.child).map _ |>.getD _) = _
      rw [hc, hy, hn]

/-! ## the table of a tree -/

theorem map_some_filterMap {α β : Type} {f : α → Option β} {l : List α}
    (h : ∀ x ∈ l, (f x).isSome = true) : (l.filterMap f).map some = l.map f := by
  induction l with
  | nil => rfl
  | cons x l ih =>
    obtain ⟨hx, hl⟩ := List.forall_mem_cons.1 h
    obtain ⟨y, hy⟩ := Option.isSome_iff_exists.1 hx
    rw [List.filterMap_cons_some hy, List.map_cons, List.map_cons, ih hl, hy]

variable {count : Nat}

/-- A part of a tree whose ids are the numbers below a count has its own entry in the table. -/
theorem holds_ofTree (ht : t.Complete) (hids : (t.nodes.map Tree.id).Perm (List.range count)) :
    (Arena.ofTree t count).Holds t.nodes ∧ (Arena.ofTree t count).size = count := by
  have hd : (t.nodes.map Tree.id).Nodup := hids.nodup_iff.2 List.nodup_range
  have hentry : ∀ n ∈ t.nodes,
      (t.nodes.find? fun m => m.id == n.id).bind Part.ofTree? = Part.ofTree? n := by
    intro n hn
    obtain ⟨m, hm⟩ : ∃ m, (t.nodes.find? fun m => m.id == n.id) = some m :=
      Option.isSome_iff_exists.1 (List.find?_isSome.2 ⟨n, hn, beq_self_eq_true _⟩)
    have hbeq := List.find?_some hm
    have hid : m.id = n.id := beq_iff_eq.1 hbeq
    have hmn : m = n := List.inj_on_of_nodup_map hd (List.mem_of_find?_eq_some hm) hn hid
    rw [hm, hmn]
    rfl
  have hsome : ∀ id ∈ List.range count,
      ((t.nodes.find? fun m => m.id == id).bind Part.ofTree?).isSome = true := by
    intro id hid
    obtain ⟨n, hn, rfl⟩ := List.mem_map.1 (hids.mem_iff.2 hid)
    obtain ⟨p, hp, -⟩ := ofTree?_complete (ht.of_mem_nodes hn)
    rw [hentry n hn, hp]
    rfl
  have hmap := map_some_filterMap hsome
  refine ⟨fun n hn => ?_, ?_⟩
  · have hid : n.id < count := List.mem_range.1 (hids.mem_iff.1 (List.mem_map_of_mem hn))
    have hat := congrArg (fun l => l[n.id]?) hmap
    simp only [List.getElem?_map, List.getElem?_range hid, Option.map_some, hentry n hn] at hat
    obtain ⟨p, hp, hsome⟩ := Option.map_eq_some_iff.1 hat
    exact hp.trans hsome
  · have hlength := congrArg List.length hmap
    rwa [List.length_map, List.length_map, List.length_range] at hlength

section
variable (ht : t.Complete) (hids : (t.nodes.map Tree.id).Perm (List.range count))
include ht hids

omit ht in
theorem id_lt {n : Tree} (hn : n ∈ t.nodes) : n.id < count :=
  List.mem_range.1 (hids.mem_iff.1 (List.mem_map_of_mem hn))

omit ht in
theorem exists_node {id : PartId} (hid : id < count) : ∃ n ∈ t.nodes, n.id = id :=
  List.mem_map.1 (hids.mem_iff.2 (List.mem_range.2 hid))

/-- Every entry of the table is that of a part. -/
theorem exists_entry {p : Part} (hp : p ∈ (Arena.ofTree t count).parts) :
    ∃ n ∈ t.nodes, p.kind.Filled ∧ p.kind.children = n.operands.map Tree.id := by
  obtain ⟨hholds, hsize⟩ := holds_ofTree ht hids
  obtain ⟨id, hid, hget⟩ := List.mem_iff_getElem.1 hp
  obtain ⟨n, hn, hnid⟩ := exists_node hids (lt_of_lt_of_eq hid hsize)
  obtain ⟨p', hp', hfilled, hchildren⟩ := ofTree?_complete (ht.of_mem_nodes hn)
  have hentry : (Arena.ofTree t count).part? id = some p := by
    rw [← hget]
    exact List.getElem?_eq_getElem hid
  rw [← hnid, hholds n hn, hp'] at hentry
  cases hentry
  exact ⟨n, hn, hfilled, hchildren⟩

theorem child_lt {p : Part} (hp : p ∈ (Arena.ofTree t count).parts) {child : PartId}
    (hchild : child ∈ p.kind.children) : child < count := by
  obtain ⟨n, hn, -, hchildren⟩ := exists_entry ht hids hp
  rw [hchildren] at hchild
  obtain ⟨x, hx, rfl⟩ := List.mem_map.1 hchild
  have hcomplete : x.Complete := (ht.of_mem_nodes hn).operands x hx
  have hxn : x ∈ n.nodes := Tree.mem_nodes_of_operand hx (Tree.mem_nodes_self hcomplete.isHole)
  exact id_lt hids (Tree.mem_nodes_trans hn hxn)

/-- The paths through the table are those through the tree: one to every id. -/
theorem reached_ofTree {id : PartId} (hid : id < count) :
    ∃! path, (Arena.ofTree t count).follow? t.id path = some id := by
  obtain ⟨hholds, -⟩ := holds_ofTree ht hids
  obtain ⟨n, hn, rfl⟩ := exists_node hids hid
  obtain ⟨path, hpath⟩ := Tree.exists_path hn
  refine ⟨path, ?_, ?_⟩
  · show Arena.follow? _ _ path = _
    rw [hholds.follow? ht, hpath]
    rfl
  · intro q hq
    rw [hholds.follow? ht] at hq
    obtain ⟨m, hm, hmid⟩ := Option.map_eq_some_iff.1 hq
    exact Tree.path_unique ht (hids.nodup_iff.2 List.nodup_range) hm hpath hmid

/-- A complete tree whose ids are the numbers below a count is exactly what its table holds. -/
theorem isTree_ofTree :
    (Arena.ofTree t count).IsTree t.id ∧ (Arena.ofTree t count).size = count ∧
      (Arena.ofTree t count).tree t.id = t := by
  obtain ⟨hholds, hsize⟩ := holds_ofTree ht hids
  refine ⟨isTree_of_reached ?_ ?_ ?_ ?_, hsize, ?_⟩
  · rw [hsize]
    exact id_lt hids (Tree.mem_nodes_self ht.isHole)
  · intro p hp
    obtain ⟨-, -, hfilled, -⟩ := exists_entry ht hids hp
    exact hfilled
  · intro p hp child hchild
    rw [hsize]
    exact child_lt ht hids hp hchild
  · intro id hid
    exact reached_ofTree ht hids (lt_of_lt_of_eq hid hsize)
  · refine unfold_eq hholds ht ?_
    rw [hsize, ← List.length_map Tree.id, hids.length_eq, List.length_range]

end

end Arena

/-- The table of a parsed expression holds the tree, one entry for every id that was given out, and
nothing else. -/
theorem Expr.isTree_arena {r : Registry} {limits : Limits} {s : TokenStream} {e : Expr}
    (h : parse s r limits = .ok e) :
    e.arena.IsTree e.tree.id ∧ e.arena.size = e.partCount ∧ e.arena.tree e.tree.id = e.tree :=
  Arena.isTree_ofTree (phrase_of_parse h).complete (parse_ids h)

end ExprEngine
