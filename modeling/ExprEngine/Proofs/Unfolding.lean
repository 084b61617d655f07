import ExprEngine.Proofs.Arena
import ExprEngine.Proofs.Typing.Judgement

/-!
# Tables read as trees

Any table can be read from any id, whether or not it is a tree. A part below several others is read
several times, always as the same tree. What has no operand to read leaves a hole.

* `Part.read`                a part over the trees of its children;
* `Arena.unfold_stable`      a tree without holes does not grow when it is read deeper;
* `Arena.numbered_tree`      in such a tree an id stands for one part;
* `Arena.exists_entry_of_mem` every part of it is an entry at the end of a path;
* `Arena.unfold_of_acyclic`  where no path comes back, a table is read to the bottom.
-/

namespace ExprEngine

/-- The child of a slot as a tree, a hole where there is none. -/
def Slot.read (s : Option Slot) (f : PartId → Tree) : Tree :=
  ((s.bind Slot.child).map f).getD .hole

/-- A part over the trees of its children. -/
def Part.read (p : Part) (id : PartId) (f : PartId → Tree) : Tree :=
  let o : Origin := ⟨id, p.token, p.span⟩
  match p.kind with
  | .constant v => .constant o v
  | .reference x => .reference o x
  | .operator (.unary op) slots => .unary o op (Slot.read slots[0]? f)
  | .operator (.binary op) slots => .binary o op (Slot.read slots[0]? f) (Slot.read slots[1]? f)
  | .operator .choice slots =>
    .choice o (Slot.read slots[0]? f) (Slot.read slots[1]? f) (Slot.read slots[2]? f)
  | .call g args => .call o g (args.map f)
  | .group child => .group o (f child)
  | .cast target slot => .cast o target (Slot.read (some slot) f)

section
variable {p : Part} {id child : PartId} {f g : PartId → Tree} {s : Option Slot} {x : Tree}

theorem Slot.read_some (h : s.bind Slot.child = some child) : Slot.read s f = f child := by
  unfold Slot.read
  rw [h]
  rfl

theorem Slot.read_congr (h : ∀ child, s.bind Slot.child = some child → f child = g child) :
    Slot.read s f = Slot.read s g := by
  unfold Slot.read
  cases hs : s.bind Slot.child with
  | none => rfl
  | some child => exact h child hs

theorem Slot.read_cases (s : Option Slot) (f : PartId → Tree) :
    Slot.read s f = .hole ∨ ∃ child, s.bind Slot.child = some child ∧ Slot.read s f = f child := by
  cases hs : s.bind Slot.child with
  | none =>
    left
    unfold Slot.read
    rw [hs]
    rfl
  | some child => exact .inr ⟨child, rfl, Slot.read_some hs⟩

theorem mem_children_of_slot {op : Operator} {slots : List Slot} {i : Nat}
    (h : slots[i]?.bind Slot.child = some child) :
    child ∈ (PartKind.operator op slots).children := by
  obtain ⟨slot, hslot, hchild⟩ := Option.bind_eq_some_iff.1 h
  exact List.mem_filterMap.2 ⟨slot, List.mem_of_getElem? hslot, hchild⟩

theorem Part.read_top (p : Part) (id : PartId) (f : PartId → Tree) :
    (p.read id f).id = id ∧ (p.read id f).isHole = false := by
  unfold Part.read
  split <;> exact ⟨rfl, rfl⟩

/-- The operands of a part are the trees of children, and holes. -/
theorem Part.read_operands (h : x ∈ (p.read id f).operands) :
    x = .hole ∨ ∃ child ∈ p.kind.children, x = f child := by
  have hslot : ∀ {op : Operator} {slots : List Slot} (i : Nat),
      Slot.read slots[i]? f = .hole ∨
        ∃ child ∈ (PartKind.operator op slots).children, Slot.read slots[i]? f = f child := by
    intro op slots i
    rcases Slot.read_cases slots[i]? f with hhole | ⟨child, hchild, hread⟩
    · exact .inl hhole
    · exact .inr ⟨child, mem_children_of_slot hchild, hread⟩
  obtain ⟨kind, token, span⟩ := p
  cases kind with
  | constant => cases h
  | reference => cases h
  | group child => exact .inr ⟨child, List.mem_singleton_self _, List.mem_singleton.1 h⟩
  | call g args =>
    obtain ⟨child, hchild, rfl⟩ := List.mem_map.1 h
    exact .inr ⟨child, hchild, rfl⟩
  | cast target slot =>
    obtain rfl := List.mem_singleton.1 h
    rcases Slot.read_cases (some slot) f with hhole | ⟨child, hchild, hread⟩
    · exact .inl hhole
    · exact .inr ⟨child, Option.mem_toList.2 hchild, hread⟩
  | operator op slots =>
    cases op with
    | unary op =>
      obtain rfl := List.mem_singleton.1 h
      exact hslot 0
    | binary op =>
      simp only [Part.read, Tree.operands, List.mem_cons, List.not_mem_nil, or_false] at h
      rcases h with rfl | rfl
      · exact hslot 0
      · exact hslot 1
    | choice =>
      simp only [Part.read, Tree.operands, List.mem_cons, List.not_mem_nil, or_false] at h
      rcases h with rfl | rfl | rfl
      · exact hslot 0
      · exact hslot 1
      · exact hslot 2

/-- Only the children that become operands matter. -/
theorem Part.read_congr
    (h : ∀ child ∈ p.kind.children, f child ∈ (p.read id f).operands → f child = g child) :
    p.read id f = p.read id g := by
  obtain ⟨kind, token, span⟩ := p
  cases kind with
  | constant => rfl
  | reference => rfl
  | group child =>
    have hchild := h child (List.mem_singleton_self _) (List.mem_singleton_self _)
    exact congrArg (Tree.group _) hchild
  | call c args =>
    have hargs : args.map f = args.map g :=
      List.map_congr_left fun child hchild => h child hchild (List.mem_map_of_mem hchild)
    exact congrArg (Tree.call _ c) hargs
  | cast target slot =>
    have hslot : Slot.read (some slot) f = Slot.read (some slot) g :=
      Slot.read_congr fun child hchild => h child (Option.mem_toList.2 hchild)
        (List.mem_singleton.2 (Slot.read_some hchild).symm)
    exact congrArg (Tree.cast _ target) hslot
  | operator op slots =>
    have hslot : ∀ i : Nat, Slot.read slots[i]? f ∈
        (Part.read ⟨.operator op slots, token, span⟩ id f).operands →
          Slot.read slots[i]? f = Slot.read slots[i]? g := by
      intro i hi
      refine Slot.read_congr fun child hchild => h child (mem_children_of_slot hchild) ?_
      rwa [Slot.read_some hchild] at hi
    cases op with
    | unary op =>
      have hx := hslot 0 (by simp [Part.read, Tree.operands])
      exact congrArg (Tree.unary _ op) hx
    | binary op =>
      have hl := hslot 0 (by simp [Part.read, Tree.operands])
      have hx := hslot 1 (by simp [Part.read, Tree.operands])
      exact congrArg₂ (Tree.binary _ op) hl hx
    | choice =>
      have hc := hslot 0 (by simp [Part.read, Tree.operands])
      have hy := hslot 1 (by simp [Part.read, Tree.operands])
      have hn := hslot 2 (by simp [Part.read, Tree.operands])
      show Tree.choice _ _ _ _ = Tree.choice _ _ _ _
      rw [hc, hy, hn]

end

namespace Arena

variable {a : Arena} {id root : PartId} {p : Part} {d d' : Nat}

theorem unfold_some (h : a.part? id = some p) (d : Nat) :
    a.unfold (d + 1) id = p.read id (a.unfold d) :=
  unfold_of_part h d

theorem unfold_none (h : a.part? id = none) (d : Nat) : a.unfold d id = .hole := by
  cases d with
  | zero => rfl
  | succ d =>
    rw [unfold]
    revert h
    generalize a.part? id = entry
    rintro rfl
    rfl

/-- A tree that is not a hole is read from an entry. -/
theorem exists_part (h : (a.unfold d id).isHole = false) :
    ∃ d' p, d = d' + 1 ∧ a.part? id = some p ∧ a.unfold d id = p.read id (a.unfold d') := by
  cases d with
  | zero => cases h
  | succ d =>
    cases hp : a.part? id with
    | none =>
      rw [unfold_none hp] at h
      cases h
    | some p => exact ⟨d, p, rfl, rfl, unfold_some hp d⟩

/-- A tree without holes does not grow when it is read deeper. -/
theorem unfold_stable (h : (a.unfold d id).Complete) (hd : d ≤ d') :
    a.unfold d' id = a.unfold d id := by
  induction d generalizing id d' with
  | zero => exact h.elim
  | succ d ih =>
    obtain ⟨_, p, hsucc, hp, -⟩ := exists_part h.isHole
    obtain ⟨d', rfl⟩ : ∃ k, d' = k + 1 := ⟨d' - 1, by omega⟩
    rw [unfold_some hp] at h ⊢
    rw [unfold_some hp]
    refine (Part.read_congr fun child _ hoperand => ?_).symm
    exact (ih (h.operands _ hoperand) (by omega)).symm

/-! ## parts and entries -/

theorem childrenOf_part (h : a.part? id = some p) : a.childrenOf id = p.kind.children := by
  unfold childrenOf
  rw [h]
  rfl

/-- Every part below an id is read from the entry that it is named after, at the end of a path. -/
theorem exists_entry_of_mem {n : Tree} (hn : n ∈ (a.unfold d id).nodes) :
    ∃ path d' p, a.follow? id path = some n.id ∧ a.part? n.id = some p ∧
      n = a.unfold (d' + 1) n.id := by
  induction d generalizing id with
  | zero => cases hn
  | succ d ih =>
    rcases Tree.mem_nodes_iff.1 hn with ⟨rfl, hhole⟩ | ⟨x, hx, hn⟩
    · obtain ⟨_, p, -, hp, hread⟩ := exists_part hhole
      have hid : (a.unfold (d + 1) id).id = id := by
        rw [hread]
        exact (p.read_top id _).1
      rw [hid]
      exact ⟨[], d, p, rfl, hp, rfl⟩
    · cases hp : a.part? id with
      | none =>
        rw [unfold_none hp] at hx
        cases hx
      | some p =>
        rw [unfold_some hp] at hx
        rcases Part.read_operands hx with rfl | ⟨child, hchild, rfl⟩
        · cases hn
        · obtain ⟨path, d', q, hpath, hq, heq⟩ := ih hn
          obtain ⟨i, hi⟩ := List.mem_iff_getElem?.1 hchild
          rw [← childrenOf_part hp] at hi
          exact ⟨i :: path, d', q, follow?_cons.2 ⟨child, hi, hpath⟩, hq, heq⟩

/-- In a table read without holes an id stands for one part. -/
theorem numbered_tree (h : (a.tree root).Complete) : (a.tree root).Numbered a.size where
  inside n hn := by
    obtain ⟨-, -, p, -, hp, -⟩ := exists_entry_of_mem hn
    exact (List.getElem?_eq_some_iff.1 hp).1
  same n hn m hm hid := by
    obtain ⟨-, d, -, -, -, hreadn⟩ := exists_entry_of_mem hn
    obtain ⟨-, d', -, -, -, hreadm⟩ := exists_entry_of_mem hm
    rw [← hid] at hreadm
    have hcn : (a.unfold (d + 1) n.id).Complete := by
      rw [← hreadn]
      exact h.of_mem_nodes hn
    have hcm : (a.unfold (d' + 1) n.id).Complete := by
      rw [← hreadm]
      exact h.of_mem_nodes hm
    rw [hreadn, hreadm]
    rcases Nat.le_total d d' with hle | hle
    · exact (unfold_stable hcn (Nat.succ_le_succ hle)).symm
    · exact unfold_stable hcm (Nat.succ_le_succ hle)

/-! ## tables without cycles -/

/-- No part below a root is below itself. -/
def Acyclic (a : Arena) (root : PartId) : Prop :=
  ∀ id path cycle, a.follow? root path = some id → a.follow? id cycle = some id → cycle = []

/-- Parts from which a path leads down to an id, each of them once. -/
structure Above (a : Arena) (id : PartId) (seen : List PartId) : Prop where
  nodup : seen.Nodup
  leads : ∀ x ∈ seen, x < a.size ∧ ∃ i path, a.follow? x (i :: path) = some id

section
variable {seen : List PartId} {path : List Nat} {child : PartId}

theorem Above.not_mem (h : a.Above id seen) (acyclic : a.Acyclic root)
    (hpath : a.follow? root path = some id) : id ∉ seen := by
  intro hmem
  obtain ⟨-, i, cycle, hcycle⟩ := h.leads id hmem
  cases acyclic id path (i :: cycle) hpath hcycle

theorem Above.length_lt (h : a.Above id seen) (acyclic : a.Acyclic root)
    (hpath : a.follow? root path = some id) (hid : id < a.size) : seen.length < a.size := by
  have hnodup : (id :: seen).Nodup := List.nodup_cons.2 ⟨h.not_mem acyclic hpath, h.nodup⟩
  have hsub : id :: seen ⊆ List.range a.size :=
    List.cons_subset.2 ⟨List.mem_range.2 hid, fun x hx => List.mem_range.2 (h.leads x hx).1⟩
  have hle := (hnodup.subperm hsub).length_le
  rwa [List.length_range] at hle

theorem Above.below (h : a.Above id seen) (acyclic : a.Acyclic root)
    (hpath : a.follow? root path = some id) (hid : id < a.size)
    {i : Nat} (hchild : (a.childrenOf id)[i]? = some child) : a.Above child (id :: seen) where
  nodup := List.nodup_cons.2 ⟨h.not_mem acyclic hpath, h.nodup⟩
  leads x hx := by
    have hstep : a.follow? id [i] = some child := follow?_cons.2 ⟨child, hchild, rfl⟩
    rcases List.mem_cons.1 hx with rfl | hx
    · exact ⟨hid, i, [], hstep⟩
    · obtain ⟨hlt, j, path, hpath⟩ := h.leads x hx
      exact ⟨hlt, j, path ++ [i], follow?_append hpath hstep⟩

/-- The parts above and the depth left make up the table: were the depth used up at a part, the
part would be one of those above it. -/
theorem unfold_of_above (acyclic : a.Acyclic root) {k : Nat} (h : a.Above id seen)
    (hpath : a.follow? root path = some id) (hk : a.size ≤ seen.length + k) (hd : k ≤ d) :
    a.unfold d id = a.unfold k id := by
  induction k generalizing id seen path d with
  | zero =>
    cases hp : a.part? id with
    | none => rw [unfold_none hp, unfold_none hp]
    | some p =>
      have hlt := h.length_lt acyclic hpath (List.getElem?_eq_some_iff.1 hp).1
      omega
  | succ k ih =>
    cases hp : a.part? id with
    | none => rw [unfold_none hp, unfold_none hp]
    | some p =>
      have hid : id < a.size := (List.getElem?_eq_some_iff.1 hp).1
      obtain ⟨d, rfl⟩ : ∃ n, d = n + 1 := ⟨d - 1, by omega⟩
      rw [unfold_some hp, unfold_some hp]
      refine Part.read_congr fun child hchild _ => ?_
      rw [← childrenOf_part hp] at hchild
      obtain ⟨i, hi⟩ := List.mem_iff_getElem?.1 hchild
      have hbelow : a.follow? root (path ++ [i]) = some child :=
        follow?_append hpath (follow?_cons.2 ⟨child, hi, rfl⟩)
      refine ih (h.below acyclic hpath hid hi) hbelow ?_ (by omega)
      rw [List.length_cons]
      omega

end

/-- A table without cycles is read to the bottom: reading it deeper finds nothing more. -/
theorem unfold_of_acyclic (acyclic : a.Acyclic root) (hd : a.size ≤ d) :
    a.unfold d root = a.tree root := by
  have hroot : a.follow? root [] = some root := rfl
  have habove : a.Above root [] := ⟨List.nodup_nil, nofun⟩
  exact unfold_of_above acyclic habove hroot (Nat.le_add_left ..) hd

end Arena
end ExprEngine
