import ExprEngine.Proofs.Grammar
import Mathlib.Data.List.Nodup

/-!
# Trees without holes

A path downward names an operand position at every step. In a tree whose parts have ids of their
own there is one path to every part.

* `Tree.operand_induction`  induction from the operands to the part;
* `Tree.evaluated`          the operands that are evaluated;
* `Tree.Complete`           a tree in which no operand is missing;
* `Phrase.complete`         whatever is written down is complete;
* `Phrase.parts`            every part of it is written in a piece of the lexemes, or filled in;
* `Tree.at?`                the part at the end of a path;
* `Tree.path_unique`        ids of their own leave one path to a part.
-/

namespace ExprEngine

namespace Tree

/-! ## operands -/

theorem sizeOf_operand {t x : Tree} (h : x ∈ t.operands) : sizeOf x < sizeOf t := by
  cases t with
  | hole => cases h
  | constant => cases h
  | reference => cases h
  | call o f args =>
    have hx : sizeOf x < sizeOf args := List.sizeOf_lt_of_mem h
    simp only [call.sizeOf_spec]
    omega
  | _ =>
    simp only [operands, List.mem_cons, List.not_mem_nil, or_false] at h
    rcases h with rfl | rfl | rfl <;> simp <;> omega

/-- What holds of a part when it holds of its operands holds of every tree. -/
theorem operand_induction {P : Tree → Prop} (part : ∀ t, (∀ x ∈ t.operands, P x) → P t)
    (t : Tree) : P t :=
  part t fun x hx =>
    have := sizeOf_operand hx
    operand_induction part x
termination_by sizeOf t

/-- The operands that are evaluated: all but the target of an assignment. -/
def evaluated : Tree → List Tree
  | binary _ op l x => if op.isAssignment then [x] else [l, x]
  | t => t.operands

theorem evaluated_sublist (t : Tree) : t.evaluated.Sublist t.operands := by
  cases t with
  | binary o op l x =>
    rw [evaluated]
    split
    · exact List.sublist_cons_self l [x]
    · exact List.Sublist.refl _
  | _ => exact List.Sublist.refl _

theorem nodes_eq_cons {t : Tree} (h : t.isHole = false) :
    t.nodes = t :: nodesOfAll t.operands := by
  cases t with
  | hole => cases h
  | _ => simp [nodes, nodesOfAll, operands]

theorem nodesOfAll_append (ts us : List Tree) :
    nodesOfAll (ts ++ us) = nodesOfAll ts ++ nodesOfAll us := by
  induction ts with
  | nil => rfl
  | cons t ts ih => rw [List.cons_append, nodesOfAll, nodesOfAll, ih, List.append_assoc]

theorem length_nodes_le {x : Tree} {ts : List Tree} (h : x ∈ ts) :
    x.nodes.length ≤ (nodesOfAll ts).length := by
  obtain ⟨us, vs, rfl⟩ := List.append_of_mem h
  rw [nodesOfAll_append, nodesOfAll, List.length_append, List.length_append]
  omega

theorem mem_nodes_iff {t n : Tree} :
    n ∈ t.nodes ↔ (n = t ∧ t.isHole = false) ∨ ∃ x ∈ t.operands, n ∈ x.nodes := by
  cases t with
  | hole => simp [nodes, operands, isHole]
  | _ =>
    rw [nodes_eq_cons rfl, List.mem_cons, mem_nodesOfAll]
    simp [isHole]

theorem mem_nodes_self {t : Tree} (h : t.isHole = false) : t ∈ t.nodes :=
  mem_nodes_iff.2 (.inl ⟨rfl, h⟩)

theorem mem_nodes_of_operand {t x n : Tree} (hx : x ∈ t.operands) (hn : n ∈ x.nodes) :
    n ∈ t.nodes :=
  mem_nodes_iff.2 (.inr ⟨x, hx, hn⟩)

theorem mem_nodes_trans {t n m : Tree} (hn : n ∈ t.nodes) (hm : m ∈ n.nodes) : m ∈ t.nodes := by
  induction t using operand_induction with
  | part t ih =>
    rcases mem_nodes_iff.1 hn with ⟨rfl, -⟩ | ⟨x, hx, hn⟩
    · exact hm
    · exact mem_nodes_of_operand hx (ih x hx hn)

end Tree

/-! ## complete trees -/

mutual

/-- A tree in which no operand is missing. -/
def Tree.Complete : Tree → Prop
  | .hole => False
  | .constant _ _ => True
  | .reference _ _ => True
  | .unary _ _ x => x.Complete
  | .binary _ _ l x => l.Complete ∧ x.Complete
  | .choice _ c y n => c.Complete ∧ y.Complete ∧ n.Complete
  | .cast _ _ x => x.Complete
  | .group _ x => x.Complete
  | .call _ _ args => CompleteAll args

def CompleteAll : List Tree → Prop
  | [] => True
  | t :: ts => t.Complete ∧ CompleteAll ts

end

theorem completeAll_iff {ts : List Tree} : CompleteAll ts ↔ ∀ t ∈ ts, t.Complete := by
  induction ts with
  | nil => simp [CompleteAll]
  | cons t ts ih => simp [CompleteAll, ih]

namespace Tree

variable {t n x : Tree}

theorem Complete.isHole (h : t.Complete) : t.isHole = false := by
  cases t with
  | hole => exact h.elim
  | _ => rfl

theorem Complete.operands (h : t.Complete) : ∀ x ∈ t.operands, x.Complete := by
  cases t with
  | hole => exact h.elim
  | binary => simpa [Tree.operands, Tree.Complete] using h
  | choice => simpa [Tree.operands, Tree.Complete] using h
  | call => exact completeAll_iff.1 h
  | constant => nofun
  | reference => nofun
  | _ => exact List.forall_mem_singleton.2 h

theorem Complete.of_mem_nodes (h : t.Complete) (hn : n ∈ t.nodes) : n.Complete := by
  induction t using operand_induction with
  | part t ih =>
    rcases mem_nodes_iff.1 hn with ⟨rfl, -⟩ | ⟨x, hx, hn⟩
    · exact h
    · exact ih x hx (h.operands x hx) hn

end Tree

variable {r : Registry}

theorem Fills.complete {close : Lexeme} {vs : List Value} {ts : List Tree}
    (h : Fills close vs ts) : CompleteAll ts := by
  induction h with
  | nil => trivial
  | cons hfirst _ ih =>
    obtain ⟨id, rfl⟩ := hfirst
    exact ⟨trivial, ih⟩

mutual

/-- A tree that is written down has all its operands. -/
theorem Phrase.complete : ∀ {t : Tree} {ls : List Lexeme}, Phrase r t ls → t.Complete
  | _, _, .number _ _ => trivial
  | _, _, .string _ => trivial
  | _, _, .boolean _ _ => trivial
  | _, _, .reference _ _ => trivial
  | _, _, .unary _ operand => operand.complete
  | _, _, .binary _ left right => ⟨left.complete, right.complete⟩
  | _, _, .choice _ _ condition yes no => ⟨condition.complete, yes.complete, no.complete⟩
  | _, _, .cast _ _ _ _ _ operand => operand.complete
  | _, _, .group _ _ _ inner => inner.complete
  | _, _, .call _ _ _ _ _ args defaults => by
    have hwritten := completeAll_iff.1 args.complete
    have hfilled := completeAll_iff.1 defaults.complete
    exact completeAll_iff.2 (List.forall_mem_append.2 ⟨hwritten, hfilled⟩)

theorem PhraseList.complete : ∀ {ts : List Tree} {ls : List Lexeme},
    PhraseList r ts ls → CompleteAll ts
  | _, _, .nil => trivial
  | _, _, .one only => ⟨only.complete, trivial⟩
  | _, _, .cons first _ rest => ⟨first.complete, rest.complete⟩

end

/-! ## where parts are written -/

/-- A default, placed at the closing parenthesis of its call. -/
def Tree.FilledIn (ls : List Lexeme) (t : Tree) : Prop :=
  ∃ close ∈ ls, close.Closes ∧ ∃ id v, t = .constant ⟨id, close.index, close.span⟩ v

/-- A part that is written in a piece of some lexemes, or filled in at one of them. -/
def Tree.WrittenIn (r : Registry) (ls : List Lexeme) (t : Tree) : Prop :=
  (∃ ms, ms <:+: ls ∧ Phrase r t ms) ∨ t.FilledIn ls

theorem Tree.WrittenIn.mono {t : Tree} {ms ls : List Lexeme} (hms : ms <:+: ls)
    (h : t.WrittenIn r ms) : t.WrittenIn r ls := by
  rcases h with ⟨ms', hms', ht⟩ | ⟨close, hclose, ht⟩
  · exact .inl ⟨ms', hms'.trans hms, ht⟩
  · exact .inr ⟨close, hms.subset hclose, ht⟩

theorem Fills.constants {close : Lexeme} {vs : List Value} {ts : List Tree}
    (h : Fills close vs ts) :
    ∀ t ∈ ts, ∃ id v, t = Tree.constant ⟨id, close.index, close.span⟩ v := by
  induction h with
  | nil => exact nofun
  | cons hfirst _ ih =>
    obtain ⟨id, rfl⟩ := hfirst
    exact List.forall_mem_cons.2 ⟨⟨id, _, rfl⟩, ih⟩

theorem PhraseList.members : ∀ {ts : List Tree} {ls : List Lexeme}, PhraseList r ts ls →
    ∀ t ∈ ts, ∃ ms, ms <:+: ls ∧ Phrase r t ms
  | _, _, .nil => nofun
  | _, _, .one only => List.forall_mem_singleton.2 ⟨_, List.infix_rfl, only⟩
  | _, _, @PhraseList.cons _ _ _ _ comma ls _ first _ rest => by
    refine List.forall_mem_cons.2 ⟨⟨ls, (List.prefix_append ..).isInfix, first⟩, fun t ht => ?_⟩
    obtain ⟨ms, hms, hphrase⟩ := rest.members t ht
    exact ⟨ms, hms.trans ⟨ls ++ [comma], [], by simp⟩, hphrase⟩

/-- An operand of a phrase is written in a piece of its lexemes, or filled in. -/
theorem Phrase.operands {t : Tree} {ls : List Lexeme} (h : Phrase r t ls) :
    ∀ x ∈ t.operands, x.WrittenIn r ls := by
  cases h with
  | unary _ operand =>
    exact List.forall_mem_singleton.2 (.inl ⟨_, (List.suffix_cons ..).isInfix, operand⟩)
  | @cast _ opening name close _ _ _ _ _ _ _ _ operand =>
    exact List.forall_mem_singleton.2
      (.inl ⟨_, (List.suffix_append [opening, name, close] _).isInfix, operand⟩)
  | @group _ opening close _ _ _ _ _ inner =>
    exact List.forall_mem_singleton.2 (.inl ⟨_, ⟨[opening], [close], by simp⟩, inner⟩)
  | @binary _ l _ _ _ as _ _ left right =>
    exact List.forall_mem_cons.2 ⟨.inl ⟨as, (List.prefix_append ..).isInfix, left⟩,
      List.forall_mem_singleton.2 (.inl ⟨_, ⟨as ++ [l], [], by simp⟩, right⟩)⟩
  | @choice _ l colon _ _ _ cs ys ns _ _ condition yes no =>
    refine List.forall_mem_cons.2 ⟨.inl ⟨cs, (List.prefix_append ..).isInfix, condition⟩, ?_⟩
    exact List.forall_mem_cons.2 ⟨.inl ⟨ys, ⟨cs ++ [l], colon :: ns, by simp⟩, yes⟩,
      List.forall_mem_singleton.2 (.inl ⟨ns, ⟨cs ++ l :: (ys ++ [colon]), [], by simp⟩, no⟩)⟩
  | @call _ name opening close _ _ _ _ _ _ closes _ _ args defaults =>
    refine List.forall_mem_append.2 ⟨fun x hx => .inl ?_, fun x hx => .inr ?_⟩
    · obtain ⟨ms, hms, hphrase⟩ := args.members x hx
      exact ⟨ms, hms.trans ⟨[name, opening], [close], by simp⟩, hphrase⟩
    · exact ⟨close, by simp, closes, defaults.constants x hx⟩
  | _ => exact nofun

/-- Every part of a phrase is written in a piece of its lexemes, or filled in. -/
theorem Phrase.parts {t : Tree} {ls : List Lexeme} (h : Phrase r t ls) :
    ∀ n ∈ t.nodes, n.WrittenIn r ls := by
  induction t using Tree.operand_induction generalizing ls with
  | part t ih =>
    intro n hn
    rcases Tree.mem_nodes_iff.1 hn with ⟨rfl, -⟩ | ⟨x, hx, hn⟩
    · exact .inl ⟨ls, List.infix_rfl, h⟩
    rcases h.operands x hx with ⟨ms, hms, hphrase⟩ | hfilled
    · exact (ih x hx hphrase n hn).mono hms
    · -- a default has no operands of its own
      obtain ⟨close, hclose, hmark, id, v, rfl⟩ := hfilled
      rw [List.mem_singleton.1 hn]
      exact .inr ⟨close, hclose, hmark, id, v, rfl⟩

/-! ## paths -/

namespace Tree

variable {t n m : Tree}

/-- The part at the end of a path, which gives the operand position at every step. -/
def at? (t : Tree) : List Nat → Option Tree
  | [] => some t
  | i :: path => t.operands[i]?.bind fun x => x.at? path

theorem at?_cons {i : Nat} {path : List Nat} :
    t.at? (i :: path) = some n ↔ ∃ x, t.operands[i]? = some x ∧ x.at? path = some n :=
  Option.bind_eq_some_iff

theorem exists_path (h : n ∈ t.nodes) : ∃ path, t.at? path = some n := by
  induction t using operand_induction with
  | part t ih =>
    rcases mem_nodes_iff.1 h with ⟨rfl, -⟩ | ⟨x, hx, hn⟩
    · exact ⟨[], rfl⟩
    · obtain ⟨path, hpath⟩ := ih x hx hn
      obtain ⟨i, hi⟩ := List.mem_iff_getElem?.1 hx
      exact ⟨i :: path, at?_cons.2 ⟨x, hi, hpath⟩⟩

theorem Complete.at? (h : t.Complete) {path : List Nat} (hn : t.at? path = some n) :
    n ∈ t.nodes := by
  induction path generalizing t with
  | nil =>
    cases hn
    exact mem_nodes_self h.isHole
  | cons i path ih =>
    obtain ⟨x, hx, hn⟩ := at?_cons.1 hn
    have hmem := List.mem_of_getElem? hx
    exact mem_nodes_of_operand hmem (ih (h.operands x hmem) hn)

/-- Every part below the topmost one has another id, and parts below different operands have
different ids. -/
theorem nodup_operands (hole : t.isHole = false) (h : (t.nodes.map Tree.id).Nodup) :
    (∀ x ∈ t.operands, (x.nodes.map Tree.id).Nodup ∧ t.id ∉ x.nodes.map Tree.id) ∧
      t.operands.Pairwise fun x y => (x.nodes.map Tree.id).Disjoint (y.nodes.map Tree.id) := by
  have hflat : ∀ ts : List Tree,
      (nodesOfAll ts).map Tree.id = ts.flatMap fun x => x.nodes.map Tree.id := by
    intro ts
    induction ts with
    | nil => rfl
    | cons t ts ih => rw [nodesOfAll, List.map_append, ih, List.flatMap_cons]
  rw [nodes_eq_cons hole, List.map_cons, hflat, List.nodup_cons, List.nodup_flatMap] at h
  obtain ⟨hroot, hbelow, hapart⟩ := h
  refine ⟨fun x hx => ⟨hbelow x hx, fun hid => ?_⟩, hapart⟩
  exact hroot (List.mem_flatMap.2 ⟨x, hx, hid⟩)

/-- Where ids differ, two paths to one id are the same. -/
theorem path_unique (h : t.Complete) (hd : (t.nodes.map Tree.id).Nodup) {p q : List Nat}
    (hp : t.at? p = some n) (hq : t.at? q = some m) (hid : n.id = m.id) : p = q := by
  induction p generalizing t q with
  | nil =>
    cases hp
    cases q with
    | nil => rfl
    | cons j q =>
      -- the second path ends below the root, where no part has its id
      obtain ⟨y, hy, hq⟩ := at?_cons.1 hq
      have hmem := List.mem_of_getElem? hy
      have hm := (h.operands y hmem).at? hq
      obtain ⟨-, hroot⟩ := (nodup_operands h.isHole hd).1 y hmem
      exact absurd (hid ▸ List.mem_map_of_mem hm) hroot
  | cons i p ih =>
    obtain ⟨x, hx, hp⟩ := at?_cons.1 hp
    have hxmem := List.mem_of_getElem? hx
    have hn := (h.operands x hxmem).at? hp
    obtain ⟨hbelow, hapart⟩ := nodup_operands h.isHole hd
    cases q with
    | nil =>
      cases hq
      exact absurd (hid ▸ List.mem_map_of_mem hn) (hbelow x hxmem).2
    | cons j q =>
      obtain ⟨y, hy, hq⟩ := at?_cons.1 hq
      have hymem := List.mem_of_getElem? hy
      have hm := (h.operands y hymem).at? hq
      have hni : n.id ∈ x.nodes.map Tree.id := List.mem_map_of_mem hn
      have hmi : n.id ∈ y.nodes.map Tree.id := hid ▸ List.mem_map_of_mem hm
      have hij : i = j := by
        obtain ⟨hi, rfl⟩ := List.getElem?_eq_some_iff.1 hx
        obtain ⟨hj, rfl⟩ := List.getElem?_eq_some_iff.1 hy
        have hpair := List.pairwise_iff_getElem.1 hapart
        rcases Nat.lt_trichotomy i j with hlt | heq | hlt
        · exact absurd hmi (hpair i j hi hj hlt hni)
        · exact heq
        · exact absurd hni (hpair j i hj hi hlt hmi)
      subst hij
      rw [hx] at hy
      cases hy
      rw [ih (h.operands x hxmem) (hbelow x hxmem).1 hp hq]

end Tree
end ExprEngine
