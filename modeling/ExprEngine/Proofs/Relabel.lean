import ExprEngine.Machine
import ExprEngine.Proofs.Tree

/-!
# Trees with other origins

Where the parts of a tree come from decides nothing about the tree but where its errors are
reported. A map of origins keeps its shape and all that is read off the shape.

* `Tree.mapOrigin`     a tree with a map applied to the origins of its parts;
* `Tree.bare`          a tree with its origins forgotten;
* `Tree.unplaced`      a tree with the spans of its parts forgotten;
* `schedule_mapOrigin`, `nodes_mapOrigin`   the parts of such a tree;
* `bare_eq_unary` etc.   what a tree is by what it is without origins.
-/

namespace ExprEngine

/-! ## maps of origins -/

mutual

/-- A tree with a map applied to the origins of its parts. -/
def Tree.mapOrigin (f : Origin → Origin) : Tree → Tree
  | .hole => .hole
  | .constant o v => .constant (f o) v
  | .reference o x => .reference (f o) x
  | .unary o op x => .unary (f o) op (x.mapOrigin f)
  | .binary o op l x => .binary (f o) op (l.mapOrigin f) (x.mapOrigin f)
  | .choice o c y n => .choice (f o) (c.mapOrigin f) (y.mapOrigin f) (n.mapOrigin f)
  | .cast o ty x => .cast (f o) ty (x.mapOrigin f)
  | .group o x => .group (f o) (x.mapOrigin f)
  | .call o g args => .call (f o) g (mapOriginAll f args)

/-- Trees with a map applied to the origins of their parts. -/
def mapOriginAll (f : Origin → Origin) : List Tree → List Tree
  | [] => []
  | t :: ts => t.mapOrigin f :: mapOriginAll f ts

end

/-- A tree with its origins forgotten. -/
def Tree.bare (t : Tree) : Tree := t.mapOrigin fun _ => Tree.nowhere

/-- An origin with its span forgotten. -/
def Origin.unplaced (o : Origin) : Origin := { o with span := .zero }

/-- A tree with the spans of its parts forgotten. -/
def Tree.unplaced (t : Tree) : Tree := t.mapOrigin Origin.unplaced

variable {f g : Origin → Origin}

@[simp] theorem mapOriginAll_eq (ts : List Tree) : mapOriginAll f ts = ts.map (Tree.mapOrigin f) := by
  induction ts with
  | nil => rfl
  | cons t ts ih => exact congrArg (t.mapOrigin f :: ·) ih

namespace Tree

@[simp] theorem mapOrigin_hole : hole.mapOrigin f = hole := rfl

@[simp] theorem mapOrigin_constant (o : Origin) (v : Value) :
    (constant o v).mapOrigin f = constant (f o) v := rfl

@[simp] theorem mapOrigin_reference (o : Origin) (x : VarId) :
    (reference o x).mapOrigin f = reference (f o) x := rfl

@[simp] theorem mapOrigin_unary (o : Origin) (op : UnaryOp) (x : Tree) :
    (unary o op x).mapOrigin f = unary (f o) op (x.mapOrigin f) := rfl

@[simp] theorem mapOrigin_binary (o : Origin) (op : BinaryOp) (l x : Tree) :
    (binary o op l x).mapOrigin f = binary (f o) op (l.mapOrigin f) (x.mapOrigin f) := rfl

@[simp] theorem mapOrigin_choice (o : Origin) (c y n : Tree) :
    (choice o c y n).mapOrigin f =
      choice (f o) (c.mapOrigin f) (y.mapOrigin f) (n.mapOrigin f) := rfl

@[simp] theorem mapOrigin_cast (o : Origin) (ty : ValueType) (x : Tree) :
    (cast o ty x).mapOrigin f = cast (f o) ty (x.mapOrigin f) := rfl

@[simp] theorem mapOrigin_group (o : Origin) (x : Tree) :
    (group o x).mapOrigin f = group (f o) (x.mapOrigin f) := rfl

@[simp] theorem mapOrigin_call (o : Origin) (fn : FuncId) (args : List Tree) :
    (call o fn args).mapOrigin f = call (f o) fn (args.map (mapOrigin f)) :=
  congrArg (call (f o) fn) (mapOriginAll_eq args)

@[simp] theorem isHole_mapOrigin (t : Tree) : (t.mapOrigin f).isHole = t.isHole := by
  cases t <;> simp [isHole]

@[simp] theorem singleVariable?_mapOrigin (t : Tree) :
    (t.mapOrigin f).singleVariable? = t.singleVariable? := by
  cases t <;> simp [singleVariable?]

@[simp] theorem precedence?_mapOrigin (t : Tree) :
    (t.mapOrigin f).precedence? = t.precedence? := by
  cases t <;> simp [precedence?, operator?]

@[simp] theorem operands_mapOrigin (t : Tree) :
    (t.mapOrigin f).operands = t.operands.map (mapOrigin f) := by
  cases t <;> simp [operands]

theorem origin_mapOrigin (hf : f nowhere = nowhere) (t : Tree) :
    (t.mapOrigin f).origin = f t.origin := by
  cases t <;> simp [origin, hf]

/-- Maps of origins one after the other. -/
theorem mapOrigin_mapOrigin (t : Tree) :
    (t.mapOrigin f).mapOrigin g = t.mapOrigin fun o => g (f o) := by
  induction t using operand_induction with
  | part t ih =>
    cases t with
    | call o fn args =>
      simp only [mapOrigin_call, List.map_map]
      exact congrArg _ (List.map_congr_left ih)
    | _ => simp_all [operands]

mutual

/-- The parts of a tree with other origins. -/
theorem nodes_mapOrigin : ∀ t : Tree, (t.mapOrigin f).nodes = t.nodes.map (mapOrigin f)
  | .hole => by simp [nodes]
  | .constant _ _ => by simp [nodes]
  | .reference _ _ => by simp [nodes]
  | .unary _ _ x => by simp [nodes, nodes_mapOrigin x]
  | .binary _ _ l x => by simp [nodes, nodes_mapOrigin l, nodes_mapOrigin x]
  | .choice _ c y n => by
    simp [nodes, nodes_mapOrigin c, nodes_mapOrigin y, nodes_mapOrigin n]
  | .cast _ _ x => by simp [nodes, nodes_mapOrigin x]
  | .group _ x => by simp [nodes, nodes_mapOrigin x]
  | .call _ _ args => by simp [nodes, nodesOfAll_mapOrigin args]

theorem nodesOfAll_mapOrigin : ∀ ts : List Tree,
    nodesOfAll (ts.map (mapOrigin f)) = (nodesOfAll ts).map (mapOrigin f)
  | [] => rfl
  | t :: ts => by
    rw [List.map_cons, nodesOfAll, nodesOfAll, nodes_mapOrigin t, nodesOfAll_mapOrigin ts,
      List.map_append]

end

mutual

/-- The schedule of a tree with other origins. -/
theorem schedule_mapOrigin : ∀ t : Tree, (t.mapOrigin f).schedule = t.schedule.map (mapOrigin f)
  | .hole => by simp [schedule]
  | .constant _ _ => by simp [schedule]
  | .reference _ _ => by simp [schedule]
  | .unary _ _ x => by simp [schedule, schedule_mapOrigin x]
  | .binary _ op l x => by
    simp only [mapOrigin_binary, schedule, schedule_mapOrigin l, schedule_mapOrigin x,
      isHole_mapOrigin]
    split
    · split <;> simp
    · simp
  | .choice _ c y n => by
    simp [schedule, schedule_mapOrigin c, schedule_mapOrigin y, schedule_mapOrigin n]
  | .cast _ _ x => by simp [schedule, schedule_mapOrigin x]
  | .group _ x => by simp [schedule, schedule_mapOrigin x]
  | .call _ _ args => by simp [schedule, scheduleAll_mapOrigin args]

theorem scheduleAll_mapOrigin : ∀ ts : List Tree,
    scheduleAll (ts.map (mapOrigin f)) = (scheduleAll ts).map (mapOrigin f)
  | [] => rfl
  | t :: ts => by
    rw [List.map_cons, scheduleAll, scheduleAll, schedule_mapOrigin t, scheduleAll_mapOrigin ts,
      List.map_append]

end

/-! ## trees that differ in their origins -/

section

variable {t : Tree}

theorem bare_mapOrigin (t : Tree) : (t.mapOrigin f).bare = t.bare := mapOrigin_mapOrigin t

theorem bare_call (o : Origin) (fn : FuncId) (args : List Tree) :
    (call o fn args).bare = call nowhere fn (args.map bare) := mapOrigin_call ..

theorem unnumbered_eq (t : Tree) : t.unnumbered = t.mapOrigin Origin.unnumbered := by
  induction t using operand_induction with
  | part t ih =>
    cases t with
    | call o fn args =>
      have hargs : ∀ ts ⊆ args, unnumberedAll ts = ts.map (mapOrigin Origin.unnumbered) := by
        intro ts hts
        induction ts with
        | nil => rfl
        | cons u us ihu =>
          obtain ⟨hu, hus⟩ := List.cons_subset.1 hts
          rw [unnumberedAll, ih u hu, ihu hus, List.map_cons]
      rw [unnumbered, hargs args (List.Subset.refl _), mapOrigin_call]
    | _ => simp_all [operands, unnumbered]

/-- Trees that differ in the ids of their parts only are alike. -/
theorem bare_of_unnumbered {t t' : Tree} (h : t.unnumbered = t'.unnumbered) : t.bare = t'.bare := by
  rw [unnumbered_eq, unnumbered_eq] at h
  rw [← bare_mapOrigin t, h, bare_mapOrigin]

theorem singleVariable?_congr {t t' : Tree} (h : t.bare = t'.bare) :
    t.singleVariable? = t'.singleVariable? := by
  have hbare := congrArg singleVariable? h
  rwa [bare, bare, singleVariable?_mapOrigin, singleVariable?_mapOrigin] at hbare

/-- Trees alike but for their origins have their parts alike. -/
theorem bare_operands {t t' : Tree} (h : t.bare = t'.bare) :
    t.operands.map bare = t'.operands.map bare := by
  have hoperands := congrArg operands h
  rwa [bare, bare, operands_mapOrigin, operands_mapOrigin] at hoperands

theorem bare_eq_hole (h : hole.bare = t.bare) : t = hole := by
  cases t <;> simp_all [bare]

theorem bare_eq_constant {o : Origin} {v : Value} (h : (constant o v).bare = t.bare) :
    ∃ o', t = constant o' v := by
  cases t <;> simp_all [bare]

theorem bare_eq_reference {o : Origin} {x : VarId} (h : (reference o x).bare = t.bare) :
    ∃ o', t = reference o' x := by
  cases t <;> simp_all [bare]

theorem bare_eq_unary {o : Origin} {op : UnaryOp} {x : Tree} (h : (unary o op x).bare = t.bare) :
    ∃ o' x', t = unary o' op x' ∧ x.bare = x'.bare := by
  cases t <;> simp_all [bare]

theorem bare_eq_binary {o : Origin} {op : BinaryOp} {l x : Tree}
    (h : (binary o op l x).bare = t.bare) :
    ∃ o' l' x', t = binary o' op l' x' ∧ l.bare = l'.bare ∧ x.bare = x'.bare := by
  cases t <;> simp_all [bare]

theorem bare_eq_choice {o : Origin} {c y n : Tree} (h : (choice o c y n).bare = t.bare) :
    ∃ o' c' y' n', t = choice o' c' y' n' ∧ c.bare = c'.bare ∧ y.bare = y'.bare ∧
      n.bare = n'.bare := by
  cases t <;> simp_all [bare]

theorem bare_eq_cast {o : Origin} {ty : ValueType} {x : Tree} (h : (cast o ty x).bare = t.bare) :
    ∃ o' x', t = cast o' ty x' ∧ x.bare = x'.bare := by
  cases t <;> simp_all [bare]

theorem bare_eq_group {o : Origin} {x : Tree} (h : (group o x).bare = t.bare) :
    ∃ o' x', t = group o' x' ∧ x.bare = x'.bare := by
  cases t <;> simp_all [bare]

theorem bare_eq_call {o : Origin} {fn : FuncId} {args : List Tree}
    (h : (call o fn args).bare = t.bare) :
    ∃ o' args', t = call o' fn args' ∧ args.map bare = args'.map bare := by
  have hoperands := bare_operands h
  cases t <;> simp_all [bare, operands]

end

end Tree
end ExprEngine
