import ExprEngine.Proofs.Parse.ReadBack
import Mathlib.Algebra.BigOperators.Group.Multiset.Basic
import Mathlib.Data.Multiset.Range
import Mathlib.Tactic.Abel

/-!
# Every part has an id of its own

The ids of all parts that the open brackets hold are the numbers given out so far, each once. The
operands move between entries, but no move copies or drops one.

* `Tree.ids`, `OperandStack.ids`, `Level.ids`   the ids of all parts, with their multiplicity;
* `Effect.ids`, `Move.ids`                      a move adds the ids that it gives out;
* `parse_ids`                                   the ids of a parsed tree.
-/

namespace ExprEngine

/-! ## ids with their multiplicity -/

/-- The ids of the parts of a tree. -/
def Tree.ids (t : Tree) : Multiset PartId := t.nodes.map Tree.id

/-- The ids of the parts of some trees. -/
def idsOfAll (ts : List Tree) : Multiset PartId := (ts.map Tree.ids).sum

/-- The ids of the parts on a stack. -/
def OperandStack.ids (s : OperandStack) : Multiset PartId := idsOfAll (s.map Entry.tree)

/-- The ids of the parts that a level holds. -/
def Level.ids (l : Level) : Multiset PartId := l.operands.ids + idsOfAll l.args

namespace Tree

@[simp] theorem ids_hole : hole.ids = 0 := rfl

@[simp] theorem ids_constant (o : Origin) (v : Value) : (constant o v).ids = {o.id} := rfl

@[simp] theorem ids_unary (o : Origin) (op : UnaryOp) (x : Tree) :
    (unary o op x).ids = {o.id} + x.ids := rfl

@[simp] theorem ids_cast (o : Origin) (ty : ValueType) (x : Tree) :
    (cast o ty x).ids = {o.id} + x.ids := rfl

@[simp] theorem ids_group (o : Origin) (x : Tree) : (group o x).ids = {o.id} + x.ids := rfl

@[simp] theorem ids_binary (o : Origin) (op : BinaryOp) (l x : Tree) :
    (binary o op l x).ids = {o.id} + l.ids + x.ids := by
  simp [ids, nodes, id, origin, Multiset.singleton_add]

@[simp] theorem ids_choice (o : Origin) (c y n : Tree) :
    (choice o c y n).ids = {o.id} + c.ids + y.ids + n.ids := by
  simp [ids, nodes, id, origin, Multiset.singleton_add]

end Tree

@[simp] theorem idsOfAll_nil : idsOfAll [] = 0 := rfl

@[simp] theorem idsOfAll_cons (t : Tree) (ts : List Tree) :
    idsOfAll (t :: ts) = t.ids + idsOfAll ts := by
  simp [idsOfAll]

@[simp] theorem idsOfAll_append (ts us : List Tree) :
    idsOfAll (ts ++ us) = idsOfAll ts + idsOfAll us := by
  simp [idsOfAll]

theorem ids_nodesOfAll (ts : List Tree) :
    (((Tree.nodesOfAll ts).map Tree.id : List PartId) : Multiset PartId) = idsOfAll ts := by
  induction ts with
  | nil => rfl
  | cons t ts ih =>
    rw [Tree.nodesOfAll, List.map_append, ← Multiset.coe_add, ih, idsOfAll_cons]
    rfl

@[simp] theorem Tree.ids_call (o : Origin) (f : FuncId) (args : List Tree) :
    (call o f args).ids = {o.id} + idsOfAll args := by
  rw [← ids_nodesOfAll]
  rfl

namespace OperandStack

@[simp] theorem ids_nil : ids [] = 0 := rfl

@[simp] theorem ids_cons (e : Entry) (s : OperandStack) : ids (e :: s) = e.tree.ids + ids s :=
  idsOfAll_cons ..

/-! ## operands move -/

theorem ids_fill {p : Pending} {t : Tree} {e : Entry} (h : p.fill? t = some e) :
    e.tree.ids = p.tree.ids + t.ids := by
  cases p with
  | branch => cases h
  | _ =>
    cases h
    simp [Entry.tree, Pending.tree]

theorem ids_attach (s : OperandStack) (t : Tree) : (s.attach t).ids = s.ids + t.ids := by
  fun_induction OperandStack.attach s t with
  | case1 p below t t' hf ih =>
    have hp : t'.ids = p.tree.ids + t.ids := ids_fill hf
    rw [ih, hp, ids_cons, Entry.tree]
    abel
  | case2 p below t p' hf =>
    have hp : p'.tree.ids = p.tree.ids + t.ids := ids_fill hf
    rw [ids_cons, ids_cons, Entry.tree, Entry.tree, hp]
    abel
  | case3 p below t hf => exact (ids_cons ..).trans (add_comm ..)
  | case4 s t hs => exact (ids_cons ..).trans (add_comm ..)

theorem ids_reopen (b : Binding) (t : Tree) (s : OperandStack) :
    (s.reopened (t.reopen b).1).ids + (t.reopen b).2.ids = s.ids + t.ids := by
  fun_induction Tree.reopen b t generalizing s with
  | case1 => rfl
  | case2 o op l x _ ih =>
    rw [reopened, ih, ids_cons]
    simp only [Entry.tree, Pending.tree, Tree.ids_binary, Tree.ids_hole]
    abel
  | case3 => rfl
  | case4 o c y n _ ih =>
    rw [reopened, ih, ids_cons]
    simp only [Entry.tree, Pending.tree, Tree.ids_choice, Tree.ids_hole]
    abel
  | case5 => rfl

theorem ids_takeLeft {max : Nat} {b : Binding} {here : Lexeme} {s s' : OperandStack} {left : Tree}
    (h : s.takeLeft max b here = .ok (left, s')) : s'.ids + left.ids = s.ids := by
  obtain ⟨e, below, ps, rfl, he, rfl⟩ := OperandStack.takeLeft_ok h
  unfold Entry.leftOperand at he
  split at he
  · rename_i t
    have hr : t.reopen b = (ps, left) := Except.ok.inj he
    have hi := ids_reopen b t below
    rw [hr] at hi
    rw [hi, ids_cons, Entry.tree, add_comm]
  · rename_i o c y
    cases he
    rw [reopened, ids_reopen, ids_cons, ids_cons]
    simp only [Entry.tree, Pending.tree, Tree.ids_choice, Tree.ids_hole]
    abel
  · cases he

end OperandStack

/-! ## moves -/

variable {r : Registry} {t : Lexeme} {ahead : List Lexeme}

/-- A token hands out ids for the parts it makes, and no other id comes or goes. -/
theorem Effect.ids {next next' : PartId} {s s' : OperandStack} {skip : Nat}
    (h : Effect r t ahead next s s' next' skip) {rest : Multiset PartId}
    (hs : s.ids + rest = Multiset.range next) : s'.ids + rest = Multiset.range next' := by
  cases h with
  | @leaf x phrase id =>
    have hx : x.ids = {next} := by
      rw [Tree.ids, phrase.single_lexeme.2.2, List.map_singleton, id]
      rfl
    rw [Multiset.range_succ, ← hs, OperandStack.ids_attach, hx, ← Multiset.singleton_add]
    abel
  | unary =>
    rw [Multiset.range_succ, ← hs, OperandStack.ids_cons, ← Multiset.singleton_add]
    simp only [Entry.tree, Pending.tree, Tree.ids_unary, Tree.ids_hole]
    abel
  | cast =>
    rw [Multiset.range_succ, ← hs, OperandStack.ids_cons, ← Multiset.singleton_add]
    simp only [Entry.tree, Pending.tree, Tree.ids_cast, Tree.ids_hole]
    abel
  | binary _ taken =>
    rw [Multiset.range_succ, ← hs, ← OperandStack.ids_takeLeft taken, OperandStack.ids_cons,
      ← Multiset.singleton_add]
    simp only [Entry.tree, Pending.tree, Tree.ids_binary, Tree.ids_hole]
    abel
  | condition _ taken =>
    rw [Multiset.range_succ, ← hs, ← OperandStack.ids_takeLeft taken, OperandStack.ids_cons,
      ← Multiset.singleton_add]
    simp only [Entry.tree, Pending.tree, Tree.ids_choice, Tree.ids_hole]
    abel
  | separate _ separated =>
    obtain ⟨o, c, y, below, rfl, rfl⟩ := OperandStack.separate_ok separated
    exact hs

theorem idsOfAll_fillsFrom (close : Lexeme) (next : PartId) (vs : List Value) :
    Multiset.range next + idsOfAll (fillsFrom close next vs) =
      Multiset.range (next + vs.length) := by
  induction vs generalizing next with
  | nil => exact add_zero _
  | cons v vs ih =>
    rw [fillsFrom, idsOfAll_cons, Tree.ids_constant, List.length_cons, Nat.add_comm vs.length,
      ← Nat.add_assoc, ← ih (next + 1), Multiset.range_succ, ← Multiset.singleton_add]
    abel

theorem Level.Arguments.ids {bare : Bool} {s : OperandStack} {args written : List Tree}
    (h : Level.Arguments bare s args written) : idsOfAll written = s.ids + idsOfAll args := by
  cases h with
  | bare => rfl
  | @last args t =>
    rw [idsOfAll_append, idsOfAll_cons, OperandStack.ids_cons, Entry.tree]
    simp only [idsOfAll_nil, OperandStack.ids_nil]
    abel

/-- The ids of the parts that the open brackets hold. -/
def idsOfLevels (ls : List Level) : Multiset PartId := (ls.map Level.ids).sum

@[simp] theorem idsOfLevels_cons (l : Level) (ls : List Level) :
    idsOfLevels (l :: ls) = l.ids + idsOfLevels ls := by
  simp [idsOfLevels]

theorem Move.ids {st st' : ParseState} (m : Move r t ahead st st')
    (h : idsOfLevels (st.level :: st.outer) = Multiset.range st.next) :
    idsOfLevels (st'.level :: st'.outer) = Multiset.range st'.next := by
  cases m with
  | operands effect =>
    simp only [idsOfLevels_cons, Level.ids, add_assoc] at h ⊢
    exact effect.ids h
  | comma =>
    rw [← h]
    simp only [idsOfLevels_cons, Level.ids, OperandStack.ids_cons, OperandStack.ids_nil,
      idsOfAll_append, idsOfAll_cons, idsOfAll_nil, Entry.tree]
    abel
  | openGroup =>
    rw [← h, idsOfLevels_cons]
    exact zero_add _
  | openCall =>
    rw [← h, idsOfLevels_cons]
    exact zero_add _
  | closeGroup =>
    rw [Multiset.range_succ, ← h, ← Multiset.singleton_add]
    simp only [idsOfLevels_cons, Level.ids, OperandStack.ids_attach, Tree.ids_group,
      OperandStack.ids_cons, OperandStack.ids_nil, idsOfAll_nil, Entry.tree]
    abel
  | closeCall complete =>
    rw [Multiset.range_succ, ← idsOfAll_fillsFrom t, ← h, ← Multiset.singleton_add]
    simp only [idsOfLevels_cons, Level.ids, OperandStack.ids_attach, Tree.ids_call, idsOfAll_append,
      complete.ids]
    abel

/-- The ids of the parts of a parsed tree are the numbers below its part count, each once. -/
theorem parse_ids {limits : Limits} {s : TokenStream} {e : Expr} (h : parse s r limits = .ok e) :
    (e.tree.nodes.map Tree.id).Perm (List.range e.partCount) := by
  have hinv := parse_invariant (P := fun levels next => idsOfLevels levels = Multiset.range next)
    rfl (fun m hp => m.ids hp) h
  refine Multiset.coe_eq_coe.1 (Eq.trans ?_ hinv.1)
  simp [idsOfLevels, Level.ids, OperandStack.ids, idsOfAll, Entry.tree, Tree.ids]

end ExprEngine
