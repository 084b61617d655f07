import ExprEngine.Proofs.Context
import ExprEngine.Proofs.Typing.Judgement

/-!
# Typing over other registries

The checker asks a registry what the ids of a tree denote, and nothing else. So a tree that refers
only to what a registry declares is typed alike over every registry that declares more.

* `Tree.Known`           a part that refers to what is declared;
* `Phrase.known`         the parts of a phrase do;
* `checkTree_extend`     such a tree over more declarations;
* `check_extend`         such an expression.
-/

namespace ExprEngine

variable {r r' : Registry}

/-- A part that refers only to what a registry declares. -/
def Tree.Known (r : Registry) : Tree → Prop
  | .reference _ x => ∃ v, r.variableAt? x = some v
  | .call _ f _ => ∃ s, r.functionAt? f = some s
  | _ => True

theorem Tree.Known.extend (hr : r'.Extends r) {t : Tree} (h : t.Known r) : t.Known r' := by
  cases t with
  | reference o x =>
    obtain ⟨v, hv⟩ := h
    exact ⟨v, hr.variableAt? hv⟩
  | call o f args =>
    obtain ⟨s, hs⟩ := h
    exact ⟨s, hr.functionAt? hs⟩
  | _ => trivial

theorem Tree.known_operand {t x : Tree} (h : ∀ n ∈ t.nodes, n.Known r) (hx : x ∈ t.operands) :
    x.Known r := by
  cases x with
  | hole => trivial
  | _ => exact h _ (mem_nodes_of_operand hx (mem_nodes_self rfl))

theorem Phrase.known (hr : r.Declared) {t : Tree} {ls : List Lexeme} (h : Phrase r t ls) :
    ∀ n ∈ t.nodes, n.Known r := by
  intro n hn
  rcases h.parts n hn with ⟨ms, -, hphrase⟩ | ⟨_, _, _, _, _, rfl⟩
  · cases hphrase with
    | reference _ found =>
      obtain ⟨v, hv, -⟩ := (hr.indexed.vars ..).1 found
      exact ⟨v, hv⟩
    | call _ _ _ _ resolves =>
      obtain ⟨s, hs, -⟩ := hr.resolve_ok resolves
      exact ⟨s, hs⟩
    | _ => trivial
  · trivial

theorem Registry.Extends.variableAt?_eq (hr : r'.Extends r) {x : VarId}
    (h : ∃ v, r.variableAt? x = some v) : r'.variableAt? x = r.variableAt? x := by
  obtain ⟨v, hv⟩ := h
  rw [hv, hr.variableAt? hv]

theorem Registry.Extends.functionAt?_eq (hr : r'.Extends r) {f : FuncId}
    (h : ∃ s, r.functionAt? f = some s) : r'.functionAt? f = r.functionAt? f := by
  obtain ⟨s, hs⟩ := h
  rw [hs, hr.functionAt? hs]

theorem checkArguments_congr {s : Signature} {index : Nat} {args : List Tree}
    (h : ∀ x ∈ args, checkTree r' x = checkTree r x) :
    checkArguments r' s index args = checkArguments r s index args := by
  induction args generalizing index with
  | nil => rfl
  | cons x args ih =>
    obtain ⟨hx, hargs⟩ := List.forall_mem_cons.1 h
    rw [checkArguments, checkArguments, hx]
    simp only [ih hargs]

/-- A tree that refers only to what is declared is typed alike where more is declared. -/
theorem checkTree_extend (hr : r'.Extends r) {t : Tree} (h : ∀ n ∈ t.nodes, n.Known r) :
    checkTree r' t = checkTree r t := by
  induction t using Tree.operand_induction with
  | part t ih =>
    have hoperand : ∀ x ∈ t.operands, checkTree r' x = checkTree r x := fun x hx =>
      ih x hx fun n hn => h n (Tree.mem_nodes_of_operand hx hn)
    cases t with
    | hole => rfl
    | constant => rfl
    | reference o x =>
      have hx : r'.variableAt? x = r.variableAt? x :=
        hr.variableAt?_eq (h _ (List.mem_singleton_self _))
      rw [checkTree, checkTree, hx]
    | group o x => rw [checkTree, checkTree, hoperand x (by simp [Tree.operands])]
    | cast o target x => rw [checkTree, checkTree, hoperand x (by simp [Tree.operands])]
    | unary o op x => rw [checkTree, checkTree, hoperand x (by simp [Tree.operands])]
    | choice o c y n =>
      rw [checkTree, checkTree, hoperand c (by simp [Tree.operands]),
        hoperand y (by simp [Tree.operands]), hoperand n (by simp [Tree.operands])]
    | binary o op l x =>
      rw [checkTree, checkTree, hoperand l (by simp [Tree.operands]),
        hoperand x (by simp [Tree.operands])]
      cases hl : l.singleVariable? with
      | none => rfl
      | some y =>
        obtain ⟨o', rfl⟩ := singleVariable?_eq_some hl
        have hy : r'.variableAt? y = r.variableAt? y :=
          hr.variableAt?_eq (h (.reference o' y) (by simp [Tree.nodes]))
        simp only [hy]
    | call o f args =>
      have hf : r'.functionAt? f = r.functionAt? f :=
        hr.functionAt?_eq (h _ (List.mem_cons_self ..))
      have hargs : ∀ x ∈ args, checkTree r' x = checkTree r x := hoperand
      rw [checkTree, checkTree, hf]
      simp only [checkArguments_congr hargs]

theorem check_extend (hr : r'.Extends r) {e : Expr} (h : ∀ n ∈ e.tree.nodes, n.Known r) :
    check e r' = check e r := by
  rw [check, check, checkTree_extend hr h]

end ExprEngine
