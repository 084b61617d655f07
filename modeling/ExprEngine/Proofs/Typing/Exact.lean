import ExprEngine.Proofs.Arena
import ExprEngine.Proofs.Engine
import ExprEngine.Proofs.Typing.Relation

/-!
# The checker decides the rules

Types of whole trees by the rules, said without the functions that the checker computes with. Each
argument of a call converts to the parameter that is declared for it. The checker accepts a tree
exactly when it has such types, except that it also lets `void` arguments pass that no parameter is
declared for.

* `Derives`              the types of a part by the rules;
* `HasTyping.checks`     what the judgement types, the checker accepts;
* `TypeTable.Derived`    a table that holds the types of every part;
* `check_exact`          the checker decides the rules;
* `check_admits_surplus` arguments that nothing is declared for.
-/

namespace ExprEngine

/-! ## derivations -/

mutual

/-- The types of a part by the rules, the names declared by a registry. -/
inductive Derives (r : Registry) : Tree → Typing → Prop
  | constant {o : Origin} {v : Value} : Derives r (.constant o v) (.same v.type)
  | reference {o : Origin} {x : VarId} {v : Variable} (declared : r.variableAt? x = some v) :
      Derives r (.reference o x) (.same v.type)
  | group {o : Origin} {x : Tree} {ty : Typing} (inner : Derives r x ty) :
      Derives r (.group o x) (.same ty.result)
  | cast {o : Origin} {target : ValueType} {x : Tree} {ty : Typing} (operand : Derives r x ty)
      (casts : ty.result.castsTo target = true) :
      Derives r (.cast o target x) ⟨target, ty.result⟩
  | unary {o : Origin} {op : UnaryOp} {x : Tree} {ty : Typing} {t : ValueType}
      (operand : Derives r x ty) (rule : UnaryRule op ty.result t) :
      Derives r (.unary o op x) (.same t)
  | choice {o : Origin} {c y n : Tree} {tc ty tn : Typing} {t : ValueType}
      (condition : Derives r c tc) (yes : Derives r y ty) (no : Derives r n tn)
      (truth : tc.result.isBoolable = true) (rule : BranchRule ty.result tn.result t) :
      Derives r (.choice o c y n) (.same t)
  | operate {o : Origin} {op : BinaryOp} {l x : Tree} {tl tx ty : Typing} (left : Derives r l tl)
      (right : Derives r x tx) (rule : InfixRule op tl.result tx.result ty) :
      Derives r (.binary o op l x) ty
  | assign {o o' : Origin} {op : BinaryOp} {target : VarId} {v : Variable} {x : Tree}
      {tx : Typing} {t : ValueType} (declared : r.variableAt? target = some v)
      (writable : v.readOnly = false) (value : Derives r x tx)
      (rule : AssignRule op v.type tx.result t) :
      Derives r (.binary o op (.reference o' target) x) ⟨v.type, t⟩
  | call {o : Origin} {f : FuncId} {args : List Tree} {s : Signature}
      (declared : r.functionAt? f = some s) (passed : Passes r args s.parameters) :
      Derives r (.call o f args) (.same s.returns)

/-- Arguments that convert to the parameters declared for them. -/
inductive Passes (r : Registry) : List Tree → List Parameter → Prop
  | nil {ps : List Parameter} : Passes r [] ps
  | cons {x : Tree} {xs : List Tree} {ty : Typing} {p : Parameter} {ps : List Parameter}
      (first : Derives r x ty) (casts : ty.result.castsTo p.type = true)
      (rest : Passes r xs ps) : Passes r (x :: xs) (p :: ps)

end

theorem InfixRule.plain {op : BinaryOp} {a b : ValueType} {ty : Typing} (h : InfixRule op a b ty) :
    op.isAssignment = false := by
  cases h with
  | _ => rfl

theorem AssignRule.assigns {op : BinaryOp} {a b t : ValueType} (h : AssignRule op a b t) :
    op.isAssignment = true := by
  cases h with
  | _ => rfl

/-- A call that passes no more arguments than its function declares. -/
def Tree.NoSurplus (r : Registry) : Tree → Prop
  | .call _ f args => ∀ s, r.functionAt? f = some s → args.length ≤ s.arity
  | _ => True

variable {r : Registry}

/-! ## derivations and the judgement of the checker -/

theorem expected_drop {s : Signature} {i : Nat} {p : Parameter} {ps : List Parameter}
    (h : s.parameters.drop i = p :: ps) :
    s.expected i = p.type ∧ s.parameters.drop (i + 1) = ps := by
  have hi : s.parameters[i]? = some p := by
    rw [← List.head?_drop, h]
    rfl
  constructor
  · unfold Signature.expected
    rw [hi]
    rfl
  · rw [← List.tail_drop, h]
    rfl

mutual

theorem Derives.hasTyping : ∀ {t : Tree} {ty : Typing}, Derives r t ty → HasTyping r t ty
  | _, _, .constant => .constant
  | _, _, .reference declared => .reference declared
  | _, _, .group inner => .group inner.hasTyping
  | _, _, .cast operand casts => .cast operand.hasTyping casts
  | _, _, .unary operand rule => .unary operand.hasTyping (unaryRule_iff.1 rule)
  | _, _, .choice condition yes no truth rule =>
    .choice condition.hasTyping yes.hasTyping no.hasTyping truth (branchRule_iff.1 rule)
  | _, _, .operate left right rule => by
    obtain ⟨t, ht, rfl⟩ := (infixRule_iff rule.plain).1 rule
    exact .operate rule.plain left.hasTyping right.hasTyping ht
  | _, _, .assign declared writable value rule =>
    .assign rule.assigns declared writable value.hasTyping ((assignRule_iff rule.assigns).1 rule)
  | _, _, @Derives.call _ _ _ _ s declared passed => .call declared (passed.hasArguments rfl)

theorem Passes.hasArguments : ∀ {args : List Tree} {ps : List Parameter} {s : Signature}
    {i : Nat}, Passes r args ps → s.parameters.drop i = ps → HasArguments r s i args
  | _, _, _, _, .nil, _ => .nil
  | _, _, _, _, .cons first casts rest, h => by
    obtain ⟨hexpected, hrest⟩ := expected_drop h
    rw [← hexpected] at casts
    exact .cons first.hasTyping casts (rest.hasArguments hrest)

end

mutual

/-- Calls without surplus arguments have their arguments declared. -/
theorem HasTyping.derives : ∀ {t : Tree} {ty : Typing}, HasTyping r t ty →
    (∀ n ∈ t.nodes, n.NoSurplus r) → Derives r t ty
  | _, _, .constant, _ => .constant
  | _, _, .reference declared, _ => .reference declared
  | .group o x, _, .group inner, h => by
    rw [Tree.nodes] at h
    exact .group (inner.derives (List.forall_mem_cons.1 h).2)
  | .cast o target x, _, .cast operand casts, h => by
    rw [Tree.nodes] at h
    exact .cast (operand.derives (List.forall_mem_cons.1 h).2) casts
  | .unary o op x, _, .unary operand rule, h => by
    rw [Tree.nodes] at h
    exact .unary (operand.derives (List.forall_mem_cons.1 h).2) (unaryRule_iff.2 rule)
  | .choice o c y n, _, .choice condition yes no truth rule, h => by
    rw [Tree.nodes] at h
    obtain ⟨hcy, hn⟩ := List.forall_mem_append.1 (List.forall_mem_cons.1 h).2
    obtain ⟨hc, hy⟩ := List.forall_mem_append.1 hcy
    exact .choice (condition.derives hc) (yes.derives hy) (no.derives hn) truth
      (branchRule_iff.2 rule)
  | .binary o op l x, _, .operate plain left right rule, h => by
    rw [Tree.nodes] at h
    obtain ⟨hl, hx⟩ := List.forall_mem_append.1 (List.forall_mem_cons.1 h).2
    exact .operate (left.derives hl) (right.derives hx)
      ((infixRule_iff plain).2 ⟨_, rule, rfl⟩)
  | .binary o op (.reference o' target) x, _, .assign assigns declared writable value rule, h => by
    rw [Tree.nodes] at h
    obtain ⟨-, hx⟩ := List.forall_mem_append.1 (List.forall_mem_cons.1 h).2
    exact .assign declared writable (value.derives hx) ((assignRule_iff assigns).2 rule)
  | .call o f args, _, @HasTyping.call _ _ _ _ s declared passed, h => by
    rw [Tree.nodes] at h
    obtain ⟨hcall, hargs⟩ := List.forall_mem_cons.1 h
    have hcount : 0 + args.length ≤ s.arity := by
      rw [Nat.zero_add]
      exact hcall s declared
    exact .call declared (passed.passes hcount hargs)

theorem HasArguments.passes : ∀ {s : Signature} {i : Nat} {args : List Tree},
    HasArguments r s i args → i + args.length ≤ s.arity →
    (∀ n ∈ Tree.nodesOfAll args, n.NoSurplus r) → Passes r args (s.parameters.drop i)
  | _, _, [], .nil, _, _ => .nil
  | s, i, arg :: args, .cons first casts rest, hcount, h => by
    rw [Tree.nodesOfAll] at h
    obtain ⟨hfirst, hrest⟩ := List.forall_mem_append.1 h
    rw [List.length_cons] at hcount
    have hi : i < s.parameters.length := by
      unfold Signature.arity at hcount
      omega
    rw [Machine.expected_eq hi] at casts
    rw [List.drop_eq_getElem_cons hi]
    exact .cons (first.derives hfirst) casts (rest.passes (by omega) hrest)

end

mutual

theorem Derives.noSurplus : ∀ {t : Tree} {ty : Typing}, Derives r t ty →
    ∀ n ∈ t.nodes, n.NoSurplus r
  | .constant o v, _, .constant => by
    rw [Tree.nodes]
    exact List.forall_mem_singleton.2 trivial
  | .reference o x, _, .reference _ => by
    rw [Tree.nodes]
    exact List.forall_mem_singleton.2 trivial
  | .group o x, _, .group inner => by
    rw [Tree.nodes]
    exact List.forall_mem_cons.2 ⟨trivial, inner.noSurplus⟩
  | .cast o target x, _, .cast operand _ => by
    rw [Tree.nodes]
    exact List.forall_mem_cons.2 ⟨trivial, operand.noSurplus⟩
  | .unary o op x, _, .unary operand _ => by
    rw [Tree.nodes]
    exact List.forall_mem_cons.2 ⟨trivial, operand.noSurplus⟩
  | .choice o c y n, _, .choice condition yes no _ _ => by
    rw [Tree.nodes]
    have hcy := List.forall_mem_append.2 ⟨condition.noSurplus, yes.noSurplus⟩
    exact List.forall_mem_cons.2 ⟨trivial, List.forall_mem_append.2 ⟨hcy, no.noSurplus⟩⟩
  | .binary o op l x, _, .operate left right _ => by
    rw [Tree.nodes]
    have hoperands := List.forall_mem_append.2 ⟨left.noSurplus, right.noSurplus⟩
    exact List.forall_mem_cons.2 ⟨trivial, hoperands⟩
  | .binary o op (.reference o' target) x, _, .assign _ _ value _ => by
    rw [Tree.nodes, Tree.nodes]
    have htarget : ∀ n ∈ [Tree.reference o' target], n.NoSurplus r :=
      List.forall_mem_singleton.2 trivial
    have hoperands := List.forall_mem_append.2 ⟨htarget, value.noSurplus⟩
    exact List.forall_mem_cons.2 ⟨trivial, hoperands⟩
  | .call o f args, _, .call declared passed => by
    rw [Tree.nodes]
    obtain ⟨hcount, hargs⟩ := passed.noSurplus
    refine List.forall_mem_cons.2 ⟨fun s hs => ?_, hargs⟩
    rw [declared] at hs
    cases hs
    exact hcount

theorem Passes.noSurplus : ∀ {args : List Tree} {ps : List Parameter}, Passes r args ps →
    args.length ≤ ps.length ∧ ∀ n ∈ Tree.nodesOfAll args, n.NoSurplus r
  | [], _, .nil => ⟨Nat.zero_le _, nofun⟩
  | x :: xs, p :: ps, .cons first _ rest => by
    rw [Tree.nodesOfAll]
    obtain ⟨hcount, hrest⟩ := rest.noSurplus
    exact ⟨Nat.succ_le_succ hcount, List.forall_mem_append.2 ⟨first.noSurplus, hrest⟩⟩

end

/-! ## the checker -/

mutual

/-- What the judgement types, the checker accepts, with the type of the judgement. -/
theorem HasTyping.checks : ∀ {t : Tree} {ty : Typing}, HasTyping r t ty →
    ∃ ps, checkTree r t = .ok ⟨ty.result, ps⟩
  | .constant o v, _, .constant => ⟨_, by rw [checkTree]; rfl⟩
  | .reference o x, _, .reference declared => ⟨_, by rw [checkTree, declared]; rfl⟩
  | .group o x, _, .group inner => by
    obtain ⟨ps, hx⟩ := inner.checks
    exact ⟨_, by rw [checkTree, hx]; rfl⟩
  | .cast o target x, _, .cast operand casts => by
    obtain ⟨ps, hx⟩ := operand.checks
    exact ⟨_, by
      rw [checkTree, operand.complete.isHole, if_neg Bool.false_ne_true, hx, ok_bind, if_pos casts]
      rfl⟩
  | .unary o op x, _, .unary operand rule => by
    obtain ⟨ps, hx⟩ := operand.checks
    exact ⟨_, by
      rw [checkTree, operand.complete.isHole, if_neg Bool.false_ne_true, hx, ok_bind, rule]
      rfl⟩
  | .choice o c y n, _, .choice condition yes no truth rule => by
    obtain ⟨pc, hc⟩ := condition.checks
    obtain ⟨py, hy⟩ := yes.checks
    obtain ⟨pn, hn⟩ := no.checks
    exact ⟨_, by
      rw [checkTree, condition.complete.isHole, yes.complete.isHole, no.complete.isHole, hc, hy, hn]
      simp only [ok_bind, truth, rule]
      rfl⟩
  | .binary o op l x, _, .operate plain left right rule => by
    obtain ⟨pl, hl⟩ := left.checks
    obtain ⟨px, hx⟩ := right.checks
    exact ⟨_, by
      rw [checkTree, left.complete.isHole, right.complete.isHole, plain, hl, hx]
      simp only [ok_bind, rule]
      rfl⟩
  | .binary o op (.reference o' target) x, _,
    .assign assigns declared writable value rule => by
    obtain ⟨pl, hl⟩ := (HasTyping.reference declared : HasTyping r (.reference o' target) _).checks
    obtain ⟨px, hx⟩ := value.checks
    exact ⟨_, by
      rw [checkTree, value.complete.isHole, assigns, hl, hx]
      simp only [Tree.isHole, Tree.singleVariable?, ok_bind, declared, writable, rule]
      rfl⟩
  | .call o f args, _, .call declared passed => by
    obtain ⟨ps, hps⟩ := passed.checks
    exact ⟨_, by rw [checkTree, declared]; dsimp only; rw [hps]; rfl⟩

theorem HasArguments.checks : ∀ {s : Signature} {i : Nat} {args : List Tree},
    HasArguments r s i args → ∃ ps, checkArguments r s i args = .ok ps
  | _, _, [], .nil => ⟨[], by rw [checkArguments]⟩
  | s, i, arg :: args, .cons first casts rest => by
    obtain ⟨ps, hx⟩ := first.checks
    obtain ⟨qs, hrest⟩ := rest.checks
    refine ⟨ps ++ qs, ?_⟩
    unfold Signature.expected at casts
    rw [checkArguments, hx, ok_bind]
    dsimp only
    rw [casts, hrest]
    rfl

end

/-! ## tables -/

/-- A table that holds what the rules derive, for the whole and for every part. -/
structure TypeTable.Derived (types : TypeTable) (r : Registry) (e : Expr) : Prop where
  whole : ∃ ty, Derives r e.tree ty ∧ types.root = ty.result
  parts : ∀ id < e.partCount, ∃ n ∈ e.tree.nodes, n.id = id ∧
    ∃ ty, types.entries[id]? = some ty ∧ Derives r n ty ∧ ∀ ty', Derives r n ty' → ty' = ty

theorem Derives.unique {t : Tree} {a b : Typing} (ha : Derives r t a) (hb : Derives r t b) :
    a = b :=
  ha.hasTyping.unique hb.hasTyping

section
variable {e : Expr} {types : TypeTable}

theorem Derives.check {ty : Typing} (h : Derives r e.tree ty) : ∃ types, check e r = .ok types := by
  obtain ⟨ps, hps⟩ := h.hasTyping.checks
  exact ⟨_, map_eq_ok.2 ⟨_, hps, rfl⟩⟩

theorem derived_of_check (hids : (e.tree.nodes.map Tree.id).Perm (List.range e.partCount))
    (checked : check e r = .ok types) (within : ∀ n ∈ e.tree.nodes, n.NoSurplus r) :
    types.Derived r e := by
  have hnumbered := Tree.numbered_of_perm hids
  obtain ⟨-, ty, hty, hroot⟩ := typing_of_check hnumbered checked
  refine ⟨⟨ty, hty.derives within, hroot.symm⟩, fun id hid => ?_⟩
  obtain ⟨n, hn, rfl⟩ := Arena.exists_node hids hid
  obtain ⟨ty, hentry, hty⟩ := entries_of_check hnumbered checked n hn
  have hderives : Derives r n ty :=
    hty.derives fun m hm => within m (Tree.mem_nodes_trans hn hm)
  exact ⟨n, hn, rfl, ty, hentry, hderives, fun ty' hty' => hty'.unique hderives⟩

end

/-- A parsed expression is accepted, without surplus arguments, exactly when the rules give it a
type, whatever names it is checked against. The table then holds what the rules give every part. -/
theorem check_exact {r' : Registry} {limits : Limits} {s : TokenStream} {e : Expr}
    (parsed : parse s r' limits = .ok e) :
    (((∃ types, check e r = .ok types) ∧ ∀ n ∈ e.tree.nodes, n.NoSurplus r) ↔
      ∃ ty, Derives r e.tree ty) ∧
    ∀ types, check e r = .ok types → (∀ n ∈ e.tree.nodes, n.NoSurplus r) → types.Derived r e := by
  have hderived : ∀ types, check e r = .ok types → (∀ n ∈ e.tree.nodes, n.NoSurplus r) →
      types.Derived r e := fun _ => derived_of_check (parse_ids parsed)
  refine ⟨⟨?_, ?_⟩, hderived⟩
  · rintro ⟨⟨types, checked⟩, within⟩
    obtain ⟨ty, hty, -⟩ := (hderived types checked within).whole
    exact ⟨ty, hty⟩
  · rintro ⟨ty, hty⟩
    exact ⟨hty.check, hty.noSurplus⟩

theorem check_exact_sample :
    (((∃ types, check ⟨sampleTree, 9⟩ sampleRegistry = .ok types) ∧
        ∀ n ∈ sampleTree.nodes, n.NoSurplus sampleRegistry) ↔
      ∃ ty, Derives sampleRegistry sampleTree ty) ∧
    ∀ types, check ⟨sampleTree, 9⟩ sampleRegistry = .ok types →
      (∀ n ∈ sampleTree.nodes, n.NoSurplus sampleRegistry) →
      types.Derived sampleRegistry ⟨sampleTree, 9⟩ :=
  check_exact parse_sample

/-- No surplus arises where the names are those that an expression was parsed with. -/
theorem noSurplus_of_parse {r' : Registry} {limits : Limits} {s : TokenStream} {e : Expr}
    (hr : r.Declared) (hr' : r'.Extends r) (parsed : parse s r limits = .ok e) :
    ∀ n ∈ e.tree.nodes, n.NoSurplus r' := by
  intro n hn
  have hfull := ((phrase_of_parse parsed).fullCalls hr n hn).extend hr'
  cases n with
  | call o f args =>
    intro sig hsig
    obtain ⟨sig', hsig', hcount⟩ := hfull
    rw [hsig] at hsig'
    cases hsig'
    exact Nat.le_of_eq hcount
  | _ => trivial

/-- Two functions, the second with a parameter. -/
def surplusRegistry : Registry :=
  { funcs := [⟨"g", .int ⟨false, .w8⟩, []⟩,
      ⟨"f", .int ⟨false, .w8⟩, [⟨.int ⟨false, .w8⟩, none⟩]⟩] }

/-- The same names where the first function has no value and the second no parameter. -/
def foreignRegistry : Registry :=
  { funcs := [⟨"g", .void, []⟩, ⟨"f", .int ⟨false, .w8⟩, []⟩] }

/-- The tree of `f(g())`. -/
def surplusTree : Tree := .call ⟨1, 0, ⟨0, 6⟩⟩ 1 [.call ⟨0, 2, ⟨2, 5⟩⟩ 0 []]

theorem parse_surplus :
    parse ⟨"f(g())".toList, [⟨.identifier, ⟨0, 1⟩⟩, ⟨.parenthesis, ⟨1, 2⟩⟩, ⟨.identifier, ⟨2, 3⟩⟩,
      ⟨.parenthesis, ⟨3, 4⟩⟩, ⟨.parenthesis, ⟨4, 5⟩⟩, ⟨.parenthesis, ⟨5, 6⟩⟩]⟩ surplusRegistry {} =
      .ok ⟨surplusTree, 2⟩ := rfl

/-- The checker is not exact on its own: a `void` argument passes where none is declared. -/
theorem check_admits_surplus :
    ¬ ∀ (s : TokenStream) (r r' : Registry) (limits : Limits) (e : Expr),
      parse s r' limits = .ok e →
        ((∃ types, check e r = .ok types) ↔ ∃ ty, Derives r e.tree ty) := by
  intro h
  have hchecked : check ⟨surplusTree, 2⟩ foreignRegistry =
      .ok ⟨[.same .void, .same (.int ⟨false, .w8⟩)], .int ⟨false, .w8⟩⟩ := rfl
  obtain ⟨ty, hty⟩ := (h _ foreignRegistry surplusRegistry {} _ parse_surplus).1 ⟨_, hchecked⟩
  cases hty with
  | call declared passed =>
    cases declared
    cases passed

end ExprEngine
