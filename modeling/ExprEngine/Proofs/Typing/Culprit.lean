import ExprEngine.Proofs.Parse.Complete
import ExprEngine.Proofs.Typing.Agreement
import ExprEngine.Proofs.Typing.Exact

/-!
# Whom a typing error blames

The rules tell why types do not fit and know nothing of parts; the checker picks the part to blame.
It is one whose operands are all accepted, and either an operand that its place does not admit,
whatever stands beside it, or a part whose own rule fails on operands that may be fine elsewhere.

* `RuleFault`             why a rule for two types fails;
* `Tree.Yields`           a part that is accepted on its own;
* `Tree.Untyped`          one that is not;
* `Tree.Unfit`            an operand that its part does not admit;
* `Tree.Clashes`          a part whose rule fails;
* `Tree.Blamed`           the part that an error blames;
* `check_blames`          every error of the checker blames such a part.
-/

namespace ExprEngine

/-! ## rules that fail -/

/-- Why a rule for two types fails: the first suits no second, the second suits no first, or the two
do not fit each other. Where the first is `fixed`, the second is only judged beside it. -/
inductive RuleFault (fixed : Prop) (o : Operator)
    (rule : ValueType → ValueType → Except TypeCause ValueType) (a b : ValueType) :
    TypeCause → Prop
  | left (never : ∀ b' t, rule a b' ≠ .ok t) : RuleFault fixed o rule a b (.leftOperand o a)
  | right (never : ∀ a' t, (fixed → a' = a) → rule a' b ≠ .ok t) :
      RuleFault fixed o rule a b (.rightOperand o b)
  | pair (fails : ∀ t, rule a b ≠ .ok t) : RuleFault fixed o rule a b (.mismatched o a b)

section
variable {a b : ValueType} {cause : TypeCause}

theorem RuleFault.fix {fixed : Prop} {o : Operator}
    {rule : ValueType → ValueType → Except TypeCause ValueType}
    (h : RuleFault False o rule a b cause) : RuleFault fixed o rule a b cause := by
  cases h with
  | left never => exact .left never
  | right never => exact .right fun a' t _ => never a' t nofun
  | pair fails => exact .pair fails

theorem not_ok_of_error {α : Type} {x : Except TypeCause α} (h : x = .error cause) (t : α) :
    x ≠ .ok t := fun ht => nomatch h.symm.trans ht

theorem arithmeticType_fault {op : Operator} (h : arithmeticType op a b = .error cause) :
    RuleFault False op (arithmeticType op) a b cause := by
  have hfails := not_ok_of_error h
  unfold arithmeticType at h
  split at h
  · rename_i ha
    cases h
    refine .left fun b' t ht => ?_
    rw [(arithmeticType_ok ht).1] at ha
    cases ha
  split at h
  · rename_i hb
    cases h
    refine .right fun a' t _ ht => ?_
    rw [(arithmeticType_ok ht).2.1] at hb
    cases hb
  split at h
  · cases h
  · cases h
    exact .pair hfails

theorem bitwiseType_fault {op : Operator} (h : bitwiseType op a b = .error cause) :
    RuleFault False op (bitwiseType op) a b cause := by
  have hfails := not_ok_of_error h
  unfold bitwiseType at h
  split at h
  · rename_i ha
    cases h
    refine .left fun b' t ht => ?_
    rw [(bitwiseType_ok ht).1] at ha
    cases ha
  split at h
  · rename_i hb
    cases h
    refine .right fun a' t _ ht => ?_
    rw [(bitwiseType_ok ht).2.1] at hb
    cases hb
  dsimp only at h
  split at h
  · cases h
  · cases h
    exact .pair hfails

theorem logicalType_fault {op : LogicOp} (h : logicalType op a b = .error cause) :
    RuleFault False (.binary (.logic op)) (logicalType op) a b cause := by
  unfold logicalType at h
  dsimp only at h
  split at h
  · rename_i ha
    cases h
    refine .left fun b' t ht => ?_
    rw [(logicalType_ok ht).1] at ha
    cases ha
  split at h
  · rename_i hb
    cases h
    refine .right fun a' t _ ht => ?_
    rw [(logicalType_ok ht).2.1] at hb
    cases hb
  · cases h

theorem comparisonType_fault {op : CompareOp} (h : comparisonType op a b = .error cause) :
    RuleFault False (.binary (.compare op)) (comparisonType op) a b cause := by
  have hfails := not_ok_of_error h
  have hvoid : ∀ {x y t}, comparisonType op x y = .ok t → x ≠ .void ∧ y ≠ .void := by
    intro x y t ht
    cases comparisonType_iff.1 ht with
    | numbers widens =>
      obtain ⟨hx, hy⟩ := widens.isNumeric
      constructor
      · rintro rfl
        cases hx
      · rintro rfl
        cases hy
    | equality _ known => exact ⟨known, known⟩
  unfold comparisonType at h
  dsimp only at h
  split at h
  · rename_i ha
    cases h
    exact .left fun b' t ht => (hvoid ht).1 ha
  split at h
  · rename_i hb
    cases h
    exact .right fun a' t _ ht => (hvoid ht).2 hb
  split at h
  · cases h
  rename_i hwiden
  split at h
  · cases h
    exact .pair hfails
  rename_i hsame
  split at h
  · cases h
  rename_i hordered
  cases h
  -- one type on both sides that is no number: it has no order, whatever it is compared with
  obtain rfl := Decidable.not_not.1 hsame
  refine .left fun b' t ht => ?_
  cases comparisonType_iff.1 ht with
  | numbers widens =>
    have hnumber := widens.isNumeric.1
    obtain ⟨u, hu⟩ := ValueType.exists_widen? hnumber hnumber false
    rw [hwiden] at hu
    cases hu
  | equality asked => exact hordered asked

/-- An assignment's rule is that of every operator between two operands. -/
theorem infixType_of_assignment {op : BinaryOp} (h : op.isAssignment = true) :
    infixType op = assignmentType op := by
  cases op with
  | assign => rfl
  | compound => rfl
  | _ => cases h

/-- Why the rule of an operator between two operands fails. The target of an assignment belongs to
its rule. -/
theorem infixType_fault {op : BinaryOp} (h : infixType op a b = .error cause) :
    RuleFault (op.isAssignment = true) (.binary op) (infixType op) a b cause := by
  cases op with
  | arith op => exact (arithmeticType_fault h).fix
  | compare op => exact (comparisonType_fault h).fix
  | bits op => exact (bitwiseType_fault h).fix
  | logic op => exact (logicalType_fault h).fix
  | assign =>
    have hfails := not_ok_of_error h
    unfold infixType assignmentType at h
    dsimp only at h
    split at h
    · cases h
    · cases h
      refine .right fun a' t hfixed => ?_
      rw [hfixed rfl]
      exact hfails t
  | compound c =>
    have hrule : infixType (.compound c) = bitwiseType (.binary (.compound c)) ∨
        infixType (.compound c) = arithmeticType (.binary (.compound c)) := by
      cases c <;> first | exact .inl rfl | exact .inr rfl
    rcases hrule with hrule | hrule
    · rw [hrule] at h ⊢
      exact (bitwiseType_fault h).fix
    · rw [hrule] at h ⊢
      exact (arithmeticType_fault h).fix

theorem branchType_fault (h : branchType a b = .error cause) : cause = .mismatched .choice a b := by
  unfold branchType at h
  split at h
  · cases h
  split at h
  · cases h
  · exact (Except.error.inj h).symm

theorem unaryType_fault {op : UnaryOp} (h : unaryType op a = .error cause) :
    cause = .rightOperand (.unary op) a := by
  unfold unaryType at h
  cases op with
  | not =>
    dsimp only at h
    split at h
    · cases h
    · exact (Except.error.inj h).symm
  | complement =>
    dsimp only at h
    split at h
    · cases h
    · exact (Except.error.inj h).symm

end

/-! ## parts with and without a type -/

variable {r : Registry}

/-- A part that is accepted on its own, with the type of the value it yields. -/
structure Tree.Yields (r : Registry) (t : Tree) (found : ValueType) : Prop where
  derived : ∃ ty, Derives r t ty ∧ ty.result = found
  accepted : ∀ count, ∃ types, check ⟨t, count⟩ r = .ok types ∧ types.root = found

/-- A part without a type: the rules give it none and the checker refuses it. -/
structure Tree.Untyped (r : Registry) (t : Tree) : Prop where
  underivable : ∀ ty, ¬ Derives r t ty
  refused : ∀ count types, check ⟨t, count⟩ r ≠ .ok types

theorem Tree.yields_of_checkTree {t : Tree} {d : Typed} (h : checkTree r t = .ok d)
    (within : ∀ n ∈ t.nodes, n.NoSurplus r) : t.Yields r d.type := by
  constructor
  · obtain ⟨ty, hty, hresult, -⟩ := checkTree_ok h
    exact ⟨ty, hty.derives within, hresult⟩
  · exact fun count => ⟨_, map_eq_ok.2 ⟨d, h, rfl⟩, rfl⟩

theorem Tree.untyped_of_hasTyping {t : Tree} (h : ∀ ty, ¬ HasTyping r t ty) : t.Untyped r := by
  constructor
  · exact fun ty hty => h ty hty.hasTyping
  · intro count types hchecked
    obtain ⟨d, hd, -⟩ := map_eq_ok.1 hchecked
    obtain ⟨ty, hty, -⟩ := checkTree_ok hd
    exact h ty hty

/-! ## typed parts taken apart -/

theorem HasTyping.of_unary {o : Origin} {op : UnaryOp} {x : Tree} {ty : Typing}
    (h : HasTyping r (.unary o op x) ty) :
    ∃ tx t, HasTyping r x tx ∧ unaryType op tx.result = .ok t := by
  cases h with
  | unary operand rule => exact ⟨_, _, operand, rule⟩

theorem HasTyping.of_binary {o : Origin} {op : BinaryOp} {l x : Tree} {ty : Typing}
    (h : HasTyping r (.binary o op l x) ty) :
    (∃ tl tx t, HasTyping r l tl ∧ HasTyping r x tx ∧
      infixType op tl.result tx.result = .ok t) ∧
    (op.isAssignment = true →
      ∃ o' y v, l = .reference o' y ∧ r.variableAt? y = some v ∧ v.readOnly = false) := by
  cases h with
  | operate plain left right rule =>
    exact ⟨⟨_, _, _, left, right, rule⟩, fun assigns => nomatch plain.symm.trans assigns⟩
  | assign assigns declared writable value rule =>
    rw [← infixType_of_assignment assigns] at rule
    exact ⟨⟨_, _, _, .reference declared, value, rule⟩, fun _ => ⟨_, _, _, rfl, declared, writable⟩⟩

theorem HasArguments.argument {s : Signature} {args : List Tree} {index i : Nat} {x : Tree}
    (h : HasArguments r s index args) (hx : args[i]? = some x) :
    ∃ ty, HasTyping r x ty ∧ ty.result.castsTo (s.expected (index + i)) = true := by
  induction args generalizing index i with
  | nil => cases hx
  | cons arg args ih =>
    obtain _ | ⟨first, casts, rest⟩ := h
    cases i with
    | zero =>
      cases hx
      exact ⟨_, first, casts⟩
    | succ i =>
      rw [← Nat.add_assoc, Nat.add_right_comm]
      exact ih rest hx

theorem HasTyping.of_call {o : Origin} {f : FuncId} {args : List Tree} {ty : Typing}
    (h : HasTyping r (.call o f args) ty) :
    ∃ s, r.functionAt? f = some s ∧ HasArguments r s 0 args := by
  cases h with
  | call declared passed => exact ⟨_, declared, passed⟩

/-- What is typed has operands that are. -/
theorem HasTyping.operand {t x : Tree} {ty : Typing} (h : HasTyping r t ty) (hx : x ∈ t.operands) :
    ∃ tx, HasTyping r x tx := by
  cases h with
  | constant => cases hx
  | reference => cases hx
  | group inner =>
    rw [List.mem_singleton.1 hx]
    exact ⟨_, inner⟩
  | cast operand =>
    rw [List.mem_singleton.1 hx]
    exact ⟨_, operand⟩
  | unary operand =>
    rw [List.mem_singleton.1 hx]
    exact ⟨_, operand⟩
  | choice condition yes no =>
    simp only [Tree.operands, List.mem_cons, List.not_mem_nil, or_false] at hx
    rcases hx with rfl | rfl | rfl
    · exact ⟨_, condition⟩
    · exact ⟨_, yes⟩
    · exact ⟨_, no⟩
  | operate _ left right =>
    simp only [Tree.operands, List.mem_cons, List.not_mem_nil, or_false] at hx
    rcases hx with rfl | rfl
    · exact ⟨_, left⟩
    · exact ⟨_, right⟩
  | assign _ declared _ value =>
    simp only [Tree.operands, List.mem_cons, List.not_mem_nil, or_false] at hx
    rcases hx with rfl | rfl
    · exact ⟨_, .reference declared⟩
    · exact ⟨_, value⟩
  | call _ passed =>
    obtain ⟨i, hi⟩ := List.mem_iff_getElem?.1 hx
    obtain ⟨tx, htx, -⟩ := passed.argument hi
    exact ⟨tx, htx⟩

/-! ## the part that is blamed -/

/-- An operand, which yields `found`, that a part does not admit, whatever its other operands are.
The cause tells the place of the operand; the target of an assignment belongs to the operator. -/
inductive Tree.Unfit (r : Registry) (n : Tree) (found : ValueType) : Tree → TypeCause → Prop
  | left {o : Origin} {op : BinaryOp} {x : Tree}
      (rejected : ∀ x', (Tree.binary o op n x').Untyped r) :
      Unfit r n found (.binary o op n x) (.leftOperand (.binary op) found)
  | right {o : Origin} {op : BinaryOp} {l : Tree}
      (rejected : ∀ l', (op.isAssignment = true → l' = l) → (Tree.binary o op l' n).Untyped r) :
      Unfit r n found (.binary o op l n) (.rightOperand (.binary op) found)
  | only {o : Origin} {op : UnaryOp} (rejected : (Tree.unary o op n).Untyped r) :
      Unfit r n found (.unary o op n) (.rightOperand (.unary op) found)
  | condition {o : Origin} {y x : Tree} (rejected : ∀ y' x', (Tree.choice o n y' x').Untyped r) :
      Unfit r n found (.choice o n y x) (.condition found)
  | argument {o : Origin} {f : FuncId} {args : List Tree} {i : Nat} {s : Signature} {p : Parameter}
      (place : args[i]? = some n) (declared : r.functionAt? f = some s)
      (parameter : s.parameters[i]? = some p)
      (rejected : ∀ args', args'[i]? = some n → (Tree.call o f args').Untyped r) :
      Unfit r n found (.call o f args) (.argument s.name i p.type found)

/-- A part whose own rule fails on what its operands yield. -/
inductive Tree.Clashes (r : Registry) : Tree → TypeCause → Prop
  | operator {o : Origin} {op : BinaryOp} {l x : Tree} {a b : ValueType} (left : l.Yields r a)
      (right : x.Yields r b) (fails : ∀ ty, ¬ InfixRule op a b ty)
      (assigns : ∀ t, ¬ AssignRule op a b t) :
      Clashes r (.binary o op l x) (.mismatched (.binary op) a b)
  | branches {o : Origin} {c y x : Tree} {a b : ValueType} (yes : y.Yields r a) (no : x.Yields r b)
      (fails : ∀ t, ¬ BranchRule a b t) : Clashes r (.choice o c y x) (.mismatched .choice a b)
  | cast {o : Origin} {target a : ValueType} {x : Tree} (operand : x.Yields r a)
      (fails : a.castsTo target = false) : Clashes r (.cast o target x) (.cast a target)

/-- What is wrong with a part of a tree, and the error about it: it is an operand that its place
does not admit, with its extent; the target of an assignment that may not be written, or a part
whose rule fails, each with its token. -/
inductive Tree.Fault (r : Registry) (n t : Tree) : TypeError → Prop
  | operand {p : Tree} {found : ValueType} {cause : TypeCause} (part : p ∈ t.nodes)
      (type : n.Yields r found) (unfit : n.Unfit r found p cause) :
      Fault r n t (n.typeErrorOver cause)
  | target {o o' : Origin} {op : BinaryOp} {y : VarId} {v : Variable} {x : Tree}
      (part : .binary o op n x ∈ t.nodes) (assigns : op.isAssignment = true)
      (names : n = .reference o' y) (declared : r.variableAt? y = some v)
      (fixed : v.readOnly = true) (type : n.Yields r v.type)
      (rejected : ∀ x', (Tree.binary o op n x').Untyped r) :
      Fault r n t (n.typeError (.readOnly v.name))
  | whole {cause : TypeCause} (clashes : n.Clashes r cause) : Fault r n t (n.typeError cause)

/-- The part of a tree that an error blames. All its operands are accepted. -/
structure Tree.Blamed (r : Registry) (t n : Tree) (err : TypeError) : Prop where
  part : n ∈ t.nodes
  operands : ∀ x ∈ n.operands, ∃ found, x.Yields r found
  fault : n.Fault r t err

/-- A tree that has all its operands, refers to what is declared and passes no arguments that
nothing is declared for. -/
structure Tree.Resolved (r : Registry) (t : Tree) : Prop where
  complete : t.Complete
  known : ∀ n ∈ t.nodes, n.Known r
  within : ∀ n ∈ t.nodes, n.NoSurplus r

namespace Tree.Resolved

variable {t x : Tree}

theorem operand (h : t.Resolved r) (hx : x ∈ t.operands) : x.Resolved r where
  complete := h.complete.operands x hx
  known n hn := h.known n (mem_nodes_of_operand hx hn)
  within n hn := h.within n (mem_nodes_of_operand hx hn)

theorem self (h : t.Resolved r) : t ∈ t.nodes := mem_nodes_self h.complete.isHole

theorem yields (h : t.Resolved r) {d : Typed} (hd : checkTree r t = .ok d) : t.Yields r d.type :=
  yields_of_checkTree hd h.within

/-- The operands of an accepted part are accepted. -/
theorem operands_yield (h : t.Resolved r) {d : Typed} (hd : checkTree r t = .ok d)
    (hx : x ∈ t.operands) : ∃ found, x.Yields r found := by
  obtain ⟨ty, hty, -⟩ := checkTree_ok hd
  obtain ⟨tx, htx⟩ := hty.operand hx
  obtain ⟨ps, hps⟩ := htx.checks
  exact ⟨_, (h.operand hx).yields hps⟩

/-- An accepted operand that the part does not admit is to blame. -/
theorem blame_operand (h : t.Resolved r) (hx : x ∈ t.operands) {d : Typed}
    (hd : checkTree r x = .ok d) {cause : TypeCause} (unfit : x.Unfit r d.type t cause) :
    t.Blamed r x (x.typeErrorOver cause) where
  part := mem_nodes_of_operand hx (h.operand hx).self
  operands _ hy := (h.operand hx).operands_yield hd hy
  fault := .operand h.self ((h.operand hx).yields hd) unfit

/-- A part with accepted operands whose rule fails is to blame. -/
theorem blame_whole (h : t.Resolved r) (hoperands : ∀ x ∈ t.operands, ∃ d, checkTree r x = .ok d)
    {cause : TypeCause} (clashes : t.Clashes r cause) : t.Blamed r t (t.typeError cause) where
  part := h.self
  operands x hx := by
    obtain ⟨d, hd⟩ := hoperands x hx
    exact ⟨_, (h.operand hx).yields hd⟩
  fault := .whole clashes

end Tree.Resolved

theorem Tree.Fault.mono {t x n : Tree} {err : TypeError} (hx : x ∈ t.operands)
    (h : n.Fault r x err) : n.Fault r t err := by
  cases h with
  | operand part type unfit => exact .operand (mem_nodes_of_operand hx part) type unfit
  | target part assigns names declared fixed type rejected =>
    exact .target (mem_nodes_of_operand hx part) assigns names declared fixed type rejected
  | whole clashes => exact .whole clashes

theorem Tree.Blamed.mono {t x n : Tree} {err : TypeError} (hx : x ∈ t.operands)
    (h : x.Blamed r n err) : t.Blamed r n err where
  part := mem_nodes_of_operand hx h.part
  operands := h.operands
  fault := h.fault.mono hx

/-! ## the checker -/

theorem raise_error {α : Type} {f : TypeCause → TypeError} {x : Except TypeCause α} {e : TypeError}
    (h : raise f x = .error e) : ∃ cause, x = .error cause ∧ e = f cause := by
  cases x with
  | ok => cases h
  | error cause => exact ⟨cause, rfl, (Except.error.inj h).symm⟩

/-- A tree whose error, if the checker finds one, blames a part of it. -/
def Tree.Blames (r : Registry) (t : Tree) : Prop :=
  ∀ err, checkTree r t = .error err → ∃ n, t.Blamed r n err

/-- The error of an operand is one of the whole. -/
theorem Tree.Blames.operand {t x : Tree} (h : x.Blames r) (hx : x ∈ t.operands) {err : TypeError}
    (herr : checkTree r x = .error err) : ∃ n, t.Blamed r n err := by
  obtain ⟨n, hn⟩ := h err herr
  exact ⟨n, hn.mono hx⟩

section
variable {o : Origin} {err : TypeError}

theorem blames_cast {target : ValueType} {x : Tree} (ht : (Tree.cast o target x).Resolved r)
    (ih : x.Blames r) : (Tree.cast o target x).Blames r := by
  intro err h
  have hmem : x ∈ (Tree.cast o target x).operands := List.mem_singleton_self x
  rw [checkTree, (ht.operand hmem).complete.isHole, if_neg Bool.false_ne_true] at h
  rcases bind_eq_error.1 h with h | ⟨d, hd, h⟩
  · exact ih.operand hmem h
  split at h
  · cases h
  rename_i hcasts
  cases h
  refine ⟨_, ht.blame_whole (fun y hy => ?_) ?_⟩
  · exact ⟨d, List.mem_singleton.1 hy ▸ hd⟩
  · exact .cast ((ht.operand hmem).yields hd) (Bool.eq_false_iff.2 hcasts)

theorem blames_unary {op : UnaryOp} {x : Tree} (ht : (Tree.unary o op x).Resolved r)
    (ih : x.Blames r) : (Tree.unary o op x).Blames r := by
  intro err h
  have hmem : x ∈ (Tree.unary o op x).operands := List.mem_singleton_self x
  rw [checkTree, (ht.operand hmem).complete.isHole, if_neg Bool.false_ne_true] at h
  rcases bind_eq_error.1 h with h | ⟨d, hd, h⟩
  · exact ih.operand hmem h
  rcases bind_eq_error.1 h with h | ⟨t, ht, h⟩
  · obtain ⟨cause, hcause, rfl⟩ := raise_error h
    obtain rfl := unaryType_fault hcause
    refine ⟨x, ht.blame_operand hmem hd (.only (Tree.untyped_of_hasTyping fun ty hty => ?_))⟩
    obtain ⟨tx, t, htx, hrule⟩ := hty.of_unary
    obtain ⟨ty, hty, hresult, -⟩ := checkTree_ok hd
    rw [htx.unique hty, hresult] at hrule
    exact not_ok_of_error hcause t hrule
  · cases h

theorem blames_choice {c y x : Tree} (ht : (Tree.choice o c y x).Resolved r) (ihc : c.Blames r)
    (ihy : y.Blames r) (ihx : x.Blames r) : (Tree.choice o c y x).Blames r := by
  intro err h
  have hc : c ∈ (Tree.choice o c y x).operands := by simp [Tree.operands]
  have hy : y ∈ (Tree.choice o c y x).operands := by simp [Tree.operands]
  have hx : x ∈ (Tree.choice o c y x).operands := by simp [Tree.operands]
  rw [checkTree, (ht.operand hc).complete.isHole, (ht.operand hy).complete.isHole,
    (ht.operand hx).complete.isHole] at h
  rcases bind_eq_error.1 h with h | ⟨dc, hdc, h⟩
  · exact ihc.operand hc h
  rcases bind_eq_error.1 h with h | ⟨dy, hdy, h⟩
  · exact ihy.operand hy h
  rcases bind_eq_error.1 h with h | ⟨dx, hdx, h⟩
  · exact ihx.operand hx h
  split at h
  · rename_i htruth
    cases h
    refine ⟨c, ht.blame_operand hc hdc (.condition fun y' x' => ?_)⟩
    refine Tree.untyped_of_hasTyping fun ty hty => ?_
    cases hty with
    | choice condition _ _ truth =>
      obtain ⟨tc, htc, hresult, -⟩ := checkTree_ok hdc
      rw [condition.unique htc, hresult] at truth
      rw [truth] at htruth
      cases htruth
  · rcases bind_eq_error.1 h with h | ⟨t, ht, h⟩
    · obtain ⟨cause, hcause, rfl⟩ := raise_error h
      obtain rfl := branchType_fault hcause
      refine ⟨_, ht.blame_whole (fun z hz => ?_) (.branches ((ht.operand hy).yields hdy)
        ((ht.operand hx).yields hdx) fun t hrule => ?_)⟩
      · simp only [Tree.operands, List.mem_cons, List.not_mem_nil, or_false] at hz
        rcases hz with rfl | rfl | rfl
        · exact ⟨dc, hdc⟩
        · exact ⟨dy, hdy⟩
        · exact ⟨dx, hdx⟩
      · exact not_ok_of_error hcause t (branchRule_iff.1 hrule)
    · cases h

/-- The rule of an operator between two accepted operands fails. -/
theorem blamed_of_rule {op : BinaryOp} {l x : Tree} (ht : (Tree.binary o op l x).Resolved r)
    {dl dx : Typed} (hl : checkTree r l = .ok dl) (hx : checkTree r x = .ok dx) {cause : TypeCause}
    (h : infixType op dl.type dx.type = .error cause) :
    ∃ n, (Tree.binary o op l x).Blamed r n (blame (.binary o op l x) l x cause) := by
  have hlmem : l ∈ (Tree.binary o op l x).operands := List.mem_cons_self ..
  have hxmem : x ∈ (Tree.binary o op l x).operands :=
    List.mem_cons_of_mem _ (List.mem_singleton_self x)
  obtain ⟨tl, htl, htype, -⟩ := checkTree_ok hl
  obtain ⟨tx, htx, hvalue, -⟩ := checkTree_ok hx
  cases infixType_fault h with
  | left never =>
    refine ⟨l, ht.blame_operand hlmem hl (.left fun x' => ?_)⟩
    refine Tree.untyped_of_hasTyping fun ty hty => ?_
    obtain ⟨⟨tl', tx', t, htl', -, hrule⟩, -⟩ := hty.of_binary
    rw [htl'.unique htl, htype] at hrule
    exact never _ t hrule
  | right never =>
    refine ⟨x, ht.blame_operand hxmem hx (.right fun l' hl' => ?_)⟩
    refine Tree.untyped_of_hasTyping fun ty hty => ?_
    obtain ⟨⟨tl', tx', t, htl', htx', hrule⟩, -⟩ := hty.of_binary
    rw [htx'.unique htx, hvalue] at hrule
    refine never _ t (fun assigns => ?_) hrule
    obtain rfl := hl' assigns
    rw [htl'.unique htl, htype]
  | pair fails =>
    refine ⟨_, ht.blame_whole (fun y hy => ?_) (.operator ((ht.operand hlmem).yields hl)
      ((ht.operand hxmem).yields hx) (fun ty hrule => ?_) fun t hrule => ?_)⟩
    · rcases List.mem_cons.1 hy with rfl | hy
      · exact ⟨dl, hl⟩
      · exact ⟨dx, List.mem_singleton.1 hy ▸ hx⟩
    · obtain ⟨t, ht, -⟩ := (infixRule_iff hrule.plain).1 hrule
      exact fails t ht
    · rw [infixType_of_assignment hrule.assigns] at fails
      exact fails t ((assignRule_iff hrule.assigns).1 hrule)

/-- The target of an assignment, if it may not be written. -/
theorem blamed_of_readOnly {op : BinaryOp} {o' : Origin} {y : VarId} {x : Tree} {v : Variable}
    (ht : (Tree.binary o op (.reference o' y) x).Resolved r) (assigns : op.isAssignment = true)
    (hv : r.variableAt? y = some v) (hfixed : v.readOnly = true) :
    ∃ n, (Tree.binary o op (.reference o' y) x).Blamed r n
      ((Tree.reference o' y).typeError (.readOnly v.name)) := by
  have hl : Tree.reference o' y ∈ (Tree.binary o op (.reference o' y) x).operands :=
    List.mem_cons_self ..
  have hyields : (Tree.reference o' y).Yields r v.type :=
    (ht.operand hl).yields (d := .node o'.id (.same v.type) []) (by rw [checkTree, hv])
  refine ⟨_, Tree.mem_nodes_of_operand hl (ht.operand hl).self, List.forall_mem_nil _,
    .target ht.self assigns rfl hv hfixed hyields fun x' => ?_⟩
  refine Tree.untyped_of_hasTyping fun ty hty => ?_
  obtain ⟨_, _, v', hsame, hv', hwritable⟩ := hty.of_binary.2 assigns
  cases hsame
  cases hv.symm.trans hv'
  rw [hwritable] at hfixed
  cases hfixed

theorem blames_assignment {op : BinaryOp} {l x : Tree} (ht : (Tree.binary o op l x).Resolved r)
    (assigns : op.isAssignment = true) (ihl : l.Blames r) (ihx : x.Blames r) :
    (Tree.binary o op l x).Blames r := by
  intro err h
  have hl : l ∈ (Tree.binary o op l x).operands := List.mem_cons_self ..
  have hx : x ∈ (Tree.binary o op l x).operands :=
    List.mem_cons_of_mem _ (List.mem_singleton_self x)
  rw [checkTree, (ht.operand hl).complete.isHole, (ht.operand hx).complete.isHole,
    if_neg (by decide), if_pos assigns] at h
  rcases bind_eq_error.1 h with h | ⟨dl, hdl, h⟩
  · exact ihl.operand hl h
  split at h
  · rename_i hvariable
    cases h
    refine ⟨l, ht.blame_operand hl hdl (.left fun x' => ?_)⟩
    refine Tree.untyped_of_hasTyping fun ty hty => ?_
    obtain ⟨o', y, v, rfl, -⟩ := hty.of_binary.2 assigns
    cases hvariable
  rename_i y hvariable
  obtain ⟨o', rfl⟩ := singleVariable?_eq_some hvariable
  obtain ⟨v, hv⟩ : ∃ v, r.variableAt? y = some v :=
    (ht.operand hl).known _ (ht.operand hl).self
  have hdeclared : dl.type = v.type := by
    rw [checkTree, hv] at hdl
    cases hdl
    rfl
  rw [hv] at h
  rcases bind_eq_error.1 h with h | ⟨dx, hdx, h⟩
  · exact ihx.operand hx h
  split at h
  · rename_i hfixed
    cases h
    exact blamed_of_readOnly ht assigns hv hfixed
  rcases bind_eq_error.1 h with h | ⟨t, ht, h⟩
  · obtain ⟨cause, hcause, rfl⟩ := raise_error h
    rw [← infixType_of_assignment assigns, ← hdeclared] at hcause
    exact blamed_of_rule ht hdl hdx hcause
  · cases h

theorem blames_operation {op : BinaryOp} {l x : Tree} (ht : (Tree.binary o op l x).Resolved r)
    (plain : op.isAssignment = false) (ihl : l.Blames r) (ihx : x.Blames r) :
    (Tree.binary o op l x).Blames r := by
  intro err h
  have hl : l ∈ (Tree.binary o op l x).operands := List.mem_cons_self ..
  have hx : x ∈ (Tree.binary o op l x).operands :=
    List.mem_cons_of_mem _ (List.mem_singleton_self x)
  rw [checkTree, (ht.operand hl).complete.isHole, (ht.operand hx).complete.isHole,
    if_neg (by decide), if_neg (Bool.eq_false_iff.1 plain)] at h
  rcases bind_eq_error.1 h with h | ⟨dl, hdl, h⟩
  · exact ihl.operand hl h
  rcases bind_eq_error.1 h with h | ⟨dx, hdx, h⟩
  · exact ihx.operand hx h
  rcases bind_eq_error.1 h with h | ⟨t, ht, h⟩
  · obtain ⟨cause, hcause, rfl⟩ := raise_error h
    exact blamed_of_rule ht hdl hdx hcause
  · cases h

/-- The first argument that is at fault: it has an error of its own, or does not convert to what is
expected at its position. -/
theorem checkArguments_error {s : Signature} {index : Nat} {args : List Tree} {err : TypeError}
    (h : checkArguments r s index args = .error err) :
    ∃ i x, args[i]? = some x ∧ (checkTree r x = .error err ∨
      ∃ d, checkTree r x = .ok d ∧ d.type.castsTo (s.expected (index + i)) = false ∧
        err = x.typeErrorOver (.argument s.name (index + i) (s.expected (index + i)) d.type)) := by
  induction args generalizing index with
  | nil => cases h
  | cons arg args ih =>
    rw [checkArguments] at h
    rcases bind_eq_error.1 h with h | ⟨d, hd, h⟩
    · exact ⟨0, arg, rfl, .inl h⟩
    dsimp only at h
    split at h
    · rename_i hcasts
      exact ⟨0, arg, rfl, .inr ⟨d, hd, Bool.not_eq_true' _ ▸ hcasts, (Except.error.inj h).symm⟩⟩
    rcases bind_eq_error.1 h with h | ⟨ps, hps, h⟩
    · obtain ⟨i, x, hx, hfault⟩ := ih h
      refine ⟨i + 1, x, hx, ?_⟩
      rw [← Nat.add_assoc, Nat.add_right_comm]
      exact hfault
    · cases h

theorem blames_call {f : FuncId} {args : List Tree} (ht : (Tree.call o f args).Resolved r)
    (ih : ∀ x ∈ args, x.Blames r) : (Tree.call o f args).Blames r := by
  intro err h
  obtain ⟨s, hs⟩ : ∃ s, r.functionAt? f = some s := ht.known _ ht.self
  have hcount : args.length ≤ s.arity := ht.within _ ht.self s hs
  rw [checkTree, hs] at h
  rcases bind_eq_error.1 h with h | ⟨ps, hps, h⟩
  · obtain ⟨i, x, hx, hfault⟩ := checkArguments_error h
    have hmem : x ∈ (Tree.call o f args).operands := List.mem_of_getElem? hx
    rcases hfault with hfault | ⟨d, hd, hcasts, rfl⟩
    · exact (ih x hmem).operand hmem hfault
    obtain ⟨p, hp⟩ : ∃ p, s.parameters[i]? = some p := by
      have hi := (List.getElem?_eq_some_iff.1 hx).1
      exact ⟨_, List.getElem?_eq_getElem (Nat.lt_of_lt_of_le hi hcount)⟩
    have hexpected : s.expected i = p.type := by
      unfold Signature.expected
      rw [hp]
      rfl
    rw [Nat.zero_add, hexpected] at hcasts ⊢
    refine ⟨x, ht.blame_operand hmem hd (.argument hx hs hp fun args' hx' => ?_)⟩
    refine Tree.untyped_of_hasTyping fun ty hty => ?_
    obtain ⟨s', hs', hargs⟩ := hty.of_call
    cases hs.symm.trans hs'
    obtain ⟨tx, htx, hconverts⟩ := hargs.argument hx'
    obtain ⟨tx', htx', hresult, -⟩ := checkTree_ok hd
    rw [Nat.zero_add, hexpected, htx.unique htx', hresult, hcasts] at hconverts
    cases hconverts
  · cases h

end

/-- Every error of the checker in a tree of declared names blames a part. -/
theorem Tree.Resolved.blames {t : Tree} (ht : t.Resolved r) : t.Blames r := by
  induction t using Tree.operand_induction with
  | part t ih =>
    have hoperand : ∀ x ∈ t.operands, x.Blames r := fun x hx => ih x hx (ht.operand hx)
    cases t with
    | hole => cases ht.complete
    | constant => exact fun err h => nomatch h
    | reference o x =>
      intro err h
      obtain ⟨v, hv⟩ : ∃ v, r.variableAt? x = some v := ht.known _ ht.self
      rw [checkTree, hv] at h
      cases h
    | group o x =>
      intro err h
      have hmem : x ∈ (Tree.group o x).operands := List.mem_singleton_self x
      rw [checkTree] at h
      rcases bind_eq_error.1 h with h | ⟨d, hd, h⟩
      · exact (hoperand x hmem).operand hmem h
      · cases h
    | cast o target x => exact blames_cast ht (hoperand x (by simp [operands]))
    | unary o op x => exact blames_unary ht (hoperand x (by simp [operands]))
    | choice o c y x =>
      exact blames_choice ht (hoperand c (by simp [operands])) (hoperand y (by simp [operands]))
        (hoperand x (by simp [operands]))
    | binary o op l x =>
      have hl : l.Blames r := hoperand l (by simp [operands])
      have hx : x.Blames r := hoperand x (by simp [operands])
      cases hop : op.isAssignment with
      | true => exact blames_assignment ht hop hl hx
      | false => exact blames_operation ht hop hl hx
    | call o f args => exact blames_call ht hoperand

/-- What is blamed has the id that the error names, and its cause is no missing context. -/
theorem Tree.Fault.names {n t : Tree} {err : TypeError} (h : n.Fault r t err) :
    n.id = err.part ∧ err.cause ≠ .missingContext := by
  cases h with
  | operand _ _ unfit =>
    refine ⟨rfl, ?_⟩
    rintro ⟨⟩
    cases unfit
  | target => exact ⟨rfl, nofun⟩
  | whole clashes =>
    refine ⟨rfl, ?_⟩
    rintro ⟨⟩
    cases clashes

theorem resolved_of_parse {r' : Registry} {limits : Limits} {s : TokenStream} {e : Expr}
    (hr : r.Declared) (hr' : r'.Extends r) (parsed : parse s r limits = .ok e) :
    e.tree.Resolved r' where
  complete := (phrase_of_parse parsed).complete
  known n hn := Tree.Known.extend hr' ((phrase_of_parse parsed).known hr n hn)
  within := noSurplus_of_parse hr hr' parsed

/-- An error about a parsed expression blames one part of it. Its operands are all accepted, and it
is either an accepted operand that its place does not admit, or a part whose rule fails on what its
operands yield. -/
theorem check_blames {r' : Registry} {limits : Limits} {s : TokenStream} {e : Expr}
    (hr : r.Declared) (hr' : r'.Extends r) (parsed : parse s r limits = .ok e) {err : TypeError}
    (h : check e r' = .error err) :
    err.cause ≠ .missingContext ∧
      ∃ n, e.tree.Blamed r' n err ∧ ∀ m ∈ e.tree.nodes, m.id = err.part ↔ m = n := by
  obtain ⟨n, hn⟩ := (resolved_of_parse hr hr' parsed).blames err (map_eq_error.1 h)
  obtain ⟨hid, hcause⟩ := hn.fault.names
  refine ⟨hcause, n, hn, fun m hm => ?_⟩
  rw [← hid]
  refine ⟨fun hsame => ?_, fun hsame => hsame ▸ rfl⟩
  exact (Tree.numbered_of_perm (parse_ids parsed)).same m hm n hn.part hsame

/-- A sum with a text in a choice. -/
def unfitSource : String := "x = f(1) ? 2 : x + \"a\""

def unfitTokens : List Token :=
  [⟨.identifier, ⟨0, 1⟩⟩, ⟨.operator, ⟨2, 3⟩⟩, ⟨.identifier, ⟨4, 5⟩⟩, ⟨.parenthesis, ⟨5, 6⟩⟩,
   ⟨.number, ⟨6, 7⟩⟩, ⟨.parenthesis, ⟨7, 8⟩⟩, ⟨.operator, ⟨9, 10⟩⟩, ⟨.number, ⟨11, 12⟩⟩,
   ⟨.operator, ⟨13, 14⟩⟩, ⟨.identifier, ⟨15, 16⟩⟩, ⟨.operator, ⟨17, 18⟩⟩, ⟨.string, ⟨20, 21⟩⟩]

/-- The error about it: a text is added. -/
def unfitError : TypeError := ⟨.rightOperand (.binary (.arith .add)) .string, 9, ⟨20, 21⟩⟩

theorem check_unfit :
    ∃ e, parse ⟨unfitSource.toList, unfitTokens⟩ sampleRegistry {} = .ok e ∧
      check e sampleRegistry = .error unfitError := ⟨_, rfl, rfl⟩

theorem check_blames_unfit :
    ∃ e, parse ⟨unfitSource.toList, unfitTokens⟩ sampleRegistry {} = .ok e ∧
      check e sampleRegistry = .error unfitError ∧ unfitError.cause ≠ .missingContext ∧
      ∃ n, e.tree.Blamed sampleRegistry n unfitError ∧
        ∀ m ∈ e.tree.nodes, m.id = unfitError.part ↔ m = n := by
  obtain ⟨e, parsed, checked⟩ := check_unfit
  exact ⟨e, parsed, checked, check_blames declared_sample (.refl _) parsed checked⟩

end ExprEngine
