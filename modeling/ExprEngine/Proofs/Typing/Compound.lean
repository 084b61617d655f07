import ExprEngine.Proofs.Relabel
import ExprEngine.Proofs.Typing.Judgement
import ExprEngine.Proofs.Typing.Relation

/-!
# Types of compound assignments

A compound assignment computes in the type of its operator over the variable and the value. Written
out, as an assignment of that operator, it has a type exactly when it had one before.

* `Tree.compounded`        `x op= (t)`, origins apart;
* `Tree.expanded`          `x = x op (t)`, origins apart, with `Tree.combined` on its right;
* `compoundType_iff`       the rule of a compound assignment is that of its operator;
* `hasTyping_compounded`, `hasTyping_expanded`   the types of both forms;
* `typable_compounded_iff`   one form has a type exactly when the other does.
-/

namespace ExprEngine

variable {r : Registry}

/-! ## the two forms -/

namespace Tree

/-- `x op= (t)`, origins apart. -/
def compounded (op : CompoundOp) (x : VarId) (t : Tree) : Tree :=
  .binary nowhere (.compound op) (.reference nowhere x) (.group nowhere t)

/-- `x op (t)`, origins apart. -/
def combined (op : CompoundOp) (x : VarId) (t : Tree) : Tree :=
  .binary nowhere op.base (.reference nowhere x) (.group nowhere t)

/-- `x = x op (t)`, origins apart. -/
def expanded (op : CompoundOp) (x : VarId) (t : Tree) : Tree :=
  .binary nowhere .assign (.reference nowhere x) (combined op x t)

end Tree

namespace CompoundOp

variable {a b t : ValueType} (op : CompoundOp)

theorem forcesSign_base :
    (Operator.binary (.compound op)).forcesSign = (Operator.binary op.base).forcesSign := by
  cases op <;> rfl

theorem intersects_base :
    (Operator.binary (.compound op)).intersects = (Operator.binary op.base).intersects := by
  cases op <;> rfl

theorem base_isAssignment : op.base.isAssignment = false := by
  cases op <;> rfl

theorem infixTyping_base (t : ValueType) : infixTyping op.base t = .same t := by
  cases op <;> rfl

/-- A compound assignment computes in the type that its operator computes in. -/
theorem compoundType_iff :
    assignmentType (.compound op) a b = .ok t ↔ infixType op.base a b = .ok t := by
  have hsign := op.forcesSign_base
  have hcommon := op.intersects_base
  rcases op.base_cases a b with ⟨base, hbase, hrule⟩ | ⟨base, hbase, hrule⟩
  · rw [hbase] at hsign
    rw [hrule, hbase, arithmeticType_iff, hsign]
    exact arithmeticType_iff.symm
  · rw [hbase] at hcommon
    rw [hrule, hbase, bitwiseType_iff, hcommon]
    exact bitwiseType_iff.symm

/-- What the operator yields can be stored again. -/
theorem base_castsTo (h : infixType op.base a b = .ok t) : t.castsTo a = true := by
  obtain ⟨ha, -, ht, -⟩ := base_ok (op.compoundType_iff.2 h)
  exact ValueType.castsTo_of_isNumeric ht ha

end CompoundOp

variable {op : CompoundOp} {x : VarId} {v : Variable} {t : Tree} {ty ty' : Typing}

theorem hasTyping_compounded (hx : r.variableAt? x = some v) (ht : HasTyping r t ty) :
    HasTyping r (.compounded op x t) ty' ↔
      v.readOnly = false ∧ ∃ u, infixType op.base v.type ty.result = .ok u ∧ ty' = ⟨v.type, u⟩ := by
  constructor
  · intro h
    cases h with
    | operate plain => cases plain
    | assign _ declared writable value rule =>
      rw [hx] at declared
      cases declared
      cases value with
      | group inner =>
        obtain rfl := inner.unique ht
        exact ⟨writable, _, op.compoundType_iff.1 rule, rfl⟩
  · rintro ⟨writable, u, rule, rfl⟩
    exact .assign rfl hx writable (.group ht) (op.compoundType_iff.2 rule)

theorem hasTyping_combined (hx : r.variableAt? x = some v) (ht : HasTyping r t ty) :
    HasTyping r (.combined op x t) ty' ↔
      ∃ u, infixType op.base v.type ty.result = .ok u ∧ ty' = .same u := by
  constructor
  · intro h
    cases h with
    | operate _ left right rule =>
      cases left with
      | reference declared =>
        rw [hx] at declared
        cases declared
        cases right with
        | group inner =>
          obtain rfl := inner.unique ht
          exact ⟨_, rule, op.infixTyping_base _⟩
    | assign assigns =>
      rw [op.base_isAssignment] at assigns
      cases assigns
  · rintro ⟨u, rule, rfl⟩
    rw [← op.infixTyping_base]
    exact .operate op.base_isAssignment (.reference hx) (.group ht) rule

theorem hasTyping_expanded (hx : r.variableAt? x = some v) (ht : HasTyping r t ty) :
    HasTyping r (.expanded op x t) ty' ↔
      v.readOnly = false ∧ ∃ u, infixType op.base v.type ty.result = .ok u ∧
        ty' = ⟨v.type, v.type⟩ := by
  constructor
  · intro h
    cases h with
    | operate plain => cases plain
    | assign _ declared writable value rule =>
      rw [hx] at declared
      cases declared
      cases (assignRule_iff rfl).2 rule
      obtain ⟨u, rule', -⟩ := (hasTyping_combined hx ht).1 value
      exact ⟨writable, u, rule', rfl⟩
  · rintro ⟨writable, u, rule, rfl⟩
    refine .assign rfl hx writable ((hasTyping_combined hx ht).2 ⟨u, rule, rfl⟩) ?_
    exact if_pos (op.base_castsTo rule)

/-- The two forms have types for the same variables and operands. -/
theorem typable_compounded_iff (hx : r.variableAt? x = some v) (ht : HasTyping r t ty) :
    (∃ ty', HasTyping r (.compounded op x t) ty') ↔ ∃ ty', HasTyping r (.expanded op x t) ty' := by
  simp only [hasTyping_compounded hx ht, hasTyping_expanded hx ht]
  constructor
  · rintro ⟨_, writable, u, rule, -⟩
    exact ⟨_, writable, u, rule, rfl⟩
  · rintro ⟨_, writable, u, rule, -⟩
    exact ⟨_, writable, u, rule, rfl⟩

end ExprEngine
