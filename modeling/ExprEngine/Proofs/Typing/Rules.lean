import ExprEngine.Typing

/-!
# What the typing rules promise

The type that a rule computes in is one that both operands convert to, and one that the operator is
defined on.

* `arithmeticType_ok`, `bitwiseType_ok`   numbers among themselves, integers among themselves;
* `comparisonType_ok`                     numbers, or one type that is only equal or not;
* `branchType_ok`                         a type that both branches convert to.
-/

namespace ExprEngine

namespace ValueType

variable {a b t : ValueType}

theorem isNumeric_of_isInteger (h : t.isInteger = true) : t.isNumeric = true := by
  cases t with
  | int => rfl
  | _ => cases h

/-- Numbers convert to numbers. -/
theorem castsTo_of_isNumeric (ha : a.isNumeric = true) (ht : t.isNumeric = true) :
    a.castsTo t = true := by
  unfold castsTo
  cases t with
  | int => simp [ha]
  | float => simp [ha]
  | _ => cases ht

theorem castsTo_bool (ha : a.isBoolable = true) : a.castsTo .bool = true := by
  unfold castsTo
  simp [ha]

theorem widen?_ok {signed : Bool} (h : a.widen? b signed = some t) :
    a.isNumeric = true ∧ b.isNumeric = true ∧ t.isNumeric = true := by
  unfold widen? at h
  split at h
  · cases h
  · rename_i hn
    simp only [Bool.or_eq_true, Bool.not_eq_true', not_or, Bool.not_eq_false] at hn
    refine ⟨hn.1, hn.2, ?_⟩
    split at h
    · cases h
      rfl
    split at h
    · cases h
      rfl
    · cases h
      rfl

theorem integer?_ok {bits : Nat} {signed : Bool} (h : integer? bits signed = some t) :
    t.isInteger = true := by
  unfold integer? at h
  split at h
  · cases h
    rfl
  · cases h
    rfl
  · cases h
    rfl
  · cases h
    rfl
  · cases h

theorem integer?_bits (w : Width) (signed : Bool) :
    integer? w.bits signed = some (.int ⟨signed, w⟩) := by
  cases w <;> rfl

theorem widen?_float {signed : Bool} (ha : a.isNumeric = true) (hb : b.isNumeric = true)
    (hf : (a.isFloat || b.isFloat) = true) : a.widen? b signed = some r64 := by
  unfold widen?
  rw [ha, hb, hf]
  rfl

/-- Any two numbers widen. -/
theorem exists_widen? (ha : a.isNumeric = true) (hb : b.isNumeric = true) (signed : Bool) :
    ∃ t, a.widen? b signed = some t := by
  unfold widen?
  rw [ha, hb, if_neg (by decide)]
  split
  · exact ⟨_, rfl⟩
  split
  · exact ⟨_, rfl⟩
  · exact ⟨_, rfl⟩

/-- Integers widen to 64 bits. -/
theorem widen?_int (s u : IntType) (force : Bool) :
    (ValueType.int s).widen? (.int u) force =
      some (.int ⟨force || s.signed || u.signed, .w64⟩) := by
  obtain ⟨ss, sw⟩ := s
  obtain ⟨us, uw⟩ := u
  cases force <;> cases ss <;> cases us <;> rfl

end ValueType

variable {left right t : ValueType}

theorem arithmeticType_ok {op : Operator} (h : arithmeticType op left right = .ok t) :
    left.isNumeric = true ∧ right.isNumeric = true ∧ t.isNumeric = true := by
  unfold arithmeticType at h
  split at h
  · cases h
  split at h
  · cases h
  split at h
  · rename_i hw
    cases h
    exact ValueType.widen?_ok hw
  · cases h

theorem bitwiseType_ok {op : Operator} (h : bitwiseType op left right = .ok t) :
    left.isInteger = true ∧ right.isInteger = true ∧ t.isInteger = true := by
  unfold bitwiseType at h
  split at h
  · cases h
  rename_i hl
  split at h
  · cases h
  rename_i hr
  refine ⟨by simpa using hl, by simpa using hr, ?_⟩
  dsimp only at h
  split at h
  · rename_i hi
    cases h
    exact ValueType.integer?_ok hi
  · cases h

/-- A comparison is of numbers, or of two things of one type for which only equality is asked. -/
theorem comparisonType_ok {op : CompareOp} (h : comparisonType op left right = .ok t) :
    (left.isNumeric = true ∧ right.isNumeric = true ∧ t.isNumeric = true) ∨
      (left = t ∧ right = t ∧ t ≠ .void ∧ (op = .eq ∨ op = .ne)) := by
  unfold comparisonType at h
  dsimp only at h
  split at h
  · cases h
  rename_i hl
  split at h
  · cases h
  split at h
  · rename_i hw
    cases h
    exact .inl (ValueType.widen?_ok hw)
  split at h
  · cases h
  rename_i hlr
  split at h
  · rename_i hop
    cases h
    exact .inr ⟨rfl, (Decidable.not_not.1 hlr).symm, hl, hop⟩
  · cases h

theorem logicalType_ok {op : LogicOp} (h : logicalType op left right = .ok t) :
    left.isBoolable = true ∧ right.isBoolable = true ∧ t = .bool := by
  unfold logicalType at h
  dsimp only at h
  split at h
  · cases h
  rename_i hl
  split at h
  · cases h
  rename_i hr
  cases h
  exact ⟨by simpa using hl, by simpa using hr, rfl⟩

theorem branchType_ok {yes no : ValueType} (h : branchType yes no = .ok t) :
    yes.castsTo t = true ∧ no.castsTo t = true := by
  unfold branchType at h
  split at h
  · rename_i he
    subst he
    cases h
    exact ⟨ValueType.castsTo_self _, ValueType.castsTo_self _⟩
  split at h
  · rename_i hw
    cases h
    obtain ⟨hy, hn, ht⟩ := ValueType.widen?_ok hw
    exact ⟨ValueType.castsTo_of_isNumeric hy ht, ValueType.castsTo_of_isNumeric hn ht⟩
  · cases h

end ExprEngine
