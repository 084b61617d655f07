import ExprEngine.Machine.Operation
import ExprEngine.Proofs.Outcome
import ExprEngine.Proofs.Typing.Rules

/-!
# Operators on values of their type

On operands of the type that its rule computes in, an operator yields a value of the type that the
rule gives it, or divides by zero.

* `Yields`                  a value of a type, or a division by zero;
* `BinaryOp.apply_arith`    numbers of one type;
* `BinaryOp.apply_bits`     integers of one type;
* `BinaryOp.apply_compare`  whatever the rule for comparisons accepts;
* `CompoundOp.base_ok`      what a compound assignment combines.
-/

namespace ExprEngine

/-- A computation that gives a value of a type, or divides by zero. -/
def Yields (x : Except EvalCause Value) (t : ValueType) : Prop :=
  (∃ v, x = .ok v ∧ v.type = t) ∨ x = .error .divideByZero

theorem Yields.ok {v : Value} {t : ValueType} (h : v.type = t) : Yields (.ok v) t :=
  .inl ⟨v, rfl, h⟩

/-! ## conversions -/

theorem Value.cast?_of_castsTo {v : Value} {t : ValueType} (h : v.type.castsTo t = true) :
    ∃ w, v.cast? t = some w ∧ w.type = t := by
  rw [← Value.isSome_cast?] at h
  obtain ⟨w, hw⟩ := Option.isSome_iff_exists.1 h
  exact ⟨w, hw, Value.type_of_cast? hw⟩

theorem Value.truth_of_isBoolable {v : Value} (h : v.type.isBoolable = true) :
    ∃ b, v.truth = .ok b := by
  cases v with
  | void => cases h
  | _ => exact ⟨_, rfl⟩

/-! ## operators with two operands -/

variable {a b : Value} {t : ValueType}

/-- Two numbers of one type: integers, or floats of one width. -/
inductive SameNumbers : Value → Value → ValueType → Prop
  | int {m n : FixedInt} (same : m.type = n.type) :
      SameNumbers (.int m) (.int n) (.int m.type)
  | r32 {x y : Float32} : SameNumbers (.r32 x) (.r32 y) .r32
  | r64 {x y : Float} : SameNumbers (.r64 x) (.r64 y) .r64

theorem sameNumbers (ha : a.type = t) (hb : b.type = t) (ht : t.isNumeric = true) :
    SameNumbers a b t := by
  subst ha
  cases a with
  | int m =>
    cases b with
    | int n => exact .int (ValueType.int.inj hb).symm
    | _ => cases hb
  | r32 x =>
    cases b with
    | r32 y => exact .r32
    | _ => cases hb
  | r64 x =>
    cases b with
    | r64 y => exact .r64
    | _ => cases hb
  | _ => cases ht

theorem ArithOp.onInts_cases (op : ArithOp) (m n : Int) :
    (∃ k, op.onInts m n = .ok k) ∨ op.onInts m n = .error .divideByZero := by
  cases op with
  | div =>
    unfold onInts
    by_cases hn : n = 0
    · exact .inr (if_pos hn)
    · exact .inl ⟨_, if_neg hn⟩
  | mod =>
    unfold onInts
    by_cases hn : n = 0
    · exact .inr (if_pos hn)
    · exact .inl ⟨_, if_neg hn⟩
  | _ => exact .inl ⟨_, rfl⟩

theorem BinaryOp.apply_arith (op : ArithOp) (ha : a.type = t) (hb : b.type = t)
    (ht : t.isNumeric = true) : Yields ((BinaryOp.arith op).apply a b) t := by
  cases sameNumbers ha hb ht with
  | @int m n same =>
    have happly : (BinaryOp.arith op).apply (.int m) (.int n) =
        (op.onInts m.val n.val).map m.type.narrow := if_pos same
    rw [happly]
    rcases op.onInts_cases m.val n.val with ⟨k, hk⟩ | hk
    · rw [hk]
      exact .ok rfl
    · rw [hk]
      exact .inr rfl
  | r32 => exact .ok rfl
  | r64 => exact .ok rfl

theorem BinaryOp.apply_bits (op : BitOp) (ha : a.type = t) (hb : b.type = t)
    (ht : t.isInteger = true) : Yields ((BinaryOp.bits op).apply a b) t := by
  cases sameNumbers ha hb (ValueType.isNumeric_of_isInteger ht) with
  | @int m n same =>
    have happly : (BinaryOp.bits op).apply (.int m) (.int n) =
        .ok (m.type.narrow (op.onInts m.val n.val)) := if_pos same
    rw [happly]
    exact .ok rfl
  | r32 => cases ht
  | r64 => cases ht

theorem BinaryOp.apply_compare_numbers (op : CompareOp) (ha : a.type = t) (hb : b.type = t)
    (ht : t.isNumeric = true) : Yields ((BinaryOp.compare op).apply a b) .bool := by
  have floats : ∀ (round : Float → Value) (x y : Float),
      Yields ((BinaryOp.compare op).onFloats round x y) .bool := by
    intro round x y
    unfold BinaryOp.onFloats
    dsimp only
    split
    · exact .ok rfl
    · exact .ok rfl
  cases sameNumbers ha hb ht with
  | @int m n same =>
    have happly : (BinaryOp.compare op).apply (.int m) (.int n) =
        .ok (.bool (op.holds (Ord.compare m.val n.val))) := if_pos same
    rw [happly]
    exact .ok rfl
  | r32 => exact floats (fun z => .r32 z.toFloat32) _ _
  | r64 => exact floats .r64 _ _

theorem BinaryOp.onEquality_ok {op : CompareOp} (hop : op = .eq ∨ op = .ne) (same : Bool) :
    Yields ((BinaryOp.compare op).onEquality same) .bool := by
  rcases hop with rfl | rfl
  · exact .ok rfl
  · exact .ok rfl

theorem BinaryOp.apply_equality {op : CompareOp} (hop : op = .eq ∨ op = .ne) (ha : a.type = t)
    (hb : b.type = t) (ht : t ≠ .void) : Yields ((BinaryOp.compare op).apply a b) .bool := by
  by_cases hn : t.isNumeric = true
  · exact BinaryOp.apply_compare_numbers op ha hb hn
  subst ha
  cases a with
  | void => exact absurd rfl ht
  | bool x =>
    cases b with
    | bool y => exact BinaryOp.onEquality_ok hop _
    | _ => cases hb
  | pointer p =>
    cases b with
    | pointer q => exact BinaryOp.onEquality_ok hop _
    | _ => cases hb
  | string s =>
    cases b with
    | string u => exact BinaryOp.onEquality_ok hop _
    | _ => cases hb
  | _ => exact absurd rfl hn

/-- A comparison of operands in the type it compares in. -/
theorem BinaryOp.apply_compare {op : CompareOp} {left right : ValueType}
    (h : comparisonType op left right = .ok t) (ha : a.type = t) (hb : b.type = t) :
    Yields ((BinaryOp.compare op).apply a b) .bool := by
  rcases comparisonType_ok h with ⟨-, -, ht⟩ | ⟨-, -, ht, hop⟩
  · exact BinaryOp.apply_compare_numbers op ha hb ht
  · exact BinaryOp.apply_equality hop ha hb ht

theorem LogicOp.apply_ok (op : LogicOp) (ha : a.type.isBoolable = true)
    (hb : b.type.isBoolable = true) : Yields (op.apply a b) .bool := by
  obtain ⟨x, hx⟩ := Value.truth_of_isBoolable ha
  obtain ⟨y, hy⟩ := Value.truth_of_isBoolable hb
  unfold LogicOp.apply
  rw [hx, hy]
  exact .ok rfl

/-- A compound assignment combines numbers or integers, and is typed by their rule. -/
theorem CompoundOp.base_cases (c : CompoundOp) (target value : ValueType) :
    (∃ op, c.base = .arith op ∧ assignmentType (.compound c) target value =
      arithmeticType (.binary (.compound c)) target value) ∨
    (∃ op, c.base = .bits op ∧ assignmentType (.compound c) target value =
      bitwiseType (.binary (.compound c)) target value) := by
  cases c with
  | add => exact .inl ⟨.add, rfl, rfl⟩
  | sub => exact .inl ⟨.sub, rfl, rfl⟩
  | mul => exact .inl ⟨.mul, rfl, rfl⟩
  | div => exact .inl ⟨.div, rfl, rfl⟩
  | bitOr => exact .inr ⟨.or, rfl, rfl⟩
  | bitAnd => exact .inr ⟨.and, rfl, rfl⟩
  | bitXor => exact .inr ⟨.xor, rfl, rfl⟩

theorem CompoundOp.base_ok {c : CompoundOp} {target value : ValueType}
    (h : assignmentType (.compound c) target value = .ok t) :
    target.isNumeric = true ∧ value.isNumeric = true ∧ t.isNumeric = true ∧
      ∀ a b : Value, a.type = t → b.type = t → Yields (c.base.apply a b) t := by
  rcases c.base_cases target value with ⟨op, hbase, hrule⟩ | ⟨op, hbase, hrule⟩
  · rw [hrule] at h
    obtain ⟨ht, hv, hn⟩ := arithmeticType_ok h
    refine ⟨ht, hv, hn, fun a b ha hb => ?_⟩
    rw [hbase]
    exact BinaryOp.apply_arith op ha hb hn
  · rw [hrule] at h
    obtain ⟨ht, hv, hi⟩ := bitwiseType_ok h
    have hn := ValueType.isNumeric_of_isInteger hi
    refine ⟨ValueType.isNumeric_of_isInteger ht, ValueType.isNumeric_of_isInteger hv, hn, ?_⟩
    intro a b ha hb
    rw [hbase]
    exact BinaryOp.apply_bits op ha hb hi

/-! ## operators with one operand -/

/-- An operator with one operand of the type its rule computes in, and the operand converts to
it. -/
theorem UnaryOp.apply_ok {op : UnaryOp} {found : ValueType} (h : unaryType op found = .ok t) :
    found.castsTo t = true ∧ ∀ v : Value, v.type = t → Yields (op.apply v) t := by
  unfold unaryType at h
  cases op with
  | not =>
    dsimp only at h
    split at h
    · rename_i hf
      cases h
      refine ⟨ValueType.castsTo_bool hf, fun v hv => ?_⟩
      cases v with
      | bool => exact .ok rfl
      | _ => cases hv
    · cases h
  | complement =>
    dsimp only at h
    split at h
    · rename_i hf
      cases h
      refine ⟨ValueType.castsTo_self _, fun v hv => ?_⟩
      subst hv
      cases v with
      | int n => exact .ok rfl
      | _ => cases hf
    · cases h

end ExprEngine
