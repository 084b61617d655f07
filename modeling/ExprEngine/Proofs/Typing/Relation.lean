import ExprEngine.Proofs.Machine.Operation
import ExprEngine.Proofs.Typing.Rules

/-!
# The typing rules as relations

Which types an operator takes and which it then has, said as a relation for every kind of operator.
The functions that the checker computes with decide these relations.

* `Widens`                   numbers brought to one type;
* `Merges`                   integers combined bit by bit;
* `InfixRule`, `UnaryRule`   operators that compute a value;
* `BranchRule`               the branches of a choice;
* `AssignRule`               what an assignment computes in.
-/

namespace ExprEngine

/-! ## the relations -/

/-- The type that two numbers compute in: a float beside a float, otherwise 64 bits, signed beside
a signed number and for a difference. -/
inductive Widens (minus : Prop) : ValueType → ValueType → ValueType → Prop
  | left {f : FloatType} {b : ValueType} (number : b.isNumeric = true) :
      Widens minus (.float f) b .r64
  | right {a : ValueType} {f : FloatType} (number : a.isNumeric = true) :
      Widens minus a (.float f) .r64
  | signed {s u : IntType} (sign : minus ∨ s.signed = true ∨ u.signed = true) :
      Widens minus (.int s) (.int u) .i64
  | unsigned {s u : IntType} (plus : ¬ minus) (left : s.signed = false)
      (right : u.signed = false) : Widens minus (.int s) (.int u) .u64

/-- The type of two integers combined bit by bit. Common bits are as many as the narrower side has,
signed when either side is. All bits are as many as the wider side has, signed when a side is that
is no narrower than the other. -/
inductive Merges (common : Prop) : ValueType → ValueType → ValueType → Prop
  | common {s u t : IntType} (asked : common)
      (width : t.width.bits = min s.width.bits u.width.bits)
      (sign : t.signed = true ↔ s.signed = true ∨ u.signed = true) :
      Merges common (.int s) (.int u) (.int t)
  | all {s u t : IntType} (asked : ¬ common)
      (width : t.width.bits = max s.width.bits u.width.bits)
      (sign : t.signed = true ↔ (s.signed = true ∧ u.width.bits ≤ s.width.bits) ∨
        (u.signed = true ∧ s.width.bits ≤ u.width.bits)) :
      Merges common (.int s) (.int u) (.int t)

/-- An operator between two operands that assigns nothing. Numbers are compared with numbers;
anything else has no order and equals only what has its own type. -/
inductive InfixRule : BinaryOp → ValueType → ValueType → Typing → Prop
  | arith {op : ArithOp} {a b t : ValueType} (widens : Widens (op = .sub) a b t) :
      InfixRule (.arith op) a b (.same t)
  | numbers {op : CompareOp} {a b t : ValueType} (widens : Widens False a b t) :
      InfixRule (.compare op) a b ⟨.bool, t⟩
  | equality {op : CompareOp} {a : ValueType} (asked : op = .eq ∨ op = .ne) (known : a ≠ .void)
      (other : a.isNumeric = false) : InfixRule (.compare op) a a ⟨.bool, a⟩
  | logic {op : LogicOp} {a b : ValueType} (left : a.isBoolable = true)
      (right : b.isBoolable = true) : InfixRule (.logic op) a b (.same .bool)
  | bits {op : BitOp} {a b t : ValueType} (merges : Merges (op = .and) a b t) :
      InfixRule (.bits op) a b (.same t)

inductive UnaryRule : UnaryOp → ValueType → ValueType → Prop
  | not {a : ValueType} (truth : a.isBoolable = true) : UnaryRule .not a .bool
  | complement {t : IntType} : UnaryRule .complement (.int t) (.int t)

/-- Branches of one type keep it; numbers of two types widen. -/
inductive BranchRule : ValueType → ValueType → ValueType → Prop
  | same {a : ValueType} : BranchRule a a a
  | widened {a b t : ValueType} (different : a ≠ b) (widens : Widens False a b t) :
      BranchRule a b t

/-- An assignment takes what converts to its variable. A compound one combines the variable with
the value first, by the rule of the operator that it carries. -/
inductive AssignRule : BinaryOp → ValueType → ValueType → ValueType → Prop
  | plain {target value : ValueType} (casts : value.castsTo target = true) :
      AssignRule .assign target value target
  | arith {c : CompoundOp} {op : ArithOp} {target value t : ValueType} (base : c.base = .arith op)
      (widens : Widens (op = .sub) target value t) : AssignRule (.compound c) target value t
  | bits {c : CompoundOp} {op : BitOp} {target value t : ValueType} (base : c.base = .bits op)
      (merges : Merges (op = .and) target value t) : AssignRule (.compound c) target value t

variable {a b t : ValueType}

/-! ## numbers -/

theorem Widens.isNumeric {minus : Prop} (h : Widens minus a b t) :
    a.isNumeric = true ∧ b.isNumeric = true := by
  cases h with
  | left number => exact ⟨rfl, number⟩
  | right number => exact ⟨number, rfl⟩
  | signed => exact ⟨rfl, rfl⟩
  | unsigned => exact ⟨rfl, rfl⟩

theorem widen?_iff {minus : Bool} : a.widen? b minus = some t ↔ Widens (minus = true) a b t := by
  constructor
  · intro h
    obtain ⟨ha, hb, -⟩ := ValueType.widen?_ok h
    cases a with
    | float f =>
      rw [ValueType.widen?_float rfl hb rfl] at h
      cases h
      exact .left hb
    | int s =>
      cases b with
      | float f =>
        rw [ValueType.widen?_float rfl rfl rfl] at h
        cases h
        exact .right rfl
      | int u =>
        rw [ValueType.widen?_int] at h
        cases h
        cases hsign : minus || s.signed || u.signed with
        | true =>
          rw [Bool.or_eq_true, Bool.or_eq_true, or_assoc] at hsign
          exact .signed hsign
        | false =>
          rw [Bool.or_eq_false_iff, Bool.or_eq_false_iff] at hsign
          exact .unsigned (Bool.eq_false_iff.1 hsign.1.1) hsign.1.2 hsign.2
      | _ => cases hb
    | _ => cases ha
  · intro h
    cases h with
    | left number => exact ValueType.widen?_float rfl number rfl
    | right number => exact ValueType.widen?_float number rfl (Bool.or_true _)
    | @signed s u sign =>
      have hsign : (minus || s.signed || u.signed) = true := by
        rwa [Bool.or_eq_true, Bool.or_eq_true, or_assoc]
      rw [ValueType.widen?_int, hsign]
    | unsigned plus left right =>
      rw [ValueType.widen?_int, left, right, Bool.eq_false_iff.2 plus]
      rfl

theorem widen?_false_iff : a.widen? b false = some t ↔ Widens False a b t := by
  rw [widen?_iff, Bool.false_eq_true]

theorem widen?_none (h : a.isNumeric = false) (signed : Bool) : a.widen? b signed = none := by
  unfold ValueType.widen?
  rw [h]
  rfl

theorem forcesSign_iff {op : ArithOp} : (Operator.binary (.arith op)).forcesSign = true ↔
    op = .sub := by
  cases op <;> decide

theorem arithmeticType_iff {op : Operator} :
    arithmeticType op a b = .ok t ↔ Widens (op.forcesSign = true) a b t := by
  rw [← widen?_iff]
  constructor
  · intro h
    unfold arithmeticType at h
    split at h
    · cases h
    split at h
    · cases h
    split at h
    · rename_i hw
      cases h
      exact hw
    · cases h
  · intro h
    obtain ⟨ha, hb, -⟩ := ValueType.widen?_ok h
    unfold arithmeticType
    rw [ha, hb, h]
    rfl

theorem comparisonType_iff {op : CompareOp} : comparisonType op a b = .ok t ↔
    InfixRule (.compare op) a b ⟨.bool, t⟩ := by
  constructor
  · intro h
    unfold comparisonType at h
    dsimp only at h
    split at h
    · cases h
    rename_i hvoid
    split at h
    · cases h
    split at h
    · rename_i hw
      cases h
      exact .numbers (widen?_false_iff.1 hw)
    rename_i hw
    split at h
    · cases h
    rename_i hab
    split at h
    · rename_i hop
      cases h
      obtain rfl := Decidable.not_not.1 hab
      refine .equality hop hvoid (Bool.eq_false_iff.2 fun hn => ?_)
      obtain ⟨t, ht⟩ := ValueType.exists_widen? hn hn false
      rw [hw] at ht
      cases ht
    · cases h
  · intro h
    cases h with
    | numbers widens =>
      have hnumber : ∀ {x : ValueType}, x.isNumeric = true → x ≠ .void := by
        rintro x hx rfl
        cases hx
      obtain ⟨ha, hb⟩ := widens.isNumeric
      unfold comparisonType
      dsimp only
      rw [if_neg (hnumber ha), if_neg (hnumber hb), widen?_false_iff.2 widens]
    | equality asked known other =>
      unfold comparisonType
      dsimp only
      rw [if_neg known, if_neg known, widen?_none other]
      dsimp only
      rw [if_neg (fun different => different rfl), if_pos asked]

theorem logicalType_iff {op : LogicOp} : logicalType op a b = .ok t ↔
    InfixRule (.logic op) a b (.same t) := by
  constructor
  · intro h
    obtain ⟨ha, hb, rfl⟩ := logicalType_ok h
    exact .logic ha hb
  · intro h
    cases h with
    | logic left right =>
      unfold logicalType
      rw [left, right]
      rfl

/-! ## bits -/

theorem integer?_iff {bits : Nat} {signed : Bool} : ValueType.integer? bits signed = some t ↔
    ∃ w : Width, w.bits = bits ∧ t = .int ⟨signed, w⟩ := by
  constructor
  · intro h
    unfold ValueType.integer? at h
    split at h
    · exact ⟨.w8, rfl, (Option.some.inj h).symm⟩
    · exact ⟨.w16, rfl, (Option.some.inj h).symm⟩
    · exact ⟨.w32, rfl, (Option.some.inj h).symm⟩
    · exact ⟨.w64, rfl, (Option.some.inj h).symm⟩
    · cases h
  · rintro ⟨w, rfl, rfl⟩
    exact ValueType.integer?_bits w signed

/-- The function for two integers, with the width and the sign that it asks for. -/
theorem bitwiseType_int {op : Operator} {s u : IntType} : bitwiseType op (.int s) (.int u) = .ok t ↔
    ValueType.integer?
      (if op.intersects then min s.width.bits u.width.bits else max s.width.bits u.width.bits)
      (if op.intersects then s.signed || u.signed
        else (s.signed && decide (u.width.bits ≤ s.width.bits)) ||
          (u.signed && decide (s.width.bits ≤ u.width.bits))) = some t := by
  unfold bitwiseType
  simp only [ValueType.isInteger, Bool.not_true, Bool.false_eq_true, if_false, apply_ite Prod.fst,
    apply_ite Prod.snd]
  constructor
  · intro h
    split at h
    · rename_i ht
      cases h
      exact ht
    · cases h
  · intro h
    split
    · rename_i ht
      exact congrArg Except.ok (Option.some.inj (ht.symm.trans h))
    · rename_i ht
      cases ht.symm.trans h

theorem bitwiseType_iff {op : Operator} :
    bitwiseType op a b = .ok t ↔ Merges (op.intersects = true) a b t := by
  constructor
  · intro h
    obtain ⟨ha, hb, -⟩ := bitwiseType_ok h
    cases a with
    | int s =>
      cases b with
      | int u =>
        obtain ⟨w, hw, rfl⟩ := integer?_iff.1 (bitwiseType_int.1 h)
        by_cases hop : op.intersects = true
        · rw [if_pos hop] at hw
          refine .common hop hw ?_
          rw [if_pos hop, Bool.or_eq_true]
        · rw [if_neg hop] at hw
          refine .all hop hw ?_
          rw [if_neg hop]
          simp only [Bool.or_eq_true, Bool.and_eq_true, decide_eq_true_eq]
      | _ => cases hb
    | _ => cases ha
  · intro h
    cases h with
    | @common s u t asked width sign =>
      refine bitwiseType_int.2 (integer?_iff.2 ⟨t.width, ?_, ?_⟩)
      · rw [if_pos asked, width]
      · have hsign : (s.signed || u.signed) = t.signed := by
          rw [Bool.eq_iff_iff, Bool.or_eq_true, sign]
        rw [if_pos asked, hsign]
    | @all s u t asked width sign =>
      refine bitwiseType_int.2 (integer?_iff.2 ⟨t.width, ?_, ?_⟩)
      · rw [if_neg asked, width]
      · rw [if_neg asked]
        have hsign : ((s.signed && decide (u.width.bits ≤ s.width.bits)) ||
            (u.signed && decide (s.width.bits ≤ u.width.bits))) = t.signed := by
          rw [Bool.eq_iff_iff, sign]
          simp only [Bool.or_eq_true, Bool.and_eq_true, decide_eq_true_eq]
        rw [hsign]

/-! ## operators -/

theorem intersects_iff {op : BitOp} : (Operator.binary (.bits op)).intersects = true ↔
    op = .and := by
  cases op <;> decide

/-- An operator that assigns nothing is typed by its rule. -/
theorem infixRule_iff {op : BinaryOp} {ty : Typing} (plain : op.isAssignment = false) :
    InfixRule op a b ty ↔ ∃ t, infixType op a b = .ok t ∧ ty = infixTyping op t := by
  constructor
  · intro h
    cases h with
    | arith widens =>
      refine ⟨_, arithmeticType_iff.2 ?_, rfl⟩
      rwa [propext forcesSign_iff]
    | numbers widens => exact ⟨_, comparisonType_iff.2 (.numbers widens), rfl⟩
    | equality asked known other =>
      exact ⟨_, comparisonType_iff.2 (.equality asked known other), rfl⟩
    | logic left right => exact ⟨_, logicalType_iff.2 (.logic left right), rfl⟩
    | bits merges =>
      refine ⟨_, bitwiseType_iff.2 ?_, rfl⟩
      rwa [propext intersects_iff]
  · rintro ⟨t, h, rfl⟩
    cases op with
    | arith op =>
      have hw := arithmeticType_iff.1 h
      rw [propext forcesSign_iff] at hw
      exact .arith hw
    | compare op => exact comparisonType_iff.1 h
    | logic op =>
      exact logicalType_iff.1 h
    | bits op =>
      have hm := bitwiseType_iff.1 h
      rw [propext intersects_iff] at hm
      exact .bits hm
    | assign => cases plain
    | compound => cases plain

theorem unaryRule_iff {op : UnaryOp} : UnaryRule op a t ↔ unaryType op a = .ok t := by
  constructor
  · intro h
    cases h with
    | not truth => exact if_pos truth
    | complement => rfl
  · intro h
    unfold unaryType at h
    cases op with
    | not =>
      dsimp only at h
      split at h
      · rename_i ha
        cases h
        exact .not ha
      · cases h
    | complement =>
      dsimp only at h
      split at h
      · rename_i ha
        cases h
        cases a with
        | int s => exact .complement
        | _ => cases ha
      · cases h

theorem branchRule_iff : BranchRule a b t ↔ branchType a b = .ok t := by
  unfold branchType
  constructor
  · intro h
    cases h with
    | same => exact if_pos rfl
    | widened different widens => rw [if_neg different, widen?_false_iff.2 widens]
  · intro h
    split at h
    · rename_i hab
      cases h
      subst hab
      exact .same
    rename_i hab
    split at h
    · rename_i hw
      cases h
      exact .widened hab (widen?_false_iff.1 hw)
    · cases h

/-- A compound assignment forces the sign, or keeps common bits, as its operator does. -/
theorem CompoundOp.forcesSign_iff {c : CompoundOp} {op : ArithOp} (base : c.base = .arith op) :
    (Operator.binary (.compound c)).forcesSign = true ↔ op = .sub := by
  cases c <;> cases base <;> decide

theorem CompoundOp.intersects_iff {c : CompoundOp} {op : BitOp} (base : c.base = .bits op) :
    (Operator.binary (.compound c)).intersects = true ↔ op = .and := by
  cases c <;> cases base <;> decide

theorem assignRule_iff {op : BinaryOp} (assigns : op.isAssignment = true) :
    AssignRule op a b t ↔ assignmentType op a b = .ok t := by
  cases op with
  | assign =>
    constructor
    · intro h
      cases h with
      | plain casts => exact if_pos casts
    · intro h
      unfold assignmentType at h
      dsimp only at h
      split at h
      · rename_i hc
        cases h
        exact .plain hc
      · cases h
  | compound c =>
    rcases c.base_cases a b with ⟨op, hbase, hrule⟩ | ⟨op, hbase, hrule⟩
    · rw [hrule, arithmeticType_iff, propext (CompoundOp.forcesSign_iff hbase)]
      constructor
      · intro h
        cases h with
        | arith base widens =>
          cases hbase.symm.trans base
          exact widens
        | bits base => cases hbase.symm.trans base
      · exact .arith hbase
    · rw [hrule, bitwiseType_iff, propext (CompoundOp.intersects_iff hbase)]
      constructor
      · intro h
        cases h with
        | arith base => cases hbase.symm.trans base
        | bits base merges =>
          cases hbase.symm.trans base
          exact merges
      · exact .bits hbase
  | _ => cases assigns

end ExprEngine
