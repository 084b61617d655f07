import ExprEngine.Proofs.FixedInt
import ExprEngine.Proofs.Machine.Step
import ExprEngine.Proofs.Typing.Relation

/-!
# Integers of two types

An operator between integers of two types brings both to the type that its rule picks. Addition,
subtraction, multiplication and the operators on bits are exact modulo the width of that type,
whatever is lost on the way. Comparisons are exact as long as no large unsigned integer meets a
signed one, where it counts as the negative number with the same bits.

* `BinaryOp.Gives`, `UnaryOp.Gives`   what an operator is typed as and computes;
* `BinaryOp.gives_of_onInts`          the case of two integers;
* `mixed_exact`                       exactness modulo the width;
* `mixed_compare`                     what a comparison compares.
-/

namespace ExprEngine

/-- An operator between two values is typed to compute in `t`, and a machine whose table says so
yields `v`. -/
structure BinaryOp.Gives (op : BinaryOp) (a b : Value) (t : ValueType) (v : Value) : Prop where
  typed : infixType op a.type b.type = .ok t
  computed : ∀ {σ : Type} (m : Machine σ) (w : State σ) (o : Origin) (l x : Tree) (s : ValueStack),
    m.types.typing o.id = infixTyping op t →
      m.compute w (.binary o op l x) (b :: a :: s) = .ok (v, s)

/-- The same for an operator on one value. -/
structure UnaryOp.Gives (op : UnaryOp) (a : Value) (t : ValueType) (v : Value) : Prop where
  typed : unaryType op a.type = .ok t
  computed : ∀ {σ : Type} (m : Machine σ) (w : State σ) (o : Origin) (x : Tree) (s : ValueStack),
    m.types.typing o.id = .same t → m.compute w (.unary o op x) (a :: s) = .ok (v, s)

/-- An operator gives at most one type and one value. -/
theorem BinaryOp.Gives.unique {op : BinaryOp} {a b u v : Value} {s t : ValueType}
    (h : op.Gives a b s u) (h' : op.Gives a b t v) : s = t ∧ u = v := by
  have htype : s = t := Except.ok.inj (h.typed.symm.trans h'.typed)
  subst htype
  -- a table with a single entry, that of the operator
  let m : Machine Unit := ⟨.empty, [], ⟨[infixTyping op s], .void⟩, 0⟩
  have hu := h.computed m (Context.empty ()).state ⟨0, 0, .zero⟩ .hole .hole [] rfl
  have hv := h'.computed m (Context.empty ()).state ⟨0, 0, .zero⟩ .hole .hole [] rfl
  rw [hu] at hv
  cases hv
  exact ⟨rfl, rfl⟩

/-! ## both sides brought to one type -/

section
variable {op : BinaryOp} {a b : FixedInt} {t : IntType} {v : Value}

theorem BinaryOp.apply_wrap :
    op.apply (.int (.wrap t a.val)) (.int (.wrap t b.val)) =
      op.onInts t (t.wrap a.val) (t.wrap b.val) :=
  if_pos rfl

theorem BinaryOp.gives_of_onInts (hop : ∀ c, op ≠ .logic c)
    (typed : infixType op (.int a.type) (.int b.type) = .ok (.int t))
    (h : op.onInts t (t.wrap a.val) (t.wrap b.val) = .ok v) :
    op.Gives (.int a) (.int b) (.int t) v := by
  refine ⟨typed, fun m w o l x s htyping => ?_⟩
  have hoperand : m.types.operand o.id = .int t :=
    (congrArg Typing.operand htyping).trans (infixTyping_operand op _)
  have hleft : Machine.convert o (.int a) (.int t) = .ok (.int (.wrap t a.val)) := rfl
  have hright : Machine.convert o (.int b) (.int t) = .ok (.int (.wrap t b.val)) := rfl
  rw [Machine.compute_binary hop, hoperand]
  simp only [Machine.pop, ok_bind, hleft, hright, BinaryOp.apply_wrap, h]
  rfl

end

/-! ## exact results -/

/-- An operator on the bits of integers, in two's complement without end. -/
def BitOp.exact : BitOp → Int → Int → Int
  | or => Int.lor
  | and => Int.land
  | xor => Int.xor

/-- The exact result of an operator that every two integers have a result for. -/
def BinaryOp.exact? : BinaryOp → Int → Int → Option Int
  | arith .add, a, b => some (a + b)
  | arith .sub, a, b => some (a - b)
  | arith .mul, a, b => some (a * b)
  | bits op, a, b => some (op.exact a b)
  | _, _, _ => none

section
variable {w : Nat} {a b x y n : Int} {t : IntType}

theorem BitOp.ofInt_exact (op : BitOp) (a b : Int) :
    BitVec.ofInt 64 (op.exact a b) = op.onWords (BitVec.ofInt 64 a) (BitVec.ofInt 64 b) := by
  cases op with
  | or => exact ofInt_lor a b
  | and => exact ofInt_land a b
  | xor => exact ofInt_xor a b

/-- The low bits of the result come from the low bits of the operands. -/
theorem BitOp.exact_congr (op : BitOp) (hx : x ≡ a [ZMOD 2 ^ w]) (hy : y ≡ b [ZMOD 2 ^ w]) :
    op.exact x y ≡ op.exact a b [ZMOD 2 ^ w] := by
  rw [← ofInt_eq_iff] at hx hy ⊢
  cases op with
  | or => simp only [BitOp.exact, ofInt_lor, hx, hy]
  | and => simp only [BitOp.exact, ofInt_land, hx, hy]
  | xor => simp only [BitOp.exact, ofInt_xor, hx, hy]

/-- Bits are combined in words, where nothing below the sixty-fourth is lost. -/
theorem BitOp.onInts_modEq (op : BitOp) (a b : Int) :
    op.onInts a b ≡ op.exact a b [ZMOD 2 ^ 64] := by
  rw [← ofInt_eq_iff, op.ofInt_exact]
  exact BitVec.ofInt_toInt

/-- Wrapping to 64 bits before wrapping to the type changes nothing. -/
theorem IntType.narrow_eq (t : IntType) (n : Int) : t.narrow n = .int (.wrap t n) := by
  have hwide : t.wide.wrap n ≡ n [ZMOD 2 ^ 64] := t.wide.wrap_modEq n
  have hval : t.wrap (t.wide.wrap n) = t.wrap n := IntType.wrap_congr (modEq_of_word hwide)
  exact congrArg Value.int (FixedInt.ext rfl hval)

theorem BinaryOp.onInts_exact {op : BinaryOp} (h : op.exact? a b = some n)
    (hx : x ≡ a [ZMOD 2 ^ t.width.bits]) (hy : y ≡ b [ZMOD 2 ^ t.width.bits]) :
    ∃ k, op.onInts t x y = .ok (.int (.wrap t k)) ∧ k ≡ n [ZMOD 2 ^ t.width.bits] := by
  unfold BinaryOp.exact? at h
  split at h
  · cases h
    exact ⟨x + y, congrArg Except.ok (t.narrow_eq _), hx.add hy⟩
  · cases h
    exact ⟨x - y, congrArg Except.ok (t.narrow_eq _), hx.sub hy⟩
  · cases h
    exact ⟨x * y, congrArg Except.ok (t.narrow_eq _), hx.mul hy⟩
  · rename_i op
    cases h
    have hwords := IntType.modEq_of_word (t := t) (op.onInts_modEq x y)
    exact ⟨op.onInts x y, congrArg Except.ok (t.narrow_eq _), hwords.trans (op.exact_congr hx hy)⟩
  · cases h

end

/-! ## the type that is picked -/

theorem arithmeticType_int (op : Operator) (s u : IntType) :
    arithmeticType op (.int s) (.int u) =
      .ok (.int ⟨op.forcesSign || s.signed || u.signed, .w64⟩) := by
  unfold arithmeticType
  rw [ValueType.widen?_int]
  rfl

theorem comparisonType_int (op : CompareOp) (s u : IntType) :
    comparisonType op (.int s) (.int u) = .ok (.int ⟨s.signed || u.signed, .w64⟩) := by
  unfold comparisonType
  rw [ValueType.widen?_int]
  rfl

/-- The width is that of one of the two sides. -/
theorem exists_bitwiseType (op : Operator) (s u : IntType) :
    ∃ t, bitwiseType op (.int s) (.int u) = .ok (.int t) := by
  obtain ⟨w, hw⟩ : ∃ w : Width, w.bits =
      if op.intersects then min s.width.bits u.width.bits else max s.width.bits u.width.bits := by
    rcases Nat.le_total s.width.bits u.width.bits with h | h
    · rw [Nat.min_eq_left h, Nat.max_eq_right h]
      split
      · exact ⟨s.width, rfl⟩
      · exact ⟨u.width, rfl⟩
    · rw [Nat.min_eq_right h, Nat.max_eq_left h]
      split
      · exact ⟨u.width, rfl⟩
      · exact ⟨s.width, rfl⟩
  exact ⟨_, bitwiseType_int.2 (integer?_iff.2 ⟨w, hw, rfl⟩)⟩

theorem infixType_exact {op : BinaryOp} {a b n : Int} (h : op.exact? a b = some n)
    (s u : IntType) :
    (∃ t, infixType op (.int s) (.int u) = .ok (.int t)) ∧ ∀ c, op ≠ .logic c := by
  cases op with
  | arith op => exact ⟨⟨_, arithmeticType_int _ s u⟩, nofun⟩
  | bits op => exact ⟨exists_bitwiseType _ s u, nofun⟩
  | _ => cases h

/-! ## the complement -/

theorem not_eq_neg_sub (n : Int) : ~~~n = -n - 1 := by
  cases n with
  | ofNat k =>
    show Int.negSucc k = -(k : Int) - 1
    omega
  | negSucc k =>
    show (k : Int) = -Int.negSucc k - 1
    omega

theorem Machine.compute_unary_cons {σ : Type} {m : Machine σ} {w : State σ} {o : Origin}
    {op : UnaryOp} {x : Tree} {a : Value} {s : ValueStack} :
    m.compute w (.unary o op x) (a :: s) = (do
      let v ← convert o a (m.types.operand o.id)
      let u ← located o (op.apply v)
      return (u, s)) :=
  rfl

theorem complement_gives (a : FixedInt) :
    UnaryOp.complement.Gives (.int a) (.int a.type) (.int (.wrap a.type (-a.val - 1))) := by
  refine ⟨rfl, fun m w o x s htyping => ?_⟩
  have hoperand : m.types.operand o.id = .int a.type := congrArg Typing.operand htyping
  have hconvert : Machine.convert o (.int a) (.int a.type) = .ok (.int a) :=
    congrArg (fun n => Except.ok (Value.int n)) a.wrap_val
  have happly : UnaryOp.complement.apply (.int a) =
      .ok (.int (.wrap a.type (-a.val - 1))) := by
    rw [← not_eq_neg_sub, ← IntType.narrow_eq]
    rfl
  rw [Machine.compute_unary_cons, hoperand, hconvert, ok_bind, happly]
  rfl

/-- Operators between integers of any two types are exact modulo the width of the type they compute
in, and so is the complement. -/
theorem mixed_exact :
    (∀ (op : BinaryOp) (a b : FixedInt) (n : Int), op.exact? a.val b.val = some n →
      ∃ v : FixedInt, op.Gives (.int a) (.int b) (.int v.type) (.int v) ∧ v.Represents n) ∧
    ∀ a : FixedInt, ∃ v : FixedInt, v.type = a.type ∧
      UnaryOp.complement.Gives (.int a) (.int v.type) (.int v) ∧ v.Represents (-a.val - 1) := by
  constructor
  · intro op a b n hn
    obtain ⟨⟨t, ht⟩, hop⟩ := infixType_exact hn a.type b.type
    obtain ⟨k, hk, hcong⟩ := BinaryOp.onInts_exact hn (t.wrap_modEq a.val) (t.wrap_modEq b.val)
    exact ⟨.wrap t k, BinaryOp.gives_of_onInts hop ht hk, FixedInt.wrap_represents hcong⟩
  · intro a
    exact ⟨.wrap a.type (-a.val - 1), rfl, complement_gives a,
      FixedInt.wrap_represents (Int.ModEq.refl _)⟩

/-- The common bits of `1023` and `255` fill a signed byte, which holds them as `-1`. -/
theorem mixed_exact_sample :
    ∃ v : FixedInt,
      (BinaryOp.bits .and).Gives (.int (.wrap ⟨true, .w16⟩ 1023)) (.int (.wrap ⟨false, .w8⟩ 255))
        (.int v.type) (.int v) ∧ v.Represents 255 :=
  mixed_exact.1 (.bits .and) (.wrap ⟨true, .w16⟩ 1023) (.wrap ⟨false, .w8⟩ 255) 255 (by decide)

/-! ## comparisons -/

/-- What a comparison says of two integers. -/
def CompareOp.Says : CompareOp → Int → Int → Prop
  | eq, a, b => a = b
  | ne, a, b => a ≠ b
  | gt, a, b => a > b
  | ge, a, b => a ≥ b
  | lt, a, b => a < b
  | le, a, b => a ≤ b

instance (op : CompareOp) (a b : Int) : Decidable (op.Says a b) :=
  match op with
  | .eq => inferInstanceAs (Decidable (a = b))
  | .ne => inferInstanceAs (Decidable (a ≠ b))
  | .gt => inferInstanceAs (Decidable (a > b))
  | .ge => inferInstanceAs (Decidable (a ≥ b))
  | .lt => inferInstanceAs (Decidable (a < b))
  | .le => inferInstanceAs (Decidable (a ≤ b))

theorem CompareOp.holds_compare (op : CompareOp) (a b : Int) :
    op.holds (compare a b) = decide (op.Says a b) := by
  rw [Bool.eq_iff_iff, decide_eq_true_iff]
  rcases lt_trichotomy a b with h | h | h
  · rw [compare_lt_iff_lt.2 h]
    cases op <;> simp only [holds, Says] <;> simp <;> omega
  · rw [compare_eq_iff_eq.2 h]
    cases op <;> simp only [holds, Says] <;> simp <;> omega
  · rw [compare_gt_iff_gt.2 h]
    cases op <;> simp only [holds, Says] <;> simp <;> omega

/-- The number that an integer counts as in a comparison with one of type `other`: beside a signed
integer the upper half of the 64-bit integers counts as negative. -/
def FixedInt.beside (a : FixedInt) (other : IntType) : Int :=
  if other.signed ∧ 2 ^ 63 ≤ a.val then a.val - 2 ^ 64 else a.val

theorem IntType.contains_signed {n : Int} :
    (⟨true, .w64⟩ : IntType).Contains n ↔ -2 ^ 63 ≤ n ∧ n < 2 ^ 63 := by
  simp only [Contains, least, greatest, modulus, Width.count, if_true]
  omega

theorem IntType.contains_unsigned {n : Int} :
    (⟨false, .w64⟩ : IntType).Contains n ↔ 0 ≤ n ∧ n < 2 ^ 64 := by
  simp only [Contains, least, greatest, modulus, Width.count, Bool.false_eq_true, if_false]
  omega

theorem FixedInt.wide_contains (a : FixedInt) : a.type.wide.Contains a.val := by
  obtain ⟨⟨s, w⟩, n, h⟩ := a
  cases s <;> cases w <;>
    simp only [IntType.Contains, IntType.wide, IntType.least, IntType.greatest, IntType.modulus,
      Width.count, Bool.false_eq_true, if_true, if_false] at h ⊢ <;>
    omega

theorem FixedInt.beside_contains (a : FixedInt) (other : IntType) :
    (⟨a.type.signed || other.signed, .w64⟩ : IntType).Contains (a.beside other) := by
  have ha : (⟨a.type.signed, .w64⟩ : IntType).Contains a.val := a.wide_contains
  unfold beside
  cases other.signed with
  | false =>
    rw [Bool.or_false, if_neg fun h => Bool.false_ne_true h.1]
    exact ha
  | true =>
    have hbounds : -2 ^ 63 ≤ a.val ∧ a.val < 2 ^ 64 := by
      cases hs : a.type.signed with
      | true =>
        rw [hs, IntType.contains_signed] at ha
        omega
      | false =>
        rw [hs, IntType.contains_unsigned] at ha
        omega
    rw [Bool.or_true, IntType.contains_signed]
    simp only [true_and]
    split
    · omega
    · omega

theorem FixedInt.beside_modEq (a : FixedInt) (other : IntType) :
    a.beside other ≡ a.val [ZMOD 2 ^ 64] := by
  unfold beside
  split
  · exact Int.modEq_iff_dvd.2 ⟨1, by omega⟩
  · exact Int.ModEq.refl _

theorem FixedInt.wrap_beside (a : FixedInt) (other : IntType) :
    IntType.wrap ⟨a.type.signed || other.signed, .w64⟩ a.val = a.beside other :=
  IntType.eq_of_modEq (IntType.wrap_contains ..) (a.beside_contains other)
    ((IntType.wrap_modEq ..).trans (a.beside_modEq other).symm)

theorem BinaryOp.compare_gives (op : CompareOp) (a b : FixedInt) :
    (BinaryOp.compare op).Gives (.int a) (.int b)
      (.int ⟨a.type.signed || b.type.signed, .w64⟩)
      (.bool (decide (op.Says (a.beside b.type) (b.beside a.type)))) := by
  refine BinaryOp.gives_of_onInts nofun (comparisonType_int op a.type b.type) ?_
  have hright : IntType.wrap ⟨a.type.signed || b.type.signed, .w64⟩ b.val = b.beside a.type := by
    rw [Bool.or_comm]
    exact b.wrap_beside a.type
  rw [a.wrap_beside b.type, hright, ← op.holds_compare]
  rfl

/-- A comparison between integers of any two types is the mathematical one, except that beside a
signed integer an unsigned one from `2 ^ 63` on counts as itself less `2 ^ 64`. -/
theorem mixed_compare (op : CompareOp) (a b : FixedInt) :
    ∃ t : ValueType, (BinaryOp.compare op).Gives (.int a) (.int b) t
      (.bool (decide (op.Says (a.beside b.type) (b.beside a.type)))) :=
  ⟨_, BinaryOp.compare_gives op a b⟩

/-- So `-1` of a byte equals the greatest unsigned integer, and comparisons are not always those of
the numbers themselves. -/
theorem mixed_compare_reinterprets :
    (BinaryOp.compare .eq).Gives (.int (.wrap ⟨true, .w8⟩ (-1)))
        (.int (.wrap ⟨false, .w64⟩ 18446744073709551615)) .i64 (.bool true) ∧
      ¬ ∀ (op : CompareOp) (a b : FixedInt), ∃ t : ValueType,
        (BinaryOp.compare op).Gives (.int a) (.int b) t (.bool (decide (op.Says a.val b.val))) := by
  have hequal : (BinaryOp.compare .eq).Gives (.int (.wrap ⟨true, .w8⟩ (-1)))
      (.int (.wrap ⟨false, .w64⟩ 18446744073709551615)) .i64 (.bool true) :=
    BinaryOp.compare_gives .eq (.wrap ⟨true, .w8⟩ (-1)) (.wrap ⟨false, .w64⟩ 18446744073709551615)
  refine ⟨hequal, fun h => ?_⟩
  obtain ⟨t, hexact⟩ :=
    h .eq (.wrap ⟨true, .w8⟩ (-1)) (.wrap ⟨false, .w64⟩ 18446744073709551615)
  have hvalue : Value.bool true = .bool (decide (CompareOp.eq.Says (-1) 18446744073709551615)) :=
    (hequal.unique hexact).2
  have hfalse : decide (CompareOp.eq.Says (-1) 18446744073709551615) = false := by decide
  rw [hfalse] at hvalue
  cases hvalue

end ExprEngine
