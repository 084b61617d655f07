import ExprEngine.Proofs.Machine.Integers

/-!
# Integers of one type

An operator between two integers of one type computes in 64 bits and narrows the result. What comes
out is the integer of the type that is congruent to the exact result, for every width; only a
division by zero has no result.

* `Truncates`                  quotient and remainder, told without an algorithm;
* `truncates_iff`              there is one such pair;
* `BinaryOp.Yields`            the exact result of an operator;
* `BinaryOp.Yields.applied`    the integer of the type that stands for it is computed;
* `apply_divided_back`         quotient and remainder make up the dividend again;
* `wrapping_exact`             all operators together.
-/

namespace ExprEngine

/-! ## division -/

/-- `b` goes `q` times into `a` and leaves `r`, which lies on the side of zero where `a` is: `q` is
the quotient truncated toward zero, `r` the remainder. -/
structure Truncates (a b q r : Int) : Prop where
  whole : q * b + r = a
  small : r.natAbs < b.natAbs
  sign : r = 0 ∨ r.sign = a.sign

section
variable {a b q r : Int}

theorem truncates_tdiv (hb : b ≠ 0) : Truncates a b (a.tdiv b) (a.tmod b) := by
  refine ⟨Int.tdiv_mul_add_tmod a b, ?_, ?_⟩
  · rw [Int.natAbs_tmod]
    exact Nat.mod_lt _ (Int.natAbs_pos.2 hb)
  · by_cases h : b ∣ a
    · exact .inl (Int.tmod_eq_zero_of_dvd h)
    · exact .inr (by rw [Int.sign_tmod, if_neg h])

theorem Truncates.divisor (h : Truncates a b q r) : b ≠ 0 :=
  Int.natAbs_pos.1 (Nat.zero_lt_of_lt h.small)

theorem Truncates.nonneg (h : Truncates a b q r) (ha : 0 ≤ a) : 0 ≤ r := by
  rcases h.sign with hzero | hsign
  · exact hzero.ge
  · exact Int.sign_nonneg_iff.1 (hsign ▸ Int.sign_nonneg_iff.2 ha)

theorem Truncates.nonpos (h : Truncates a b q r) (ha : a ≤ 0) : r ≤ 0 := by
  rcases h.sign with hzero | hsign
  · exact hzero.le
  · exact Int.sign_nonpos_iff.1 (hsign ▸ Int.sign_nonpos_iff.2 ha)

/-- A divisor other than zero has one quotient and one remainder. -/
theorem truncates_iff : Truncates a b q r ↔ b ≠ 0 ∧ q = a.tdiv b ∧ r = a.tmod b := by
  constructor
  · intro h
    have hwhole : r + b * q = a := by rw [Int.mul_comm, Int.add_comm, h.whole]
    have hsmall := h.small
    have hpair : a.tdiv b = q ∧ a.tmod b = r := by
      rcases Int.le_total 0 a with ha | ha
      · have hr := h.nonneg ha
        exact (Int.tdiv_tmod_unique ha h.divisor).2 ⟨hwhole, hr, by omega⟩
      · have hr := h.nonpos ha
        exact (Int.tdiv_tmod_unique' ha h.divisor).2 ⟨hwhole, by omega, hr⟩
    exact ⟨h.divisor, hpair.1.symm, hpair.2.symm⟩
  · rintro ⟨hb, rfl, rfl⟩
    exact truncates_tdiv hb

end

/-! ## exact results -/

/-- The operators that make an integer of two. -/
inductive BinaryOp.Calculates : BinaryOp → Prop
  | arith (op : ArithOp) : Calculates (.arith op)
  | bits (op : BitOp) : Calculates (.bits op)

/-- The operators that divide. -/
def BinaryOp.Divides (op : BinaryOp) : Prop := op = .arith .div ∨ op = .arith .mod

/-- The exact result of an operator on two integers. -/
inductive BinaryOp.Yields (a b : Int) : BinaryOp → Int → Prop
  | total {op : BinaryOp} {n : Int} (h : op.exact? a b = some n) : Yields a b op n
  | quotient {q r : Int} (h : Truncates a b q r) : Yields a b (.arith .div) q
  | remainder {q r : Int} (h : Truncates a b q r) : Yields a b (.arith .mod) r

/-- Only a division by zero has no result. -/
theorem BinaryOp.Calculates.yields {op : BinaryOp} (h : op.Calculates) (a b : Int)
    (hdivides : ¬ (op.Divides ∧ b = 0)) : ∃ n, op.Yields a b n := by
  cases h with
  | bits op => exact ⟨op.exact a b, .total rfl⟩
  | arith op =>
    cases op with
    | add => exact ⟨a + b, .total rfl⟩
    | sub => exact ⟨a - b, .total rfl⟩
    | mul => exact ⟨a * b, .total rfl⟩
    | div => exact ⟨a.tdiv b, .quotient (truncates_tdiv fun hb => hdivides ⟨.inl rfl, hb⟩)⟩
    | mod => exact ⟨a.tmod b, .remainder (truncates_tdiv fun hb => hdivides ⟨.inr rfl, hb⟩)⟩

/-! ## what is computed -/

section
variable {a b : FixedInt} {op : BinaryOp} {n : Int}

theorem BinaryOp.apply_same (h : a.type = b.type) (op : BinaryOp) :
    op.apply (.int a) (.int b) = op.onInts a.type a.val b.val :=
  if_pos h

theorem BinaryOp.apply_onInts {op : ArithOp} (h : a.type = b.type)
    (hn : op.onInts a.val b.val = .ok n) :
    (BinaryOp.arith op).apply (.int a) (.int b) = .ok (.int (.wrap a.type n)) := by
  rw [BinaryOp.apply_same h, BinaryOp.onInts, hn, ← IntType.narrow_eq]
  rfl

theorem BinaryOp.apply_exact (h : a.type = b.type) (hn : op.exact? a.val b.val = some n) :
    op.apply (.int a) (.int b) = .ok (.int (.wrap a.type n)) := by
  obtain ⟨k, hk, hcong⟩ :=
    BinaryOp.onInts_exact (t := a.type) hn (Int.ModEq.refl _) (Int.ModEq.refl _)
  have hwrap : FixedInt.wrap a.type k = .wrap a.type n :=
    FixedInt.ext rfl (IntType.wrap_congr hcong)
  rw [BinaryOp.apply_same h, hk, hwrap]

/-- The result is the exact one, wrapped to the type of the operands. -/
theorem BinaryOp.Yields.applied (hn : op.Yields a.val b.val n) (h : a.type = b.type) :
    op.apply (.int a) (.int b) = .ok (.int (.wrap a.type n)) := by
  cases hn with
  | total hexact => exact BinaryOp.apply_exact h hexact
  | quotient hq =>
    obtain ⟨hb, rfl, -⟩ := truncates_iff.1 hq
    exact BinaryOp.apply_onInts h (if_neg hb)
  | remainder hr =>
    obtain ⟨hb, -, rfl⟩ := truncates_iff.1 hr
    exact BinaryOp.apply_onInts h (if_neg hb)

theorem BinaryOp.Divides.fails (hop : op.Divides) (h : a.type = b.type) (hb : b.val = 0) :
    op.apply (.int a) (.int b) = .error .divideByZero := by
  rcases hop with rfl | rfl
  · rw [BinaryOp.apply_same h, BinaryOp.onInts, ArithOp.onInts, if_pos hb]
    rfl
  · rw [BinaryOp.apply_same h, BinaryOp.onInts, ArithOp.onInts, if_pos hb]
    rfl

theorem BinaryOp.apply_fails_iff (hop : op.Calculates) (h : a.type = b.type) (e : EvalCause) :
    op.apply (.int a) (.int b) = .error e ↔ e = .divideByZero ∧ op.Divides ∧ b.val = 0 := by
  by_cases hzero : op.Divides ∧ b.val = 0
  · rw [hzero.1.fails h hzero.2, Except.error.injEq, eq_comm]
    exact (and_iff_left hzero).symm
  · obtain ⟨n, hn⟩ := hop.yields a.val b.val hzero
    rw [hn.applied h]
    exact ⟨nofun, fun he => (hzero he.2).elim⟩

theorem BinaryOp.apply_ordered (h : a.type = b.type) (op : CompareOp) :
    (BinaryOp.compare op).apply (.int a) (.int b) =
      .ok (.bool (decide (op.Says a.val b.val))) := by
  rw [BinaryOp.apply_same h, BinaryOp.onInts, op.holds_compare]

/-- The quotient times the divisor, with the remainder added, is the dividend, also where the
quotient did not fit the type. -/
theorem apply_divided_back (h : a.type = b.type) (hb : b.val ≠ 0) :
    (do
      let q ← (BinaryOp.arith .div).apply (.int a) (.int b)
      let p ← (BinaryOp.arith .mul).apply q (.int b)
      let r ← (BinaryOp.arith .mod).apply (.int a) (.int b)
      (BinaryOp.arith .add).apply p r) = .ok (.int a) := by
  have hpair := truncates_tdiv (a := a.val) hb
  let q : FixedInt := .wrap a.type (a.val.tdiv b.val)
  let p : FixedInt := .wrap a.type (q.val * b.val)
  let r : FixedInt := .wrap a.type (a.val.tmod b.val)
  have hq : (BinaryOp.arith .div).apply (.int a) (.int b) = .ok (.int q) :=
    (BinaryOp.Yields.quotient hpair).applied h
  have hp : (BinaryOp.arith .mul).apply (.int q) (.int b) = .ok (.int p) :=
    BinaryOp.apply_exact h rfl
  have hr : (BinaryOp.arith .mod).apply (.int a) (.int b) = .ok (.int r) :=
    (BinaryOp.Yields.remainder hpair).applied h
  have hsum : (BinaryOp.arith .add).apply (.int p) (.int r) =
      .ok (.int (.wrap a.type (p.val + r.val))) :=
    BinaryOp.apply_exact rfl rfl
  have hcong : p.val + r.val ≡ a.val [ZMOD 2 ^ a.type.width.bits] :=
    calc p.val + r.val
        ≡ q.val * b.val + a.val.tmod b.val [ZMOD _] :=
        (a.type.wrap_modEq _).add (a.type.wrap_modEq _)
      _ ≡ a.val.tdiv b.val * b.val + a.val.tmod b.val [ZMOD _] :=
        ((a.type.wrap_modEq _).mul_right _).add_right _
      _ = a.val := hpair.whole
  have hback : FixedInt.wrap a.type (p.val + r.val) = a :=
    FixedInt.ext rfl (IntType.eq_of_modEq (IntType.wrap_contains ..) a.holds
      ((a.type.wrap_modEq _).trans hcong))
  rw [hq, ok_bind, hp, ok_bind, hr, ok_bind, hsum, hback]

end

/-- Between integers of one type, whatever its width, operators compute the value of that type for
the exact result and fail only where they divide by zero; comparisons are those of the numbers; and
a dividend is recovered from its quotient and remainder. -/
theorem wrapping_exact {a b : FixedInt} (h : a.type = b.type) :
    (∀ op : BinaryOp, op.Calculates →
      (∀ e, op.apply (.int a) (.int b) = .error e ↔
        e = .divideByZero ∧ op.Divides ∧ b.val = 0) ∧
      (¬ (op.Divides ∧ b.val = 0) → ∃ (n : Int) (v : FixedInt), op.Yields a.val b.val n ∧
        op.apply (.int a) (.int b) = .ok (.int v) ∧ v.type = a.type ∧ v.Represents n)) ∧
    (∀ op : CompareOp, (BinaryOp.compare op).apply (.int a) (.int b) =
      .ok (.bool (decide (op.Says a.val b.val)))) ∧
    (b.val ≠ 0 → (do
      let q ← (BinaryOp.arith .div).apply (.int a) (.int b)
      let p ← (BinaryOp.arith .mul).apply q (.int b)
      let r ← (BinaryOp.arith .mod).apply (.int a) (.int b)
      (BinaryOp.arith .add).apply p r) = .ok (.int a)) := by
  refine ⟨fun op hop => ⟨BinaryOp.apply_fails_iff hop h, fun hzero => ?_⟩,
    BinaryOp.apply_ordered h, apply_divided_back h⟩
  obtain ⟨n, hn⟩ := hop.yields a.val b.val hzero
  exact ⟨n, .wrap a.type n, hn, hn.applied h, rfl, FixedInt.wrap_represents (Int.ModEq.refl n)⟩

/-- The least byte divided by `-1`: the quotient `128` is out of the type, and still the byte comes
back. -/
theorem wrapping_exact_sample :
    (do
      let q ← (BinaryOp.arith .div).apply (.int (.wrap ⟨true, .w8⟩ (-128)))
        (.int (.wrap ⟨true, .w8⟩ (-1)))
      let p ← (BinaryOp.arith .mul).apply q (.int (.wrap ⟨true, .w8⟩ (-1)))
      let r ← (BinaryOp.arith .mod).apply (.int (.wrap ⟨true, .w8⟩ (-128)))
        (.int (.wrap ⟨true, .w8⟩ (-1)))
      (BinaryOp.arith .add).apply p r) = .ok (.int (.wrap ⟨true, .w8⟩ (-128))) :=
  (wrapping_exact (a := .wrap ⟨true, .w8⟩ (-128)) (b := .wrap ⟨true, .w8⟩ (-1)) rfl).2.2 (by decide)

end ExprEngine
