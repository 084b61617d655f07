import ExprEngine.Proofs.Token.Exact
import ExprEngine.Token.Literal
import Mathlib.Data.List.TakeWhile
import Mathlib.Data.Nat.Digits.Defs

/-!
# Number literals

An integer literal has the narrowest type of its signedness that holds it, and no value if that
takes more than 64 bits. A literal with a point always has a value, a wide one if it has the digits
for it.

* `Text.natural`            the number that digits denote;
* `FixedInt.Narrowest`      an integer in the least width that reaches it;
* `integers_read`           what digits are read as, with a sign or without;
* `Significant`             digits without the zeros around them;
* `point_read`              what a number with a point is read as;
* `OutOfRange`              integers that take more than 64 bits;
* `number?_eq_none_iff`     the only numerals without a value.
-/

namespace ExprEngine

/-! ## digits -/

/-- The number that digits denote, the most significant one first. -/
def Text.natural (ds : Text) : Nat := Nat.ofDigits 10 (ds.map fun c => c.toNat - '0'.toNat).reverse

theorem Text.natural_eq (ds : Text) : Floating.Decimal.ofDigits ds = natural ds := by
  rw [natural, Nat.ofDigits_eq_foldr, List.foldr_reverse, List.foldl_map]
  unfold Floating.Decimal.ofDigits
  congr 1
  funext n c
  exact Nat.add_comm ..

instance (ds : Text) : Decidable ds.Digits :=
  decidable_of_iff (ds.all Char.isDigit = true) List.all_eq_true

theorem Text.Digits.not_mem {ds : Text} (h : ds.Digits) {c : Char} (hc : c.isDigit = false) :
    c ∉ ds := fun hmem => nomatch hc.symm.trans (h c hmem)

theorem natural?_digits {ds : Text} (digits : ds.Digits) (nonempty : ds ≠ []) :
    Literal.natural? ds = some ds.natural := by
  have hempty : ds.isEmpty = false := List.isEmpty_eq_false_iff.2 nonempty
  have hall : ds.all Char.isDigit = true := List.all_eq_true.2 digits
  unfold Literal.natural?
  rw [hempty, hall, Text.natural_eq]
  rfl

/-! ## the narrowest width -/

/-- Whether integers of a width and a signedness reach a number. -/
def Width.Reaches (w : Width) (signed : Bool) (n : Int) : Prop :=
  if signed then -2 ^ (w.bits - 1) ≤ n ∧ n < 2 ^ (w.bits - 1) else 0 ≤ n ∧ n < 2 ^ w.bits

theorem Width.contains_iff {w : Width} {signed : Bool} {n : Int} :
    IntType.Contains ⟨signed, w⟩ n ↔ w.Reaches signed n := by
  cases signed <;> cases w <;>
    simp [IntType.Contains, IntType.least, IntType.greatest, IntType.modulus, Width.count, Reaches,
      Width.bits] <;> omega

/-- An integer of a signedness in the least width that reaches it. -/
structure FixedInt.Narrowest (i : FixedInt) (signed : Bool) (n : Int) : Prop where
  sign : i.type.signed = signed
  value : i.val = n
  reaches : i.type.width.Reaches signed n
  least : ∀ w : Width, w.Reaches signed n → i.type.width.bits ≤ w.bits

theorem Width.eq_of_bits {w w' : Width} (h : w.bits = w'.bits) : w = w' := by
  cases w <;> cases w' <;> first | rfl | cases h

theorem FixedInt.Narrowest.unique {i j : FixedInt} {signed : Bool} {n : Int}
    (hi : i.Narrowest signed n) (hj : j.Narrowest signed n) : i = j := by
  have hbits : i.type.width.bits = j.type.width.bits :=
    Nat.le_antisymm (hi.least _ hj.reaches) (hj.least _ hi.reaches)
  refine FixedInt.ext ?_ (hi.value.trans hj.value.symm)
  rw [show i.type = ⟨i.type.signed, i.type.width⟩ from rfl, hi.sign, Width.eq_of_bits hbits,
    ← hj.sign]

namespace Literal

variable {signed : Bool} {n : Int} {w : Width}

theorem ofInt?_of_reaches (h : w.Reaches signed n) :
    FixedInt.ofInt? ⟨signed, w⟩ n = some ⟨⟨signed, w⟩, n, Width.contains_iff.2 h⟩ :=
  dif_pos (Width.contains_iff.2 h)

theorem ofInt?_of_not_reaches (h : ¬ w.Reaches signed n) :
    FixedInt.ofInt? ⟨signed, w⟩ n = none := dif_neg (mt Width.contains_iff.1 h)

/-- Widths tried from the least one on: the first that reaches the number is the narrowest. -/
theorem findSome?_narrowest (signed : Bool) (n : Int) (ws : List Width)
    (hws : ws.Pairwise fun v w => v.bits ≤ w.bits) :
    (∃ w, ∃ h : w.Reaches signed n,
      ws.findSome? (fun w => (FixedInt.ofInt? ⟨signed, w⟩ n).map Value.int) =
          some (.int ⟨⟨signed, w⟩, n, Width.contains_iff.2 h⟩) ∧
        ∀ v ∈ ws, v.Reaches signed n → w.bits ≤ v.bits) ∨
    ws.findSome? (fun w => (FixedInt.ofInt? ⟨signed, w⟩ n).map Value.int) = none ∧
      ∀ w ∈ ws, ¬ w.Reaches signed n := by
  induction ws with
  | nil => exact .inr ⟨rfl, nofun⟩
  | cons w ws ih =>
    obtain ⟨hw, hrest⟩ := List.pairwise_cons.1 hws
    rw [List.findSome?_cons]
    by_cases h : w.Reaches signed n
    · refine .inl ⟨w, h, ?_, List.forall_mem_cons.2 ⟨fun _ => Nat.le_refl _, fun v hv _ => hw v hv⟩⟩
      rw [ofInt?_of_reaches h]
      rfl
    · rw [ofInt?_of_not_reaches h]
      rcases ih hrest with ⟨v, hv, hfound, hleast⟩ | ⟨hfound, hnone⟩
      · exact .inl ⟨v, hv, hfound, List.forall_mem_cons.2 ⟨fun hw => absurd hw h, hleast⟩⟩
      · exact .inr ⟨hfound, List.forall_mem_cons.2 ⟨h, hnone⟩⟩

theorem narrowest?_cases (signed : Bool) (n : Int) :
    (∃ i, narrowest? signed n = some (.int i) ∧ i.Narrowest signed n) ∨
      narrowest? signed n = none ∧ ∀ w : Width, ¬ w.Reaches signed n := by
  have hall : ∀ w : Width, w ∈ [Width.w8, .w16, .w32, .w64] := fun w => by cases w <;> decide
  rcases findSome?_narrowest signed n [.w8, .w16, .w32, .w64] (by decide) with
    ⟨w, hw, hfound, hleast⟩ | ⟨hfound, hnone⟩
  · exact .inl ⟨_, hfound, rfl, rfl, hw, fun v => hleast v (hall v)⟩
  · exact .inr ⟨hfound, fun w => hnone w (hall w)⟩

/-- The value of an integer is its narrowest. -/
theorem narrowest?_eq_some {v : Value} :
    narrowest? signed n = some v ↔ ∃ i, v = .int i ∧ i.Narrowest signed n := by
  constructor
  · intro h
    rcases narrowest?_cases signed n with ⟨i, hi, hnarrowest⟩ | ⟨hnone, -⟩
    · exact ⟨i, Option.some.inj (h.symm.trans hi), hnarrowest⟩
    · cases h.symm.trans hnone
  · rintro ⟨i, rfl, hi⟩
    rcases narrowest?_cases signed n with ⟨j, hj, hnarrowest⟩ | ⟨-, hnone⟩
    · rw [hj, hnarrowest.unique hi]
    · exact absurd hi.reaches (hnone _)

/-- An integer has no value if no width reaches it. -/
theorem narrowest?_eq_none : narrowest? signed n = none ↔ ∀ w : Width, ¬ w.Reaches signed n := by
  rcases narrowest?_cases signed n with ⟨i, hi, hnarrowest⟩ | ⟨hnone, hreaches⟩
  · exact iff_of_false (fun h => nomatch hi.symm.trans h) fun h => h _ hnarrowest.reaches
  · exact iff_of_true hnone hreaches

theorem not_reaches_natural {n : Nat} :
    (∀ w : Width, ¬ w.Reaches false (n : Int)) ↔ 2 ^ 64 ≤ n := by
  constructor
  · intro h
    have hw := h .w64
    simp only [Width.Reaches, Width.bits] at hw
    norm_num at hw ⊢
    omega
  · intro h w hw
    cases w <;> simp [Width.Reaches, Width.bits] at hw <;> omega

theorem not_reaches_negative {n : Nat} :
    (∀ w : Width, ¬ w.Reaches true (-(n : Int))) ↔ 2 ^ 63 < n := by
  constructor
  · intro h
    have hw := h .w64
    simp only [Width.Reaches, Width.bits] at hw
    norm_num at hw ⊢
    omega
  · intro h w hw
    cases w <;> simp [Width.Reaches, Width.bits] at hw <;> omega

end Literal

/-! ## integers -/

namespace Literal

variable {ds : Text}

theorem number?_of_not_mem {cs : Text} (h : '.' ∉ cs) : number? cs = integer? cs := by
  have hcontains : cs.contains '.' = false := by simpa using h
  unfold number?
  rw [hcontains]
  rfl

theorem number?_of_mem {cs : Text} (h : '.' ∈ cs) :
    number? cs = (Floating.Decimal.read? cs).map fun d =>
      if 7 ≤ significantDigits cs then .r64 d.toFloat else .r32 d.toFloat32 := by
  have hcontains : cs.contains '.' = true := by simpa using h
  unfold number?
  rw [hcontains]
  rfl

theorem number?_digits (digits : ds.Digits) (nonempty : ds ≠ []) :
    number? ds = narrowest? false ds.natural := by
  rw [number?_of_not_mem (digits.not_mem rfl)]
  unfold integer?
  split
  · exact absurd (List.mem_cons_self ..) (digits.not_mem (c := '-') rfl)
  · exact absurd (List.mem_cons_self ..) (digits.not_mem (c := '+') rfl)
  · rw [natural?_digits digits nonempty]
    rfl

theorem number?_negative (digits : ds.Digits) (nonempty : ds ≠ []) :
    number? ('-' :: ds) = narrowest? true (-(ds.natural : Int)) := by
  have hpoint : '.' ∉ '-' :: ds :=
    List.not_mem_cons_of_ne_of_not_mem (by decide) (digits.not_mem rfl)
  rw [number?_of_not_mem hpoint, integer?, natural?_digits digits nonempty]
  rfl

end Literal

/-- What digits are read as: without a sign the narrowest unsigned integer, behind a minus sign the
narrowest signed one, and nothing beyond 64 bits. -/
structure IntegerRead (ds : Text) : Prop where
  unsigned : ∀ v, Literal.number? ds = some v ↔ ∃ i, v = .int i ∧ i.Narrowest false ds.natural
  unsignedNone : Literal.number? ds = none ↔ 2 ^ 64 ≤ ds.natural
  signed : ∀ v, Literal.number? ('-' :: ds) = some v ↔
    ∃ i, v = .int i ∧ i.Narrowest true (-(ds.natural : Int))
  signedNone : Literal.number? ('-' :: ds) = none ↔ 2 ^ 63 < ds.natural

theorem integers_read {ds : Text} (digits : ds.Digits) (nonempty : ds ≠ []) : IntegerRead ds := by
  constructor
  · rw [Literal.number?_digits digits nonempty]
    exact fun v => Literal.narrowest?_eq_some
  · rw [Literal.number?_digits digits nonempty]
    exact Literal.narrowest?_eq_none.trans Literal.not_reaches_natural
  · rw [Literal.number?_negative digits nonempty]
    exact fun v => Literal.narrowest?_eq_some
  · rw [Literal.number?_negative digits nonempty]
    exact Literal.narrowest?_eq_none.trans Literal.not_reaches_negative

/-! ## numbers with a point -/

/-- Digits with the zeros in front of them and behind them left out. -/
def Significant (ds core : Text) : Prop :=
  ∃ lead trail : Text, ds = lead ++ (core ++ trail) ∧ (∀ c ∈ lead, c = '0') ∧
    (∀ c ∈ trail, c = '0') ∧ core.head? ≠ some '0' ∧ core.getLast? ≠ some '0'

theorem any_zero_iff {o : Option Char} : o.any (· == '0') = false ↔ o ≠ some '0' := by
  cases o <;> simp

theorem exists_significant (ds : Text) : ∃ core, Significant ds core := by
  have hzero : ∀ {cs : Text}, ∀ c ∈ cs.takeWhile (· == '0'), c = '0' := fun {cs} c hc =>
    beq_iff_eq.1 (mem_takeWhile (p := (· == '0')) hc)
  generalize hmid : ds.dropWhile (· == '0') = mid
  generalize hback : mid.reverse.dropWhile (· == '0') = back
  have happend : back.reverse ++ (mid.reverse.takeWhile (· == '0')).reverse = mid := by
    rw [← List.reverse_append, ← hback, List.takeWhile_append_dropWhile, List.reverse_reverse]
  refine ⟨back.reverse, ds.takeWhile (· == '0'), (mid.reverse.takeWhile (· == '0')).reverse, ?_,
    hzero, fun c hc => hzero c (List.mem_reverse.1 hc), fun hfirst => ?_, ?_⟩
  · rw [happend, ← hmid, List.takeWhile_append_dropWhile]
  · have hmidFirst : mid.head? = some '0' := by
      rw [← happend, List.head?_append, hfirst]
      rfl
    exact any_zero_iff.1 head_dropWhile (hmid ▸ hmidFirst)
  · rw [List.getLast?_reverse, ← hback]
    exact any_zero_iff.1 head_dropWhile

/-- Only the digits of the core are counted. -/
theorem significantDigits_eq {cs core : Text} (h : Significant (cs.filter Char.isDigit) core) :
    Literal.significantDigits cs = core.length := by
  obtain ⟨lead, trail, hdigits, hlead, htrail, hfirst, hlast⟩ := h
  have hleadZero : ∀ c ∈ lead, (c == '0') = true := fun c hc => beq_iff_eq.2 (hlead c hc)
  have htrailZero : ∀ c ∈ trail.reverse, (c == '0') = true := fun c hc =>
    beq_iff_eq.2 (htrail c (List.mem_reverse.1 hc))
  have hbackFirst : core.reverse.head?.any (· == '0') = false :=
    any_zero_iff.2 (List.head?_reverse ▸ hlast)
  unfold Literal.significantDigits
  rw [hdigits, List.dropWhile_append_of_pos hleadZero]
  cases core with
  | nil =>
    have hnone : trail.dropWhile (· == '0') = [] :=
      List.dropWhile_eq_nil_iff.2 fun c hc => beq_iff_eq.2 (htrail c hc)
    rw [List.nil_append, hnone]
    rfl
  | cons d ds =>
    have hfront : (d :: ds ++ trail).head?.any (· == '0') = false := any_zero_iff.2 hfirst
    rw [dropWhile_of_head hfront, List.reverse_append, dropWhile_run htrailZero hbackFirst,
      List.length_reverse]

namespace Floating.Decimal

variable {cs ds fs : Text} {negative : Bool}

/-- A text that starts with a digit has no sign. -/
theorem takeSign_of_digits (digits : ds.Digits) (nonempty : ds ≠ []) (rest : Text) :
    takeSign (ds ++ rest) = (false, ds ++ rest) := by
  obtain ⟨d, ds', heq, hd⟩ := Scan.head_of_digits digits nonempty rest
  rw [heq]
  unfold takeSign
  split
  · rename_i hminus
    rw [(List.cons_eq_cons.1 hminus).1] at hd
    cases hd
  · rename_i hplus
    rw [(List.cons_eq_cons.1 hplus).1] at hd
    cases hd
  · rfl

/-- Digits with a point among them are a decimal, if there are any. -/
theorem read?_pointed (sign : takeSign cs = (negative, ds ++ '.' :: fs)) (digits : ds.Digits)
    (fraction : fs.Digits) (nonempty : ds ≠ [] ∨ fs ≠ []) :
    read? cs = some ⟨negative, ofDigits (ds ++ fs), -(fs.length : Int)⟩ := by
  have hpoint : ('.' :: fs).head?.any Char.isDigit = false := rfl
  have hend : ([] : Text).head?.any Char.isDigit = false := rfl
  have htake : fs.takeWhile Char.isDigit = fs := by simpa using takeWhile_run fraction hend
  have hdrop : fs.dropWhile Char.isDigit = [] := by simpa using dropWhile_run fraction hend
  have hempty : (ds.isEmpty && fs.isEmpty) = false := by
    rcases nonempty with h | h <;> simp [h]
  simp only [read?, sign, takeWhile_run digits hpoint, dropWhile_run digits hpoint, takeFraction,
    htake, hdrop, hempty, readExponent?, Option.map_some, Bool.false_eq_true, if_false, zero_sub]

/-- Every numeral with a point is a decimal. -/
theorem read?_numeral (h : Numeral cs) (hpoint : '.' ∈ cs) : ∃ d, read? cs = some d := by
  cases h with
  | @whole sign ds signed digits =>
    rcases List.mem_append.1 hpoint with hmem | hmem
    · rcases signed with rfl | rfl <;> simp at hmem
    · exact absurd hmem (digits.not_mem rfl)
  | @pointed sign ds fs signed digits nonempty fraction =>
    have hsign : takeSign (sign ++ (ds ++ '.' :: fs)) = (!sign.isEmpty, ds ++ '.' :: fs) := by
      rcases signed with rfl | rfl
      · exact takeSign_of_digits digits nonempty _
      · rfl
    exact ⟨_, read?_pointed hsign digits fraction (.inl nonempty)⟩
  | @fraction fs fraction nonempty =>
    have none : Text.Digits [] := nofun
    exact ⟨_, read?_pointed rfl none fraction (.inr nonempty)⟩

end Floating.Decimal

/-- What a number with a point is read as: a float, wide if it has at least seven significant
digits. -/
structure PointRead (text : Text) : Prop where
  significant : ∃ core, Significant (text.filter Char.isDigit) core
  float : ∃ v, Literal.number? text = some v ∧
    ∀ core, Significant (text.filter Char.isDigit) core →
      v.type = if 7 ≤ core.length then .r64 else .r32

theorem point_read {text : Text} (h : Numeral text) (hpoint : '.' ∈ text) : PointRead text := by
  obtain ⟨d, hd⟩ := Floating.Decimal.read?_numeral h hpoint
  refine ⟨exists_significant _, if 7 ≤ Literal.significantDigits text then .r64 d.toFloat
    else .r32 d.toFloat32, ?_, fun core hcore => ?_⟩
  · rw [Literal.number?_of_mem hpoint, hd]
    rfl
  · rw [significantDigits_eq hcore]
    split <;> rfl

/-! ## numerals without a value -/

/-- An integer that takes more than 64 bits. -/
def OutOfRange (text : Text) : Prop :=
  ∃ ds : Text, ds.Digits ∧ ds ≠ [] ∧
    (text = ds ∧ 2 ^ 64 ≤ ds.natural ∨ text = '-' :: ds ∧ 2 ^ 63 < ds.natural)

section
variable {ds : Text}

theorem outOfRange_digits (digits : ds.Digits) (nonempty : ds ≠ []) :
    OutOfRange ds ↔ 2 ^ 64 ≤ ds.natural := by
  constructor
  · rintro ⟨ds', -, -, ⟨rfl, h⟩ | ⟨rfl, -⟩⟩
    · exact h
    · exact absurd (List.mem_cons_self ..) (digits.not_mem (c := '-') rfl)
  · exact fun h => ⟨ds, digits, nonempty, .inl ⟨rfl, h⟩⟩

theorem outOfRange_negative (digits : ds.Digits) (nonempty : ds ≠ []) :
    OutOfRange ('-' :: ds) ↔ 2 ^ 63 < ds.natural := by
  constructor
  · rintro ⟨ds', digits', -, ⟨rfl, -⟩ | ⟨heq, h⟩⟩
    · exact absurd (List.mem_cons_self ..) (digits'.not_mem (c := '-') rfl)
    · rwa [(List.cons_eq_cons.1 heq).2]
  · exact fun h => ⟨ds, digits, nonempty, .inr ⟨rfl, h⟩⟩

end

theorem OutOfRange.no_point {text : Text} (h : OutOfRange text) : '.' ∉ text := by
  obtain ⟨ds, digits, -, ⟨rfl, -⟩ | ⟨rfl, -⟩⟩ := h
  · exact digits.not_mem rfl
  · exact List.not_mem_cons_of_ne_of_not_mem (by decide) (digits.not_mem rfl)

/-- The only numerals without a value are integers that take more than 64 bits. -/
theorem number?_eq_none_iff {text : Text} (h : Numeral text) :
    Literal.number? text = none ↔ OutOfRange text := by
  by_cases hpoint : '.' ∈ text
  · obtain ⟨v, hv, -⟩ := (point_read h hpoint).float
    exact iff_of_false (fun hnone => nomatch hv.symm.trans hnone) fun hout => hout.no_point hpoint
  cases h with
  | whole signed digits nonempty =>
    rcases signed with rfl | rfl
    · rw [List.nil_append, outOfRange_digits digits nonempty]
      exact (integers_read digits nonempty).unsignedNone
    · rw [List.singleton_append, outOfRange_negative digits nonempty]
      exact (integers_read digits nonempty).signedNone
  | pointed => simp at hpoint
  | fraction => simp at hpoint

end ExprEngine
