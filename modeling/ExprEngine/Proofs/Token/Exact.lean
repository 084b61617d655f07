import ExprEngine.Proofs.Outcome
import ExprEngine.Proofs.Token.Writing
import Mathlib.Data.List.Forall2

/-!
# The scanner and the lexical grammar agree

What the scanner cuts off is a word that fits its place, and every fitting word is cut off again.
So a source has the tokens that it is written with, and no others.

* `operator?_iff`, `number_complete`, `number_sound`, `content?_iff`   the scanner's parts;
* `Word.Fits.front`, `fits_of_front`             one token;
* `tokenize_written`, `written_of_tokenize`       a whole source, in either direction;
* `tokenize_exact`                                both.
-/

namespace ExprEngine

/-! ## runs of characters -/

section
variable {p : Char → Bool} {cs rest : Text}

theorem takeWhile_of_head (h : rest.head?.any p = false) : rest.takeWhile p = [] := by
  cases rest with
  | nil => rfl
  | cons c cs => exact List.takeWhile_cons_of_neg (by simpa using h)

theorem dropWhile_of_head (h : rest.head?.any p = false) : rest.dropWhile p = rest := by
  cases rest with
  | nil => rfl
  | cons c cs => exact List.dropWhile_cons_of_neg (by simpa using h)

theorem takeWhile_run (hcs : ∀ c ∈ cs, p c = true) (h : rest.head?.any p = false) :
    (cs ++ rest).takeWhile p = cs := by
  rw [List.takeWhile_append_of_pos hcs, takeWhile_of_head h, List.append_nil]

theorem dropWhile_run (hcs : ∀ c ∈ cs, p c = true) (h : rest.head?.any p = false) :
    (cs ++ rest).dropWhile p = rest := by
  rw [List.dropWhile_append_of_pos hcs, dropWhile_of_head h]

theorem mem_takeWhile {c : Char} (h : c ∈ cs.takeWhile p) : p c = true :=
  List.all_eq_true.1 List.all_takeWhile c h

theorem head_dropWhile : (cs.dropWhile p).head?.any p = false := by
  induction cs with
  | nil => rfl
  | cons c cs ih =>
    by_cases hc : p c = true
    · rw [List.dropWhile_cons_of_pos hc, ih]
    · rw [List.dropWhile_cons_of_neg hc]
      simpa using hc

end

namespace Scan

variable {previous : Option TokenKind} {c : Char} {cs text rest : Text}

/-! ## classes of characters and tokens -/

theorem isBlank_iff : isBlank c = true ↔ Blank c := by
  simp only [isBlank, Blank, Bool.or_eq_true, beq_iff_eq]

theorem expectsOperand_iff :
    expectsOperand previous = true ↔ ∀ k, previous = some k → k.endsOperand = false := by
  cases previous <;> simp [expectsOperand]

theorem not_expectsOperand_iff :
    expectsOperand previous = false ↔ ∃ k, previous = some k ∧ k.endsOperand = true := by
  cases previous <;> simp [expectsOperand]

theorem digit_of_name (h : runsIntoName rest = false) : rest.head?.any Char.isDigit = false := by
  cases rest with
  | nil => rfl
  | cons c cs =>
    simp only [runsIntoName, List.head?_cons, Option.any_some, Text.isNameRest, Char.isAlphanum,
      Bool.or_eq_false_iff] at h
    exact h.1.2

theorem startsWithDigit_eq (cs : Text) : startsWithDigit cs = cs.head?.any Char.isDigit := by
  cases cs <;> rfl

theorem not_digit_of_alpha (h : c.isAlpha = true) : c.isDigit = false := by
  have hletter : (decide ('A'.val ≤ c.val ∧ c.val ≤ 'Z'.val) ||
      decide ('a'.val ≤ c.val) && decide (c.val ≤ 'z'.val)) = true := h
  simp only [Bool.or_eq_true, Bool.and_eq_true, decide_eq_true_eq, UInt32.le_iff_toNat_le] at hletter
  simp only [Char.isDigit, Bool.and_eq_false_iff, decide_eq_false_iff_not, UInt32.le_iff_toNat_le,
    ge_iff_le]
  have : 'A'.val.toNat = 65 := rfl
  have : 'a'.val.toNat = 97 := rfl
  have : '9'.val.toNat = 57 := rfl
  omega

/-- A character that starts neither a number nor a string, nor is a mark of its own. -/
structure Plain (c : Char) : Prop where
  digit : c.isDigit = false
  quote : c ≠ '"'
  mark : c ≠ '(' ∧ c ≠ ')' ∧ c ≠ ','
  blank : isBlank c = false

instance (c : Char) : Decidable (Plain c) :=
  decidable_of_iff (c.isDigit = false ∧ c ≠ '"' ∧ (c ≠ '(' ∧ c ≠ ')' ∧ c ≠ ',') ∧ isBlank c = false)
    ⟨fun ⟨a, b, c, d⟩ => ⟨a, b, c, d⟩, fun ⟨a, b, c, d⟩ => ⟨a, b, c, d⟩⟩

/-- A character that starts a name starts nothing else. -/
theorem plain_of_nameStart (h : Text.isNameStart c = true) : Plain c ∧ c ≠ '-' ∧ c ≠ '.' := by
  have hne : ∀ d, Text.isNameStart d = false → c ≠ d := by
    rintro d hd rfl
    rw [hd] at h
    cases h
  have hblank : isBlank c = false := by
    rw [isBlank, beq_eq_false_iff_ne.2 (hne ' ' rfl), beq_eq_false_iff_ne.2 (hne '\t' rfl)]
    rfl
  have hdigit : c.isDigit = false := by
    rcases Bool.or_eq_true _ _ ▸ h with halpha | hunder
    · exact not_digit_of_alpha halpha
    · rw [beq_iff_eq.1 hunder]
      rfl
  exact ⟨⟨hdigit, hne '"' rfl, ⟨hne '(' rfl, hne ')' rfl, hne ',' rfl⟩, hblank⟩, hne '-' rfl,
    hne '.' rfl⟩

/-! ## operators -/

/-- The tables hold the symbols of all operators, and nothing else but the sign between the
branches of a choice. -/
theorem mem_tables : text ∈ pairs.map (fun p => [p.1, p.2]) ++ singles.map (fun a => [a]) ↔
    TokenKind.operator.Spells text := by
  constructor
  · intro h
    have hall : ∀ text ∈ pairs.map (fun p => [p.1, p.2]) ++ singles.map (fun a => [a]),
        text = branchSymbol.toList ∨ ∃ o ∈ Operator.all, text = o.symbol.toList := by decide
    rcases hall text h with hb | ⟨o, -, ho⟩
    · exact .inl hb
    · exact .inr ⟨o, ho⟩
  · have hall : ∀ o ∈ Operator.all,
        o.symbol.toList ∈ pairs.map (fun p => [p.1, p.2]) ++ singles.map (fun a => [a]) := by decide
    rintro (rfl | ⟨o, rfl⟩)
    · decide
    · exact hall o o.mem_all

/-- A symbol is a pair or a single character of the tables. -/
theorem spells_iff : TokenKind.operator.Spells text ↔
    (∃ a b, (a, b) ∈ pairs ∧ text = [a, b]) ∨ ∃ a ∈ singles, text = [a] := by
  rw [← mem_tables]
  simp only [List.mem_append, List.mem_map, Prod.exists, eq_comm]

theorem spells_single {a : Char} : TokenKind.operator.Spells [a] ↔ a ∈ singles := by
  simp [spells_iff]

theorem mem_pairs {a b : Char} : (a, b) ∈ pairs ↔ ∃ o : Operator, o.symbol.toList = [a, b] := by
  have hpair : (a, b) ∈ pairs ↔ TokenKind.operator.Spells [a, b] := by simp [spells_iff]
  have hbranch : [a, b] ≠ branchSymbol.toList := fun h => nomatch h
  simp only [hpair, TokenKind.Spells, hbranch, false_or, eq_comm]

/-- Behind a single character there is none that completes a pair. -/
theorem ends_single {a : Char} :
    TokenKind.operator.Ends [a] rest ↔ ∀ c, rest.head? = some c → (a, c) ∉ pairs := by
  simp only [TokenKind.Ends, mem_pairs, not_exists, List.cons_append, List.nil_append, ne_eq]

theorem ends_pair {a b : Char} : TokenKind.operator.Ends [a, b] rest := by
  intro c _ o ho
  have hspells : TokenKind.operator.Spells o.symbol.toList := .inr ⟨o, rfl⟩
  rw [ho, spells_iff] at hspells
  simp at hspells

theorem operator?_iff : operator? cs = some (text, rest) ↔
    cs = text ++ rest ∧ TokenKind.operator.Spells text ∧ TokenKind.operator.Ends text rest := by
  constructor
  · intro h
    refine ⟨(operator?_append h).1.symm, ?_⟩
    unfold operator? at h
    split at h
    · rename_i a b cs
      split at h
      · rename_i hp
        cases h
        exact ⟨spells_iff.2 (.inl ⟨a, b, by simpa using hp, rfl⟩), ends_pair⟩
      rename_i hp
      split at h
      · rename_i hs
        cases h
        refine ⟨spells_single.2 (by simpa using hs), ends_single.2 ?_⟩
        rintro c hc
        cases hc
        simpa using hp
      · cases h
    · split at h
      · rename_i hs
        cases h
        exact ⟨spells_single.2 (by simpa using hs), ends_single.2 nofun⟩
      · cases h
    · cases h
  · rintro ⟨rfl, hspells, hends⟩
    rcases spells_iff.1 hspells with ⟨a, b, hp, rfl⟩ | ⟨a, hs, rfl⟩
    · have hcontains : pairs.contains (a, b) = true := by simpa using hp
      simp only [List.cons_append, List.nil_append, operator?, hcontains, if_true]
    · have hcontains : singles.contains a = true := by simpa using hs
      cases rest with
      | nil => simp only [List.append_nil, operator?, hcontains, if_true]
      | cons c rest =>
        have hp : pairs.contains (a, c) = false := by simpa using ends_single.1 hends c rfl
        simp only [List.cons_append, List.nil_append, operator?, hp, hcontains, if_true,
          Bool.false_eq_true, if_false]

/-! ## numbers -/

theorem digits_whole {ds : Text} (hd : ds.Digits) (hn : rest.head?.any Char.isDigit = false)
    (hp : rest.head? ≠ some '.') : digits (ds ++ rest) = (ds, rest) := by
  unfold digits
  rw [takeWhile_run hd hn, dropWhile_run hd hn]
  split
  · exact absurd rfl hp
  · rfl

theorem digits_pointed {ds fs : Text} (hd : ds.Digits) (hf : fs.Digits)
    (hn : rest.head?.any Char.isDigit = false) :
    digits (ds ++ '.' :: (fs ++ rest)) = (ds ++ '.' :: fs, rest) := by
  have hpoint : (('.' :: (fs ++ rest) : Text).head?).any Char.isDigit = false := rfl
  unfold digits
  rw [takeWhile_run hd hpoint, dropWhile_run hd hpoint]
  show (ds ++ '.' :: (fs ++ rest).takeWhile Char.isDigit, (fs ++ rest).dropWhile Char.isDigit) = _
  rw [takeWhile_run hf hn, dropWhile_run hf hn]

/-- The digits at the front of a text, without a point behind them or with a fraction. -/
theorem digits_cases (cs : Text) :
    ((digits cs).1 = cs.takeWhile Char.isDigit ∧ (digits cs).2.head? ≠ some '.') ∨
      ∃ fs : Text, fs.Digits ∧ (digits cs).1 = cs.takeWhile Char.isDigit ++ '.' :: fs := by
  unfold digits
  split
  · exact .inr ⟨_, fun _ => mem_takeWhile, rfl⟩
  · rename_i hpoint
    refine .inl ⟨rfl, fun hd => ?_⟩
    cases hdrop : cs.dropWhile Char.isDigit with
    | nil =>
      rw [hdrop] at hd
      cases hd
    | cons c ds =>
      rw [hdrop] at hd
      cases hd
      exact hpoint ds hdrop

theorem takeMinus_signed {sign ds : Text} (signed : sign = [] ∨ sign = ['-'])
    (hd : ds.head? ≠ some '-') : takeMinus (sign ++ ds) = (sign, ds) := by
  rcases signed with rfl | rfl
  · cases ds with
    | nil => rfl
    | cons c ds =>
      unfold takeMinus
      split
      · rename_i heq
        cases heq
        exact absurd rfl hd
      · rfl
  · rfl

theorem head_of_digits {ds : Text} (hd : ds.Digits) (hne : ds ≠ []) (rest : Text) :
    ∃ d ds', ds ++ rest = d :: ds' ∧ d.isDigit = true := by
  cases ds with
  | nil => exact absurd rfl hne
  | cons d ds => exact ⟨d, ds ++ rest, rfl, hd d (List.mem_cons_self ..)⟩

theorem head_ne_of_digits {ds : Text} (hd : ds.Digits) (hne : ds ≠ []) (rest : Text) :
    (ds ++ rest).head? ≠ some '-' ∧ (ds ++ rest).head? ≠ some '.' := by
  obtain ⟨d, ds', heq, hdigit⟩ := head_of_digits hd hne rest
  rw [heq]
  constructor <;>
  · rintro h
    cases h
    cases hdigit

/-- A number is cut off where its digits end, if no name follows. -/
theorem number_of_digits {sign body : Text} (hm : takeMinus cs = (sign, body ++ rest))
    (hd : digits (body ++ rest) = (body, rest)) (hname : runsIntoName rest = false) :
    number cs = .token .number (sign ++ body) rest := by
  simp only [number, hm, hd, hname, Bool.false_eq_true, if_false]

/-- A numeral is cut off again, if nothing behind it makes it longer. -/
theorem number_complete (hnum : Numeral text) (hends : TokenKind.number.Ends text rest) :
    number (text ++ rest) = .token .number text rest := by
  obtain ⟨hname, hpoint⟩ := hends
  have hdigit : rest.head?.any Char.isDigit = false := digit_of_name hname
  cases hnum with
  | @whole sign ds signed digits nonempty =>
    have hminus := (head_ne_of_digits digits nonempty rest).1
    have hdot : rest.head? ≠ some '.' := by
      refine hpoint fun hmem => ?_
      rcases List.mem_append.1 hmem with hmem | hmem
      · rcases signed with rfl | rfl <;> simp at hmem
      · exact absurd (digits '.' hmem) (by decide)
    rw [List.append_assoc]
    exact number_of_digits (takeMinus_signed signed hminus) (digits_whole digits hdigit hdot) hname
  | @pointed sign ds fs signed digits nonempty fraction =>
    have hminus := (head_ne_of_digits digits nonempty ('.' :: fs ++ rest)).1
    have hbody := digits_pointed digits fraction hdigit
    rw [List.append_assoc]
    refine number_of_digits (takeMinus_signed signed ?_) ?_ hname
    · rwa [List.append_assoc]
    · rwa [List.append_assoc, List.cons_append]
  | @fraction fs fraction nonempty =>
    have none : Text.Digits [] := nofun
    have hbody : digits ('.' :: (fs ++ rest)) = ('.' :: fs, rest) :=
      digits_pointed none fraction hdigit
    have hminus : takeMinus ('.' :: (fs ++ rest)) = ([], '.' :: fs ++ rest) := rfl
    exact number_of_digits hminus hbody hname

theorem takeWhile_ne_nil (h : startsWithDigit cs = true) : cs.takeWhile Char.isDigit ≠ [] := by
  cases cs with
  | nil => cases h
  | cons c cs =>
    have hc : c.isDigit = true := h
    rw [List.takeWhile_cons_of_pos hc]
    exact List.cons_ne_nil _ _

/-- What is cut off where digits start is a numeral, but for its sign. -/
theorem numeral_of_digits {sign : Text} (signed : sign = [] ∨ sign = ['-'])
    (hcs : startsWithDigit cs = true) : Numeral (sign ++ (digits cs).1) := by
  have hne : cs.takeWhile Char.isDigit ≠ [] := takeWhile_ne_nil hcs
  rcases digits_cases cs with ⟨heq, -⟩ | ⟨fs, hfs, heq⟩
  · rw [heq]
    exact .whole signed (fun _ => mem_takeWhile) hne
  · rw [heq]
    exact .pointed signed (fun _ => mem_takeWhile) hne hfs

theorem numeral_of_point (hcs : startsWithDigit cs = true) : Numeral (digits ('.' :: cs)).1 :=
  .fraction (fun _ => mem_takeWhile) (takeWhile_ne_nil hcs)

/-- What is cut off where a number starts is a numeral that nothing makes longer. -/
theorem number_sound {kind : TokenKind}
    (hcs : startsWithDigit cs = true ∨
      ∃ ds, (cs = '-' :: ds ∨ cs = '.' :: ds) ∧ startsWithDigit ds = true)
    (h : number cs = .token kind text rest) :
    kind = .number ∧ Numeral text ∧ TokenKind.number.Ends text rest := by
  simp only [number] at h
  split at h
  · cases h
  rename_i hname
  cases h
  refine ⟨rfl, ?_, Bool.not_eq_true _ ▸ hname, fun hpoint => ?_⟩
  · rcases hcs with hcs | ⟨ds, rfl | rfl, hds⟩
    · have hm : takeMinus cs = ([], cs) := by
        refine takeMinus_signed (.inl rfl) ?_
        rintro hminus
        cases cs with
        | nil => cases hcs
        | cons c cs =>
          cases hminus
          cases hcs
      rw [hm]
      exact numeral_of_digits (.inl rfl) hcs
    · exact numeral_of_digits (.inr rfl) hds
    · exact numeral_of_point hds
  · rcases digits_cases (takeMinus cs).2 with ⟨-, hd⟩ | ⟨fs, -, heq⟩
    · exact hd
    · rw [heq] at hpoint
      simp at hpoint

/-! ## strings -/

/-- The text of a string literal goes up to the first quote that no backslash escapes. -/
theorem content?_iff :
    content? cs = some (text, rest) ↔ Quotable text ∧ cs = text ++ '"' :: rest := by
  constructor
  · intro h
    refine ⟨?_, (content?_append h).symm⟩
    fun_induction content? cs generalizing text rest with
    | case1 => cases h
    | case2 cs =>
      cases h
      exact .nil
    | case3 c cs ih =>
      obtain ⟨⟨t, r⟩, ht, he⟩ := Option.map_eq_some_iff.1 h
      cases he
      exact .escape (ih ht)
    | case4 c cs hquote hescape ih =>
      obtain ⟨⟨t, r⟩, ht, he⟩ := Option.map_eq_some_iff.1 h
      cases he
      refine .plain hquote ?_ (ih ht)
      rintro rfl
      cases cs with
      | nil => cases ht
      | cons d ds => exact hescape d ds rfl rfl
  · rintro ⟨hq, rfl⟩
    induction hq with
    | nil => rfl
    | plain quote backslash _ ih =>
      rw [List.cons_append, content?, ih]
      · rfl
      · exact quote
      · exact fun _ _ h => absurd h backslash
    | escape _ ih =>
      rw [List.cons_append, List.cons_append, content?, ih]
      rfl

/-! ## one token -/

theorem blank_of_digit (h : c.isDigit = true) : isBlank c = false := by
  cases hb : isBlank c with
  | false => rfl
  | true =>
    simp only [isBlank, Bool.or_eq_true, beq_iff_eq] at hb
    rcases hb with rfl | rfl <;> cases h

/-- A numeral starts with a digit, or with a sign or a point that stands before one. -/
theorem head_of_numeral (hnum : Numeral text) (rest : Text) :
    ∃ c cs, text ++ rest = c :: cs ∧ text.head? = some c ∧
      (c.isDigit = true ∨ (c = '-' ∨ c = '.') ∧ startsWithDigit cs = true) := by
  have hsigned : ∀ {sign ds : Text} (tail : Text), sign = [] ∨ sign = ['-'] → ds.Digits → ds ≠ [] →
      ∃ c cs, sign ++ (ds ++ tail) = c :: cs ∧ (sign ++ ds).head? = some c ∧
        (c.isDigit = true ∨ (c = '-' ∨ c = '.') ∧ startsWithDigit cs = true) := by
    intro sign ds tail signed hds hne
    cases ds with
    | nil => exact absurd rfl hne
    | cons d ds =>
      have hd : d.isDigit = true := hds d (List.mem_cons_self ..)
      rcases signed with rfl | rfl
      · exact ⟨d, ds ++ tail, rfl, rfl, .inl hd⟩
      · exact ⟨'-', d :: (ds ++ tail), rfl, rfl, .inr ⟨.inl rfl, hd⟩⟩
  cases hnum with
  | whole signed digits nonempty =>
    obtain ⟨c, cs, heq, hhead, hc⟩ := hsigned rest signed digits nonempty
    exact ⟨c, cs, by rw [List.append_assoc, heq], hhead, hc⟩
  | @pointed sign ds fs signed digits nonempty fraction =>
    obtain ⟨c, cs, heq, hhead, hc⟩ := hsigned ('.' :: fs ++ rest) signed digits nonempty
    refine ⟨c, cs, by rw [List.append_assoc, List.append_assoc, heq], ?_, hc⟩
    rw [← List.append_assoc, List.head?_append, hhead]
    rfl
  | @fraction fs fraction nonempty =>
    obtain ⟨d, ds, heq, hd⟩ := head_of_digits fraction nonempty rest
    refine ⟨'.', fs ++ rest, rfl, rfl, .inr ⟨.inr rfl, ?_⟩⟩
    rw [heq]
    exact hd

theorem front_number (hnum : Numeral text) (hends : TokenKind.number.Ends text rest)
    (hsigns : TokenKind.number.Signs previous text rest) :
    ∃ c cs, text ++ rest = c :: cs ∧ isBlank c = false ∧
      front previous c cs = .token .number text rest := by
  obtain ⟨c, cs, heq, hhead, hc⟩ := head_of_numeral hnum rest
  have hcut : number (c :: cs) = .token .number text rest := heq ▸ number_complete hnum hends
  rcases hc with hc | ⟨hc, hcs⟩
  · refine ⟨c, cs, heq, blank_of_digit hc, ?_⟩
    rw [front, if_pos hc, hcut]
  · have hexpects : expectsOperand previous = true := by
      refine expectsOperand_iff.2 (hsigns ?_)
      rw [hhead]
      exact hc.imp (congrArg some) (congrArg some)
    refine ⟨c, cs, heq, by rcases hc with rfl | rfl <;> rfl, ?_⟩
    have hdigit : ¬ c.isDigit = true := by rcases hc with rfl | rfl <;> decide
    have hsign : ((c == '-' || c == '.') && expectsOperand previous && startsWithDigit cs) = true := by
      rw [hexpects, hcs]
      rcases hc with rfl | rfl <;> rfl
    rw [front, if_neg hdigit, if_pos hsign, hcut]

/-- The scan of a plain character that is no sign of a number. -/
theorem front_plain (hc : Plain c)
    (hsign : ((c == '-' || c == '.') && expectsOperand previous && startsWithDigit cs) = false) :
    front previous c cs =
      if Text.isNameStart c then
        .token .identifier (c :: cs.takeWhile Text.isNameRest) (cs.dropWhile Text.isNameRest)
      else
        match operator? (c :: cs) with
        | some (text, rest) => .token .operator text rest
        | none => .error (.invalidChar c) [c] := by
  obtain ⟨hopen, hclose, hcomma⟩ := hc.mark
  rw [front, if_neg (by rw [hc.digit]; exact Bool.false_ne_true),
    if_neg (by rw [hsign]; exact Bool.false_ne_true), if_neg (by simpa using hc.quote),
    if_neg (by simp [hopen, hclose])]
  exact if_neg (by simpa using hcomma)

theorem front_identifier (hname : Text.isName text = true) (hends : runsIntoName rest = false) :
    ∃ c cs, text ++ rest = c :: cs ∧ isBlank c = false ∧
      front previous c cs = .token .identifier text rest := by
  cases text with
  | nil => cases hname
  | cons c cs =>
    obtain ⟨hstart, hrest⟩ := Bool.and_eq_true _ _ ▸ hname
    obtain ⟨hplain, hminus, hpoint⟩ := plain_of_nameStart hstart
    refine ⟨c, cs ++ rest, rfl, hplain.blank, ?_⟩
    have hall : ∀ d ∈ cs, Text.isNameRest d = true := List.all_eq_true.1 hrest
    rw [front_plain hplain (by simp [hminus, hpoint]), if_pos hstart, takeWhile_run hall hends,
      dropWhile_run hall hends]

/-- A character that starts an operator starts nothing else, but for a minus sign. -/
theorem plain_of_operator (h : TokenKind.operator.Spells text) :
    ∃ c cs, text = c :: cs ∧ Plain c ∧ c ≠ '.' ∧ Text.isNameStart c = false := by
  have hpairs : ∀ p ∈ pairs, Plain p.1 ∧ p.1 ≠ '.' ∧ Text.isNameStart p.1 = false := by decide
  -- a check of the list; to decide the bounded quantifier might take all characters
  have hsingles : singles.all fun a => Plain a ∧ a ≠ '.' ∧ Text.isNameStart a = false := by decide
  rcases spells_iff.1 h with ⟨a, b, hp, rfl⟩ | ⟨a, hs, rfl⟩
  · exact ⟨a, [b], rfl, hpairs (a, b) hp⟩
  · exact ⟨a, [], rfl, of_decide_eq_true (List.all_eq_true.1 hsingles a hs)⟩

/-- A minus sign that is an operator is no sign of a number. -/
theorem operator_sign (hspells : TokenKind.operator.Spells (c :: cs)) (hpoint : c ≠ '.')
    (hsigns : TokenKind.operator.Signs previous (c :: cs) rest) :
    ((c == '-' || c == '.') && expectsOperand previous && startsWithDigit (cs ++ rest)) = false := by
  have hpairs : ∀ p ∈ pairs, p.2.isDigit = false := by decide
  by_cases hminus : c = '-'
  · subst hminus
    cases hdigit : startsWithDigit (cs ++ rest) with
    | false => rw [Bool.and_false]
    | true =>
      rcases spells_iff.1 hspells with ⟨a, b, hp, heq⟩ | ⟨a, -, heq⟩
      · cases heq
        have hb : b.isDigit = true := hdigit
        rw [hpairs _ hp] at hb
        cases hb
      · cases heq
        rw [startsWithDigit_eq] at hdigit
        rw [not_expectsOperand_iff.2 (hsigns rfl hdigit)]
        rfl
  · simp [hminus, hpoint]

theorem front_operator (hspells : TokenKind.operator.Spells text)
    (hends : TokenKind.operator.Ends text rest)
    (hsigns : TokenKind.operator.Signs previous text rest) :
    ∃ c cs, text ++ rest = c :: cs ∧ isBlank c = false ∧
      front previous c cs = .token .operator text rest := by
  obtain ⟨c, cs, rfl, hplain, hpoint, hstart⟩ := plain_of_operator hspells
  refine ⟨c, cs ++ rest, rfl, hplain.blank, ?_⟩
  have hcut : operator? (c :: (cs ++ rest)) = some (c :: cs, rest) :=
    operator?_iff.2 ⟨rfl, hspells, hends⟩
  rw [front_plain hplain (operator_sign hspells hpoint hsigns), hstart, hcut]
  rfl

end Scan

namespace Word

variable {w : Word} {previous : Option TokenKind} {rest : Text}

/-- What the scanner should make of a word. -/
def scan (w : Word) (rest : Text) : Scan :=
  if w.kind = .string then .quoted w.text rest else .token w.kind w.text rest

/-- The scanner cuts off a word that fits its place. -/
theorem Fits.front (h : w.Fits previous rest) :
    ∃ c cs, w.lexeme ++ rest = c :: cs ∧ Scan.isBlank c = false ∧
      Scan.front previous c cs = w.scan rest := by
  obtain ⟨gap, kind, text⟩ := w
  have hspelled : kind.Spells text := h.spelled
  have hends : kind.Ends text rest := h.ends
  have hsigns : kind.Signs previous text rest := h.signs
  cases kind with
  | number => exact Scan.front_number hspelled hends hsigns
  | operator => exact Scan.front_operator hspelled hends hsigns
  | identifier => exact Scan.front_identifier hspelled hends
  | comma =>
    obtain rfl : text = [','] := hspelled
    exact ⟨',', rest, rfl, rfl, rfl⟩
  | parenthesis =>
    obtain rfl | rfl : text = ['('] ∨ text = [')'] := hspelled
    · exact ⟨'(', rest, rfl, rfl, rfl⟩
    · exact ⟨')', rest, rfl, rfl, rfl⟩
  | string =>
    have hcut : Scan.content? (text ++ '"' :: rest) = some (text, rest) :=
      Scan.content?_iff.2 ⟨hspelled, rfl⟩
    have hlexeme : lexeme ⟨gap, .string, text⟩ ++ rest = '"' :: (text ++ '"' :: rest) := by
      simp [lexeme, TokenKind.lexeme]
    refine ⟨'"', text ++ '"' :: rest, hlexeme, rfl, ?_⟩
    show (match Scan.content? (text ++ '"' :: rest) with
      | some (t, r) => Scan.quoted t r
      | none => .error .missingQuote ('"' :: (text ++ '"' :: rest))) = .quoted text rest
    rw [hcut]

end Word

namespace Scan

variable {previous : Option TokenKind} {c : Char} {cs text rest : Text} {kind : TokenKind}

/-- What the scanner cuts off fits the place where it stood. -/
theorem fits_of_front {gap : Text} (hgap : ∀ c ∈ gap, Blank c)
    (h : front previous c cs = .token kind text rest) :
    kind ≠ .string ∧ (Word.mk gap kind text).Fits previous rest := by
  have hhead : text.head? = some c := by
    have happend := front_token h
    cases text with
    | nil => exact absurd rfl (front_token_ne_nil h)
    | cons d ds =>
      cases happend
      rfl
  have hcut : text ++ rest = c :: cs := front_token h
  unfold front at h
  -- the scanner tries one kind after the other; the refusals so far matter to an operator only
  split at h
  · rename_i hdigit
    have hstart : startsWithDigit (c :: cs) = true := hdigit
    obtain ⟨rfl, hnum, hends⟩ := number_sound (.inl hstart) h
    refine ⟨nofun, hgap, hnum, hends, fun hsign => ?_⟩
    rcases hsign with hsign | hsign
    all_goals
      rw [hhead] at hsign
      cases hsign
      cases hdigit
  rename_i hdigit
  split at h
  · rename_i hsign
    simp only [Bool.and_eq_true, Bool.or_eq_true, beq_iff_eq] at hsign
    obtain ⟨⟨hc, hexpects⟩, hcs⟩ := hsign
    have hstart : ∃ ds, (c :: cs = '-' :: ds ∨ c :: cs = '.' :: ds) ∧ startsWithDigit ds = true :=
      ⟨cs, hc.imp (congrArg (· :: cs)) (congrArg (· :: cs)), hcs⟩
    obtain ⟨rfl, hnum, hends⟩ := number_sound (.inr hstart) h
    exact ⟨nofun, hgap, hnum, hends, fun _ => expectsOperand_iff.1 hexpects⟩
  rename_i hsign
  split at h
  · split at h <;> cases h
  split at h
  · rename_i hmark
    cases h
    have hmark : c = '(' ∨ c = ')' := by simpa using hmark
    exact ⟨nofun, hgap, hmark.imp (congrArg ([·])) (congrArg ([·])), trivial, trivial⟩
  split at h
  · rename_i hmark
    cases h
    have hmark : c = ',' := by simpa using hmark
    exact ⟨nofun, hgap, congrArg ([·]) hmark, trivial, trivial⟩
  split at h
  · rename_i hstart
    cases h
    have hname : Text.isName (c :: cs.takeWhile Text.isNameRest) = true := by
      rw [Text.isName_cons, hstart, Bool.true_and]
      exact List.all_takeWhile
    exact ⟨nofun, hgap, hname, head_dropWhile, trivial⟩
  split at h
  · rename_i t r ho
    cases h
    obtain ⟨-, hspells, hends⟩ := operator?_iff.1 ho
    refine ⟨nofun, hgap, hspells, hends, ?_⟩
    -- a minus sign before a digit is left to this case only where no operand is expected
    rintro rfl hdigits
    obtain ⟨rfl, rfl⟩ := List.cons.inj hcut
    rw [← startsWithDigit_eq] at hdigits
    refine not_expectsOperand_iff.1 ?_
    cases hexpects : expectsOperand previous with
    | false => rfl
    | true =>
      have htaken : ¬ (('-' == '-' || '-' == '.') && expectsOperand previous &&
          startsWithDigit rest) = true := hsign
      rw [hexpects, hdigits] at htaken
      exact absurd rfl htaken
  · cases h

theorem fits_of_quoted {gap : Text} (hgap : ∀ c ∈ gap, Blank c)
    (h : front previous c cs = .quoted text rest) : (Word.mk gap .string text).Fits previous rest := by
  obtain ⟨rfl, -⟩ := front_quoted h
  have hcontent : content? cs = some (text, rest) := by
    have hfront : front previous '"' cs = match content? cs with
      | some (t, r) => .quoted t r
      | none => .error .missingQuote ('"' :: cs) := rfl
    rw [hfront] at h
    split at h
    · rename_i t r hcontent
      cases h
      exact hcontent
    · cases h
  exact ⟨hgap, (content?_iff.1 hcontent).1, trivial, trivial⟩

end Scan

/-! ## a whole source -/

namespace Tokenizer

variable {previous : Option TokenKind} {offset : Nat} {ws : List Word} {rest tail : Text}

theorem items_cons {t t' : Tokenizer} {item : Except LexError Token} (h : t.next = (some item, t')) :
    t.items = item :: t'.items := by
  rw [items.eq_def]
  split
  · rename_i hn
    rw [h] at hn
    cases hn
  · rename_i hn
    rw [h] at hn
    cases hn
    rfl

theorem items_nil {t t' : Tokenizer} (h : t.next = (none, t')) : t.items = [] := by
  rw [items.eq_def]
  split
  · rfl
  · rename_i hn
    rw [h] at hn
    cases hn

/-- A word that fits is the next token, and the tokenizer goes on behind it. -/
theorem next_word {w : Word} (h : w.Fits previous rest) :
    next ⟨w.gap ++ (w.lexeme ++ rest), offset, previous, .scanning⟩ =
      (some (.ok (w.token offset)), ⟨rest, w.stop offset, some w.kind, .scanning⟩) := by
  have hgap : ∀ c ∈ w.gap, Scan.isBlank c = true := fun c hc => Scan.isBlank_iff.2 (h.gap c hc)
  obtain ⟨c, cs, heq, hblank, hfront⟩ := h.front
  have hhead : ((w.lexeme ++ rest).head?).any Scan.isBlank = false := by
    rw [heq]
    exact hblank
  have hskip : skipBlanks ⟨w.gap ++ (w.lexeme ++ rest), offset, previous, .scanning⟩ =
      ⟨c :: cs, w.start offset, previous, .scanning⟩ := by
    unfold skipBlanks
    dsimp only
    rw [takeWhile_run hgap hhead, dropWhile_run hgap hhead, heq]
    rfl
  show (skipBlanks _).scan = _
  rw [hskip]
  unfold scan
  dsimp only
  rw [hfront]
  by_cases hs : w.kind = .string
  · have hstop : w.start offset + 1 + Text.byteLength w.text + 1 = w.stop offset := by
      unfold Word.stop Word.lexeme TokenKind.lexeme
      rw [if_pos hs, Text.byteLength_cons, Text.byteLength_append]
      have hquote : Text.byteLength ['"'] = 1 := rfl
      have hsize : '"'.utf8Size = 1 := rfl
      omega
    simp only [Word.scan, Word.token, if_pos hs, hstop]
    rw [hs]
  · have hstop : w.start offset + Text.byteLength w.text = w.stop offset := by
      unfold Word.stop Word.lexeme TokenKind.lexeme
      rw [if_neg hs]
    simp only [Word.scan, Word.token, if_neg hs, hstop, Nat.add_zero]

/-- Fitting words are cut off one after the other. -/
theorem items_written (h : Fitting previous ws tail) :
    items ⟨written ws tail, offset, previous, .scanning⟩ = (tokensOf offset ws).map .ok := by
  induction ws generalizing previous offset with
  | nil =>
    have hskip : tail.dropWhile Scan.isBlank = [] := by
      have hend : ([] : Text).head?.any Scan.isBlank = false := rfl
      have hrun := dropWhile_run (fun c hc => Scan.isBlank_iff.2 (h c hc)) hend
      rwa [List.append_nil] at hrun
    have hnext : next ⟨written [] tail, offset, previous, .scanning⟩ =
        (none, finish (skipBlanks ⟨tail, offset, previous, .scanning⟩)) := by
      show (skipBlanks _).scan = _
      unfold scan skipBlanks
      dsimp only [written]
      rw [hskip]
    rw [items_nil hnext]
    rfl
  | cons w ws ih =>
    obtain ⟨hfirst, hrest⟩ := h
    rw [written, items_cons (next_word hfirst), ih hrest]
    rfl

/-- Where the next item is a token there is a word that fits. -/
theorem word_of_next {t : Tokenizer} (ht : t.phase = .scanning) {tok : Token}
    (h : t.next.1 = some (.ok tok)) :
    ∃ (w : Word) (rest : Text), t.rest = w.gap ++ (w.lexeme ++ rest) ∧ w.Fits t.previous rest := by
  have hgap : ∀ c ∈ t.rest.takeWhile Scan.isBlank, Blank c :=
    fun _ hc => Scan.isBlank_iff.1 (mem_takeWhile hc)
  have hnext : t.next = t.skipBlanks.scan := by
    unfold next
    rw [ht]
  rw [hnext] at h
  unfold scan at h
  split at h
  · cases h
  rename_i c cs hrest
  have hsplit : t.rest = t.rest.takeWhile Scan.isBlank ++ (c :: cs) := by
    have hrest : t.rest.dropWhile Scan.isBlank = c :: cs := hrest
    rw [← hrest, List.takeWhile_append_dropWhile]
  split at h
  · rename_i kind text rest hfront
    obtain ⟨hkind, hfits⟩ := Scan.fits_of_front hgap hfront
    refine ⟨_, rest, ?_, hfits⟩
    have hlexeme : kind.lexeme text = text := if_neg hkind
    show t.rest = _ ++ (kind.lexeme text ++ rest)
    rw [hlexeme, Scan.front_token hfront]
    exact hsplit
  · rename_i content rest hfront
    refine ⟨_, rest, ?_, Scan.fits_of_quoted hgap hfront⟩
    obtain ⟨rfl, hcs⟩ := Scan.front_quoted hfront
    show t.rest = _ ++ (TokenKind.string.lexeme content ++ rest)
    have hlexeme : TokenKind.string.lexeme content ++ rest = '"' :: cs := by
      rw [← hcs]
      simp [TokenKind.lexeme]
    rw [hlexeme]
    exact hsplit
  · cases h

/-- Where nothing comes next there are only blanks. -/
theorem blank_of_next {t : Tokenizer} (ht : t.phase = .scanning) (h : t.next.1 = none) :
    ∀ c ∈ t.rest, Blank c := by
  have hnext : t.next = t.skipBlanks.scan := by
    unfold next
    rw [ht]
  rw [hnext] at h
  unfold scan at h
  split at h
  · rename_i hrest
    have hrest : t.rest.dropWhile Scan.isBlank = [] := hrest
    have hsplit : t.rest.takeWhile Scan.isBlank ++ t.rest.dropWhile Scan.isBlank = t.rest :=
      List.takeWhile_append_dropWhile
    rw [hrest, List.append_nil] at hsplit
    rw [← hsplit]
    exact fun _ hc => Scan.isBlank_iff.1 (mem_takeWhile hc)
  · split at h <;> cases h

/-- What a tokenizer yields was written as words that fit. -/
theorem written_of_items {t : Tokenizer} {ts : List Token} (ht : t.phase = .scanning)
    (h : collectTokens t.items = .ok ts) : ∃ ws tail, t.rest = written ws tail ∧
      Fitting t.previous ws tail ∧ ts = tokensOf t.offset ws := by
  induction ts generalizing t with
  | nil =>
    rw [items.eq_def] at h
    split at h
    · rename_i hn
      exact ⟨[], t.rest, rfl, blank_of_next ht (congrArg Prod.fst hn), rfl⟩
    · rename_i item t' hn
      cases item with
      | error e => cases h
      | ok tok =>
        rw [collectTokens] at h
        obtain ⟨ts', -, h⟩ := map_eq_ok.1 h
        cases h
  | cons tok ts ih =>
    rw [items.eq_def] at h
    split at h
    · cases h
    rename_i item t' hn
    cases item with
    | error e => cases h
    | ok tok' =>
      obtain ⟨ts', hts, h⟩ := map_eq_ok.1 h
      cases h
      obtain ⟨w, rest, hrest, hfits⟩ := word_of_next ht (congrArg Prod.fst hn)
      obtain ⟨source, offset, previous, phase⟩ := t
      subst ht
      subst hrest
      rw [next_word hfits] at hn
      cases hn
      obtain ⟨ws, tail, hwritten, hfitting, htokens⟩ := ih rfl hts
      dsimp only at hwritten htokens
      subst hwritten
      exact ⟨w :: ws, tail, rfl, ⟨hfits, hfitting⟩, by rw [tokensOf, htokens]⟩

end Tokenizer

theorem collectTokens_ok (ts : List Token) : collectTokens (ts.map .ok) = .ok ts := by
  induction ts with
  | nil => rfl
  | cons t ts ih =>
    rw [List.map_cons, collectTokens, ih]
    rfl

/-- A source of fitting words has their tokens. -/
theorem tokenize_written {source : String} {ws : List Word} {tail : Text}
    (hlength : Text.byteLength source.toList ≤ Span.maxOffset)
    (hsource : source.toList = written ws tail) (h : Fitting none ws tail) :
    tokenize source = .ok (tokensOf 0 ws) := by
  have hstart : Tokenizer.ofSource source.toList = ⟨written ws tail, 0, none, .scanning⟩ := by
    unfold Tokenizer.ofSource
    rw [if_neg (Nat.not_lt.2 hlength), hsource]
  rw [tokenize, hstart, Tokenizer.items_written h, collectTokens_ok]

/-- A source that is too long has no tokens. -/
theorem length_of_tokenize {source : String} {ts : List Token} (h : tokenize source = .ok ts) :
    Text.byteLength source.toList ≤ Span.maxOffset := by
  refine Nat.le_of_not_lt fun hlength => ?_
  have hnext : (Tokenizer.ofSource source.toList).next =
      (some (.error ⟨.sourceTooLong (Text.byteLength source.toList), .point 0⟩),
        (Tokenizer.ofSource source.toList).finish) := by
    unfold Tokenizer.next Tokenizer.ofSource
    rw [if_pos hlength]
  rw [tokenize, Tokenizer.items_cons hnext] at h
  cases h

/-- A source that has tokens was written as words that fit. -/
theorem written_of_tokenize {source : String} {ts : List Token} (h : tokenize source = .ok ts) :
    ∃ ws tail, source.toList = written ws tail ∧ Fitting none ws tail ∧ ts = tokensOf 0 ws := by
  have hstart : (Tokenizer.ofSource source.toList).phase = .scanning :=
    if_neg (Nat.not_lt.2 (length_of_tokenize h))
  exact Tokenizer.written_of_items hstart h

/-- Every token of a source is that of a word, which stands in the source where the token does. -/
theorem word_of_tokenize {source : String} {ts : List Token} (h : tokenize source = .ok ts)
    {t : Token} (ht : t ∈ ts) :
    ∃ (w : Word) (front behind : Text), w.kind.Spells w.text ∧
      source.toList = front ++ (w.gap ++ (w.lexeme ++ behind)) ∧
      t = w.token (Text.byteLength front) := by
  obtain ⟨ws, tail, hsource, hfitting, rfl⟩ := written_of_tokenize h
  rw [hsource]
  exact word_of_mem_tokensOf hfitting [] ht

/-- The text of a token is one that its kind may have. -/
theorem spells_of_tokenize {source : String} {ts : List Token} (h : tokenize source = .ok ts)
    {t : Token} (ht : t ∈ ts) : t.kind.Spells (t.span.slice source.toList) := by
  obtain ⟨w, front, behind, hspells, hsource, rfl⟩ := word_of_tokenize h ht
  rw [hsource, w.slice_token front behind]
  exact hspells

theorem lexeme_spells {source : String} {ts : List Token} (h : tokenize source = .ok ts)
    {l : Lexeme} (hl : l ∈ TokenStream.lexemes ⟨source.toList, ts⟩) :
    l.kind.Spells l.text.toList := by
  obtain ⟨t, ht, k, rfl⟩ := mem_lexemesFrom hl
  show t.kind.Spells (String.ofList (t.span.slice source.toList)).toList
  rw [String.toList_ofList]
  exact spells_of_tokenize h ht

/-- A source that is short enough for its offsets has the tokens that it is written with, and no
others. The span of a token covers the text of its word. -/
theorem tokenize_exact {source : String} {ts : List Token}
    (hlength : Text.byteLength source.toList ≤ Span.maxOffset) :
    tokenize source = .ok ts ↔
      ∃ ws tail, source.toList = written ws tail ∧ Fitting none ws tail ∧ ts = tokensOf 0 ws ∧
        ws.map Word.text = ts.map fun t => t.span.slice source.toList := by
  constructor
  · intro h
    obtain ⟨ws, tail, hsource, hfitting, rfl⟩ := written_of_tokenize h
    refine ⟨ws, tail, hsource, hfitting, rfl, ?_⟩
    have hslice := slice_tokensOf [] ws tail
    rw [List.nil_append, ← hsource] at hslice
    exact hslice.symm
  · rintro ⟨ws, tail, hsource, hfitting, rfl, -⟩
    exact tokenize_written hlength hsource hfitting

/-- Two numbers with a sign or a point, the operator between them, and an escaped quote. -/
def signedSource : String := "-1 -.5||\"\\\"\""

def signedTokens : List Token :=
  [⟨.number, ⟨0, 2⟩⟩, ⟨.operator, ⟨3, 4⟩⟩, ⟨.number, ⟨4, 6⟩⟩, ⟨.operator, ⟨6, 8⟩⟩, ⟨.string, ⟨9, 11⟩⟩]

theorem tokenize_signed : tokenize signedSource = .ok signedTokens := by decide +kernel

theorem tokenize_exact_signed :
    Text.byteLength signedSource.toList ≤ Span.maxOffset ∧
      ∃ ws tail, signedSource.toList = written ws tail ∧ Fitting none ws tail ∧
        signedTokens = tokensOf 0 ws ∧
        ws.map Word.text = signedTokens.map fun t => t.span.slice signedSource.toList :=
  ⟨by decide, (tokenize_exact (by decide)).1 tokenize_signed⟩

end ExprEngine
