import ExprEngine.Diagnostic.Code
import ExprEngine.Operator
import ExprEngine.Span
import ExprEngine.Text.Escape
import ExprEngine.ValueType

/-!
# Texts of one line

The words that messages are made of have no line breaks: names, symbols, numbers and offsets, and
the escapes of characters, that of a line break among them.

* `Text.OneLine`     a text without a line break;
* `oneLine_append`   texts one after the other;
* `oneLine_nat`, `oneLine_escapedAscii`, `oneLine_display` ...   the words.
-/

namespace ExprEngine

/-- A text without a line break. -/
def Text.OneLine (s : String) : Prop := '\n' ∉ s.toList

namespace Text

instance (s : String) : Decidable (OneLine s) := inferInstanceAs (Decidable ('\n' ∉ s.toList))

@[simp] theorem oneLine_append {a b : String} : OneLine (a ++ b) ↔ OneLine a ∧ OneLine b := by
  unfold OneLine
  rw [String.toList_append, List.mem_append, not_or]

theorem oneLine_between {a s b : String} (ha : OneLine a) (hs : OneLine s) (hb : OneLine b) :
    OneLine (a ++ s ++ b) :=
  oneLine_append.2 ⟨oneLine_append.2 ⟨ha, hs⟩, hb⟩

/-! ## numbers -/

theorem mem_toDigits {b n : Nat} {c : Char} (hb : 1 < b) (h : c ∈ Nat.toDigits b n) :
    ∃ k : Nat, c = k.digitChar := by
  induction n using Nat.strongRecOn with
  | ind n ih =>
    by_cases hn : n < b
    · rw [Nat.toDigits_of_lt_base hn] at h
      exact ⟨n, List.mem_singleton.1 h⟩
    · have hle : b ≤ n := Nat.le_of_not_lt hn
      rw [Nat.toDigits_of_base_le hb hle] at h
      rcases List.mem_append.1 h with h | h
      · exact ih (n / b) (Nat.div_lt_self (by omega) hb) h
      · exact ⟨n % b, List.mem_singleton.1 h⟩

theorem newline_notMem_toDigits {b : Nat} (hb : 1 < b) (n : Nat) : '\n' ∉ Nat.toDigits b n := by
  intro h
  obtain ⟨k, hk⟩ := mem_toDigits hb h
  exact Nat.digitChar_ne '\n' rfl hk.symm

@[simp] theorem oneLine_nat (n : Nat) : OneLine (toString n) := by
  show '\n' ∉ n.repr.toList
  rw [Nat.toList_repr]
  exact newline_notMem_toDigits (by decide) n

/-! ## characters -/

theorem oneLine_codePoint (c : Char) : OneLine (codePoint c) := by
  unfold codePoint hex
  rw [oneLine_append, oneLine_append]
  refine ⟨⟨by decide, ?_⟩, by decide⟩
  unfold OneLine
  rw [String.toList_ofList]
  exact newline_notMem_toDigits (by decide) _

/-- A character in ASCII has no line break; a line break itself is escaped. -/
@[simp] theorem oneLine_escapedAscii (c : Char) : OneLine (escapedAscii c) := by
  unfold escapedAscii
  iterate 6
    split
    · decide
  split
  · rename_i hprints
    unfold OneLine
    rw [String.toList_singleton, List.mem_singleton]
    rintro rfl
    cases hprints
  · exact oneLine_codePoint c

/-! ## names and symbols -/

theorem oneLine_of_isName {s : String} (h : isName s.toList = true) : OneLine s := by
  unfold OneLine
  generalize s.toList = cs at h ⊢
  cases cs with
  | nil => exact List.not_mem_nil
  | cons c cs =>
    rw [isName_cons, Bool.and_eq_true] at h
    intro hmem
    rcases List.mem_cons.1 hmem with rfl | hmem
    · cases h.1
    · cases List.all_eq_true.1 h.2 _ hmem

end Text

@[simp] theorem Span.oneLine_display (s : Span) : Text.OneLine s.display := by
  unfold display
  rw [Text.oneLine_append, Text.oneLine_append]
  exact ⟨⟨Text.oneLine_nat _, by decide⟩, Text.oneLine_nat _⟩

@[simp] theorem ValueType.oneLine_name (t : ValueType) : Text.OneLine t.name := by
  have h : ∀ t ∈ all, Text.OneLine t.name := by decide
  exact h t t.mem_all

@[simp] theorem Operator.oneLine_name (o : Operator) : Text.OneLine o.name := by
  have h : ∀ o ∈ all, Text.OneLine o.name := by decide
  exact h o o.mem_all

theorem Operator.oneLine_symbol (o : Operator) : Text.OneLine o.symbol := by
  have h : ∀ o ∈ all, Text.OneLine o.symbol := by decide
  exact h o o.mem_all

@[simp] theorem ErrorCode.oneLine_text (c : ErrorCode) : Text.OneLine c.text := by
  cases c <;> decide

end ExprEngine
