import ExprEngine.Token.Scanner

/-!
# The tokens of a source

A tokenizer yields one token at a time, at most one error, and then nothing more.

* `Tokenizer.next`    the next item, and the tokenizer after it;
* `Tokenizer.items`   everything a tokenizer still yields;
* `tokenize`          the tokens of a source, or the error that stops them.
-/

namespace ExprEngine

/-- Whether a tokenizer still scans, has yet to refuse an overlong source, or is exhausted. -/
inductive TokenizerPhase
  | scanning
  | tooLong (length : Nat)
  | done
deriving DecidableEq, Repr

/-- What a tokenizer has left, and what it remembers of the tokens before. -/
structure Tokenizer where
  rest : Text
  offset : Nat
  previous : Option TokenKind
  phase : TokenizerPhase
deriving DecidableEq

namespace Tokenizer

/-- The tokenizer of a source. -/
def ofSource (source : Text) : Tokenizer where
  rest := source
  offset := 0
  previous := none
  phase :=
    if Span.maxOffset < Text.byteLength source then .tooLong (Text.byteLength source) else .scanning

/-- The tokenizer that yields nothing more. -/
def finish (t : Tokenizer) : Tokenizer := { t with phase := .done }

/-- The tokenizer with the blanks in front skipped. -/
def skipBlanks (t : Tokenizer) : Tokenizer :=
  { t with
    rest := t.rest.dropWhile Scan.isBlank
    offset := t.offset + Text.byteLength (t.rest.takeWhile Scan.isBlank) }

/-- The item at the front of a text that does not start with a blank. -/
def scan (t : Tokenizer) : Option (Except LexError Token) × Tokenizer :=
  match t.rest with
  | [] => (none, t.finish)
  | c :: cs =>
    match Scan.front t.previous c cs with
    | .token kind text rest =>
      let stop := t.offset + Text.byteLength text
      (some (.ok ⟨kind, t.offset, stop⟩), { t with rest, offset := stop, previous := some kind })
    | .quoted content rest =>
      let stop := t.offset + 1 + Text.byteLength content
      (some (.ok ⟨.string, t.offset + 1, stop⟩),
        { t with rest, offset := stop + 1, previous := some .string })
    | .error cause text =>
      (some (.error ⟨cause, t.offset, t.offset + Text.byteLength text⟩), t.finish)

/-- The next item, and the tokenizer after it. -/
def next (t : Tokenizer) : Option (Except LexError Token) × Tokenizer :=
  match t.phase with
  | .scanning => t.skipBlanks.scan
  | .tooLong length => (some (.error ⟨.sourceTooLong length, .point 0⟩), t.finish)
  | .done => (none, t)

/-- A bound on the items still to come. -/
def measure (t : Tokenizer) : Nat :=
  match t.phase with
  | .scanning => t.rest.length + 1
  | .tooLong _ => 1
  | .done => 0

/-- Every item brings a tokenizer nearer to its end. -/
theorem measure_next {t : Tokenizer} {item : Except LexError Token}
    (h : t.next.1 = some item) : t.next.2.measure < t.measure := by
  unfold next at h ⊢
  split at h
  · rename_i hp
    have hm : t.measure = t.rest.length + 1 := by simp [measure, hp]
    have hs : t.skipBlanks.phase = .scanning := hp
    have hle : t.skipBlanks.rest.length ≤ t.rest.length :=
      (List.dropWhile_suffix Scan.isBlank).length_le
    rw [hm]
    unfold scan at h ⊢
    split at h
    · cases h
    · rename_i c cs hr
      rw [hr, List.length_cons] at hle
      split at h
      · rename_i kind text rest hf
        have hl := congrArg List.length (Scan.front_token hf)
        have hne := Scan.front_token_ne_nil hf
        have : 0 < text.length := List.length_pos_iff.2 hne
        simp only [List.length_append, List.length_cons] at hl
        simp only [measure, hs]
        omega
      · rename_i content rest hf
        have hl := congrArg List.length (Scan.front_quoted hf).2
        simp only [List.length_append, List.length_cons] at hl
        simp only [measure, hs]
        omega
      · simp only [measure, finish]
        omega
  · rename_i n hp
    simp [measure, hp, finish]
  · cases h

/-- Everything a tokenizer still yields. -/
def items (t : Tokenizer) : List (Except LexError Token) :=
  match _h : t.next with
  | (none, _) => []
  | (some item, t') => item :: t'.items
termination_by t.measure
decreasing_by
  have hlt : t.next.2.measure < t.measure := measure_next (congrArg Prod.fst _h)
  rwa [_h] at hlt

end Tokenizer

/-- The tokens of a list of items, or its first error. -/
def collectTokens : List (Except LexError Token) → Except LexError (List Token)
  | [] => .ok []
  | .ok t :: items => (collectTokens items).map (t :: ·)
  | .error e :: _ => .error e

/-- The tokens of a source, or the error that stops them. -/
def tokenize (source : String) : Except LexError (List Token) :=
  collectTokens (Tokenizer.ofSource source.toList).items

end ExprEngine
