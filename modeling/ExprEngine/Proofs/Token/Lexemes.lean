import ExprEngine.Token.Tokenizer

/-!
# The lexemes of a source

Lexemes are numbered from zero. Those that come from a tokenized source have the text that was
scanned for them, so a mark of a kind can only be one of the texts of that kind.

* `Numbered`                   lexemes with consecutive positions;
* `Tokenizer.Reaches`          a tokenizer that stands where its offset says;
* `Lexeme.Proper`              a mark whose text fits its kind;
* `proper_of_tokenize`         every lexeme of a source is proper.
-/

namespace ExprEngine

/-! ## positions -/

/-- Lexemes whose positions are consecutive, the first of them at `i`. -/
def Numbered : Nat → List Lexeme → Prop
  | _, [] => True
  | i, l :: ls => l.index = i ∧ Numbered (i + 1) ls

theorem numbered_lexemesFrom (source : Text) (i : Nat) (ts : List Token) :
    Numbered i (TokenStream.lexemesFrom source i ts) := by
  induction ts generalizing i with
  | nil => exact trivial
  | cons t ts ih => exact ⟨rfl, ih (i + 1)⟩

theorem numbered_lexemes (s : TokenStream) : Numbered 0 s.lexemes :=
  numbered_lexemesFrom s.source 0 s.tokens

theorem Numbered.append {i : Nat} {as bs : List Lexeme} :
    Numbered i (as ++ bs) ↔ Numbered i as ∧ Numbered (i + as.length) bs := by
  induction as generalizing i with
  | nil => simp [Numbered]
  | cons a as ih =>
    rw [List.cons_append, Numbered, Numbered, ih, List.length_cons, and_assoc,
      Nat.add_right_comm, Nat.add_assoc]

theorem Numbered.le {i : Nat} {ls : List Lexeme} (h : Numbered i ls) {l : Lexeme} (hl : l ∈ ls) :
    i ≤ l.index ∧ l.index < i + ls.length := by
  induction ls generalizing i with
  | nil => cases hl
  | cons a as ih =>
    obtain ⟨ha, has⟩ := h
    rw [List.length_cons]
    rcases List.mem_cons.1 hl with rfl | hl
    · omega
    · have := ih has hl
      omega

/-! ## texts -/

namespace Tokenizer

/-- A tokenizer with the rest of a source before it, which starts at its offset. -/
def Reaches (source : Text) (t : Tokenizer) : Prop :=
  ∃ before, source = before ++ t.rest ∧ t.offset = Text.byteLength before

/-- What a token is: the scan that found it, and the text that its span covers. -/
def Found (source : Text) (tok : Token) : Prop :=
  ∃ previous c cs,
    (∃ text rest, Scan.front previous c cs = .token tok.kind text rest ∧
      tok.span.slice source = text) ∨
    (∃ content rest, Scan.front previous c cs = .quoted content rest ∧ tok.kind = .string ∧
      tok.span.slice source = content)

variable {source : Text} {t : Tokenizer}

theorem Reaches.skipBlanks (h : t.Reaches source) : t.skipBlanks.Reaches source := by
  obtain ⟨before, hs, ho⟩ := h
  refine ⟨before ++ t.rest.takeWhile Scan.isBlank, ?_, ?_⟩
  · show source = _ ++ t.rest.dropWhile Scan.isBlank
    rw [List.append_assoc, List.takeWhile_append_dropWhile, hs]
  · show t.offset + _ = _
    rw [Text.byteLength_append, ho]

theorem slice_piece (a b c : Text) :
    Span.slice ⟨Text.byteLength a, Text.byteLength a + Text.byteLength b⟩ (a ++ (b ++ c)) = b := by
  rw [Span.slice, Text.slice?_append, Option.getD_some]

/-- A scanned token is found, and the tokenizer goes on behind it. -/
theorem Reaches.scan (h : t.Reaches source) {tok : Token} (hs : t.scan.1 = some (.ok tok)) :
    Found source tok ∧ t.scan.2.Reaches source := by
  obtain ⟨before, hb, ho⟩ := h
  unfold Tokenizer.scan at hs ⊢
  split at hs
  · cases hs
  rename_i c cs hr
  rw [hr] at hb
  split at hs
  · rename_i kind text rest hf
    have ht : text ++ rest = c :: cs := Scan.front_token hf
    cases hs
    rw [← ht] at hb
    refine ⟨⟨t.previous, c, cs, .inl ⟨text, rest, hf, ?_⟩⟩, before ++ text, ?_, ?_⟩
    · show Span.slice ⟨t.offset, t.offset + Text.byteLength text⟩ source = text
      rw [hb, ho, slice_piece]
    · show source = (before ++ text) ++ rest
      rw [hb, List.append_assoc]
    · show t.offset + Text.byteLength text = _
      rw [Text.byteLength_append, ho]
  · rename_i content rest hf
    obtain ⟨rfl, hc⟩ := Scan.front_quoted hf
    cases hs
    have hb' : source = (before ++ ['"']) ++ (content ++ '"' :: rest) := by rw [hb, ← hc]; simp
    have ho' : t.offset + 1 = Text.byteLength (before ++ ['"']) := by
      rw [Text.byteLength_append, ho]
      rfl
    refine ⟨⟨t.previous, '"', cs, .inr ⟨content, rest, hf, rfl, ?_⟩⟩,
      before ++ ['"'] ++ content ++ ['"'], ?_, ?_⟩
    · show Span.slice ⟨t.offset + 1, t.offset + 1 + Text.byteLength content⟩ source = content
      rw [hb', ho', slice_piece]
    · show source = _ ++ rest
      rw [hb']
      simp
    · show t.offset + 1 + Text.byteLength content + 1 = _
      rw [Text.byteLength_append, Text.byteLength_append, ho']
      rfl
  · cases hs

theorem Reaches.next (h : t.Reaches source) {tok : Token} (hn : t.next.1 = some (.ok tok)) :
    Found source tok ∧ t.next.2.Reaches source := by
  unfold Tokenizer.next at hn ⊢
  split at hn
  · exact h.skipBlanks.scan hn
  · cases hn
  · cases hn

theorem reaches_ofSource (source : Text) : (ofSource source).Reaches source := ⟨[], rfl, rfl⟩

theorem found_of_collectTokens (h : t.Reaches source) {ts : List Token}
    (hc : collectTokens t.items = .ok ts) : ∀ tok ∈ ts, Found source tok := by
  induction ts generalizing t with
  | nil => simp
  | cons tok' ts ih =>
    rw [items.eq_def] at hc
    split at hc
    · cases hc
    · rename_i item t' hn
      cases item with
      | error e => cases hc
      | ok tok =>
        have hstep := h.next (congrArg Prod.fst hn)
        rw [hn] at hstep
        rw [collectTokens] at hc
        cases hr : collectTokens t'.items with
        | error e => rw [hr] at hc; cases hc
        | ok ts' =>
          rw [hr] at hc
          cases hc
          intro u hu
          rcases List.mem_cons.1 hu with rfl | hu
          · exact hstep.1
          · exact ih hstep.2 hr u hu

end Tokenizer

/-- A mark whose text fits its kind. -/
def Lexeme.Proper (l : Lexeme) : Prop :=
  (l.kind = .parenthesis → l.text = "(" ∨ l.text = ")") ∧ (l.kind = .comma → l.text = ",") ∧
    (l.kind = .operator → l.text ≠ "(")

instance (l : Lexeme) : Decidable l.Proper := inferInstanceAs (Decidable (_ ∧ _ ∧ _))

theorem Scan.operator?_ne_opening {cs text rest : Text} (h : operator? cs = some (text, rest)) :
    text ≠ ['('] := by
  rintro rfl
  unfold operator? at h
  split at h
  · split at h
    · cases h
    · split at h
      · rename_i hs
        cases h
        simp [singles] at hs
      · cases h
  · split at h
    · rename_i hs
      cases h
      simp [singles] at hs
    · cases h
  · cases h

/-- The text of a mark is one that its kind allows. -/
theorem Scan.front_mark {previous : Option TokenKind} {c : Char} {cs text rest : Text}
    {kind : TokenKind} (h : front previous c cs = .token kind text rest) :
    (kind = .parenthesis → text = ['('] ∨ text = [')']) ∧ (kind = .comma → text = [',']) ∧
      (kind = .operator → text ≠ ['(']) := by
  have hnumber : ∀ {ds}, number ds = .token kind text rest → kind = .number := by
    intro ds hd
    simp only [number] at hd
    split at hd <;> cases hd
    rfl
  unfold front at h
  split at h
  · simp [hnumber h]
  split at h
  · simp [hnumber h]
  split at h
  · split at h <;> cases h
  split at h
  · rename_i hp
    cases h
    simpa using hp
  split at h
  · rename_i hc
    cases h
    simpa using hc
  split at h
  · cases h
    simp
  split at h
  · rename_i t r ho
    cases h
    simpa using operator?_ne_opening ho
  · cases h

theorem mem_lexemesFrom {source : Text} {i : Nat} {ts : List Token} {l : Lexeme}
    (h : l ∈ TokenStream.lexemesFrom source i ts) :
    ∃ tok ∈ ts, ∃ k, l = TokenStream.lexeme source k tok := by
  induction ts generalizing i with
  | nil => cases h
  | cons t ts ih =>
    rcases List.mem_cons.1 h with rfl | h
    · exact ⟨t, List.mem_cons_self .., i, rfl⟩
    · obtain ⟨tok, ht, k, rfl⟩ := ih h
      exact ⟨tok, List.mem_cons_of_mem _ ht, k, rfl⟩

/-- Every lexeme of a tokenized source is proper. -/
theorem proper_of_tokenize {source : String} {tokens : List Token}
    (h : tokenize source = .ok tokens) :
    ∀ l ∈ TokenStream.lexemes ⟨source.toList, tokens⟩, l.Proper := by
  intro l hl
  obtain ⟨tok, ht, k, rfl⟩ := mem_lexemesFrom hl
  have hf := Tokenizer.found_of_collectTokens (Tokenizer.reaches_ofSource source.toList) h tok ht
  obtain ⟨previous, c, cs, ⟨text, rest, hf, hs⟩ | ⟨content, rest, hf, hk, hs⟩⟩ := hf
  · have hm := Scan.front_mark hf
    have htext : (TokenStream.lexeme source.toList k tok).text = String.ofList text := by
      show String.ofList (tok.span.slice source.toList) = _
      rw [hs]
    have hne : ∀ s : Text, text ≠ s → String.ofList text ≠ String.ofList s :=
      fun s hn he => hn (String.ofList_inj.1 he)
    refine ⟨fun hk => ?_, fun hk => ?_, fun hk => ?_⟩
    · rcases hm.1 hk with rfl | rfl
      · exact .inl htext
      · exact .inr htext
    · rw [htext, hm.2.1 hk]
    · rw [htext]
      exact hne ['('] (hm.2.2 hk)
  · have hk' : (TokenStream.lexeme source.toList k tok).kind = .string := hk
    simp [Lexeme.Proper, hk']

namespace Lexeme

theorem Proper.opens {l : Lexeme} (h : l.Proper) (ho : l.isOpening = true) :
    l.kind = .parenthesis ∧ l.text = "(" := by
  simp only [isOpening, Bool.and_eq_true, beq_iff_eq] at ho
  obtain ⟨hk, ht⟩ := ho
  refine ⟨?_, ht⟩
  cases hkind : l.kind with
  | parenthesis => rfl
  | operator => exact absurd ht (h.2.2 hkind)
  | comma => rw [h.2.1 hkind] at ht; exact absurd ht (by decide)
  | _ => rw [hkind] at hk; exact absurd hk (by decide)

end Lexeme
end ExprEngine
