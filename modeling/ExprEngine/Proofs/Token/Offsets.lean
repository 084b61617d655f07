import ExprEngine.Proofs.Parse.Bounds
import ExprEngine.Proofs.Token.Exact

/-!
# Spans that lie in a source

Offsets count bytes, so not every offset lies between two characters, and not every pair of offsets
is in order. The spans of a tokenizer, those of its error included, are cut out of the source.

* `Text.Boundary`         an offset between characters;
* `Span.Addresses`        a span that lies in a source, between characters and in order;
* `addresses_iff`         such spans cover a piece of the source;
* `addresses_covering`    covering spans are such spans too;
* `quoteOffset?_bytes`    the closing quote of a string, found byte by byte;
* `tokenize_ends`         every token and the error of a source address it.
-/

namespace ExprEngine

variable {source : Text}

/-! ## pieces of a source -/

/-- An offset at which a character of a text starts, or the text ends. -/
def Text.Boundary (source : Text) (n : Nat) : Prop :=
  ∃ front back, source = front ++ back ∧ n = byteLength front

/-- A span that lies in a source between characters, its ends in order. -/
structure Span.Addresses (s : Span) (source : Text) : Prop where
  ordered : s.start ≤ s.stop
  inside : s.stop ≤ Text.byteLength source
  start : Text.Boundary source s.start
  stop : Text.Boundary source s.stop

theorem Text.boundary_zero (source : Text) : Boundary source 0 := ⟨[], source, rfl, rfl⟩

theorem Text.boundary_end (source : Text) : Boundary source (byteLength source) :=
  ⟨source, [], (List.append_nil source).symm, rfl⟩

theorem Text.byteLength_eq_zero {cs : Text} (h : byteLength cs = 0) : cs = [] := by
  cases cs with
  | nil => rfl
  | cons c cs =>
    have hc := utf8Size_ne_zero c
    rw [byteLength_cons] at h
    omega

/-- What lies between two boundaries is a piece of the text. -/
theorem Text.Boundary.piece {m n : Nat} (hm : Boundary source m) (hn : Boundary source n)
    (h : m ≤ n) : ∃ front piece back, source = front ++ (piece ++ back) ∧
      m = byteLength front ∧ n = byteLength front + byteLength piece := by
  obtain ⟨front, rest, hsource, rfl⟩ := hm
  obtain ⟨upto, back, hsource', rfl⟩ := hn
  have hprefixes : front <+: upto ∨ upto <+: front :=
    List.prefix_or_prefix_of_prefix (hsource ▸ List.prefix_append front rest)
      (hsource' ▸ List.prefix_append upto back)
  rcases hprefixes with ⟨piece, rfl⟩ | ⟨piece, rfl⟩
  · refine ⟨front, piece, back, ?_, rfl, byteLength_append front piece⟩
    rw [hsource', List.append_assoc]
  · rw [byteLength_append] at h
    have hempty : piece = [] := byteLength_eq_zero (by omega)
    subst hempty
    refine ⟨upto, [], back, hsource', ?_, rfl⟩
    rw [List.append_nil]

namespace Span

/-- A piece of a source is addressed by its offsets. -/
theorem addresses_piece (front piece back : Text) :
    Addresses ⟨Text.byteLength front, Text.byteLength front + Text.byteLength piece⟩
      (front ++ (piece ++ back)) where
  ordered := Nat.le_add_right ..
  inside := by
    show Text.byteLength front + Text.byteLength piece ≤ Text.byteLength (front ++ (piece ++ back))
    rw [Text.byteLength_append, Text.byteLength_append, ← Nat.add_assoc]
    exact Nat.le_add_right ..
  start := ⟨front, piece ++ back, rfl, rfl⟩
  stop := ⟨front ++ piece, back, (List.append_assoc ..).symm, (Text.byteLength_append ..).symm⟩

/-- The spans that address a source are those that cover a piece of it. -/
theorem addresses_iff {s : Span} : s.Addresses source ↔
    ∃ front piece back, source = front ++ (piece ++ back) ∧
      s = ⟨Text.byteLength front, Text.byteLength front + Text.byteLength piece⟩ := by
  constructor
  · intro h
    obtain ⟨front, piece, back, hsource, hstart, hstop⟩ := h.start.piece h.stop h.ordered
    exact ⟨front, piece, back, hsource, congrArg₂ Span.mk hstart hstop⟩
  · rintro ⟨front, piece, back, rfl, rfl⟩
    exact addresses_piece front piece back

/-- The text that a report quotes is the text that the span covers. -/
theorem Addresses.slice? {s : Span} (h : s.Addresses source) :
    Text.slice? s.start s.stop source = some (s.slice source) := by
  obtain ⟨front, piece, back, rfl, rfl⟩ := addresses_iff.1 h
  rw [slice, Text.slice?_append]
  rfl

theorem addresses_point {n : Nat} (h : Text.Boundary source n) : (point n).Addresses source := by
  refine ⟨Nat.le_refl n, ?_, h, h⟩
  obtain ⟨front, back, rfl, rfl⟩ := h
  show Text.byteLength front ≤ _
  rw [Text.byteLength_append]
  exact Nat.le_add_right ..

/-- A span that covers spans of a source addresses it too. -/
theorem addresses_covering (source : Text) : Covering fun s => s.Addresses source where
  zero := addresses_point (Text.boundary_zero source)
  merge := by
    intro a b ha hb
    have hboundary : ∀ {m n : Nat}, Text.Boundary source m → Text.Boundary source n →
        Text.Boundary source (min m n) ∧ Text.Boundary source (max m n) := by
      intro m n hm hn
      rcases Nat.le_total m n with h | h
      · rw [Nat.min_eq_left h, Nat.max_eq_right h]
        exact ⟨hm, hn⟩
      · rw [Nat.min_eq_right h, Nat.max_eq_left h]
        exact ⟨hn, hm⟩
    refine ⟨?_, Nat.max_le.2 ⟨ha.inside, hb.inside⟩, (hboundary ha.start hb.start).1,
      (hboundary ha.stop hb.stop).2⟩
    exact Nat.le_trans (Nat.min_le_left ..) (Nat.le_trans ha.ordered (Nat.le_max_left ..))

end Span

/-! ## strings, byte by byte

Only in a string can a scanner of bytes come to stand within a character, behind a backslash. It
still closes the string where the characters do. -/

namespace Text

/-- The bytes of a text in UTF-8. -/
def bytes (cs : Text) : List UInt8 := cs.flatMap String.utf8EncodeChar

theorem bytes_cons (c : Char) (cs : Text) :
    bytes (c :: cs) = String.utf8EncodeChar c ++ bytes cs := List.flatMap_cons ..

/-- A character is one byte that tells it, or bytes that no character of one byte has. -/
theorem utf8EncodeChar_cases (c : Char) :
    (c.toNat < 128 ∧ String.utf8EncodeChar c = [UInt8.ofNat c.toNat]) ∨
      ∀ b ∈ String.utf8EncodeChar c, 128 ≤ b.toNat := by
  by_cases hc : c.toNat < 128
  · refine .inl ⟨hc, ?_⟩
    have hc' : c.val.toNat ≤ 0x7f := Nat.le_of_lt_succ hc
    unfold String.utf8EncodeChar
    rw [if_pos hc']
    rfl
  · right
    have hc' : ¬ c.val.toNat ≤ 0x7f := fun h => hc (Nat.lt_succ_of_le h)
    unfold String.utf8EncodeChar
    rw [if_neg hc']
    split
    · simp
      omega
    split
    · simp
      omega
    · simp
      omega

/-- Behind its first byte a character has no byte that a character of one byte has. -/
theorem utf8EncodeChar_eq_cons (c : Char) :
    ∃ b hs, String.utf8EncodeChar c = b :: hs ∧ (∀ h ∈ hs, 128 ≤ h.toNat) ∧
      c.utf8Size = hs.length + 1 := by
  cases hbytes : String.utf8EncodeChar c with
  | nil => exact absurd hbytes String.utf8EncodeChar_ne_nil
  | cons b hs =>
    refine ⟨b, hs, rfl, ?_, ?_⟩
    · rcases utf8EncodeChar_cases c with ⟨-, h⟩ | h
      · rw [hbytes] at h
        cases h
        exact nofun
      · rw [hbytes] at h
        exact (List.forall_mem_cons.1 h).2
    · rw [← String.length_utf8EncodeChar, hbytes, List.length_cons]

end Text

namespace Scan

/-- The number of bytes before the closing quote of a string, counted over bytes. A backslash steps
over the byte behind it, which need not be a whole character. -/
def quoteOffset? : List UInt8 → Option Nat
  | [] => none
  | b :: bs =>
    if b = 0x22 then some 0
    else if b = 0x5c then
      match bs with
      | [] => none
      | _ :: bs => (quoteOffset? bs).map (2 + ·)
    else (quoteOffset? bs).map (1 + ·)

theorem quoteOffset?_quote (bs : List UInt8) : quoteOffset? (0x22 :: bs) = some 0 := by
  rw [quoteOffset?.eq_def]
  exact if_pos rfl

theorem quoteOffset?_cons {b : UInt8} (hquote : b ≠ 0x22) (hescape : b ≠ 0x5c) (bs : List UInt8) :
    quoteOffset? (b :: bs) = (quoteOffset? bs).map (1 + ·) := by
  rw [quoteOffset?.eq_def]
  dsimp only
  rw [if_neg hquote, if_neg hescape]

/-- Bytes of longer characters neither close a string nor escape. -/
theorem quoteOffset?_append {hs : List UInt8} (h : ∀ b ∈ hs, 128 ≤ b.toNat) (bs : List UInt8) :
    quoteOffset? (hs ++ bs) = (quoteOffset? bs).map (hs.length + ·) := by
  induction hs with
  | nil =>
    simp
  | cons b hs ih =>
    obtain ⟨hb, hhs⟩ := List.forall_mem_cons.1 h
    have hquote : b ≠ 0x22 := by
      rintro rfl
      exact absurd hb (by decide)
    have hescape : b ≠ 0x5c := by
      rintro rfl
      exact absurd hb (by decide)
    rw [List.cons_append, quoteOffset?_cons hquote hescape, ih hhs, Option.map_map]
    congr 1
    funext n
    show 1 + (hs.length + n) = (hs.length + 1) + n
    omega

/-- A character that neither closes a string nor escapes is stepped over. -/
theorem quoteOffset?_char {c : Char} (hquote : c ≠ '"') (hescape : c ≠ '\\') (cs : Text) :
    quoteOffset? (Text.bytes (c :: cs)) = (quoteOffset? (Text.bytes cs)).map (c.utf8Size + ·) := by
  rw [Text.bytes_cons, ← String.length_utf8EncodeChar]
  rcases Text.utf8EncodeChar_cases c with ⟨hc, hbytes⟩ | hhigh
  · have hne : ∀ d : Char, d.toNat < 128 → c ≠ d → UInt8.ofNat c.toNat ≠ UInt8.ofNat d.toNat := by
      intro d hd hcd h
      refine hcd (Char.toNat_inj.1 ?_)
      have htoNat := congrArg UInt8.toNat h
      rw [UInt8.toNat_ofNat', UInt8.toNat_ofNat'] at htoNat
      omega
    rw [hbytes]
    exact quoteOffset?_cons (hne '"' (by decide) hquote) (hne '\\' (by decide) hescape) _
  · exact quoteOffset?_append hhigh _

/-- An escaped character is stepped over with its backslash, though only its first byte is. -/
theorem quoteOffset?_escaped (c : Char) (cs : Text) :
    quoteOffset? (Text.bytes ('\\' :: c :: cs)) =
      (quoteOffset? (Text.bytes cs)).map ((1 + c.utf8Size) + ·) := by
  obtain ⟨b, hs, hbytes, hhigh, hsize⟩ := Text.utf8EncodeChar_eq_cons c
  have hstep : quoteOffset? (Text.bytes ('\\' :: c :: cs)) =
      (quoteOffset? (hs ++ Text.bytes cs)).map (2 + ·) := by
    rw [Text.bytes_cons, Text.bytes_cons, hbytes]
    rfl
  rw [hstep, quoteOffset?_append hhigh, Option.map_map, hsize]
  congr 1
  funext n
  show 2 + (hs.length + n) = 1 + (hs.length + 1) + n
  omega

/-- Bytes and characters find the same closing quote. -/
theorem quoteOffset?_bytes (cs : Text) :
    quoteOffset? (Text.bytes cs) = (content? cs).map fun found => Text.byteLength found.1 := by
  fun_induction content? cs with
  | case1 => rfl
  | case2 cs => exact quoteOffset?_quote (Text.bytes cs)
  | case3 c cs ih =>
    rw [quoteOffset?_escaped, ih, Option.map_map, Option.map_map]
    congr 1
    funext found
    show 1 + c.utf8Size + _ = '\\'.utf8Size + (c.utf8Size + _)
    rw [Nat.add_assoc]
    rfl
  | case4 c cs hquote hescape ih =>
    by_cases hc : c = '\\'
    · cases cs with
      | nil =>
        subst hc
        rfl
      | cons d ds => exact absurd rfl (hescape d ds hc)
    · rw [quoteOffset?_char hquote hc, ih, Option.map_map, Option.map_map]
      rfl

end Scan

/-! ## items of a tokenizer -/

namespace Scan

variable {cs text : Text} {cause : LexCause}

theorem number_error (h : number cs = .error cause text) : text <+: cs := by
  simp only [number] at h
  split at h
  · cases h
    refine ⟨(digits (takeMinus cs).2).2.dropWhile Text.isNameRest, ?_⟩
    rw [List.append_assoc, List.takeWhile_append_dropWhile, List.append_assoc, digits_append,
      takeMinus_append]
  · cases h

/-- An error points at the front of the text. -/
theorem front_error {previous : Option TokenKind} {c : Char}
    (h : front previous c cs = .error cause text) : text <+: c :: cs := by
  unfold front at h
  split at h
  · exact number_error h
  split at h
  · exact number_error h
  split at h
  · split at h
    · cases h
    · cases h
      exact List.prefix_refl _
  split at h
  · cases h
  split at h
  · cases h
  split at h
  · cases h
  split at h
  · cases h
  · cases h
    exact ⟨cs, rfl⟩

end Scan

namespace Tokenizer

variable {t : Tokenizer}

/-- The span of an item. -/
def itemSpan : Except LexError Token → Span
  | .ok tok => tok.span
  | .error e => e.span

theorem Reaches.finish (h : t.Reaches source) : t.finish.Reaches source := h

/-- Whatever is scanned stands in the source, and the tokenizer goes on behind it. -/
theorem Reaches.scan_item (h : t.Reaches source) {item : Except LexError Token}
    (hs : t.scan.1 = some item) :
    (itemSpan item).Addresses source ∧ t.scan.2.Reaches source := by
  cases item with
  | ok tok =>
    refine ⟨?_, (h.scan hs).2⟩
    obtain ⟨before, hb, ho⟩ := h
    unfold Tokenizer.scan at hs
    split at hs
    · cases hs
    rename_i c cs hr
    rw [hr] at hb
    split at hs
    · rename_i kind text rest hf
      cases hs
      rw [← Scan.front_token hf] at hb
      show Span.Addresses ⟨t.offset, t.offset + _⟩ source
      rw [hb, ho]
      exact Span.addresses_piece before text rest
    · rename_i content rest hf
      obtain ⟨rfl, hc⟩ := Scan.front_quoted hf
      cases hs
      have hb' : source = (before ++ ['"']) ++ (content ++ '"' :: rest) := by rw [hb, ← hc]; simp
      have ho' : t.offset + 1 = Text.byteLength (before ++ ['"']) := by
        rw [Text.byteLength_append, ho]
        rfl
      show Span.Addresses ⟨t.offset + 1, t.offset + 1 + _⟩ source
      rw [hb', ho']
      exact Span.addresses_piece _ content _
    · cases hs
  | error e =>
    unfold Tokenizer.scan at hs ⊢
    split at hs
    · cases hs
    rename_i c cs hr
    split at hs
    · cases hs
    · cases hs
    · rename_i cause text hf
      cases hs
      refine ⟨?_, h.finish⟩
      obtain ⟨before, hb, ho⟩ := h
      obtain ⟨rest, htext⟩ := Scan.front_error hf
      rw [hr, ← htext] at hb
      show Span.Addresses ⟨t.offset, t.offset + _⟩ source
      rw [hb, ho]
      exact Span.addresses_piece before text rest

theorem Reaches.next_item (h : t.Reaches source) {item : Except LexError Token}
    (hn : t.next.1 = some item) :
    (itemSpan item).Addresses source ∧ t.next.2.Reaches source := by
  unfold Tokenizer.next at hn ⊢
  split at hn
  · exact h.skipBlanks.scan_item hn
  · cases hn
    exact ⟨Span.addresses_point (Text.boundary_zero source), h.finish⟩
  · cases hn

/-- Every item stands in the source. -/
theorem Reaches.items (h : t.Reaches source) {all : List (Except LexError Token)}
    (hall : t.items = all) : ∀ item ∈ all, (itemSpan item).Addresses source := by
  induction all generalizing t with
  | nil => exact nofun
  | cons item rest ih =>
    rw [items.eq_def] at hall
    split at hall
    · cases hall
    · rename_i found t' hn
      cases hall
      have hitem := h.next_item (congrArg Prod.fst hn)
      rw [hn] at hitem
      exact List.forall_mem_cons.2 ⟨hitem.1, ih hitem.2 rfl⟩

end Tokenizer

theorem collectTokens_ends {items : List (Except LexError Token)}
    (h : ∀ item ∈ items, (Tokenizer.itemSpan item).Addresses source) :
    Ends (fun e => e.span.Addresses source) (fun ts => ∀ tok ∈ ts, tok.span.Addresses source)
      (collectTokens items) := by
  induction items with
  | nil => exact nofun
  | cons item items ih =>
    obtain ⟨hitem, hitems⟩ := List.forall_mem_cons.1 h
    cases item with
    | error e => exact hitem
    | ok tok => exact (ih hitems).map fun ts hts => List.forall_mem_cons.2 ⟨hitem, hts⟩

/-- The tokens of a source address it, and so does the error that stops them. -/
theorem tokenize_ends (source : String) :
    Ends (fun e => e.span.Addresses source.toList)
      (fun ts => ∀ tok ∈ ts, tok.span.Addresses source.toList) (tokenize source) :=
  collectTokens_ends ((Tokenizer.reaches_ofSource source.toList).items rfl)

/-- The lexemes of a tokenized source address it. -/
theorem lexemes_address {source : String} {ts : List Token} (h : tokenize source = .ok ts) :
    ∀ l ∈ TokenStream.lexemes ⟨source.toList, ts⟩, l.span.Addresses source.toList := by
  intro l hl
  obtain ⟨tok, htok, k, rfl⟩ := mem_lexemesFrom hl
  exact (tokenize_ends source).of_ok h tok htok

/-- The end of a tokenized source addresses it. -/
theorem end_addresses {source : String} {ts : List Token} (h : tokenize source = .ok ts) :
    (Span.point (TokenStream.endOffset ⟨source.toList, ts⟩)).Addresses source.toList := by
  rw [TokenStream.endOffset, Nat.min_eq_left (length_of_tokenize h)]
  exact Span.addresses_point (Text.boundary_end source.toList)

end ExprEngine
