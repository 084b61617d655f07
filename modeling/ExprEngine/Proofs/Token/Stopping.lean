import ExprEngine.Proofs.Token.Enclosing
import ExprEngine.Proofs.Token.Order

/-!
# Where the tokens stop

A tokenizer that is asked again and again answers with tokens, then with an error if there is one,
and then with nothing. The error does not touch what came before it: the text in front of it is a
source of its own with the same tokens.

* `Tokenizer.answer`          what a tokenizer answers when it is asked for the `n`th time;
* `Tokenizer.Yields`          its answers are some tokens, an error or none, and then nothing;
* `Word.Fits.cut`             a word still fits when the text behind it is cut off;
* `Tokenizer.items_stopped`   the words in front of the place where a tokenizer stops;
* `tokenizer_stops`           a whole source.
-/

namespace ExprEngine

/-! ## asked again and again -/

namespace Tokenizer

/-- The tokenizer after it has answered `n` times. -/
def after (t : Tokenizer) : Nat → Tokenizer
  | 0 => t
  | n + 1 => t.next.2.after n

/-- What a tokenizer answers when `n` answers came before. -/
def answer (t : Tokenizer) (n : Nat) : Option (Except LexError Token) := (t.after n).next.1

/-- A tokenizer answers with some tokens, then with the error if there is one, and then with
nothing, however often it is asked. -/
def Yields (t : Tokenizer) (ts : List Token) (failure : Option LexError) : Prop :=
  ∀ n, t.answer n = (ts.map .ok ++ failure.toList.map .error)[n]?

theorem answer_succ (t : Tokenizer) (n : Nat) : t.answer (n + 1) = t.next.2.answer n := rfl

/-- A tokenizer that has answered with nothing does so again. -/
theorem next_none {t t' : Tokenizer} (h : t.next = (none, t')) : t'.next = (none, t') := by
  unfold next at h
  split at h
  · unfold scan at h
    split at h
    · cases h
      rfl
    · split at h <;> cases h
  · cases h
  · rename_i hphase
    cases h
    unfold next
    rw [hphase]

/-- The answers are the items in their order. -/
theorem answer_eq (t : Tokenizer) (n : Nat) : t.answer n = t.items[n]? := by
  induction n generalizing t with
  | zero =>
    cases hn : t.next with
    | mk item t' =>
      cases item with
      | none => rw [items_nil hn, answer, after, hn]; rfl
      | some item => rw [items_cons hn, answer, after, hn]; rfl
  | succ n ih =>
    rw [answer_succ, ih]
    cases hn : t.next with
    | mk item t' =>
      cases item with
      | none => rw [items_nil hn, items_nil (next_none hn)]; rfl
      | some item => rw [items_cons hn, List.getElem?_cons_succ]

theorem yields_iff {t : Tokenizer} {ts : List Token} {failure : Option LexError} :
    t.Yields ts failure ↔ t.items = ts.map .ok ++ failure.toList.map .error := by
  rw [List.ext_getElem?_iff]
  exact forall_congr' fun n => by rw [answer_eq]

/-- An error stands behind the blanks, and it is the last item. -/
theorem next_error {t t' : Tokenizer} {e : LexError} (ht : t.phase = .scanning)
    (h : t.next = (some (.error e), t')) :
    e.span.start = t.offset + Text.byteLength (t.rest.takeWhile Scan.isBlank) ∧ t'.items = [] := by
  have hnext : t.next = t.skipBlanks.scan := by
    unfold next
    rw [ht]
  rw [hnext] at h
  unfold scan at h
  split at h
  · cases h
  split at h
  · cases h
  · cases h
  · cases h
    exact ⟨rfl, items_nil rfl⟩

end Tokenizer

theorem collectTokens_iff {items : List (Except LexError Token)} {ts : List Token} :
    collectTokens items = .ok ts ↔ items = ts.map .ok := by
  refine ⟨fun h => ?_, fun h => h ▸ collectTokens_ok ts⟩
  induction items generalizing ts with
  | nil =>
    cases h
    rfl
  | cons item items ih =>
    cases item with
    | error e => cases h
    | ok t =>
      obtain ⟨ts', hts, h⟩ := map_eq_ok.1 h
      cases h
      rw [ih hts, List.map_cons]

/-- Tokens and what follows them are told from the items. -/
theorem items_inj {ts ts' : List Token} {failure failure' : Option LexError}
    (h : ts.map Except.ok ++ failure.toList.map Except.error =
      ts'.map Except.ok ++ failure'.toList.map Except.error) : ts = ts' ∧ failure = failure' := by
  induction ts generalizing ts' with
  | nil =>
    cases ts' with
    | nil => cases failure <;> cases failure' <;> cases h <;> exact ⟨rfl, rfl⟩
    | cons t' ts' => cases failure <;> cases h
  | cons t ts ih =>
    cases ts' with
    | nil => cases failure' <;> cases h
    | cons t' ts' =>
      obtain ⟨hhead, htail⟩ := List.cons.inj h
      cases hhead
      obtain ⟨rfl, rfl⟩ := ih htail
      exact ⟨rfl, rfl⟩

/-! ## the text in front -/

/-- A word that fits before a text fits before any beginning of it. -/
theorem Word.Fits.cut {w : Word} {previous : Option TokenKind} {rest more : Text}
    (h : w.Fits previous (rest ++ more)) : w.Fits previous rest := by
  cases rest with
  | nil => exact h.move h.gap separates_nil
  | cons c cs => exact h.congr rfl

theorem length_le_written {previous : Option TokenKind} {ws : List Word} {tail : Text}
    (h : Fitting previous ws tail) : ws.length ≤ Text.byteLength (written ws tail) := by
  induction ws generalizing previous with
  | nil => exact Nat.zero_le _
  | cons w ws ih =>
    have hrest := ih h.2
    have hword : 0 < w.stop 0 :=
      Nat.zero_lt_of_lt (w.holds_token 0 h.1.spelled).starts
    have hstop : w.stop 0 = Text.byteLength w.gap + Text.byteLength w.lexeme := by
      rw [Word.stop, Word.start, Nat.zero_add]
    rw [written, Text.byteLength_append, Text.byteLength_append, List.length_cons]
    omega

theorem length_tokensOf (offset : Nat) (ws : List Word) : (tokensOf offset ws).length = ws.length := by
  have hlength := congrArg List.length (kind_tokensOf offset ws)
  rwa [List.length_map, List.length_map] at hlength

/-- A tokenizer cuts off words that fit the text up to the place where it stops, which is where an
error starts. -/
theorem Tokenizer.items_stopped {t : Tokenizer} (ht : t.phase = .scanning) :
    ∃ (ws : List Word) (gap more : Text) (failure : Option LexError),
      t.rest = written ws gap ++ more ∧ Fitting t.previous ws gap ∧
      t.items = (tokensOf t.offset ws).map .ok ++ failure.toList.map .error ∧
      ∀ e, failure = some e → e.span.start = t.offset + Text.byteLength (written ws gap) := by
  induction t using Tokenizer.items.induct with
  | case1 t t' hnext =>
    refine ⟨[], t.rest, [], none, (List.append_nil _).symm, ?_, items_nil hnext, nofun⟩
    exact blank_of_next ht (congrArg Prod.fst hnext)
  | case2 t item t' hnext ih =>
    cases item with
    | error e =>
      obtain ⟨hstart, hlast⟩ := next_error ht hnext
      refine ⟨[], t.rest.takeWhile Scan.isBlank, t.rest.dropWhile Scan.isBlank, some e,
        List.takeWhile_append_dropWhile.symm, fun _ hc => Scan.isBlank_iff.1 (mem_takeWhile hc),
        ?_, ?_⟩
      · rw [items_cons hnext, hlast]
        rfl
      · rintro _ ⟨⟩
        exact hstart
    | ok tok =>
      obtain ⟨w, rest, hrest, hfits⟩ := word_of_next ht (congrArg Prod.fst hnext)
      obtain ⟨text, offset, previous, phase⟩ := t
      subst ht
      subst hrest
      rw [next_word hfits] at hnext
      cases hnext
      obtain ⟨ws, gap, more, failure, hmore, hfitting, hitems, hfailure⟩ := ih rfl
      dsimp only at hmore hfitting hitems hfailure ⊢
      subst hmore
      -- the word was cut off before all of the text, which is more than is kept behind it
      refine ⟨w :: ws, gap, more, failure, by simp [written], ⟨hfits.cut, hfitting⟩, ?_, ?_⟩
      · rw [items_cons (next_word hfits), hitems]
        rfl
      · intro e he
        rw [hfailure e he, written, Text.byteLength_append, Text.byteLength_append, Word.stop,
          Word.start]
        omega

/-- A source of fitting offsets is answered with at most one token for each byte, then with at most
one error, and then with nothing. The text before an error is a source with exactly the tokens in
front of it, and a source that has tokens is answered with these and no error. -/
theorem tokenizer_stops {source : String}
    (hlength : Text.byteLength source.toList ≤ Span.maxOffset) :
    (∃ ts failure, ts.length ≤ Text.byteLength source.toList ∧
      (Tokenizer.ofSource source.toList).Yields ts failure) ∧
    (∀ ts e, (Tokenizer.ofSource source.toList).Yields ts (some e) →
      ∃ front behind : Text, source.toList = front ++ behind ∧
        Text.byteLength front = e.span.start ∧ tokenize (String.ofList front) = .ok ts) ∧
    ∀ ts, tokenize source = .ok ts ↔ (Tokenizer.ofSource source.toList).Yields ts none := by
  have hscanning : (Tokenizer.ofSource source.toList).phase = .scanning :=
    if_neg (Nat.not_lt.2 hlength)
  obtain ⟨ws, gap, more, failure, hsource, hfitting, hitems, hfailure⟩ :=
    Tokenizer.items_stopped hscanning
  have hsource : source.toList = written ws gap ++ more := hsource
  have hshorter : Text.byteLength (written ws gap) ≤ Text.byteLength source.toList := by
    rw [hsource, Text.byteLength_append]
    exact Nat.le_add_right ..
  refine ⟨⟨tokensOf 0 ws, failure, ?_, Tokenizer.yields_iff.2 hitems⟩, fun ts e h => ?_, fun ts => ?_⟩
  · rw [length_tokensOf]
    exact Nat.le_trans (length_le_written hfitting) hshorter
  · obtain ⟨rfl, rfl⟩ := items_inj ((Tokenizer.yields_iff.1 h).symm.trans hitems)
    have herror : e.span.start = 0 + Text.byteLength (written ws gap) := hfailure e rfl
    refine ⟨written ws gap, more, hsource, by rw [herror, Nat.zero_add], ?_⟩
    refine tokenize_written ?_ String.toList_ofList hfitting
    rw [String.toList_ofList]
    exact Nat.le_trans hshorter hlength
  · rw [Tokenizer.yields_iff, tokenize, collectTokens_iff]
    exact Iff.of_eq (congrArg _ (List.append_nil _).symm)

/-- A number that runs into a letter, behind two tokens of which the second gives it its sign. -/
def brokenSource : String := "a*-12x"

def brokenTokens : List Token := [⟨.identifier, ⟨0, 1⟩⟩, ⟨.operator, ⟨1, 2⟩⟩]

theorem yields_broken : (Tokenizer.ofSource brokenSource.toList).Yields brokenTokens
    (some ⟨.invalidIdentifier, ⟨2, 6⟩⟩) :=
  Tokenizer.yields_iff.2 (by decide +kernel)

theorem tokenizer_stops_broken :
    Text.byteLength brokenSource.toList ≤ Span.maxOffset ∧
      ∃ front behind : Text, brokenSource.toList = front ++ behind ∧
        Text.byteLength front = 2 ∧ tokenize (String.ofList front) = .ok brokenTokens :=
  ⟨by decide, (tokenizer_stops (by decide)).2.1 brokenTokens _ yields_broken⟩

end ExprEngine
