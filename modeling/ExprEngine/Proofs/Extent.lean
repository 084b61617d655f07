import ExprEngine.Proofs.Parse.ReadBack
import ExprEngine.Proofs.Token.Order
import ExprEngine.Proofs.Tree

/-!
# Extents

The extent of a part merges the spans of everything below it, in whatever order. Since the lexemes
of a source follow one another, it runs from the first lexeme of the part's phrase to the last one,
and defaults, which lie within their call, add nothing.

* `Spanned`               the span from the first lexeme to the last;
* `Tree.extent_eq`        an extent merges the extents of the operands;
* `Phrase.extent`         it spans the lexemes that the part is written as;
* `Phrase.ordered`        operands of an operator lie one behind the other;
* `Extents`               extents that are exact;
* `extents_exact`         those of a parsed source are.
-/

namespace ExprEngine

/-- A span from the start of the first of some lexemes to the end of the last one. -/
def Spanned (ls : List Lexeme) (s : Span) : Prop :=
  (∃ first, ls.head? = some first ∧ first.span.start = s.start) ∧
    ∃ last, ls.getLast? = some last ∧ last.span.stop = s.stop

namespace Spanned

variable {as bs ls ms : List Lexeme} {a b s : Span}

theorem single (l : Lexeme) : Spanned [l] l.span := ⟨⟨l, rfl, rfl⟩, ⟨l, rfl, rfl⟩⟩

/-- What spans lexemes covers each of them. -/
theorem covers (h : Laid ls) (hs : Spanned ls s) {l : Lexeme} (hl : l ∈ ls) :
    s.start ≤ l.span.start ∧ l.span.stop ≤ s.stop := by
  obtain ⟨⟨first, hfirst, hstart⟩, last, hlast, hstop⟩ := hs
  rw [← hstart, ← hstop]
  constructor
  · obtain ⟨rest, rfl⟩ := List.head?_eq_some_iff.1 hfirst
    rcases List.mem_cons.1 hl with rfl | hl
    · exact Nat.le_refl _
    · exact Nat.le_of_lt (List.rel_of_pairwise_cons h.ordered hl).start
  · obtain ⟨rest, rfl⟩ := List.getLast?_eq_some_iff.1 hlast
    rcases List.mem_append.1 hl with hl | hl
    · exact Nat.le_of_lt (h.precedes hl (List.mem_singleton_self last)).stop
    · obtain rfl := List.mem_singleton.1 hl
      exact Nat.le_refl _

/-- What spans the lexemes in front ends before what spans some of those behind them starts. -/
theorem apart (h : Laid (as ++ bs)) (ha : Spanned as a) (hms : ms ⊆ bs) (hb : Spanned ms b) :
    a.stop ≤ b.start := by
  obtain ⟨-, last, hlast, hstop⟩ := ha
  obtain ⟨⟨first, hfirst, hstart⟩, -⟩ := hb
  rw [← hstop, ← hstart]
  exact (h.precedes (List.mem_of_getLast? hlast) (hms (List.mem_of_mem_head? hfirst))).apart

/-- What spans the lexemes in front and what spans those behind them span them all together,
whatever lies between. -/
theorem join (ha : Spanned as a) (ms : List Lexeme) (h : Laid (as ++ (ms ++ bs)))
    (hb : Spanned bs b) : Spanned (as ++ (ms ++ bs)) (a.merge b) := by
  obtain ⟨⟨first, hfirst, hstart⟩, last, hlast, hstop⟩ := ha
  obtain ⟨⟨first', hfirst', hstart'⟩, last', hlast', hstop'⟩ := hb
  have hbehind : ∀ {l}, l ∈ bs → l ∈ ms ++ bs := List.mem_append_right ms
  have hstarts := (h.precedes (List.mem_of_mem_head? hfirst)
    (hbehind (List.mem_of_mem_head? hfirst'))).start
  have hstops := (h.precedes (List.mem_of_getLast? hlast)
    (hbehind (List.mem_of_getLast? hlast'))).stop
  refine ⟨⟨first, by rw [List.head?_append, hfirst]; rfl, ?_⟩,
    last', by rw [List.getLast?_append, List.getLast?_append, hlast']; rfl, ?_⟩
  · show _ = min a.start b.start
    omega
  · show _ = max a.stop b.stop
    omega

/-- What spans a piece of the lexemes adds nothing to what spans them all. -/
theorem absorb (h : Laid ls) (hs : Spanned ls s) (hms : ms <:+: ls) (ha : Spanned ms a) :
    s.merge a = s := by
  obtain ⟨⟨first, hfirst, hstart⟩, last, hlast, hstop⟩ := ha
  have hlower := (hs.covers h (hms.subset (List.mem_of_mem_head? hfirst))).1
  have hupper := (hs.covers h (hms.subset (List.mem_of_getLast? hlast))).2
  rw [hstart] at hlower
  rw [hstop] at hupper
  exact congrArg₂ Span.mk (Nat.min_eq_left hlower) (Nat.max_eq_left hupper)

end Spanned

/-! ## extents of operands -/

theorem Span.cover_merge (a b : Span) (l : List Span) :
    (a.merge b).cover l = a.merge (b.cover l) := by
  induction l generalizing b with
  | nil => rfl
  | cons c l ih =>
    show ((a.merge b).merge c).cover l = a.merge ((b.merge c).cover l)
    rw [merge_assoc, ih]

theorem Span.cover_absorb {s : Span} {l : List Span} (h : ∀ a ∈ l, s.merge a = s) :
    s.cover l = s := by
  induction l with
  | nil => rfl
  | cons a l ih =>
    obtain ⟨ha, hl⟩ := List.forall_mem_cons.1 h
    show (s.merge a).cover l = s
    rw [ha, ih hl]

namespace Tree

theorem cover_nodesOfAll {ts : List Tree} (h : ∀ t ∈ ts, t.isHole = false) (s : Span) :
    s.cover ((nodesOfAll ts).map fun n => n.origin.span) = s.cover (ts.map extent) := by
  induction ts generalizing s with
  | nil => rfl
  | cons t ts ih =>
    obtain ⟨ht, hts⟩ := List.forall_mem_cons.1 h
    have hextent : t.extent =
        t.origin.span.cover ((nodesOfAll t.operands).map fun n => n.origin.span) := by
      rw [extent, nodes_eq_cons ht]
      show (t.origin.span.merge t.origin.span).cover _ = _
      rw [Span.merge_self]
    rw [nodesOfAll, List.map_append, nodes_eq_cons ht]
    show Span.cover s (_ ++ _) = (s.merge t.extent).cover (ts.map extent)
    rw [Span.cover, List.foldl_append]
    show Span.cover (Span.cover (s.merge t.origin.span) _) _ = _
    rw [Span.cover_merge, ← hextent, ih hts]

/-- An extent merges the extents of the operands into the part's own span. -/
theorem extent_eq {t : Tree} (h : t.Complete) :
    t.extent = t.origin.span.cover (t.operands.map extent) := by
  rw [extent, nodes_eq_cons h.isHole]
  show (t.origin.span.merge t.origin.span).cover _ = _
  rw [Span.merge_self]
  exact cover_nodesOfAll (fun x hx => (h.operands x hx).isHole) _

end Tree

variable {r : Registry}

theorem Tree.FilledIn.extent {t : Tree} {ls : List Lexeme} (h : t.FilledIn ls) :
    ∃ close, [close] <:+: ls ∧ Spanned [close] t.extent := by
  obtain ⟨close, hclose, -, id, v, rfl⟩ := h
  obtain ⟨front, back, rfl⟩ := List.append_of_mem hclose
  refine ⟨close, ⟨front, back, by simp⟩, ?_⟩
  have hextent : (Tree.constant ⟨id, close.index, close.span⟩ v).extent = close.span :=
    Span.merge_self close.span
  rw [hextent]
  exact .single close

/-- The extent of a part spans the lexemes that it is written as. -/
theorem Phrase.extent {t : Tree} {ls : List Lexeme} (h : Phrase r t ls) (laid : Laid ls) :
    Spanned ls t.extent := by
  induction t using Tree.operand_induction generalizing ls with
  | part t ih =>
    -- what spans the whole phrase covers its operands, the defaults among them
    have hcover : ∀ s, Spanned ls s → s.cover (t.operands.map Tree.extent) = s := by
      refine fun s hs => Span.cover_absorb (List.forall_mem_map.2 fun x hx => ?_)
      rcases h.operands x hx with ⟨ms, hms, hphrase⟩ | hfilled
      · exact hs.absorb laid hms (ih x hx hphrase (laid.sublist hms.sublist))
      · obtain ⟨close, hclose, hspan⟩ := hfilled.extent
        exact hs.absorb laid hclose hspan
    rw [Tree.extent_eq h.complete]
    cases h with
    | number => exact .single _
    | string => exact .single _
    | boolean => exact .single _
    | reference => exact .single _
    | @unary _ l _ x xs _ operand =>
      have hx : Spanned xs x.extent := ih x (List.mem_singleton_self x) operand laid.tail
      exact (Spanned.single l).join [] laid hx
    | @binary _ l _ a b as bs _ left right =>
      have ha : Spanned as a.extent := ih a (by simp [Tree.operands]) left laid.left
      have hb : Spanned bs b.extent := ih b (by simp [Tree.operands]) right laid.right.tail
      have hrest : Spanned (l :: bs) (l.span.merge b.extent) :=
        (Spanned.single l).join [] laid.right hb
      have hmerge : (l.span.merge a.extent).merge b.extent =
          a.extent.merge (l.span.merge b.extent) := by
        rw [Span.merge_comm l.span, Span.merge_assoc]
      show Spanned _ ((l.span.merge a.extent).merge b.extent)
      rw [hmerge]
      exact ha.join [] laid hrest
    | @choice _ l colon c y n cs ys ns _ _ condition yes no =>
      have hc : Spanned cs c.extent := ih c (by simp [Tree.operands]) condition laid.left
      have hy : Spanned ys y.extent := ih y (by simp [Tree.operands]) yes laid.right.tail.left
      have hn : Spanned ns n.extent := ih n (by simp [Tree.operands]) no laid.right.tail.right.tail
      have hbranches : Spanned (ys ++ colon :: ns) (y.extent.merge n.extent) :=
        hy.join [colon] laid.right.tail hn
      have hrest : Spanned (l :: (ys ++ colon :: ns)) (l.span.merge (y.extent.merge n.extent)) :=
        (Spanned.single l).join [] laid.right hbranches
      have hmerge : ((l.span.merge c.extent).merge y.extent).merge n.extent =
          c.extent.merge (l.span.merge (y.extent.merge n.extent)) := by
        rw [Span.merge_comm l.span, Span.merge_assoc, Span.merge_assoc]
      show Spanned _ (((l.span.merge c.extent).merge y.extent).merge n.extent)
      rw [hmerge]
      exact hc.join [] laid hrest
    | @cast _ opening name close _ x xs _ _ _ _ _ operand =>
      have hx : Spanned xs x.extent :=
        ih x (List.mem_singleton_self x) operand laid.tail.tail.tail
      have hfront : Laid ([opening, name, close] ++ xs) := laid
      have hmark : Spanned [opening, name, close] (opening.span.merge close.span) :=
        (Spanned.single opening).join [name] hfront.left (.single close)
      exact hmark.join [] laid hx
    | @group _ opening close x xs _ _ _ inner =>
      have hmark : Spanned (opening :: (xs ++ [close])) (opening.span.merge close.span) :=
        (Spanned.single opening).join xs laid (.single close)
      exact (congrArg (Spanned _) (hcover _ hmark)).mpr hmark
    | @call _ name opening close _ written filled ms _ _ _ _ _ args defaults =>
      have hmark : Spanned (name :: opening :: (ms ++ [close])) (name.span.merge close.span) :=
        (Spanned.single name).join (opening :: ms) laid (.single close)
      exact (congrArg (Spanned _) (hcover _ hmark)).mpr hmark

/-- What is written is no default: it does not stand at a closing parenthesis. -/
theorem Phrase.not_filledIn {t : Tree} {ls ms : List Lexeme} (h : Phrase r t ms) (laid : Laid ls)
    (hms : ms <:+: ls) : ¬ t.FilledIn ls := by
  rintro ⟨close, hclose, hmark, id, v, rfl⟩
  have hkind : ∀ l ∈ ms, close.span = l.span → l.kind = .parenthesis := by
    intro l hl hspan
    have hsame : close = l := laid.eq_of_start hclose (hms.subset hl) (congrArg Span.start hspan)
    exact hsame ▸ hmark.1
  generalize horigin : (⟨id, close.index, close.span⟩ : Origin) = o at h
  have hspan : close.span = o.span := congrArg Origin.span horigin
  cases h with
  | number kind => exact nomatch kind.symm.trans (hkind _ (List.mem_singleton_self _) hspan)
  | string kind => exact nomatch kind.symm.trans (hkind _ (List.mem_singleton_self _) hspan)
  | boolean kind => exact nomatch kind.symm.trans (hkind _ (List.mem_singleton_self _) hspan)

/-- The operands of an operator lie one behind the other. -/
theorem Phrase.ordered {t : Tree} {ls : List Lexeme} (h : Phrase r t ls) (laid : Laid ls)
    (op : t.operator?.isSome = true) :
    t.operands.Pairwise fun a b => a.extent.stop ≤ b.extent.start := by
  cases h with
  | unary => exact List.pairwise_singleton ..
  | @binary _ l _ a b as bs _ left right =>
    have ha : Spanned as a.extent := left.extent laid.left
    have hb : Spanned bs b.extent := right.extent laid.right.tail
    exact List.pairwise_pair.2 (ha.apart laid (List.subset_cons_self l bs) hb)
  | @choice _ l colon c y n cs ys ns _ _ condition yes no =>
    have hc : Spanned cs c.extent := condition.extent laid.left
    have hy : Spanned ys y.extent := yes.extent laid.right.tail.left
    have hn : Spanned ns n.extent := no.extent laid.right.tail.right.tail
    have hys : ys ⊆ l :: (ys ++ colon :: ns) := fun k hk => by simp [hk]
    have hns : ns ⊆ l :: (ys ++ colon :: ns) := fun k hk => by simp [hk]
    have hcy : c.extent.stop ≤ y.extent.start := hc.apart laid hys hy
    have hcn : c.extent.stop ≤ n.extent.start := hc.apart laid hns hn
    have hyn : y.extent.stop ≤ n.extent.start :=
      hy.apart laid.right.tail (List.subset_cons_self colon ns) hn
    simp [Tree.operands, hcy, hcn, hyn]
  | _ => cases op

/-- Extents that are exact: the whole spans the lexemes, the parts that are not filled in are those
that are written as a piece of them, which their extent spans, and the operands of an operator lie
one behind the other. -/
structure Extents (r : Registry) (t : Tree) (ls : List Lexeme) : Prop where
  whole : Spanned ls t.extent
  written : ∀ n ∈ t.nodes, ¬ n.FilledIn ls ↔ ∃ ms, ms <:+: ls ∧ Phrase r n ms
  spanned : ∀ n ∈ t.nodes, ∀ ms, ms <:+: ls → Phrase r n ms → Spanned ms n.extent
  ordered : ∀ n ∈ t.nodes, n.operator?.isSome = true →
    n.operands.Pairwise fun a b => a.extent.stop ≤ b.extent.start

/-- The extents of whatever is written as lexemes one behind the other are exact. -/
theorem Phrase.extents {t : Tree} {ls : List Lexeme} (h : Phrase r t ls) (laid : Laid ls) :
    Extents r t ls where
  whole := h.extent laid
  written n hn := by
    refine ⟨(h.parts n hn).resolve_right, ?_⟩
    rintro ⟨ms, hms, hphrase⟩ hfilled
    exact hphrase.not_filledIn laid hms hfilled
  spanned n hn ms hms hphrase := hphrase.extent (laid.sublist hms.sublist)
  ordered n hn op := by
    rcases h.parts n hn with ⟨ms, hms, hphrase⟩ | ⟨close, -, -, id, v, rfl⟩
    · exact hphrase.ordered (laid.sublist hms.sublist) op
    · cases op

variable {limits : Limits}

/-- The extents of a parsed source are exact. -/
theorem extents_exact {source : String} {tokens : List Token} (ht : tokenize source = .ok tokens)
    {e : Expr} (h : parse ⟨source.toList, tokens⟩ r limits = .ok e) :
    Extents r e.tree (TokenStream.lexemes ⟨source.toList, tokens⟩) :=
  (phrase_of_parse h).extents (laid_of_tokenize ht)

theorem extents_exact_sample :
    Extents sampleRegistry sampleTree
      (TokenStream.lexemes ⟨sampleSource.toList, sampleTokens⟩) :=
  extents_exact tokenize_sample parse_sample

end ExprEngine
