import ExprEngine.Proofs.Parse.Complete
import ExprEngine.Proofs.Relabel

/-!
# Phrases in other places

What a phrase stands for depends on the kinds and the texts of its lexemes and not on where they
stand. So a phrase keeps its tree, origins apart, when it becomes a piece of a longer text.

* `Lexeme.bare`           a lexeme without its place;
* `bare_lexemesFrom`      lexemes without their places, by the kinds and texts of tokens;
* `Phrase.transport`      the same phrase in other lexemes;
* `wellGrouped_congr`     grouping does not depend on origins;
* `parse_of_phrase`       a well grouped phrase is parsed, if there is room for it.
-/

namespace ExprEngine

/-- A lexeme without its place: what kind it is and what it says. -/
def Lexeme.bare (l : Lexeme) : Lexeme := { l with index := 0, span := .zero }

/-- A kind and a text as a lexeme without a place. -/
def Lexeme.ofPart (p : TokenKind × Text) : Lexeme := ⟨0, p.1, .zero, String.ofList p.2⟩

/-- What the lexemes of a stream say is what its tokens are and cover. -/
theorem bare_lexemesFrom (source : Text) (i : Nat) (ts : List Token) :
    (TokenStream.lexemesFrom source i ts).map Lexeme.bare =
      (ts.map fun t => (t.kind, t.span.slice source)).map Lexeme.ofPart := by
  induction ts generalizing i with
  | nil => rfl
  | cons t ts ih =>
    rw [TokenStream.lexemesFrom, List.map_cons, ih (i + 1)]
    rfl

section

variable {l l' : Lexeme}

theorem Lexeme.kind_of_bare (h : l'.bare = l.bare) : l'.kind = l.kind :=
  show l'.bare.kind = l.bare.kind from congrArg Lexeme.kind h

theorem Lexeme.text_of_bare (h : l'.bare = l.bare) : l'.text = l.text :=
  show l'.bare.text = l.bare.text from congrArg Lexeme.text h

theorem Lexeme.Signs.transport {s : String} (h : l.Signs s) (hl : l'.bare = l.bare) : l'.Signs s :=
  ⟨(kind_of_bare hl).trans h.1, (text_of_bare hl).trans h.2⟩

theorem Lexeme.Closes.transport (h : l.Closes) (hl : l'.bare = l.bare) : l'.Closes := by
  unfold Closes at h ⊢
  rw [kind_of_bare hl, isOpening, kind_of_bare hl, text_of_bare hl]
  exact h

theorem Lexeme.isOpening_of_bare (hl : l'.bare = l.bare) : l'.isOpening = l.isOpening := by
  rw [isOpening, isOpening, kind_of_bare hl, text_of_bare hl]

end

/-- Constants for the same defaults at another parenthesis. -/
theorem Fills.transport {close close' : Lexeme} {vs : List Value} {ts : List Tree}
    (h : Fills close vs ts) :
    ∃ ts', Fills close' vs ts' ∧ ts'.map Tree.bare = ts.map Tree.bare := by
  induction h with
  | nil => exact ⟨[], .nil, rfl⟩
  | @cons v t vs ts hv _ ih =>
    obtain ⟨id, rfl⟩ := hv
    obtain ⟨ts', hts', hbare⟩ := ih
    refine ⟨.constant ⟨id, close'.index, close'.span⟩ v :: ts', .cons ⟨id, rfl⟩ hts', ?_⟩
    rw [List.map_cons, List.map_cons, hbare]
    simp [Tree.bare]

/-! ## phrases -/

section

variable {l : Lexeme} {ls as bs ls' : List Lexeme}

theorem bare_cons (h : ls'.map Lexeme.bare = (l :: ls).map Lexeme.bare) :
    ∃ k ks, ls' = k :: ks ∧ k.bare = l.bare ∧ ks.map Lexeme.bare = ls.map Lexeme.bare := by
  obtain ⟨k, ks, rfl, hk, hks⟩ := List.map_eq_cons_iff.1 h
  exact ⟨k, ks, rfl, hk, hks⟩

theorem bare_append (h : ls'.map Lexeme.bare = (as ++ bs).map Lexeme.bare) :
    ∃ ks ks', ls' = ks ++ ks' ∧ ks.map Lexeme.bare = as.map Lexeme.bare ∧
      ks'.map Lexeme.bare = bs.map Lexeme.bare := by
  rw [List.map_append] at h
  obtain ⟨ks, ks', rfl, hks, hks'⟩ := List.map_eq_append_iff.1 h
  exact ⟨ks, ks', rfl, hks, hks'⟩

theorem bare_singleton (h : ls'.map Lexeme.bare = [l].map Lexeme.bare) :
    ∃ k, ls' = [k] ∧ k.bare = l.bare := by
  obtain ⟨k, ks, rfl, hk, hks⟩ := bare_cons h
  obtain rfl := List.map_eq_nil_iff.1 hks
  exact ⟨k, rfl, hk⟩

end

open Lexeme (kind_of_bare text_of_bare isOpening_of_bare)

variable {r : Registry}

mutual

/-- A phrase in lexemes that say the same. -/
theorem Phrase.transport : ∀ {t : Tree} {ls ls' : List Lexeme}, Phrase r t ls →
    ls'.map Lexeme.bare = ls.map Lexeme.bare → ∃ t', Phrase r t' ls' ∧ t'.bare = t.bare
  | _, _, _, @Phrase.number _ _ _ v kind value, h => by
    obtain ⟨k, rfl, hk⟩ := bare_singleton h
    refine ⟨.constant ⟨0, k.index, k.span⟩ v,
      .number ((kind_of_bare hk).trans kind) (by rwa [text_of_bare hk]), by simp [Tree.bare]⟩
  | _, _, _, .string kind, h => by
    obtain ⟨k, rfl, hk⟩ := bare_singleton h
    rw [← text_of_bare hk]
    exact ⟨.constant ⟨0, k.index, k.span⟩ _, .string ((kind_of_bare hk).trans kind),
      by simp [Tree.bare]⟩
  | _, _, _, .boolean kind value, h => by
    obtain ⟨k, rfl, hk⟩ := bare_singleton h
    refine ⟨.constant ⟨0, k.index, k.span⟩ _,
      .boolean ((kind_of_bare hk).trans kind) (by rwa [text_of_bare hk]), by simp [Tree.bare]⟩
  | _, _, _, @Phrase.reference _ _ _ x kind found, h => by
    obtain ⟨k, rfl, hk⟩ := bare_singleton h
    refine ⟨.reference ⟨0, k.index, k.span⟩ x,
      .reference ((kind_of_bare hk).trans kind) (by rwa [text_of_bare hk]), by simp [Tree.bare]⟩
  | _, _, _, @Phrase.unary _ _ _ op _ _ sign operand, h => by
    obtain ⟨k, ks, rfl, hk, hks⟩ := bare_cons h
    obtain ⟨x', hx, hbare⟩ := operand.transport hks
    refine ⟨.unary ⟨0, k.index, k.span⟩ op x', .unary (sign.transport hk) hx, ?_⟩
    simp_all [Tree.bare]
  | _, _, _, @Phrase.binary _ _ _ op _ _ _ _ sign left right, h => by
    obtain ⟨as', rest, rfl, has, hrest⟩ := bare_append h
    obtain ⟨k, bs', rfl, hk, hbs⟩ := bare_cons hrest
    obtain ⟨a', ha, hbare⟩ := left.transport has
    obtain ⟨b', hb, hbare'⟩ := right.transport hbs
    refine ⟨.binary ⟨0, k.index, k.span⟩ op a' b', .binary (sign.transport hk) ha hb, ?_⟩
    simp_all [Tree.bare]
  | _, _, _, .choice sign separator condition yes no, h => by
    obtain ⟨cs', rest, rfl, hcs, hrest⟩ := bare_append h
    obtain ⟨k, rest, rfl, hk, hrest⟩ := bare_cons hrest
    obtain ⟨ys', rest, rfl, hys, hrest⟩ := bare_append hrest
    obtain ⟨colon', ns', rfl, hcolon, hns⟩ := bare_cons hrest
    obtain ⟨c', hc, hbare⟩ := condition.transport hcs
    obtain ⟨y', hy, hbare'⟩ := yes.transport hys
    obtain ⟨n', hn, hbare''⟩ := no.transport hns
    refine ⟨.choice ⟨0, k.index, k.span⟩ c' y' n',
      .choice (sign.transport hk) (separator.transport hcolon) hc hy hn, ?_⟩
    simp_all [Tree.bare]
  | _, _, _, @Phrase.cast _ _ _ _ _ target _ _ bracket opens kind type closes operand, h => by
    obtain ⟨opening, rest, rfl, hopening, hrest⟩ := bare_cons h
    obtain ⟨name, rest, rfl, hname, hrest⟩ := bare_cons hrest
    obtain ⟨close, xs, rfl, hclose, hxs⟩ := bare_cons hrest
    obtain ⟨x', hx, hbare⟩ := operand.transport hxs
    refine ⟨.cast ⟨0, opening.index, opening.span.merge close.span⟩ target x',
      .cast ((kind_of_bare hopening).trans bracket) ((isOpening_of_bare hopening).trans opens)
        ((kind_of_bare hname).trans kind) (by rwa [text_of_bare hname]) (closes.transport hclose)
        hx, ?_⟩
    simp_all [Tree.bare]
  | _, _, _, .group bracket opens closes inner, h => by
    obtain ⟨opening, rest, rfl, hopening, hrest⟩ := bare_cons h
    obtain ⟨xs, rest, rfl, hxs, hrest⟩ := bare_append hrest
    obtain ⟨close, rfl, hclose⟩ := bare_singleton hrest
    obtain ⟨x', hx, hbare⟩ := inner.transport hxs
    refine ⟨.group ⟨0, opening.index, opening.span.merge close.span⟩ x',
      .group ((kind_of_bare hopening).trans bracket) ((isOpening_of_bare hopening).trans opens)
        (closes.transport hclose) hx, ?_⟩
    simp_all [Tree.bare]
  | _, _, _, @Phrase.call _ _ _ _ _ f _ _ _ kind opens closes few resolves args defaults, h => by
    obtain ⟨name, rest, rfl, hname, hrest⟩ := bare_cons h
    obtain ⟨opening, rest, rfl, hopening, hrest⟩ := bare_cons hrest
    obtain ⟨ls', rest, rfl, hls, hrest⟩ := bare_append hrest
    obtain ⟨close, rfl, hclose⟩ := bare_singleton hrest
    obtain ⟨written, hwritten, hbare⟩ := args.transport hls
    have hlength := congrArg List.length hbare
    rw [List.length_map, List.length_map] at hlength
    obtain ⟨filled, hfilled, hbare'⟩ := defaults.transport
    refine ⟨.call ⟨0, name.index, name.span.merge close.span⟩ f (written ++ filled),
      .call ((kind_of_bare hname).trans kind) ((isOpening_of_bare hopening).trans opens)
        (closes.transport hclose) (by rwa [hlength]) (by rwa [text_of_bare hname, hlength])
        hwritten (by rwa [hlength]), ?_⟩
    rw [Tree.bare_call, Tree.bare_call, List.map_append, List.map_append, hbare, hbare']

/-- A list of phrases in lexemes that say the same. -/
theorem PhraseList.transport : ∀ {ts : List Tree} {ls ls' : List Lexeme}, PhraseList r ts ls →
    ls'.map Lexeme.bare = ls.map Lexeme.bare →
    ∃ ts', PhraseList r ts' ls' ∧ ts'.map Tree.bare = ts.map Tree.bare
  | _, _, _, .nil, h => by
    obtain rfl := List.map_eq_nil_iff.1 h
    exact ⟨[], .nil, rfl⟩
  | _, _, _, .one only, h => by
    obtain ⟨t', ht, hbare⟩ := only.transport h
    exact ⟨[t'], .one ht, by rw [List.map_singleton, hbare]; rfl⟩
  | _, _, _, .cons first separates rest, h => by
    obtain ⟨xs, tail, rfl, hxs, htail⟩ := bare_append h
    obtain ⟨comma, ys, rfl, hcomma, hys⟩ := bare_cons htail
    obtain ⟨t', ht, hbare⟩ := first.transport hxs
    obtain ⟨us, hus, hbare'⟩ := rest.transport hys
    obtain ⟨u', ts', rfl, -⟩ := List.map_eq_cons_iff.1 (hbare'.trans List.map_cons)
    refine ⟨t' :: u' :: ts', .cons ht ((kind_of_bare hcomma).trans separates) hus, ?_⟩
    rw [List.map_cons, hbare, hbare']
    rfl

end

/-! ## grouping -/

namespace Tree

theorem bindsFrom_bare {t : Tree} {p : Nat} : t.bare.BindsFrom p ↔ t.BindsFrom p := by
  rw [BindsFrom, BindsFrom, bare, precedence?_mapOrigin]

theorem grouped_bare (t : Tree) : t.bare.Grouped ↔ t.Grouped := by
  cases t with
  | unary o op x => simp [bare, Grouped]
  | cast o ty x => simp [bare, Grouped]
  | binary o op l x =>
    rw [show (binary o op l x).bare = binary nowhere op l.bare x.bare from mapOrigin_binary ..,
      grouped_binary, grouped_binary, bindsFrom_bare, bindsFrom_bare, bindsFrom_bare]
  | choice o c y n =>
    rw [show (choice o c y n).bare = choice nowhere c.bare y.bare n.bare from mapOrigin_choice ..]
    exact and_congr bindsFrom_bare bindsFrom_bare
  | _ => simp [bare, Grouped]

theorem wellGrouped_bare (t : Tree) : t.bare.WellGrouped ↔ t.WellGrouped := by
  have hgrouped : ∀ n : Tree, (n.mapOrigin fun _ => nowhere).Grouped ↔ n.Grouped := grouped_bare
  unfold WellGrouped
  rw [bare, nodes_mapOrigin, List.forall_mem_map]
  exact forall_congr' fun n => imp_congr_right fun _ => hgrouped n

/-- Grouping does not depend on origins. -/
theorem wellGrouped_congr {t t' : Tree} (h : t.bare = t'.bare) : t.WellGrouped ↔ t'.WellGrouped := by
  rw [← wellGrouped_bare t, h, wellGrouped_bare]

theorem length_nodes_congr {t t' : Tree} (h : t.bare = t'.bare) :
    t.nodes.length = t'.nodes.length := by
  have hnodes := congrArg (fun t : Tree => t.nodes.length) h
  rwa [bare, bare, nodes_mapOrigin, nodes_mapOrigin, List.length_map, List.length_map] at hnodes

end Tree

/-- Lexemes that say what those of a phrase say are parsed as its tree, origins apart, if the tree
is well grouped and the limits leave room for its parts. -/
theorem parse_of_phrase (hr : r.Declared) {limits : Limits} {s : TokenStream}
    (hproper : ∀ l ∈ s.lexemes, l.Proper) {t u : Tree} {ls : List Lexeme} (hp : Phrase r t ls)
    (hlexemes : s.lexemes.map Lexeme.bare = ls.map Lexeme.bare) (hbare : t.bare = u.bare)
    (hg : u.WellGrouped) (room : Room limits u.nodes.length 0 0 0) :
    ∃ e, parse s r limits = .ok e ∧ e.tree.bare = u.bare := by
  obtain ⟨t', hp', ht'⟩ := hp.transport hlexemes
  have hbare' : t'.bare = u.bare := ht'.trans hbare
  have hg' : t'.WellGrouped := (Tree.wellGrouped_congr hbare').2 hg
  rw [← Tree.length_nodes_congr hbare'] at room
  have hnumbered := numbered_lexemes s
  unfold parse
  generalize s.lexemes = ls' at hp' hproper hnumbered ⊢
  have hfront : Front .whole ls' [] :=
    ⟨⟨0, by rwa [List.append_nil]⟩, nofun, hproper, nofun⟩
  obtain ⟨t'', ht'', hrun⟩ := ParseState.parses_of_phrase hr hp' hg' hproper { bracket := .whole } []
    0 [] hfront room fun _ _ => trivial
  rw [List.append_nil, Nat.zero_add] at hrun
  refine ⟨⟨t'', t'.nodes.length⟩, ?_, (Tree.bare_of_unnumbered ht'').trans hbare'⟩
  rw [show ParseState.run r limits ls' {} = _ from hrun]
  rfl

end ExprEngine
