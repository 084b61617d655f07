import ExprEngine.Proofs.Limits
import ExprEngine.Proofs.Reading
import ExprEngine.Proofs.Resolution
import ExprEngine.Proofs.Token.Listing

/-!
# Names that can be written

Registration, the tokenizer and the parser agree on what a name is. Every name that a registry takes
can be written, and what is written with it is what was registered: a variable, or a call of exactly
the function that was meant.

* `tokenize_name`              the sources of a single name;
* `Registry.ParsesAs`          a text that is parsed as a tree, unless a limit forbids it;
* `Registry.ParsesTo`          a text that is parsed at all;
* `parsesAs_of_words`          words that are a phrase;
* `Declared.call_parses`       a name with arguments behind it;
* `Context.names_writable`     contexts that were built by declarations.
-/

namespace ExprEngine

/-! ## a single token -/

theorem Word.fits_ofName {name : String} (h : Text.isName name.toList = true)
    {previous : Option TokenKind} {rest : Text} (hrest : rest.head?.any Text.isNameRest = false) :
    (Word.ofName name).Fits previous rest :=
  ⟨List.forall_mem_nil _, h, hrest, trivial⟩

theorem written_ofName (name : String) : written [Word.ofName name] [] = name.toList :=
  List.append_nil _

/-- A source has a name as its only token, from its start to its end, exactly when it is a name. -/
theorem tokenize_name {s : String} (hlength : Text.byteLength s.toList ≤ Span.maxOffset) :
    tokenize s = .ok [⟨.identifier, ⟨0, Text.byteLength s.toList⟩⟩] ↔
      Text.isName s.toList = true := by
  constructor
  · intro h
    have hwhole : Span.slice ⟨0, Text.byteLength s.toList⟩ s.toList = s.toList := by
      have hpiece := Tokenizer.slice_piece [] s.toList []
      rwa [List.append_nil, List.nil_append, Text.byteLength_nil, Nat.zero_add] at hpiece
    obtain ⟨ws, tail, -, hfitting, htokens, htexts⟩ := (tokenize_exact hlength).1 h
    rw [List.map_singleton, hwhole] at htexts
    obtain ⟨w, rfl, htext⟩ := List.map_eq_singleton_iff.1 htexts
    have hkind : w.kind = .identifier := (congrArg Token.kind (List.cons.inj htokens).1).symm
    have hspelled := hfitting.1.spelled
    rw [hkind, htext] at hspelled
    exact hspelled
  · intro h
    have hfits : Fitting none [Word.ofName s] [] :=
      ⟨Word.fits_ofName h rfl, List.forall_mem_nil _⟩
    rw [tokenize_written hlength (written_ofName s).symm hfits]
    simp [tokensOf, Word.token, Word.start, Word.ofName, Text.byteLength_nil]

/-! ## what a text is parsed as -/

/-- A text that is parsed as a tree, origins apart: nothing but a limit or its length is in the way,
and there are limits that leave room for it. -/
structure Registry.ParsesAs (r : Registry) (text : String) (u : Tree) : Prop where
  tree : ∀ (engine : Engine) e, engine.parseSource text r = .ok e →
    e.tree.bare = u.bare ∧ e.partCount = u.nodes.length
  limit : ∀ (engine : Engine) err, engine.parseSource text r = .error err →
    err.IsLimit ∨ Span.maxOffset < Text.byteLength text.toList
  room : ∀ engine : Engine, Text.byteLength text.toList ≤ Span.maxOffset →
    u.nodes.length ≤ engine.limits.maxParts → u.nodes.length ≤ engine.limits.maxOperands →
    u.nodes.length ≤ engine.limits.maxNesting → ∃ e, engine.parseSource text r = .ok e

/-- A text that some engine parses as a tree, origins apart. -/
def Registry.ParsesTo (r : Registry) (text : String) (u : Tree) : Prop :=
  ∃ (engine : Engine) (e : Expr), engine.parseSource text r = .ok e ∧ e.tree.bare = u.bare

/-- Words that are a phrase of a tree, origins apart. -/
def Registry.Words (r : Registry) (ws : List Word) (u : Tree) : Prop :=
  ∃ t, Phrase r t (ws.map Word.bare) ∧ t.bare = u.bare

variable {r : Registry} {t u : Tree} {text : String}

theorem Engine.parseSource_of_tokenize (engine : Engine) {ts : List Token}
    (h : tokenize text = .ok ts) :
    engine.parseSource text r = liftError .parse (parse ⟨text.toList, ts⟩ r engine.limits) := by
  unfold parseSource
  rw [h]
  rfl

/-- Limits with room for some parts more than others have. -/
def Limits.widen (limits : Limits) (n : Nat) : Limits where
  maxParts := max limits.maxParts n
  maxOperands := max limits.maxOperands n
  maxNesting := max limits.maxNesting n
  maxValues := limits.maxValues

theorem Limits.le_widen (limits : Limits) (n : Nat) : limits ≤ limits.widen n :=
  ⟨Nat.le_max_left .., Nat.le_max_left .., Nat.le_max_left .., Nat.le_refl _⟩

theorem Limits.room_widen (limits : Limits) (n : Nat) : Room (limits.widen n) n 0 0 0 := by
  constructor <;> rw [Nat.zero_add] <;> exact Nat.le_max_right ..

/-- Whatever the limits, lexemes of a well grouped phrase are parsed as its tree or cut off. -/
theorem parse_or_limit (hr : r.Declared) {s : TokenStream} (hproper : ∀ l ∈ s.lexemes, l.Proper)
    {ls : List Lexeme} (hp : Phrase r t ls) (hlexemes : s.lexemes.map Lexeme.bare = ls.map Lexeme.bare)
    (hbare : t.bare = u.bare) (hg : u.WellGrouped) (limits : Limits) :
    (∃ e, parse s r limits = .ok e ∧ e.tree.bare = u.bare) ∨
      ∃ err, parse s r limits = .error err ∧ err.cause.IsLimit := by
  obtain ⟨e, he, hebare⟩ := parse_of_phrase hr hproper hp hlexemes hbare hg
    (limits.room_widen u.nodes.length)
  have hfollows : Follows _ (parse s r (limits.widen u.nodes.length)) (parse s r limits) :=
    parse_follows (limits.le_widen u.nodes.length) fun _ _ _ => .refl _ _
  rcases hfollows with heq | ⟨err, herr, -, hlimit⟩
  · exact .inl ⟨e, heq.symm.trans he, hebare⟩
  · exact .inr ⟨err, herr, hlimit⟩

theorem partCount_of_parse {s : TokenStream} {limits : Limits} {e : Expr}
    (h : parse s r limits = .ok e) : e.partCount = e.tree.nodes.length := by
  have hlength := (parse_ids h).length_eq
  rw [List.length_map, List.length_range] at hlength
  exact hlength.symm

/-- Words that fit and are a well grouped phrase are parsed as its tree. -/
theorem parsesAs_of_words (hr : r.Declared) {ws : List Word} (hsource : text.toList = written ws [])
    (hfits : Fitting none ws []) (hwords : r.Words ws u) (hg : u.WellGrouped) :
    r.ParsesAs text u := by
  obtain ⟨t, hp, hbare⟩ := hwords
  rcases Nat.lt_or_ge Span.maxOffset (Text.byteLength text.toList) with hlong | hlength
  · refine ⟨fun engine e he => ?_, fun _ _ _ => .inr hlong, fun _ h => ?_⟩
    · obtain ⟨ts, htokens, -⟩ := bind_eq_ok.1 he
      exact absurd (length_of_tokenize (liftError_eq_ok htokens)) (Nat.not_le_of_lt hlong)
    · exact absurd h (Nat.not_le_of_lt hlong)
  have htokens := tokenize_written hlength hsource hfits
  have hproper := proper_of_tokenize htokens
  have hlexemes : (TokenStream.lexemes ⟨text.toList, tokensOf 0 ws⟩).map Lexeme.bare =
      (ws.map Word.bare).map Lexeme.bare := by
    rw [TokenStream.lexemes, bare_lexemesFrom, parts_tokensOf hsource, List.map_map, List.map_map]
    rfl
  have hor := parse_or_limit hr hproper hp hlexemes hbare hg
  refine ⟨fun engine e he => ?_, fun engine err herr => .inl ?_,
    fun engine _ parts operands nesting => ?_⟩
  · rw [engine.parseSource_of_tokenize htokens] at he
    rcases hor engine.limits with ⟨e', he', hebare⟩ | ⟨err, herr, -⟩
    · cases he'.symm.trans (liftError_eq_ok he)
      exact ⟨hebare, (partCount_of_parse he').trans (Tree.length_nodes_congr hebare)⟩
    · rw [herr] at he
      cases he
  · rw [engine.parseSource_of_tokenize htokens] at herr
    rcases hor engine.limits with ⟨e', he', -⟩ | ⟨err', herr', hlimit⟩
    · rw [he'] at herr
      cases herr
    · rw [herr'] at herr
      cases herr
      exact hlimit
  · have room : Room engine.limits u.nodes.length 0 0 0 := ⟨by omega, by omega, by omega⟩
    obtain ⟨e, he, -⟩ := parse_of_phrase hr hproper hp hlexemes hbare hg room
    exact ⟨e, by rw [engine.parseSource_of_tokenize htokens, he]; rfl⟩

/-- What is parsed wherever there is room is parsed by some engine. -/
theorem Registry.ParsesAs.parsesTo (h : r.ParsesAs text u)
    (hlength : Text.byteLength text.toList ≤ Span.maxOffset) : r.ParsesTo text u := by
  let engine : Engine := ⟨({} : Limits).widen u.nodes.length⟩
  obtain ⟨e, he⟩ := h.room engine hlength (Nat.le_max_right ..) (Nat.le_max_right ..)
    (Nat.le_max_right ..)
  exact ⟨engine, e, he, (h.tree engine e he).1⟩

/-! ## variables -/

section
variable {x : VarId} {v : Variable}

/-- The name of a variable is the variable. -/
theorem Registry.Declared.name_parses (hr : r.Declared) (hx : r.variableAt? x = some v) :
    r.ParsesAs v.name (.reference Tree.nowhere x) := by
  have hname := (hr.variables v (List.mem_of_getElem? hx)).written
  obtain ⟨o, hp⟩ := phrase_name hr hx
  exact parsesAs_of_words hr (written_ofName v.name).symm
    ⟨Word.fits_ofName hname rfl, List.forall_mem_nil _⟩ ⟨_, hp, rfl⟩
    (Tree.wellGrouped_of_nodes rfl trivial)

/-- In parentheses it is a group around the variable. -/
theorem Registry.Declared.enclosed_parses (hr : r.Declared) (hx : r.variableAt? x = some v) :
    r.ParsesAs ("(" ++ v.name ++ ")") (.group Tree.nowhere (.reference Tree.nowhere x)) := by
  have hname := (hr.variables v (List.mem_of_getElem? hx)).written
  obtain ⟨o, hp⟩ := phrase_name hr hx
  obtain ⟨o', hp'⟩ := phrase_enclosed hp
  have hfits : Fitting none [Word.ofName v.name] [] :=
    ⟨Word.fits_ofName hname rfl, List.forall_mem_nil _⟩
  have hsource : ("(" ++ v.name ++ ")").toList =
      written (opening :: ([Word.ofName v.name] ++ [closing []])) [] := by
    rw [written, written_closing, written_ofName]
    simp [opening, Word.lexeme, TokenKind.lexeme]
  exact parsesAs_of_words hr hsource
    ⟨⟨List.forall_mem_nil _, .inl rfl, trivial, trivial⟩, fitting_enclosed hfits⟩ ⟨_, hp', rfl⟩
    (Tree.wellGrouped_group.2 (Tree.wellGrouped_of_nodes rfl trivial))

end

/-! ## calls -/

/-- The words of a text, with the blanks behind them, which are a well grouped phrase of a tree. -/
structure Registry.Worded (r : Registry) (text : String) (u : Tree) (p : List Word × Text) : Prop where
  text : text.toList = written p.1 p.2
  fits : Fitting none p.1 p.2
  words : r.Words p.1 u
  grouped : u.WellGrouped

theorem Registry.ParsesTo.worded (h : r.ParsesTo text u) : ∃ p, r.Worded text u p := by
  obtain ⟨engine, e, he, hbare⟩ := h
  obtain ⟨ts, htokens, hparse⟩ := bind_eq_ok.1 he
  have hparse := liftError_eq_ok hparse
  obtain ⟨ws, tail, hsource, hfitting, rfl⟩ := written_of_tokenize (liftError_eq_ok htokens)
  have hlexemes : (ws.map Word.bare).map Lexeme.bare =
      (TokenStream.lexemes ⟨text.toList, tokensOf 0 ws⟩).map Lexeme.bare := by
    rw [TokenStream.lexemes, bare_lexemesFrom, parts_tokensOf hsource, List.map_map, List.map_map]
    rfl
  obtain ⟨t, hp, ht⟩ := (phrase_of_parse hparse).transport hlexemes
  exact ⟨(ws, tail), hsource, hfitting, ⟨t, hp, ht.trans hbare⟩,
    (Tree.wellGrouped_congr hbare).1 (wellGrouped_of_parse hparse)⟩

/-- Phrases between commas, and the parenthesis behind them. -/
theorem phraseList_listed {ps : List (List Word × Text)} {us : List Tree}
    (h : List.Forall₂ (fun p u => r.Words p.1 u) ps us) :
    ∃ ts ls, PhraseList r ts ls ∧ ts.map Tree.bare = us.map Tree.bare ∧
      (listed ps).map Word.bare = ls ++ [(closing []).bare] := by
  induction ps using listed.induct generalizing us with
  | case1 =>
    cases h
    exact ⟨[], [], .nil, rfl, rfl⟩
  | case2 p =>
    obtain ⟨u, us, ⟨t, hp, ht⟩, hrest, rfl⟩ := List.forall₂_cons_left_iff.1 h
    cases hrest
    refine ⟨[t], p.1.map Word.bare, .one hp, by rw [List.map_singleton, List.map_singleton, ht], ?_⟩
    rw [listed, List.map_append]
    rfl
  | case3 p q ps ih =>
    obtain ⟨u, us, ⟨t, hp, ht⟩, hrest, rfl⟩ := List.forall₂_cons_left_iff.1 h
    obtain ⟨ts, ls, hts, hbare, hlisted⟩ := ih hrest
    obtain ⟨u', us, -, -, rfl⟩ := List.forall₂_cons_left_iff.1 hrest
    obtain ⟨t', ts, rfl, -⟩ := List.map_eq_cons_iff.1 hbare
    refine ⟨t :: t' :: ts, p.1.map Word.bare ++ (comma p.2).bare :: ls, .cons hp rfl hts, ?_, ?_⟩
    · rw [List.map_cons, List.map_cons (l := u' :: us), ht, hbare]
    · rw [listed, List.map_append, List.map_cons, hlisted, List.append_assoc]
      rfl

theorem exists_worded {args : List String} {us : List Tree} (h : List.Forall₂ r.ParsesTo args us) :
    ∃ ps : List (List Word × Text), List.Forall₂ (fun p u => r.Words p.1 u) ps us ∧
      args.map String.toList = ps.map (fun p => written p.1 p.2) ∧
      (∀ p ∈ ps, Fitting none p.1 p.2) ∧ ∀ u ∈ us, u.WellGrouped := by
  induction h with
  | nil => exact ⟨[], .nil, rfl, List.forall_mem_nil _, List.forall_mem_nil _⟩
  | cons harg _ ih =>
    obtain ⟨p, hp⟩ := harg.worded
    obtain ⟨ps, hwords, htexts, hfits, hgrouped⟩ := ih
    exact ⟨p :: ps, .cons hp.words hwords, by rw [List.map_cons, List.map_cons, hp.text, htexts],
      List.forall_mem_cons.2 ⟨hp.fits, hfits⟩, List.forall_mem_cons.2 ⟨hp.grouped, hgrouped⟩⟩

section
variable {f : FuncId} {s : Signature}

/-- A call with an argument for every parameter is one of that function, whatever others have its
name. -/
theorem Registry.Declared.phrase_call (hr : r.Declared) (hf : r.functionAt? f = some s)
    {ts : List Tree} {ls : List Lexeme} (harity : ts.length = s.arity) (hts : PhraseList r ts ls) :
    ∃ o, Phrase r (.call o f ts)
      ((Word.ofName s.name).bare :: opening.bare :: (ls ++ [(closing []).bare])) := by
  have hopens : opening.bare.isOpening = true := by decide
  have hcloses : (closing []).bare.Closes := by decide
  have hfew : ts.length ≤ maxArguments :=
    harity ▸ (hr.functions s (List.mem_of_getElem? hf)).few
  have hresolves : r.resolve (Word.ofName s.name).bare.text ts.length = .ok f :=
    hr.resolve_iff.2 (.exact hf String.ofList_toList.symm harity.symm
      fun g t hg hname ht => hr.arities hg hf (hname.trans String.ofList_toList) (ht.trans harity))
  have hdefaults : Fills (closing []).bare (ParseState.defaultsAfter r f ts.length) [] := by
    rw [Registry.defaultsAfter_eq hf, harity, Signature.arity, List.drop_length]
    exact .nil
  have hcall := @Phrase.call r 0 _ _ _ f _ _ _ rfl hopens hcloses hfew hresolves hts hdefaults
  rw [List.append_nil] at hcall
  exact ⟨_, hcall⟩

theorem fitting_call {name : String} (hname : Text.isName name.toList = true) {gap : Text}
    (hgap : ∀ c ∈ gap, Blank c) {ps : List (List Word × Text)} (h : ∀ p ∈ ps, Fitting none p.1 p.2) :
    Fitting none (Word.ofName name :: { opening with gap } :: listed ps) [] := by
  refine ⟨Word.fits_ofName hname ?_, ⟨hgap, .inl rfl, trivial, trivial⟩, fitting_listed h rfl⟩
  cases gap with
  | nil => rfl
  | cons c cs => rcases hgap c (List.mem_cons_self ..) with rfl | rfl <;> rfl

/-- The name of a function and arguments for all its parameters in parentheses are a call of it. -/
theorem Registry.Declared.call_parses (hr : r.Declared) (hf : r.functionAt? f = some s)
    {gap : String} (hgap : ∀ c ∈ gap.toList, Blank c) {args : List String} {us : List Tree}
    (harity : args.length = s.arity) (hargs : List.Forall₂ r.ParsesTo args us) :
    r.ParsesAs (s.name ++ gap ++ "(" ++ ",".intercalate args ++ ")") (.call Tree.nowhere f us) := by
  have hname := (hr.functions s (List.mem_of_getElem? hf)).name.written
  obtain ⟨ps, hwords, htexts, hfits, hgrouped⟩ := exists_worded hargs
  obtain ⟨ts, ls, hts, hbare, hlisted⟩ := phraseList_listed hwords
  have hcount : ts.length = s.arity := by
    rw [← harity, hargs.length_eq, ← List.length_map (f := Tree.bare), hbare, List.length_map]
  obtain ⟨o, hp⟩ := hr.phrase_call hf hcount hts
  have hsource : (s.name ++ gap ++ "(" ++ ",".intercalate args ++ ")").toList =
      written (Word.ofName s.name :: { opening with gap := gap.toList } :: listed ps) [] := by
    rw [written, written, written_listed, ← htexts]
    simp [Word.ofName, opening, Word.lexeme, TokenKind.lexeme, String.toList_intercalate]
  refine parsesAs_of_words hr hsource (fitting_call hname hgap hfits) ⟨.call o f ts, ?_, ?_⟩
    (Tree.wellGrouped_call.2 hgrouped)
  · rw [List.map_cons, List.map_cons, hlisted]
    exact hp
  · rw [Tree.bare_call, Tree.bare_call, hbare]

end

/-! ## contexts -/

/-- Whatever a host declares: a text is a single name from start to end exactly when registration
takes it for one; the name of a variable is parsed as the variable, alone and in parentheses; and
the name of a function with as many arguments as it has parameters is parsed as a call of it. -/
theorem Context.names_writable {σ : Type} (memory : σ) (ds : List (Declaration σ)) :
    (∀ s : String, Text.byteLength s.toList ≤ Span.maxOffset →
      (Text.isName s.toList = true ↔
        tokenize s = .ok [⟨.identifier, ⟨0, Text.byteLength s.toList⟩⟩])) ∧
    (∀ x v, ((empty memory).declareAll ds).registry.variableAt? x = some v →
      ((empty memory).declareAll ds).registry.ParsesAs v.name (.reference Tree.nowhere x) ∧
      ((empty memory).declareAll ds).registry.ParsesAs ("(" ++ v.name ++ ")")
        (.group Tree.nowhere (.reference Tree.nowhere x))) ∧
    ∀ f s, ((empty memory).declareAll ds).registry.functionAt? f = some s →
      ∀ gap : String, (∀ c ∈ gap.toList, Blank c) → ∀ args us, args.length = s.arity →
        List.Forall₂ ((empty memory).declareAll ds).registry.ParsesTo args us →
        ((empty memory).declareAll ds).registry.ParsesAs
          (s.name ++ gap ++ "(" ++ ",".intercalate args ++ ")") (.call Tree.nowhere f us) := by
  have hr := ((built_empty memory).declareAll ds).1.declared
  refine ⟨fun s hlength => (tokenize_name hlength).symm,
    fun x v hx => ⟨hr.name_parses hx, hr.enclosed_parses hx⟩, ?_⟩
  exact fun f s hf gap hgap args us harity hargs => hr.call_parses hf hgap harity hargs

/-- The sample function called with the sample variable twice. -/
theorem Context.names_writable_sample :
    sampleRegistry.ParsesAs "f (x,x)"
      (.call Tree.nowhere 0 [.reference Tree.nowhere 0, .reference Tree.nowhere 0]) := by
  obtain ⟨-, hvariables, hfunctions⟩ := names_writable () sampleDeclarations
  have hx : sampleRegistry.ParsesTo "x" (.reference Tree.nowhere 0) :=
    (hvariables 0 _ rfl).1.parsesTo (by decide)
  have hgap : ∀ c ∈ " ".toList, Blank c := fun c hc => .inl (List.mem_singleton.1 hc)
  exact hfunctions 0 _ rfl " " hgap ["x", "x"] _ rfl (.cons hx (.cons hx .nil))

end ExprEngine
