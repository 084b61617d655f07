import ExprEngine.Proofs.Limits
import ExprEngine.Proofs.Resolution
import ExprEngine.Proofs.Typing.Agreement
import Mathlib.Data.List.Sort

/-!
# Names that a source does not mention

A name means the same in a registry and in every later one that declares nothing more of that name.
So what a later registry declares matters only to sources in which some new name is written.

* `Registry.newNames`     the names that a later registry declares beyond an earlier one;
* `Mentions`              an identifier of a source;
* `Extends.sameFor`       a name that is not new means what it meant;
* `Phrase.names`          an identifier of a phrase is reserved or declared;
* `compile_extend`        a source without new names compiles as before;
* `compile_closed`        a source that needs no declaration compiles alike everywhere.
-/

namespace ExprEngine

variable {r r' : Registry} {name : String}

/-! ## new names -/

namespace Registry

/-- The names of the variables and functions that a later registry declares beyond an earlier
one. -/
def newNames (r' r : Registry) : List String :=
  (r'.vars.drop r.vars.length).map Variable.name ++
    (r'.funcs.drop r.funcs.length).map Signature.name

theorem getElem?_of_not_mem_drop {α : Type} {as bs : List α} (h : as <+: bs) {i : Nat} {a : α}
    (ha : a ∉ bs.drop as.length) : bs[i]? = some a ↔ as[i]? = some a := by
  refine ⟨fun hi => ?_, getElem?_of_prefix h⟩
  obtain ⟨cs, rfl⟩ := h
  rw [List.drop_left] at ha
  by_cases hlt : i < as.length
  · rwa [List.getElem?_append_left hlt] at hi
  · rw [List.getElem?_append_right (Nat.le_of_not_lt hlt)] at hi
    exact absurd (List.mem_of_getElem? hi) ha

variable {v : Variable} {s : Signature}

theorem Extends.variableAt?_iff (hr : r'.Extends r) (hv : v.name ∉ r'.newNames r) {x : VarId} :
    r'.variableAt? x = some v ↔ r.variableAt? x = some v :=
  getElem?_of_not_mem_drop hr.vars fun hmem =>
    hv (List.mem_append_left _ (List.mem_map_of_mem hmem))

theorem Extends.functionAt?_iff (hr : r'.Extends r) (hs : s.name ∉ r'.newNames r) {f : FuncId} :
    r'.functionAt? f = some s ↔ r.functionAt? f = some s :=
  getElem?_of_not_mem_drop hr.funcs fun hmem =>
    hs (List.mem_append_right _ (List.mem_map_of_mem hmem))

theorem Extends.variableNamed?_eq (hr : r'.Extends r) (h : r.Indexed) (h' : r'.Indexed)
    (hname : name ∉ r'.newNames r) : r'.variableNamed? name = r.variableNamed? name := by
  refine Option.ext fun x => ?_
  rw [h.vars, h'.vars]
  refine exists_congr fun v => and_congr_left ?_
  rintro rfl
  exact hr.variableAt?_iff hname

theorem Extends.functionsNamed_eq (hr : r'.Extends r) (h : r.Indexed) (h' : r'.Indexed)
    (hname : name ∉ r'.newNames r) : r'.functionsNamed name = r.functionsNamed name := by
  refine (h'.ordered name).eq_of_mem_iff (h.ordered name) fun f => ?_
  rw [h.funcs, h'.funcs]
  refine exists_congr fun s => and_congr_left ?_
  rintro rfl
  exact hr.functionAt?_iff hname

/-- A name that is not new has the functions that it had. -/
theorem Extends.overloads_eq (hr : r'.Extends r) (h : r.Indexed) (h' : r'.Indexed)
    (hname : name ∉ r'.newNames r) : r'.overloads name = r.overloads name := by
  unfold overloads
  rw [hr.functionsNamed_eq h h' hname]
  refine List.filterMap_congr fun f hf => ?_
  obtain ⟨s, hs, -⟩ := (h.funcs name f).1 hf
  rw [hs, hr.functionAt? hs]

/-- A name that is not new means what it meant. -/
theorem Extends.sameFor (hr : r'.Extends r) (h : r.Declared) (h' : r'.Indexed)
    (hname : name ∉ r'.newNames r) : r.SameFor r' name where
  named := hr.variableNamed?_eq h.indexed h' hname
  called count := by
    unfold resolve
    rw [hr.overloads_eq h.indexed h' hname]
  defaults count f hf := by
    obtain ⟨s, hs, -⟩ := h.resolve_ok hf
    rw [defaultsAfter_eq hs, defaultsAfter_eq (hr.functionAt? hs)]

end Registry

/-! ## compilation -/

/-- A name that is an identifier of a source. -/
def Mentions (source name : String) : Prop :=
  ∃ ts, tokenize source = .ok ts ∧ ∃ t ∈ TokenStream.lexemes ⟨source.toList, ts⟩,
    t.kind = .identifier ∧ t.text = name

/-- A source that mentions no new name compiles as before: to the same expression, or with the same
error. -/
theorem Engine.compile_extend (engine : Engine) (hr : r'.Extends r) (h : r.Declared)
    (h' : r'.Declared) {source : String} (hnew : ∀ name ∈ r'.newNames r, ¬ Mentions source name) :
    engine.compile source r' = engine.compile source r := by
  have hfollows : Follows (fun e => engine.limits ≠ engine.limits ∧ e.IsLimit)
      (engine.compile source r') (engine.compile source r) := by
    refine compile_follows engine.limits.le_refl (fun ts hts t ht hk => ?_) fun ts e _ hparse => ?_
    · refine hr.sameFor h h'.indexed fun hmem => ?_
      exact hnew t.text hmem ⟨ts, hts, t, ht, hk, rfl⟩
    · exact check_extend hr ((phrase_of_parse hparse).known h)
  rcases hfollows with heq | ⟨_, _, hne, _⟩
  · exact heq
  · exact absurd rfl hne

/-! ## sources that need no declaration -/

/-- An identifier that a registry gives a meaning, or that has one of its own. -/
def Lexeme.Named (r : Registry) (l : Lexeme) : Prop :=
  l.kind = .identifier → isReserved l.text = true ∨ (∃ x, r.variableNamed? l.text = some x) ∨
    ∃ count f, r.resolve l.text count = .ok f

theorem Lexeme.Named.of_kind {l : Lexeme} {kind : TokenKind} (hk : l.kind = kind)
    (hne : kind ≠ .identifier) : l.Named r := fun h => absurd (hk.symm.trans h) hne

theorem Lexeme.Named.of_opening {l : Lexeme} (h : l.isOpening = true) : l.Named r := by
  intro hk
  rw [Lexeme.isOpening, hk] at h
  cases h

theorem Lexeme.Named.of_type {l : Lexeme} {ty : ValueType}
    (h : ValueType.ofName? l.text = some ty) :
    l.Named r := by
  refine fun _ => .inl ?_
  rw [isReserved, h, Option.isSome_some, Bool.or_true]

mutual

/-- Every identifier of a phrase has a meaning. -/
theorem Phrase.names : ∀ {t : Tree} {ls : List Lexeme}, Phrase r t ls → ∀ l ∈ ls, l.Named r
  | _, _, .number kind _ => List.forall_mem_singleton.2 (.of_kind kind nofun)
  | _, _, .string kind => List.forall_mem_singleton.2 (.of_kind kind nofun)
  | _, _, .boolean _ value => by
    refine List.forall_mem_singleton.2 fun _ => .inl ?_
    rw [isReserved, value]
    rfl
  | _, _, .reference _ found => List.forall_mem_singleton.2 fun _ => .inr (.inl ⟨_, found⟩)
  | _, _, .unary sign operand => List.forall_mem_cons.2 ⟨.of_kind sign.1 nofun, operand.names⟩
  | _, _, .binary sign left right =>
    List.forall_mem_append.2
      ⟨left.names, List.forall_mem_cons.2 ⟨.of_kind sign.1 nofun, right.names⟩⟩
  | _, _, .choice sign separator condition yes no => by
    have hno := List.forall_mem_cons.2 ⟨.of_kind separator.1 nofun, no.names⟩
    have hyes := List.forall_mem_append.2 ⟨yes.names, hno⟩
    exact List.forall_mem_append.2
      ⟨condition.names, List.forall_mem_cons.2 ⟨.of_kind sign.1 nofun, hyes⟩⟩
  | _, _, .cast bracket _ _ type closes operand => by
    have hclose := List.forall_mem_cons.2 ⟨.of_kind closes.1 nofun, operand.names⟩
    exact List.forall_mem_cons.2 ⟨.of_kind bracket nofun,
      List.forall_mem_cons.2 ⟨.of_type type, hclose⟩⟩
  | _, _, .group bracket _ closes inner =>
    List.forall_mem_cons.2 ⟨.of_kind bracket nofun, List.forall_mem_append.2
      ⟨inner.names, List.forall_mem_singleton.2 (.of_kind closes.1 nofun)⟩⟩
  | _, _, .call _ opens closes _ resolves args _ =>
    List.forall_mem_cons.2 ⟨fun _ => .inr (.inr ⟨_, _, resolves⟩),
      List.forall_mem_cons.2 ⟨.of_opening opens, List.forall_mem_append.2
        ⟨args.names, List.forall_mem_singleton.2 (.of_kind closes.1 nofun)⟩⟩⟩

theorem PhraseList.names : ∀ {ts : List Tree} {ls : List Lexeme}, PhraseList r ts ls →
    ∀ l ∈ ls, l.Named r
  | _, _, .nil => nofun
  | _, _, .one only => only.names
  | _, _, .cons first separates rest =>
    List.forall_mem_append.2
      ⟨first.names, List.forall_mem_cons.2 ⟨.of_kind separates nofun, rest.names⟩⟩

end

theorem Registry.extends_empty (r : Registry) : r.Extends .empty :=
  ⟨List.nil_prefix, List.nil_prefix⟩

/-- A source that compiles without declarations mentions reserved words only. -/
theorem reserved_of_compile {engine : Engine} {source : String} {e : Expression}
    (h : engine.compile source .empty = .ok e) (hname : Mentions source name) :
    isReserved name = true := by
  obtain ⟨ts, hts, hparse, -⟩ := stages_of_compile h
  obtain ⟨ts', hts', t, ht, hk, rfl⟩ := hname
  rw [hts] at hts'
  cases hts'
  rcases (phrase_of_parse hparse).names t ht hk with hreserved | ⟨x, hx⟩ | ⟨count, f, hf⟩
  · exact hreserved
  · cases hx
  · cases hf

/-- A source that compiles without declarations compiles to the same expression whatever is
declared. -/
theorem Engine.compile_closed {engine : Engine} {source : String} {e : Expression}
    (h : engine.compile source .empty = .ok e) (hr : r.Declared) :
    engine.compile source r = .ok e := by
  rw [← h]
  refine engine.compile_extend r.extends_empty .empty hr fun name hname hmentions => ?_
  have hfree := (hr.nameable name hname).free
  rw [reserved_of_compile h hmentions] at hfree
  cases hfree

end ExprEngine
