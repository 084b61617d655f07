import ExprEngine.Proofs.Declaration
import ExprEngine.Proofs.Parse.ReadBack
import ExprEngine.Proofs.Tree
import Mathlib.Order.Bounds.Basic

/-!
# What a call means

Functions of one name may take numbers of arguments that overlap. A call means the function whose
arity it has, and else the first that was declared of those whose defaults complete it. Either way
a parsed call passes an argument for every parameter.

* `Registry.Means`           the function that a name means with some number of arguments;
* `Declared.resolve_iff`     resolution finds exactly that function;
* `Signature.Passes`         the written arguments of a call with the defaults behind them;
* `Registry.Calls`           a call that is written among some lexemes;
* `calls_resolved`           calls in contexts that were built by declarations;
* `Registry.TellsMismatch`   what a call is told that means nothing;
* `mismatch_told`            again in contexts that were built by declarations.
-/

namespace ExprEngine

/-! ## resolution -/

/-- In a table in order of its ids, the first entry that passes a test is the passing one with the
least id. -/
theorem find?_eq_some_of_ordered {α : Type} {l : List (α × Nat)} {p : α × Nat → Bool}
    (hl : l.Pairwise fun a b => a.2 < b.2) {b : α × Nat} :
    l.find? p = some b ↔ b ∈ l ∧ p b = true ∧ ∀ a ∈ l, a.2 < b.2 → p a = false := by
  induction l with
  | nil => simp
  | cons a l ih =>
    obtain ⟨hfirst, hl⟩ := List.pairwise_cons.1 hl
    cases hp : p a with
    | true =>
      rw [List.find?_cons_of_pos hp]
      constructor
      · rintro ⟨⟩
        refine ⟨List.mem_cons_self .., hp, fun c hc hlt => ?_⟩
        rcases List.mem_cons.1 hc with rfl | hc
        · exact absurd hlt (Nat.lt_irrefl _)
        · exact absurd hlt (Nat.lt_asymm (hfirst c hc))
      · rintro ⟨hb, -, hleast⟩
        rcases List.mem_cons.1 hb with rfl | hb
        · rfl
        · have hfalse := hleast a (List.mem_cons_self ..) (hfirst b hb)
          rw [hp] at hfalse
          cases hfalse
    | false =>
      rw [List.find?_cons_of_neg (by rw [hp]; exact Bool.false_ne_true), ih hl]
      constructor
      · rintro ⟨hb, hpb, hleast⟩
        exact ⟨List.mem_cons_of_mem _ hb, hpb, List.forall_mem_cons.2 ⟨fun _ => hp, hleast⟩⟩
      · rintro ⟨hb, hpb, hleast⟩
        refine ⟨?_, hpb, (List.forall_mem_cons.1 hleast).2⟩
        rcases List.mem_cons.1 hb with rfl | hb
        · rw [hp] at hpb
          cases hpb
        · exact hb

theorem Signature.accepts_arity (s : Signature) : s.accepts s.arity = true := by
  have hrequired : s.required ≤ s.arity := (List.takeWhile_prefix _).length_le
  simp [accepts, hrequired]

namespace Registry

variable {r : Registry} {name : String} {count : Nat} {f : FuncId}

/-- The function that a name means with some number of arguments: the only one of that arity, and
where there is none, the first declared of those that accept so many. -/
inductive Means (r : Registry) (name : String) (count : Nat) : FuncId → Prop
  | exact {f : FuncId} {s : Signature} (found : r.functionAt? f = some s) (named : s.name = name)
      (arity : s.arity = count)
      (only : ∀ g t, r.functionAt? g = some t → t.name = name → t.arity = count → g = f) :
      Means r name count f
  | completed {f : FuncId} {s : Signature} (found : r.functionAt? f = some s)
      (named : s.name = name) (accepts : s.accepts count = true)
      (inexact : ∀ g t, r.functionAt? g = some t → t.name = name → t.arity ≠ count)
      (first : ∀ g t, g < f → r.functionAt? g = some t → t.name = name →
        t.accepts count = false) :
      Means r name count f

theorem Indexed.overloads_ordered (h : r.Indexed) (name : String) :
    (r.overloads name).Pairwise fun a b => a.2 < b.2 := by
  refine List.pairwise_filterMap.2 ((h.ordered name).imp ?_)
  intro f g hlt a ha b hb
  obtain ⟨s, -, rfl⟩ := Option.map_eq_some_iff.1 ha
  obtain ⟨t, -, rfl⟩ := Option.map_eq_some_iff.1 hb
  exact hlt

/-- The first function of a name that passes a test. -/
theorem Indexed.find?_overloads (h : r.Indexed) {p : Signature → Bool} {s : Signature} :
    (r.overloads name).find? (fun g => p g.1) = some (s, f) ↔
      r.functionAt? f = some s ∧ s.name = name ∧ p s = true ∧
        ∀ g t, g < f → r.functionAt? g = some t → t.name = name → p t = false := by
  rw [find?_eq_some_of_ordered (h.overloads_ordered name), h.mem_overloads, and_assoc]
  refine and_congr_right fun _ => and_congr_right fun _ => and_congr_right fun _ => ?_
  constructor
  · intro hleast g t hlt hg hname
    exact hleast (t, g) (h.mem_overloads.2 ⟨hg, hname⟩) hlt
  · intro hleast a ha hlt
    obtain ⟨hg, hname⟩ := h.mem_overloads.1 ha
    exact hleast a.2 a.1 hlt hg hname

theorem Indexed.find?_overloads_none (h : r.Indexed) {p : Signature → Bool} :
    (r.overloads name).find? (fun g => p g.1) = none ↔
      ∀ g t, r.functionAt? g = some t → t.name = name → p t = false := by
  rw [List.find?_eq_none]
  constructor
  · intro hnone g t hg hname
    exact Bool.eq_false_iff.2 (hnone (t, g) (h.mem_overloads.2 ⟨hg, hname⟩))
  · intro hnone a ha
    obtain ⟨hg, hname⟩ := h.mem_overloads.1 ha
    exact Bool.eq_false_iff.1 (hnone a.2 a.1 hg hname)

/-- Resolution looks for the arity first and then for a function that accepts the arguments. -/
theorem resolve_eq_ok :
    r.resolve name count = .ok f ↔
      (∃ s, (r.overloads name).find? (fun g => g.1.arity == count) = some (s, f)) ∨
      ((r.overloads name).find? (fun g => g.1.arity == count) = none ∧
        ∃ s, (r.overloads name).find? (fun g => g.1.accepts count) = some (s, f)) := by
  unfold resolve
  dsimp only
  split
  · rename_i hempty
    rw [List.isEmpty_iff.1 hempty]
    simp
  split
  · rename_i g hg
    rw [hg]
    obtain ⟨s, g⟩ := g
    simp
  rename_i hnone
  rw [hnone]
  split
  · rename_i g hg
    rw [hg]
    obtain ⟨s, g⟩ := g
    simp
  · rename_i hnone'
    rw [hnone']
    split <;> simp

/-- A call resolves to the function that it means. -/
theorem Declared.resolve_iff (h : r.Declared) :
    r.resolve name count = .ok f ↔ r.Means name count f := by
  rw [resolve_eq_ok]
  constructor
  · rintro (⟨s, hs⟩ | ⟨hnone, s, hs⟩)
    · obtain ⟨hf, hname, harity, -⟩ :=
        (h.indexed.find?_overloads (p := fun t => t.arity == count)).1 hs
      rw [beq_iff_eq] at harity
      refine .exact hf hname harity fun g t hg hname' harity' => ?_
      exact h.arities hg hf (hname'.trans hname.symm) (harity'.trans harity.symm)
    · rw [h.indexed.find?_overloads_none (p := fun t => t.arity == count)] at hnone
      obtain ⟨hf, hname, haccepts, hfirst⟩ :=
        (h.indexed.find?_overloads (p := fun t => t.accepts count)).1 hs
      exact .completed hf hname haccepts
        (fun g t hg hname' => by simpa using hnone g t hg hname') hfirst
  · rintro (⟨hf, hname, harity, honly⟩ | ⟨hf, hname, haccepts, hinexact, hfirst⟩)
    · refine .inl ⟨_, (h.indexed.find?_overloads (p := fun t => t.arity == count)).2
        ⟨hf, hname, beq_iff_eq.2 harity, fun g t hlt hg hname' => ?_⟩⟩
      refine beq_eq_false_iff_ne.2 fun harity' => ?_
      exact absurd (honly g t hg hname' harity') (Nat.ne_of_lt hlt)
    · refine .inr ⟨?_, _, (h.indexed.find?_overloads (p := fun t => t.accepts count)).2
        ⟨hf, hname, haccepts, hfirst⟩⟩
      rw [h.indexed.find?_overloads_none (p := fun t => t.arity == count)]
      exact fun g t hg hname' => beq_eq_false_iff_ne.2 (hinexact g t hg hname')

/-- A call resolves when some function of its name accepts its arguments, and only then. -/
theorem Declared.resolves_iff (h : r.Declared) :
    (∃ f, r.resolve name count = .ok f) ↔
      ∃ g s, r.functionAt? g = some s ∧ s.name = name ∧ s.accepts count = true := by
  constructor
  · rintro ⟨f, hf⟩
    obtain ⟨s, hs, hname, harity | haccepts⟩ := h.resolve_ok hf
    · exact ⟨f, s, hs, hname, harity ▸ s.accepts_arity⟩
    · exact ⟨f, s, hs, hname, haccepts⟩
  · rintro ⟨g, s, hg, hname, haccepts⟩
    cases hexact : (r.overloads name).find? fun g => g.1.arity == count with
    | some a => exact ⟨a.2, resolve_eq_ok.2 (.inl ⟨a.1, hexact⟩)⟩
    | none =>
      cases hfirst : (r.overloads name).find? fun g => g.1.accepts count with
      | some a => exact ⟨a.2, resolve_eq_ok.2 (.inr ⟨hexact, a.1, hfirst⟩)⟩
      | none =>
        -- the function that accepts would have been found
        rw [h.indexed.find?_overloads_none (p := fun t => t.accepts count)] at hfirst
        rw [hfirst g s hg hname] at haccepts
        cases haccepts

end Registry

/-! ## calls -/

/-- The arguments that a call passes to a function: those that are written, and behind them a
constant for every parameter left, equal to its default. -/
structure Signature.Passes (s : Signature) (written args : List Tree) : Prop where
  full : args.length = s.arity
  first : args.take written.length = written
  rest : List.Forall₂ (fun p t => ∃ o v, p.default = some v ∧ t = Tree.constant o v)
    (s.parameters.drop written.length) (args.drop written.length)

/-- A call that is written among some lexemes: a name, and in the brackets behind it the arguments
between commas. Its function is the one that the name means with so many arguments. -/
def Registry.Calls (r : Registry) (ls : List Lexeme) (o : Origin) (f : FuncId)
    (args : List Tree) : Prop :=
  ∃ name opening close inside written s,
    name :: opening :: (inside ++ [close]) <:+: ls ∧ opening.isOpening = true ∧ close.Closes ∧
      o.token = name.index ∧ PhraseList r written inside ∧
      r.resolve name.text written.length = .ok f ∧ r.functionAt? f = some s ∧
      s.Passes written args

variable {r : Registry} {ls : List Lexeme}

/-- Constants for parameters that all have defaults. -/
theorem Fills.forall_parameters {close : Lexeme} {ps : List Parameter}
    (hd : ∀ p ∈ ps, p.default.isSome = true) {ts : List Tree}
    (h : Fills close (ps.filterMap Parameter.default) ts) :
    List.Forall₂ (fun p t => ∃ o v, p.default = some v ∧ t = Tree.constant o v) ps ts := by
  induction ps generalizing ts with
  | nil =>
    cases h
    exact .nil
  | cons p ps ih =>
    obtain ⟨hp, hps⟩ := List.forall_mem_cons.1 hd
    obtain ⟨v, hv⟩ := Option.isSome_iff_exists.1 hp
    rw [List.filterMap_cons_some hv] at h
    cases h with
    | cons first rest =>
      obtain ⟨id, rfl⟩ := first
      exact .cons ⟨_, v, hv, rfl⟩ (ih hps rest)

/-- What resolves and has its defaults filled in passes an argument for every parameter. -/
theorem Registry.Declared.passes (hr : r.Declared) {name : String} {close : Lexeme} {f : FuncId}
    {written filled : List Tree} (hf : r.resolve name written.length = .ok f)
    (hfill : Fills close (ParseState.defaultsAfter r f written.length) filled) :
    ∃ s, r.functionAt? f = some s ∧ s.Passes written (written ++ filled) := by
  obtain ⟨s, hs, hcount, hdefaults⟩ := hr.left_out hf
  rw [Registry.defaultsAfter_eq hs] at hfill
  have hrest := hfill.forall_parameters hdefaults
  refine ⟨s, hs, ?_, List.take_left, by rwa [List.drop_left]⟩
  have hlength := hrest.length_eq
  rw [List.length_drop] at hlength
  rw [List.length_append, ← hlength]
  exact Nat.add_sub_cancel' hcount

theorem Phrase.call_written (hr : r.Declared) {o : Origin} {f : FuncId} {args : List Tree}
    {ms : List Lexeme} (hms : ms <:+: ls) (h : Phrase r (.call o f args) ms) :
    r.Calls ls o f args := by
  cases h with
  | call kind opens closes few resolves args defaults =>
    obtain ⟨s, hs, hpasses⟩ := hr.passes resolves defaults
    exact ⟨_, _, _, _, _, s, hms, opens, closes, rfl, args, resolves, hs, hpasses⟩

/-! ## registries -/

/-- What a registry promises about calls. -/
structure Registry.Resolves (r : Registry) : Prop where
  /-- a name resolves with some number of arguments when a function of that name accepts so many -/
  succeeds : ∀ name count, (∃ f, r.resolve name count = .ok f) ↔
    ∃ g s, r.functionAt? g = some s ∧ s.name = name ∧ s.accepts count = true
  /-- and then to the function that it means -/
  means : ∀ name count f, r.resolve name count = .ok f ↔ r.Means name count f
  /-- a parsed call passes to that function the written arguments and the defaults behind them -/
  calls : ∀ stream limits e, parse stream r limits = .ok e →
    ∀ o f args, .call o f args ∈ e.tree.nodes → r.Calls stream.lexemes o f args

theorem Registry.Declared.resolves (hr : r.Declared) : r.Resolves where
  succeeds _ _ := hr.resolves_iff
  means _ _ _ := hr.resolve_iff
  calls _ _ _ hparse o f args hcall := by
    rcases (phrase_of_parse hparse).parts _ hcall with ⟨ms, hms, hphrase⟩ | hfilled
    · exact hphrase.call_written hr hms
    · obtain ⟨_, _, _, _, _, hconstant⟩ := hfilled
      cases hconstant

/-- Whatever a host declares, refused or not: calls resolve to the functions that they mean, and
every parsed call carries an argument for every parameter. -/
theorem Context.calls_resolved {σ : Type} (memory : σ) (ds : List (Declaration σ)) :
    ((empty memory).declareAll ds).registry.Resolves :=
  ((built_empty memory).declareAll ds).1.declared.resolves

/-- The declarations of the sample, and a refused one among them. -/
def sampleDeclarations : List (Declaration Unit) :=
  [.ofVariable ⟨"x", .int ⟨true, .w32⟩, false, false⟩ (.own (.bool false)),
   .ofVariable ⟨"x", .bool, false, false⟩ (.own (.bool true)),
   .ofFunction ⟨"f", .bool, [⟨.bool, none⟩, ⟨.bool, some (.bool true)⟩]⟩
    fun _ _ _ => ⟨.bool true, [], ()⟩]

/-- The call of the sample has its second argument from the default. -/
theorem Context.calls_resolved_sample :
    sampleRegistry.Calls (TokenStream.lexemes ⟨sampleSource.toList, sampleTokens⟩)
      ⟨4, 2, ⟨4, 8⟩⟩ 0
      [.constant ⟨2, 4, ⟨6, 7⟩⟩ (.int (.wrap ⟨false, .w8⟩ 1)),
        .constant ⟨3, 5, ⟨7, 8⟩⟩ (.bool true)] := by
  have hresolves : sampleRegistry.Resolves := calls_resolved () sampleDeclarations
  exact hresolves.calls _ _ _ parse_sample _ _ _ (by simp [sampleTree, Tree.nodes])

/-! ## what a failed resolution tells -/

theorem Signature.required_le_arity (s : Signature) : s.required ≤ s.arity :=
  (List.takeWhile_prefix _).length_le

theorem Signature.accepts_eq_false {s : Signature} {count : Nat} :
    s.accepts count = false ↔ count < s.required ∨ s.arity < count := by
  rw [accepts, Bool.and_eq_false_iff, decide_eq_false_iff_not, decide_eq_false_iff_not,
    Nat.not_le, Nat.not_le]

namespace Registry

variable {r : Registry} {name : String} {count : Nat}

/-- A function of a name. -/
def Named (r : Registry) (name : String) (s : Signature) : Prop :=
  ∃ f, r.functionAt? f = some s ∧ s.name = name

/-- The numbers of parameters of the functions of a name. -/
def aritiesOf (r : Registry) (name : String) : Set Nat :=
  {n | ∃ s, r.Named name s ∧ s.arity = n}

/-- The numbers of arguments that the functions of a name require. -/
def requirementsOf (r : Registry) (name : String) : Set Nat :=
  {n | ∃ s, r.Named name s ∧ s.required = n}

theorem Indexed.named_iff (h : r.Indexed) {s : Signature} :
    r.Named name s ↔ ∃ g ∈ r.overloads name, g.1 = s := by
  constructor
  · rintro ⟨f, hf, hname⟩
    exact ⟨(s, f), h.mem_overloads.2 ⟨hf, hname⟩, rfl⟩
  · rintro ⟨g, hg, rfl⟩
    exact ⟨g.2, h.mem_overloads.1 hg⟩

theorem foldl_max_isGreatest {l : List Nat} (h : l ≠ []) :
    IsGreatest {n | n ∈ l} (l.foldl max 0) := by
  obtain ⟨most, hmost⟩ := Option.isSome_iff_exists.1 (List.isSome_max?_of_ne_nil h)
  have hfold : l.foldl max 0 = most := by
    rw [List.foldl_max, hmost]
    exact Nat.zero_max most
  rw [hfold]
  exact List.max?_eq_some_iff.1 hmost

theorem min?_isLeast {l : List Nat} (h : l ≠ []) : IsLeast {n | n ∈ l} (l.min?.getD 0) := by
  obtain ⟨least, hleast⟩ := Option.isSome_iff_exists.1 (List.isSome_min?_of_ne_nil h)
  rw [hleast]
  exact List.min?_eq_some_iff.1 hleast

theorem Indexed.mem_numbers_iff (h : r.Indexed) (p : Signature → Nat) :
    {n | n ∈ (r.overloads name).map fun g => p g.1} = {n | ∃ s, r.Named name s ∧ p s = n} := by
  ext n
  simp only [Set.mem_ofPred_eq, List.mem_map, h.named_iff]
  constructor
  · rintro ⟨g, hg, rfl⟩
    exact ⟨g.1, ⟨g, hg, rfl⟩, rfl⟩
  · rintro ⟨_, ⟨g, hg, rfl⟩, rfl⟩
    exact ⟨g, hg, rfl⟩

/-- Where no function of a name accepts the arguments, the greatest arity decides which fault is
told. -/
theorem Declared.resolve_refused (h : r.Declared) (hnamed : ∃ s, r.Named name s)
    (hrefused : ∀ s, r.Named name s → s.accepts count = false) :
    ∃ most least, IsGreatest (r.aritiesOf name) most ∧ IsLeast (r.requirementsOf name) least ∧
      r.resolve name count = .error (if most < count then .tooMany most else .missing least) := by
  have hindexed := h.indexed
  obtain ⟨s, hs⟩ := hnamed
  obtain ⟨g, hg, -⟩ := hindexed.named_iff.1 hs
  have hne : r.overloads name ≠ [] := List.ne_nil_of_mem hg
  have haccepts : ∀ g ∈ r.overloads name, g.1.accepts count = false := fun g hg =>
    hrefused g.1 (hindexed.named_iff.2 ⟨g, hg, rfl⟩)
  have hinexact : (r.overloads name).find? (fun g => g.1.arity == count) = none := by
    refine List.find?_eq_none.2 fun g hg harity => ?_
    have haccepted := g.1.accepts_arity
    rw [beq_iff_eq.1 harity, haccepts g hg] at haccepted
    cases haccepted
  have hnone : (r.overloads name).find? (fun g => g.1.accepts count) = none :=
    List.find?_eq_none.2 fun g hg => Bool.eq_false_iff.1 (haccepts g hg)
  refine ⟨((r.overloads name).map fun g => g.1.arity).foldl max 0,
    ((r.overloads name).map fun g => g.1.required).min?.getD 0, ?_, ?_, ?_⟩
  · rw [aritiesOf, ← hindexed.mem_numbers_iff]
    exact foldl_max_isGreatest (by simpa using hne)
  · rw [requirementsOf, ← hindexed.mem_numbers_iff]
    exact min?_isLeast (by simpa using hne)
  · unfold resolve
    dsimp only
    rw [if_neg (by simpa using hne), hinexact, hnone]
    dsimp only
    split <;> rfl

/-- What a failed resolution tells of the functions of its name. -/
structure TellsMismatch (r : Registry) (name : String) (count : Nat) : Prop where
  unknown : r.resolve name count = .error .unknown ↔ ∀ s, ¬ r.Named name s
  tooMany : ∀ most, r.resolve name count = .error (.tooMany most) ↔
    most < count ∧ IsGreatest (r.aritiesOf name) most
  missing : ∀ least, r.resolve name count = .error (.missing least) ↔
    IsLeast (r.requirementsOf name) least ∧ (∃ s, r.Named name s ∧ count < s.arity) ∧
      ∀ s, r.Named name s → s.accepts count = false
  /-- the call supplies fewer arguments than all these functions require, unless one of them takes
  even fewer -/
  fewer : ∀ least, r.resolve name count = .error (.missing least) →
    (count < least ↔ ∀ s, r.Named name s → count < s.arity)

/-- A resolution fails where no function of the name accepts the arguments. -/
theorem Declared.refused_of_error (h : r.Declared) {e : ArityMismatch}
    (he : r.resolve name count = .error e) : ∀ s, r.Named name s → s.accepts count = false := by
  rintro s ⟨f, hf, hname⟩
  refine Bool.eq_false_iff.2 fun haccepts => ?_
  obtain ⟨g, hg⟩ := h.resolves_iff.2 ⟨f, s, hf, hname, haccepts⟩
  rw [he] at hg
  cases hg

/-- Only a name that no function has is unknown. -/
theorem Declared.unknown_iff (h : r.Declared) :
    r.resolve name count = .error .unknown ↔ ∀ s, ¬ r.Named name s := by
  constructor
  · intro he s hs
    obtain ⟨most, least, -, -, hresolve⟩ := h.resolve_refused ⟨s, hs⟩ (h.refused_of_error he)
    rw [hresolve] at he
    split at he <;> cases he
  · intro hnone
    have hempty : r.overloads name = [] := List.eq_nil_iff_forall_not_mem.2 fun g hg =>
      hnone g.1 (h.indexed.named_iff.2 ⟨g, hg, rfl⟩)
    unfold resolve
    rw [hempty]
    rfl

/-- A failure that names a number is about functions that exist, and the greatest of their arities
decides which number it names. -/
theorem Declared.resolve_eq_error (h : r.Declared) {e : ArityMismatch}
    (he : r.resolve name count = .error e) (hknown : e ≠ .unknown) :
    ∃ most least, IsGreatest (r.aritiesOf name) most ∧ IsLeast (r.requirementsOf name) least ∧
      e = if most < count then .tooMany most else .missing least := by
  have hnamed : ∃ s, r.Named name s := by
    by_contra hnone
    rw [h.unknown_iff.2 (not_exists.1 hnone)] at he
    exact hknown (Except.error.inj he).symm
  obtain ⟨most, least, hmost, hleast, hresolve⟩ :=
    h.resolve_refused hnamed (h.refused_of_error he)
  rw [hresolve] at he
  exact ⟨most, least, hmost, hleast, (Except.error.inj he).symm⟩

theorem Declared.tooMany_iff (h : r.Declared) {most : Nat} :
    r.resolve name count = .error (.tooMany most) ↔
      most < count ∧ IsGreatest (r.aritiesOf name) most := by
  constructor
  · intro he
    obtain ⟨most', least, hmost, -, heq⟩ := h.resolve_eq_error he nofun
    split at heq
    · rename_i hlt
      cases heq
      exact ⟨hlt, hmost⟩
    · cases heq
  · rintro ⟨hlt, hmost⟩
    obtain ⟨s, hs, -⟩ := hmost.1
    have hrefused : ∀ t, r.Named name t → t.accepts count = false := fun t ht =>
      Signature.accepts_eq_false.2 (.inr (Nat.lt_of_le_of_lt (hmost.2 ⟨t, ht, rfl⟩) hlt))
    obtain ⟨most', least, hmost', -, hresolve⟩ := h.resolve_refused ⟨s, hs⟩ hrefused
    rw [hresolve, hmost'.unique hmost, if_pos hlt]

theorem Declared.missing_iff (h : r.Declared) {least : Nat} :
    r.resolve name count = .error (.missing least) ↔
      IsLeast (r.requirementsOf name) least ∧ (∃ s, r.Named name s ∧ count < s.arity) ∧
        ∀ s, r.Named name s → s.accepts count = false := by
  constructor
  · intro he
    have hrefused := h.refused_of_error he
    obtain ⟨most, least', ⟨⟨s, hs, rfl⟩, -⟩, hleast, heq⟩ := h.resolve_eq_error he nofun
    split at heq
    · cases heq
    · rename_i hle
      cases heq
      refine ⟨hleast, ⟨s, hs, ?_⟩, hrefused⟩
      have := Signature.accepts_eq_false.1 (hrefused s hs)
      have := s.required_le_arity
      omega
  · rintro ⟨hleast, ⟨s, hs, hlt⟩, hrefused⟩
    obtain ⟨most, least', hmost, hleast', hresolve⟩ := h.resolve_refused ⟨s, hs⟩ hrefused
    have hle : s.arity ≤ most := hmost.2 ⟨s, hs, rfl⟩
    rw [hresolve, if_neg (by omega), hleast'.unique hleast]

/-- What a missing argument tells is true of all functions of the name, unless one of them takes
fewer arguments than there are. -/
theorem Declared.missing_fewer_iff (h : r.Declared) {least : Nat}
    (he : r.resolve name count = .error (.missing least)) :
    count < least ↔ ∀ s, r.Named name s → count < s.arity := by
  obtain ⟨⟨⟨t, ht, rfl⟩, hleast⟩, -, hrefused⟩ := h.missing_iff.1 he
  constructor
  · intro hlt s hs
    exact Nat.lt_of_lt_of_le hlt (Nat.le_trans (hleast ⟨s, hs, rfl⟩) s.required_le_arity)
  · intro hall
    have := Signature.accepts_eq_false.1 (hrefused t ht)
    have := hall t ht
    omega

theorem Declared.tellsMismatch (h : r.Declared) (name : String) (count : Nat) :
    r.TellsMismatch name count where
  unknown := h.unknown_iff
  tooMany _ := h.tooMany_iff
  missing _ := h.missing_iff
  fewer _ := h.missing_fewer_iff

end Registry

/-- Whatever a host declares, refused or not: where a call means nothing, the numbers that it is
told are the greatest arity and the least requirement of the functions of its name. -/
theorem Context.mismatch_told {σ : Type} (memory : σ) (ds : List (Declaration σ)) (name : String)
    (count : Nat) : ((empty memory).declareAll ds).registry.TellsMismatch name count :=
  ((built_empty memory).declareAll ds).1.declared.tellsMismatch name count

/-- Two functions of one name, of which one takes one argument and one takes three. -/
def gappedDeclarations : List (Declaration Unit) :=
  [.ofFunction ⟨"f", .int ⟨false, .w8⟩, [⟨.int ⟨false, .w8⟩, none⟩]⟩ fun _ _ _ => ⟨.void, [], ()⟩,
   .ofFunction ⟨"f", .int ⟨false, .w8⟩, List.replicate 3 ⟨.int ⟨false, .w8⟩, none⟩⟩
    fun _ _ _ => ⟨.void, [], ()⟩]

/-- Two arguments are missing arguments there, and yet no fewer than one. -/
theorem Context.missing_between :
    ((empty ()).declareAll gappedDeclarations).registry.resolve "f" 2 = .error (.missing 1) ∧
      ¬ 2 < 1 := by
  decide

end ExprEngine
