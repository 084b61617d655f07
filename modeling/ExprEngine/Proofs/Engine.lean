import ExprEngine.Proofs.Context
import ExprEngine.Proofs.Machine.Flow
import ExprEngine.Proofs.Parse.Numbering
import ExprEngine.Proofs.Tree

/-!
# Running what was compiled

An expression that compiles against a context runs in every later state of the context. It yields a
value of the type that it was given, or fails for one of the few reasons that are left to the
values and to the host.

* `Expression.Compiled`     what compilation guarantees, and declarations keep;
* `compile_ok`              a compiled expression has it;
* `Engine.Sound`            what a run promises;
* `run_sound`               a run of a compiled expression keeps its promise.
-/

namespace ExprEngine

variable {r r' : Registry}

/-! ## calls of a phrase -/

/-- A call with its defaults filled in has an argument for every parameter. -/
theorem fullCall_of_resolve (hr : r.Declared) {o : Origin} {name : String} {close : Lexeme}
    {f : FuncId} {written filled : List Tree} (hf : r.resolve name written.length = .ok f)
    (hfill : Fills close (ParseState.defaultsAfter r f written.length) filled) :
    (Tree.call o f (written ++ filled)).FullCall r := by
  obtain ⟨s, hs, hcount, htypes⟩ := hr.defaults hf
  refine ⟨s, hs, ?_⟩
  have hfilled : filled.length = s.arity - written.length := by
    rw [← hfill.length_eq, ← List.length_map Value.type, htypes, List.length_map, List.length_drop]
    rfl
  rw [List.length_append, hfilled]
  omega

theorem Fills.fullCalls {close : Lexeme} {vs : List Value} {ts : List Tree}
    (h : Fills close vs ts) : ∀ n ∈ Tree.nodesOfAll ts, n.FullCall r := by
  induction h with
  | nil => exact nofun
  | cons hfirst _ ih =>
    obtain ⟨id, rfl⟩ := hfirst
    exact List.forall_mem_cons.2 ⟨trivial, ih⟩

mutual

/-- Every call in a phrase has an argument for every parameter. -/
theorem Phrase.fullCalls (hr : r.Declared) : ∀ {t : Tree} {ls : List Lexeme}, Phrase r t ls →
    ∀ n ∈ t.nodes, n.FullCall r
  | _, _, .number _ _ => List.forall_mem_singleton.2 trivial
  | _, _, .string _ => List.forall_mem_singleton.2 trivial
  | _, _, .boolean _ _ => List.forall_mem_singleton.2 trivial
  | _, _, .reference _ _ => List.forall_mem_singleton.2 trivial
  | _, _, .unary _ operand => List.forall_mem_cons.2 ⟨trivial, operand.fullCalls hr⟩
  | _, _, .cast _ _ _ _ _ operand => List.forall_mem_cons.2 ⟨trivial, operand.fullCalls hr⟩
  | _, _, .group _ _ _ inner => List.forall_mem_cons.2 ⟨trivial, inner.fullCalls hr⟩
  | _, _, .binary _ left right => by
    have hbelow := List.forall_mem_append.2 ⟨left.fullCalls hr, right.fullCalls hr⟩
    exact List.forall_mem_cons.2 ⟨trivial, hbelow⟩
  | _, _, .choice _ _ condition yes no => by
    have hfirst := List.forall_mem_append.2 ⟨condition.fullCalls hr, yes.fullCalls hr⟩
    have hbelow := List.forall_mem_append.2 ⟨hfirst, no.fullCalls hr⟩
    exact List.forall_mem_cons.2 ⟨trivial, hbelow⟩
  | _, _, .call _ _ _ _ resolves args defaults => by
    rw [Tree.nodes, Tree.nodesOfAll_append]
    have hbelow := List.forall_mem_append.2 ⟨args.fullCalls hr, defaults.fullCalls⟩
    exact List.forall_mem_cons.2 ⟨fullCall_of_resolve hr resolves defaults, hbelow⟩

theorem PhraseList.fullCalls (hr : r.Declared) : ∀ {ts : List Tree} {ls : List Lexeme},
    PhraseList r ts ls → ∀ n ∈ Tree.nodesOfAll ts, n.FullCall r
  | _, _, .nil => nofun
  | _, _, .one only => by
    rw [Tree.nodesOfAll, Tree.nodesOfAll, List.append_nil]
    exact only.fullCalls hr
  | _, _, .cons first _ rest => by
    rw [Tree.nodesOfAll]
    exact List.forall_mem_append.2 ⟨first.fullCalls hr, rest.fullCalls hr⟩

end

/-! ## compilation -/

/-- An expression whose parts are typed over a registry as its table says. -/
structure Expression.Compiled (e : Expression) (r : Registry) : Prop where
  whole : ∃ ty, HasTyping r e.expr.tree ty ∧ ty.result = e.resultType
  parts : ∀ n ∈ e.expr.tree.nodes,
    HasTyping r n (e.types.typing n.id) ∧ n.FullCall r

theorem Expression.Compiled.extend {e : Expression} (hr : r'.Extends r) (h : e.Compiled r) :
    e.Compiled r' := by
  obtain ⟨ty, hty, hres⟩ := h.whole
  refine ⟨⟨ty, hty.extend hr, hres⟩, ?_⟩
  intro n hn
  obtain ⟨htyping, hcall⟩ := h.parts n hn
  exact ⟨htyping.extend hr, hcall.extend hr⟩

theorem liftError_eq_ok {α ε : Type} {f : ε → Error} {x : Except ε α} {a : α}
    (h : liftError f x = .ok a) : x = .ok a := by
  cases x with
  | ok => exact congrArg Except.ok (Except.ok.inj h)
  | error => cases h

theorem liftError_eq_error {α ε : Type} {f : ε → Error} {x : Except ε α} {e : Error}
    (h : liftError f x = .error e) : ∃ e', x = .error e' ∧ f e' = e := by
  cases x with
  | ok => cases h
  | error e' => exact ⟨e', rfl, Except.error.inj h⟩

theorem Engine.compile_of_tokenize (engine : Engine) {source : String} {ts : List Token}
    (h : tokenize source = .ok ts) (r : Registry) :
    engine.compile source r =
      (liftError .parse (parse ⟨source.toList, ts⟩ r engine.limits) >>= fun expr =>
        liftError .type (check expr r) >>= fun types => .ok ⟨expr, types⟩) := by
  unfold compile parseSource
  rw [h]
  rfl

/-- What compiles was tokenized, parsed and typed. -/
theorem stages_of_compile {engine : Engine} {source : String} {e : Expression}
    (h : engine.compile source r = .ok e) :
    ∃ ts, tokenize source = .ok ts ∧ parse ⟨source.toList, ts⟩ r engine.limits = .ok e.expr ∧
      check e.expr r = .ok e.types := by
  unfold Engine.compile Engine.parseSource at h
  obtain ⟨expr, hparse, h⟩ := bind_eq_ok.1 h
  obtain ⟨types, hcheck, h⟩ := bind_eq_ok.1 h
  obtain ⟨ts, htokens, hparse⟩ := bind_eq_ok.1 hparse
  cases h
  exact ⟨ts, liftError_eq_ok htokens, liftError_eq_ok hparse, liftError_eq_ok hcheck⟩

/-- What compiles against a declared registry is typed over it. -/
theorem compile_ok {engine : Engine} {source : String} {e : Expression} (hr : r.Declared)
    (h : engine.compile source r = .ok e) : e.Compiled r := by
  obtain ⟨ts, -, hparse, hcheck⟩ := stages_of_compile h
  obtain ⟨hparts, hwhole⟩ := typing_of_check (Tree.numbered_of_perm (parse_ids hparse)) hcheck
  have hcalls := (phrase_of_parse hparse).fullCalls hr
  exact ⟨hwhole, fun n hn => ⟨hparts n hn, hcalls n hn⟩⟩

/-! ## runs -/

section
variable {σ : Type}

/-- The machine that runs an expression in a context. -/
def Engine.machine (engine : Engine) (e : Expression) (c : Context σ) : Machine σ :=
  ⟨c.registry, c.callbacks, e.types, engine.limits.maxValues⟩

/-- What a run promises: a value of the type of the whole or an expected failure, a value of its
own type from every executed part, and calls that pass what their functions declare. -/
structure Engine.Sound (engine : Engine) (e : Expression) (c : Context σ) : Prop where
  value : ∀ v, (engine.run e c).result = .ok v → v.type = e.resultType
  failure : ∀ err, (engine.run e c).result = .error err →
    ∃ ev, err = .eval ev ∧ ev.cause.Expected
  parts : ∀ part s, (engine.machine e c).Executed e.expr.tree ⟨c.state, []⟩ part s →
    ∃ v below, s = v :: below ∧ v.type = e.types.result part.id
  calls : ∀ call ∈ (engine.run e c).calls, call.Fits c.registry

theorem Engine.run_result (engine : Engine) (e : Expression) (c : Context σ) :
    (engine.run e c).result =
      liftError .eval ((engine.machine e c).evaluate e.expr.tree ⟨c.state, []⟩).1 := rfl

theorem Engine.run_calls (engine : Engine) (e : Expression) (c : Context σ) :
    (engine.run e c).calls =
      ((engine.machine e c).evaluate e.expr.tree ⟨c.state, []⟩).2.calls := rfl

theorem Engine.run_state (engine : Engine) (e : Expression) (c : Context σ) :
    (engine.run e c).context.state =
      ((engine.machine e c).evaluate e.expr.tree ⟨c.state, []⟩).2.state := rfl

/-- An expression runs soundly wherever it is typed. -/
theorem Expression.Compiled.sound {e : Expression} {c : Context σ} (h : e.Compiled c.registry)
    (engine : Engine) : engine.Sound e c := by
  obtain ⟨ty, hty, hres⟩ := h.whole
  have hsafe : Safely ((engine.machine e c).evaluate e.expr.tree ⟨c.state, []⟩).1
      fun v => v.type = ty.result := Machine.evaluate_safe hty h.parts
  refine ⟨?_, ?_, fun part s => Machine.executed_result hty h.parts, ?_⟩
  · intro v hv
    rw [engine.run_result] at hv
    rw [liftError_eq_ok hv] at hsafe
    rw [← hres]
    exact hsafe.of_ok
  · intro err herr
    rw [engine.run_result] at herr
    rcases hsafe with ⟨v, hv, -⟩ | ⟨ev, hev, hexpected⟩
    · rw [hv] at herr
      cases herr
    · rw [hev] at herr
      exact ⟨ev, (Except.error.inj herr).symm, hexpected⟩
  · rw [engine.run_calls]
    exact Machine.evaluate_calls hty h.parts nofun

/-- What was compiled against a context is typed in every later state of the context. -/
theorem Context.Reaches.compiled {memory : σ} {c₀ c : Context σ}
    (h₀ : (Context.empty memory).Reaches c₀) (h : c₀.Reaches c) {compiler : Engine}
    {source : String} {e : Expression} (hc : compiler.compile source c₀.registry = .ok e) :
    e.Compiled c.registry := by
  have hdeclared : c₀.registry.Declared := h₀.declared .empty
  exact (compile_ok hdeclared hc).extend h.extends

/-- What was compiled against a context runs soundly in every later state of the context. -/
theorem run_sound {memory : σ} {c₀ c : Context σ} (h₀ : (Context.empty memory).Reaches c₀)
    (h : c₀.Reaches c) {compiler engine : Engine} {source : String} {e : Expression}
    (hc : compiler.compile source c₀.registry = .ok e) : engine.Sound e c := by
  have hdeclared : c₀.registry.Declared := h₀.declared .empty
  have hcompiled : e.Compiled c.registry := (compile_ok hdeclared hc).extend h.extends
  exact hcompiled.sound engine

end

/-- A context that declares the names of the sample. -/
def sampleContext : Context Unit where
  registry := sampleRegistry
  callbacks := [fun _ _ _ => ⟨.bool true, [], ()⟩]
  state := ⟨[.bool false], [0], (), by decide⟩

/-- The sample with the types of its parts. -/
def sampleExpression : Expression where
  expr := ⟨sampleTree, 9⟩
  types :=
    ⟨[.same (.int ⟨true, .w32⟩), .same (.int ⟨true, .w32⟩), .same (.int ⟨false, .w8⟩),
      .same .bool, .same .bool, .same (.int ⟨true, .w64⟩), .same (.int ⟨false, .w8⟩),
      .same (.int ⟨true, .w32⟩), .same (.int ⟨true, .w32⟩)], .int ⟨true, .w32⟩⟩

theorem declare_sample : ∃ c : Context Unit,
    (Context.empty ()).addVariable ⟨"x", .int ⟨true, .w32⟩, false, false⟩ (.own (.bool false)) =
      .ok c ∧
    c.addFunction ⟨"f", .bool, [⟨.bool, none⟩, ⟨.bool, some (.bool true)⟩]⟩
      (fun _ _ _ => ⟨.bool true, [], ()⟩) = .ok sampleContext :=
  ⟨_, rfl, rfl⟩

theorem reaches_sample : (Context.empty ()).Reaches sampleContext := by
  obtain ⟨c, hx, hf⟩ := declare_sample
  exact Relation.ReflTransGen.refl.tail (.addVariable hx) |>.tail (.addFunction hf)

theorem compile_sample :
    ({} : Engine).compile sampleSource sampleContext.registry = .ok sampleExpression := by
  unfold Engine.compile Engine.parseSource
  rw [tokenize_sample]
  show (do
    let expr ← liftError .parse (parse ⟨sampleSource.toList, sampleTokens⟩ sampleRegistry {})
    let types ← liftError .type (check expr sampleRegistry)
    return (⟨expr, types⟩ : Expression)) = .ok sampleExpression
  rw [parse_sample]
  rfl

theorem run_sound_sample :
    ({} : Engine).Sound sampleExpression (sampleContext.setVariable 0 (.string "y")) :=
  run_sound reaches_sample (.single (.setVariable sampleContext 0 (.string "y"))) compile_sample

end ExprEngine
