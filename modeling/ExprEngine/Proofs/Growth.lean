import ExprEngine.Proofs.Declaration
import ExprEngine.Proofs.Machine.Growth
import ExprEngine.Proofs.Naming

/-!
# Declarations that nobody notices

A host may declare more names at any time. What does not mention them is not affected: sources
compile as before, and what was compiled before runs as before, whatever its calls would resolve to
now.

* `declareAll_still`          what declarations leave as it was;
* `Engine.Undisturbed`        a run that goes as it went before some declarations;
* `undisturbed_of_compile`    runs of what was compiled before them;
* `run_of_compile_empty`      runs of what needs no declaration;
* `growth_unnoticed`          what a host may rely on.
-/

namespace ExprEngine

variable {σ : Type}

namespace Context

/-! ## contexts -/

theorem declare_still (c : Context σ) (d : Declaration σ) :
    (c.declare d).2.state.memory = c.state.memory ∧
      (c.declare d).2.registry.interactive = c.registry.interactive := by
  cases d with
  | ofVariable v storage =>
    rw [declare]
    split
    · rename_i c' h
      obtain ⟨r, hr, rfl⟩ := map_eq_ok.1 h
      obtain ⟨rfl, -⟩ := Registry.addVariable_ok hr
      exact ⟨(c.state.declare_grows storage).2, rfl⟩
    · exact ⟨rfl, rfl⟩
  | ofFunction f callback =>
    rw [declare]
    split
    · rename_i c' h
      obtain ⟨r, hr, rfl⟩ := map_eq_ok.1 h
      obtain ⟨rfl, -⟩ := Registry.addFunction_ok hr
      exact ⟨rfl, rfl⟩
    · exact ⟨rfl, rfl⟩

/-- Declarations change neither what the host remembers nor whether variables are toggled. -/
theorem declareAll_still (c : Context σ) (ds : List (Declaration σ)) :
    (c.declareAll ds).state.memory = c.state.memory ∧
      (c.declareAll ds).registry.interactive = c.registry.interactive := by
  induction ds generalizing c with
  | nil => exact ⟨rfl, rfl⟩
  | cons d ds ih =>
    obtain ⟨hmemory, hinteractive⟩ := c.declare_still d
    obtain ⟨hmemory', hinteractive'⟩ := ih (c.declare d).2
    exact ⟨hmemory'.trans hmemory, hinteractive'.trans hinteractive⟩

end Context

/-! ## runs -/

/-- A run among more declarations that goes as it went without them: the same result, the same
calls, the same values in the earlier variables, and states that are still near each other. -/
structure Engine.Undisturbed (engine : Engine) (e : Expression) (c c' : Context σ)
    (Near : State σ → State σ → Prop) : Prop where
  result : (engine.run e c').result = (engine.run e c).result
  calls : (engine.run e c').calls = (engine.run e c).calls
  values : ∀ x < c.registry.vars.length,
    (engine.run e c').context.state.value x = (engine.run e c).context.state.value x
  state : Near (engine.run e c).context.state (engine.run e c').context.state

variable {c c' : Context σ} {e : Expression} {compiler : Engine} {source : String}

/-- What was parsed over a registry refers only to what it declares. -/
theorem known_of_compile {r : Registry} (hr : r.Declared)
    (h : compiler.compile source r = .ok e) : ∀ n ∈ e.expr.tree.nodes, n.Known r := by
  obtain ⟨ts, -, hparse, -⟩ := stages_of_compile h
  exact (phrase_of_parse hparse).known hr

/-- What was compiled before some declarations runs as before, if the callbacks that there were do
not notice them. -/
theorem undisturbed_of_compile (hc : c.Built) (ds : List (Declaration σ))
    (h : compiler.compile source c.registry = .ok e) {Near : State σ → State σ → Prop}
    (hunnoticed : Unnoticed c.registry (c.declareAll ds).registry c.callbacks Near)
    (hnear : Near c.state (c.declareAll ds).state) (engine : Engine) :
    engine.Undisturbed e c (c.declareAll ds) Near := by
  obtain ⟨-, hgrows⟩ := hc.declareAll ds
  obtain ⟨-, hinteractive⟩ := c.declareAll_still ds
  have hmachine : (engine.machine e (c.declareAll ds)).Grows (engine.machine e c) Near :=
    ⟨hgrows.registry, hinteractive, hgrows.callbacks, hc.callbacks, rfl, rfl, hunnoticed⟩
  have hworld : World.Beside Near ⟨c.state, []⟩ ⟨(c.declareAll ds).state, []⟩ := ⟨hnear, rfl⟩
  have hrun := Machine.evaluate_grown hmachine (known_of_compile hc.declared h) hworld
  have hstate : Near (engine.run e c).context.state
      (engine.run e (c.declareAll ds)).context.state := by
    rw [engine.run_state, engine.run_state]
    exact hrun.world.state
  refine ⟨?_, ?_, hunnoticed.value hstate, hstate⟩
  · rw [engine.run_result, engine.run_result]
    exact congrArg _ hrun.outcome
  · rw [engine.run_calls, engine.run_calls]
    exact hrun.world.calls

/-- What was compiled without declarations has the same result in every context, changes nothing
and calls nothing. -/
theorem run_of_compile_empty (h : compiler.compile source .empty = .ok e) (engine : Engine)
    (c : Context σ) :
    engine.run e c = ⟨(engine.run e (Context.empty ())).result, c, []⟩ := by
  have hcompiled : e.Compiled .empty := compile_ok .empty h
  have hparts : ∀ k ∈ e.expr.tree.nodes, ∃ ty, HasTyping .empty k ty := fun k hk =>
    ⟨_, (hcompiled.parts k hk).1⟩
  have htypes : (engine.machine e (Context.empty ())).types = (engine.machine e c).types := rfl
  have hroom : (engine.machine e (Context.empty ())).maxValues =
      (engine.machine e c).maxValues := rfl
  have hrun : (engine.machine e c).evaluate e.expr.tree ⟨c.state, []⟩ =
      (((engine.machine e (Context.empty ())).evaluate e.expr.tree
        ⟨(Context.empty ()).state, []⟩).1, ⟨c.state, []⟩) :=
    Machine.evaluate_closed htypes hroom hparts _ _
  rw [engine.run_result]
  exact congrArg (fun p : Except EvalError Value × World σ =>
    (⟨liftError .eval p.1, { c with state := p.2.state }, p.2.calls⟩ : Outcome σ Error)) hrun

/-! ## what a host may rely on -/

/-- Declarations are noticed only by what mentions them. In every context that came about by
changes, and after any more declarations: a source that mentions no new name compiles as before;
what was compiled before runs as before, whatever a call in it would resolve to now, if the
callbacks that there were do not notice the declarations themselves; and a source that compiles
without any declaration compiles to the same expression here, which has the same result, changes
nothing and calls nothing. -/
theorem growth_unnoticed {memory : σ} (h : (Context.empty memory).Reaches c)
    (ds : List (Declaration σ)) :
    (∀ (engine : Engine) source,
      (∀ name ∈ (c.declareAll ds).registry.newNames c.registry, ¬ Mentions source name) →
        engine.compile source (c.declareAll ds).registry = engine.compile source c.registry) ∧
    (∀ (compiler : Engine) source e, compiler.compile source c.registry = .ok e →
      ∀ Near : State σ → State σ → Prop,
        Unnoticed c.registry (c.declareAll ds).registry c.callbacks Near →
        Near c.state (c.declareAll ds).state →
          ∀ engine : Engine, engine.Undisturbed e c (c.declareAll ds) Near) ∧
    ∀ (compiler : Engine) source e, compiler.compile source .empty = .ok e →
      compiler.compile source c.registry = .ok e ∧
        ∀ engine : Engine, engine.run e c = ⟨(engine.run e (Context.empty ())).result, c, []⟩ := by
  have hbuilt : c.Built := h.built (Context.built_empty memory)
  obtain ⟨hbuilt', hgrows⟩ := hbuilt.declareAll ds
  refine ⟨fun engine source hnew => ?_,
    fun compiler source e hcompile Near hunnoticed hnear => ?_,
    fun compiler source e hcompile => ⟨?_, fun engine => ?_⟩⟩
  · exact engine.compile_extend hgrows.registry hbuilt.declared hbuilt'.declared hnew
  · exact undisturbed_of_compile hbuilt ds hcompile hunnoticed hnear
  · exact Engine.compile_closed hcompile hbuilt.declared
  · exact run_of_compile_empty hcompile engine c

/-- A variable, a function that fits the call of the sample better, and a refused variable. -/
def laterDeclarations : List (Declaration Unit) :=
  [.ofVariable ⟨"y", .bool, false, true⟩ (.own (.bool true)),
   .ofFunction ⟨"f", .bool, [⟨.bool, none⟩]⟩ fun _ _ _ => ⟨.bool false, [(1, .bool false)], ()⟩,
   .ofVariable ⟨"x", .bool, false, false⟩ (.own (.bool true))]

/-- A source that mentions nothing, and what it compiles to. -/
def closedSource : String := "(u8)300"

def closedTokens : List Token :=
  [⟨.parenthesis, ⟨0, 1⟩⟩, ⟨.identifier, ⟨1, 3⟩⟩, ⟨.parenthesis, ⟨3, 4⟩⟩, ⟨.number, ⟨4, 7⟩⟩]

def closedExpression : Expression where
  expr :=
    ⟨.cast ⟨0, 0, ⟨0, 4⟩⟩ (.int ⟨false, .w8⟩)
      (.constant ⟨1, 3, ⟨4, 7⟩⟩ (.int (.wrap ⟨false, .w16⟩ 300))), 2⟩
  types :=
    ⟨[⟨.int ⟨false, .w8⟩, .int ⟨false, .w16⟩⟩, .same (.int ⟨false, .w16⟩)], .int ⟨false, .w8⟩⟩

theorem tokenize_closed : tokenize closedSource = .ok closedTokens := by decide +kernel

theorem compile_closed_sample :
    ({} : Engine).compile closedSource .empty = .ok closedExpression := by
  unfold Engine.compile Engine.parseSource
  rw [tokenize_closed]
  rfl

theorem growth_unnoticed_sample :
    let later := sampleContext.declareAll laterDeclarations
    sampleContext.registry.resolve "f" 1 = .ok 0 ∧ later.registry.resolve "f" 1 = .ok 1 ∧
      later.registry.newNames sampleContext.registry = ["y", "f"] ∧
      ({} : Engine).compile closedSource later.registry =
        ({} : Engine).compile closedSource sampleContext.registry ∧
      ({} : Engine).Undisturbed sampleExpression sampleContext later
        (State.Behind 1 (fun _ => True) [.bool true] [1]) ∧
      ({} : Engine).run closedExpression sampleContext =
        ⟨.ok (.int (.wrap ⟨false, .w8⟩ 44)), sampleContext, []⟩ := by
  obtain ⟨hcompile, hrun, hclosed⟩ := growth_unnoticed reaches_sample laterDeclarations
  have hnew : (sampleContext.declareAll laterDeclarations).registry.newNames
      sampleContext.registry = ["y", "f"] := rfl
  have hmentions : ∀ t ∈ TokenStream.lexemes ⟨closedSource.toList, closedTokens⟩,
      t.text ∉ ["y", "f"] := by decide +kernel
  have hknows : ∀ callback ∈ sampleContext.callbacks, callback.Knows 1 fun _ => True :=
    List.forall_mem_singleton.2
      ⟨fun _ _ _ _ _ _ => rfl, fun _ _ _ _ _ _ h => (nomatch h), fun _ _ _ _ _ => trivial⟩
  have hextends := ((reaches_sample.built (Context.built_empty ())).declareAll
    laterDeclarations).2.registry
  refine ⟨rfl, rfl, hnew, ?_, ?_, ?_⟩
  · refine hcompile {} closedSource fun name hname => ?_
    rintro ⟨ts, hts, t, ht, -, rfl⟩
    rw [tokenize_closed] at hts
    cases hts
    rw [hnew] at hname
    exact hmentions t ht hname
  · exact hrun {} sampleSource sampleExpression compile_sample _
      (Unnoticed.of_knows hextends hknows [.bool true] [1]) ⟨trivial, rfl, rfl, rfl, rfl⟩ {}
  · rw [(hclosed {} closedSource closedExpression compile_closed_sample).2]
    rfl

end ExprEngine
