import ExprEngine.Proofs.Frame
import ExprEngine.Proofs.Machine.Compound
import ExprEngine.Proofs.Reading
import ExprEngine.Proofs.Refinement

/-!
# Compound assignment is assignment of the operator

`x op= (e)` and `x = x op (e)` are one program in two spellings, if `e` leaves the cell of `x`
alone. They are read as different trees, and both are traced back to the tree of `e`.

* `CompoundOp.text`, `CompoundOp.expandedText`   the two spellings;
* `reads_text`, `reads_expandedText`   what the two spellings are read as;
* `meaning_compounded`, `meaning_expanded`   the values of the two trees by that of `e`;
* `Engine.Interchangeable`     texts with the same outcome wherever there is one;
* `compound_interchangeable`   the two spellings are such texts;
* `compound_disturbed`         they are not, where `e` writes the cell by another name.
-/

namespace ExprEngine

variable {r : Registry} {op : CompoundOp} {x : VarId} {v : Variable} {name source : String}

/-! ## the two spellings -/

namespace CompoundOp

/-- `x op= (e)`. -/
def text (op : CompoundOp) (name source : String) : String :=
  name ++ " " ++ (Operator.binary (.compound op)).symbol ++ " (" ++ source ++ ")"

/-- `x = x op (e)`. -/
def expandedText (op : CompoundOp) (name source : String) : String :=
  name ++ " = " ++ name ++ " " ++ (Operator.binary op.base).symbol ++ " (" ++ source ++ ")"

/-- The words in front of the parenthesis of `x op= (e)`. -/
def front (op : CompoundOp) (name : String) : List Word := [.ofName name, .ofSign (.compound op)]

/-- The words in front of the parenthesis of `x = x op (e)`. -/
def expandedFront (op : CompoundOp) (name : String) : List Word :=
  [.ofName name, .ofSign .assign, .ofName name, .ofSign op.base]

theorem length_text_le (op : CompoundOp) (name source : String) :
    Text.byteLength (op.text name source).toList ≤
      Text.byteLength (op.expandedText name source).toList := by
  have hsymbol : Text.byteLength (Operator.binary (.compound op)).symbol.toList =
      Text.byteLength (Operator.binary op.base).symbol.toList + 1 := by
    cases op <;> decide
  have hassign : Text.byteLength " = ".toList = 3 := by decide
  have hspace : Text.byteLength " ".toList = 1 := by decide
  simp only [CompoundOp.text, expandedText, String.toList_append, Text.byteLength_append]
  omega

end CompoundOp

/-! ## reading -/

/-- The words of `x op= (e)` are those of its tree. -/
theorem phrase_compounded (hr : r.Declared) (hx : r.variableAt? x = some v) {t : Tree}
    {ls : List Lexeme} (h : Phrase r t ls) :
    ∃ u, Phrase r u (enclosedLexemes (op.front v.name) ls) ∧
      u.bare = (Tree.compounded op x t).bare := by
  obtain ⟨_, hname⟩ := phrase_name hr hx
  obtain ⟨_, hgroup⟩ := phrase_enclosed h
  obtain ⟨_, htext⟩ := phrase_binary (b := .compound op) hname hgroup
  exact ⟨_, htext, by simp [Tree.bare, Tree.compounded]⟩

/-- The words of `x = x op (e)` are those of its tree. -/
theorem phrase_expanded (hr : r.Declared) (hx : r.variableAt? x = some v) {t : Tree}
    {ls : List Lexeme} (h : Phrase r t ls) :
    ∃ u, Phrase r u (enclosedLexemes (op.expandedFront v.name) ls) ∧
      u.bare = (Tree.expanded op x t).bare := by
  obtain ⟨_, hname⟩ := phrase_name hr hx
  obtain ⟨_, hgroup⟩ := phrase_enclosed h
  obtain ⟨_, hcombined⟩ := phrase_binary (b := op.base) hname hgroup
  obtain ⟨_, htext⟩ := phrase_binary (b := .assign) hname hcombined
  exact ⟨_, htext, by simp [Tree.bare, Tree.expanded, Tree.combined]⟩

/-- Limits with room for an assignment of a tree, written out. -/
structure Limits.Spacious (limits : Limits) (t : Tree) : Prop where
  parts : t.nodes.length + 5 ≤ limits.maxParts
  operands : t.nodes.length + 5 ≤ limits.maxOperands
  nesting : t.nodes.length + 5 ≤ limits.maxNesting
  values : t.demand + 1 ≤ limits.maxValues

theorem Limits.Spacious.room {limits : Limits} {t u : Tree} (h : limits.Spacious t)
    (hu : u.nodes.length ≤ t.nodes.length + 5) : Room limits u.nodes.length 0 0 0 := by
  obtain ⟨parts, operands, nesting, -⟩ := h
  exact ⟨by omega, by omega, by omega⟩

theorem Tree.wellGrouped_combined {t : Tree} (h : t.WellGrouped) : (combined op x t).WellGrouped := by
  refine wellGrouped_binary.2 ⟨?_, wellGrouped_of_nodes rfl trivial, wellGrouped_group.2 h⟩
  rw [grouped_binary, op.base_isAssignment]
  exact ⟨nofun, nofun⟩

theorem Tree.wellGrouped_compounded {t : Tree} (h : t.WellGrouped) :
    (compounded op x t).WellGrouped :=
  wellGrouped_binary.2 ⟨nofun, wellGrouped_of_nodes rfl trivial, wellGrouped_group.2 h⟩

theorem Tree.wellGrouped_expanded {t : Tree} (h : t.WellGrouped) : (expanded op x t).WellGrouped :=
  wellGrouped_binary.2 ⟨nofun, wellGrouped_of_nodes rfl trivial, wellGrouped_combined h⟩

section

variable {engine compiler : Engine} {e : Expression}

theorem reads_text (hr : r.Declared) (hx : r.variableAt? x = some v)
    (hc : compiler.compile source r = .ok e) (room : engine.limits.Spacious e.expr.tree)
    (hlength : Text.byteLength (op.text v.name source).toList ≤ Span.maxOffset) :
    engine.Reads r (op.text v.name source) (.compounded op x e.expr.tree) := by
  have hname : Nameable v.name := hr.variables v (List.mem_of_getElem? hx)
  have hfront : ∀ w ∈ op.front v.name, w.kind.Spells w.text ∧ w.kind ≠ .number := by
    simp [CompoundOp.front, spells_ofName hname, spells_ofSign]
  have hnodes : (Tree.compounded op x e.expr.tree).nodes.length ≤ e.expr.tree.nodes.length + 5 := by
    simp [Tree.compounded, Tree.nodes]
  refine reads_enclosed hr hc hfront ?_ hlength (fun _ => phrase_compounded hr hx)
    Tree.wellGrouped_compounded (room.room hnodes)
  simp [CompoundOp.text, spacing, written, Word.spaced, Word.lexeme, TokenKind.lexeme, Word.ofName,
    Word.ofSign]

theorem reads_expandedText (hr : r.Declared) (hx : r.variableAt? x = some v)
    (hc : compiler.compile source r = .ok e) (room : engine.limits.Spacious e.expr.tree)
    (hlength : Text.byteLength (op.expandedText v.name source).toList ≤ Span.maxOffset) :
    engine.Reads r (op.expandedText v.name source) (.expanded op x e.expr.tree) := by
  have hname : Nameable v.name := hr.variables v (List.mem_of_getElem? hx)
  have hfront : ∀ w ∈ op.expandedFront v.name, w.kind.Spells w.text ∧ w.kind ≠ .number := by
    simp [CompoundOp.expandedFront, spells_ofName hname, spells_ofSign]
  have hnodes : (Tree.expanded op x e.expr.tree).nodes.length ≤ e.expr.tree.nodes.length + 5 := by
    simp [Tree.expanded, Tree.combined, Tree.nodes]
  have hassign : (Operator.binary .assign).symbol = "=" := rfl
  refine reads_enclosed hr hc hfront ?_ hlength (fun _ => phrase_expanded hr hx)
    Tree.wellGrouped_expanded (room.room hnodes)
  simp [CompoundOp.expandedText, spacing, written, Word.spaced, Word.lexeme, TokenKind.lexeme,
    Word.ofName, Word.ofSign, hassign]

end

/-! ## values -/

section

variable {σ : Type} {c : Context σ} {engine : Engine} {e f : Expression} {ty : Typing}
  {u : ValueType} {new : Value} {w' : World σ}

theorem Expression.meaning_eq (e : Expression) (c : Context σ) :
    e.meaning c = e.expr.tree.eval ⟨c.registry, c.callbacks, e.types⟩ ⟨c.state, []⟩ := rfl

/-- What stands between brackets and is the tree of another expression, origins apart, has its
value. -/
theorem Expression.Compiled.eval_inside (hf : f.Compiled c.registry) (he : e.Compiled c.registry)
    {o : Origin} {t : Tree} (hgroup : .group o t ∈ f.expr.tree.nodes)
    (hbare : e.expr.tree.bare = t.bare) :
    t.eval ⟨c.registry, c.callbacks, f.types⟩ ⟨c.state, []⟩ = (.ok new, w') ↔
      e.meaning c = (.ok new, w') := by
  have hcomplete : (Tree.group o t).Complete := hf.complete.of_mem_nodes hgroup
  have hparts : ∀ n ∈ t.nodes, HasTyping c.registry n (f.types.typing n.id) := fun n hn =>
    (hf.parts n (Tree.mem_nodes_trans hgroup (List.mem_cons_of_mem _ hn))).1
  exact Machine.eval_congr hbare.symm hcomplete he.complete hparts fun n hn => (he.parts n hn).1

/-- `x op= (e)` succeeds when `e` does and `x`, read after it, can be combined with the value. -/
theorem meaning_compounded (hf : f.Compiled c.registry) (he : e.Compiled c.registry)
    (hbare : f.expr.tree.bare = (Tree.compounded op x e.expr.tree).bare)
    (hx : c.registry.variableAt? x = some v) (ht : HasTyping c.registry e.expr.tree ty)
    (hu : infixType op.base v.type ty.result = .ok u) :
    f.meaning c = (.ok new, w') ↔
      ∃ value w₁ old, e.meaning c = (.ok value, w₁) ∧
        Machine.readBinding w₁.state x v = .ok old ∧ op.Updates u v.type old value new ∧
        w' = w₁.put x new := by
  obtain ⟨o, l, g, htree, hl, hg⟩ := Tree.bare_eq_binary hbare.symm
  obtain ⟨o₁, rfl⟩ := Tree.bare_eq_reference hl
  obtain ⟨o₂, t, rfl, ht'⟩ := Tree.bare_eq_group hg
  have htyping := (hf.parts _ (Tree.mem_nodes_self hf.complete.isHole)).1.congr hbare
  obtain ⟨-, u', hu', htypes⟩ := (hasTyping_compounded hx ht).1 htyping
  cases hu.symm.trans hu'
  have hoperand : f.types.operand o.id = u := by
    rw [htree] at htypes
    exact congrArg Typing.operand htypes
  have hgroup : .group o₂ t ∈ f.expr.tree.nodes := by
    rw [htree]
    simp [Tree.nodes]
  rw [f.meaning_eq, htree, Tree.eval_compounded hx]
  simp only [hf.eval_inside he hgroup ht', hoperand]

/-- `x = x op (e)` succeeds when `e` does and `x`, read before it, can be combined with the
value. -/
theorem meaning_expanded (hf : f.Compiled c.registry) (he : e.Compiled c.registry)
    (hbare : f.expr.tree.bare = (Tree.expanded op x e.expr.tree).bare)
    (hx : c.registry.variableAt? x = some v) (ht : HasTyping c.registry e.expr.tree ty)
    (hu : infixType op.base v.type ty.result = .ok u) :
    f.meaning c = (.ok new, w') ↔
      ∃ value w₁ old, e.meaning c = (.ok value, w₁) ∧
        Machine.readBinding c.state x v = .ok old ∧ op.Updates u v.type old value new ∧
        w' = w₁.put x new := by
  obtain ⟨o, l, y, htree, hl, hy⟩ := Tree.bare_eq_binary hbare.symm
  obtain ⟨o₁, rfl⟩ := Tree.bare_eq_reference hl
  obtain ⟨o₂, l, g, rfl, hl, hg⟩ := Tree.bare_eq_binary hy
  obtain ⟨o₃, rfl⟩ := Tree.bare_eq_reference hl
  obtain ⟨o₄, t, rfl, ht'⟩ := Tree.bare_eq_group hg
  have hinner := hf.parts (.binary o₂ op.base (.reference o₃ x) (.group o₄ t)) (by
    rw [htree]
    simp [Tree.nodes])
  obtain ⟨u', hu', htypes⟩ := (hasTyping_combined hx ht).1 (hinner.1.congr hy.symm)
  cases hu.symm.trans hu'
  have hoperand : f.types.operand o₂.id = u := congrArg Typing.operand htypes
  have hgroup : .group o₄ t ∈ f.expr.tree.nodes := by
    rw [htree]
    simp [Tree.nodes]
  rw [f.meaning_eq, htree, Tree.eval_expanded hx]
  simp only [hf.eval_inside he hgroup ht', hoperand]

/-- The two trees succeed together, with the same value and the same world after them, if the tree
between the parentheses leaves the variable alone. -/
theorem meaning_compounded_iff {g : Expression} (hf : f.Compiled c.registry)
    (hg : g.Compiled c.registry) (he : e.Compiled c.registry)
    (hfbare : f.expr.tree.bare = (Tree.compounded op x e.expr.tree).bare)
    (hgbare : g.expr.tree.bare = (Tree.expanded op x e.expr.tree).bare)
    (hx : c.registry.variableAt? x = some v) (room : e.expr.tree.demand ≤ engine.limits.maxValues)
    (hfree : ∀ y ∈ e.expr.tree.targets, ¬ c.state.Shares x y)
    (hhost : ¬ engine.HostSets e c x) :
    f.meaning c = (.ok new, w') ↔ g.meaning c = (.ok new, w') := by
  obtain ⟨ty, ht, -⟩ := he.whole
  obtain ⟨_, hftype, -⟩ := hf.whole
  obtain ⟨-, u, hu, -⟩ := (hasTyping_compounded hx ht).1 (hftype.congr hfbare)
  have hvalue : (e.meaning c).2.state.value x = c.state.value x :=
    Machine.eval_value (m := engine.machine e c) he.complete room hfree hhost
  rw [meaning_compounded hf he hfbare hx ht hu, meaning_expanded hg he hgbare hx ht hu]
  -- the variable is read after the value on one side and before it on the other
  have hread : ∀ value w₁, e.meaning c = (.ok value, w₁) →
      Machine.readBinding w₁.state x v = Machine.readBinding c.state x v := by
    intro value w₁ hw
    rw [hw] at hvalue
    unfold Machine.readBinding
    rw [hvalue]
  constructor
  · rintro ⟨value, w₁, old, hw, hold, hnew⟩
    exact ⟨value, w₁, old, hw, (hread value w₁ hw) ▸ hold, hnew⟩
  · rintro ⟨value, w₁, old, hw, hold, hnew⟩
    exact ⟨value, w₁, old, hw, (hread value w₁ hw).symm ▸ hold, hnew⟩

end

/-! ## outcomes -/

section

variable {σ : Type} {c : Context σ} {engine : Engine} {e f g : Expression}

/-- Texts of which one compiles exactly when the other does, to an expression of the same type, and
that succeed together when they are run, with the same outcome: the value, the context after the run
and the calls. -/
structure Engine.Interchangeable (engine : Engine) (text text' : String) (r : Registry)
    (c : Context σ) : Prop where
  compiles : (∃ f, engine.compile text r = .ok f) ↔ ∃ g, engine.compile text' r = .ok g
  type : ∀ f g, engine.compile text r = .ok f → engine.compile text' r = .ok g →
    f.resultType = g.resultType
  succeeds : ∀ f g, engine.compile text r = .ok f → engine.compile text' r = .ok g →
    ((∃ u, (engine.run f c).result = .ok u) ↔ ∃ u, (engine.run g c).result = .ok u)
  outcome : ∀ f g, engine.compile text r = .ok f → engine.compile text' r = .ok g →
    ∀ u, (engine.run f c).result = .ok u → engine.run f c = engine.run g c

theorem Machine.toggled?_of_binary {t : Tree} {o : Origin} {b : BinaryOp} {l n : Tree}
    (h : t.bare = (Tree.binary o b l n).bare) : toggled? r t = none := by
  unfold toggled?
  rw [Tree.singleVariable?_congr h]
  split <;> rfl

section

variable (hbare : f.expr.tree.bare = (Tree.compounded op x e.expr.tree).bare)
include hbare

theorem resultType_compounded (hf : f.Compiled r) (he : e.Compiled r)
    (hx : r.variableAt? x = some v) : f.resultType = v.type := by
  obtain ⟨_, ht, -⟩ := he.whole
  obtain ⟨ty, hty, hresult⟩ := hf.whole
  obtain ⟨-, u, -, rfl⟩ := (hasTyping_compounded hx ht).1 (hty.congr hbare)
  exact hresult.symm

theorem run_compounded (hf : f.Compiled c.registry) (room : engine.limits.Spacious e.expr.tree) :
    engine.run f c = f.outcome c := by
  have hvalues := room.values
  refine hf.run_eq (Machine.toggled?_of_binary hbare) ?_
  rw [Tree.demand_congr hbare, Tree.demand_compounded]
  omega

end

section

variable (hbare : g.expr.tree.bare = (Tree.expanded op x e.expr.tree).bare)
include hbare

theorem resultType_expanded (hg : g.Compiled r) (he : e.Compiled r)
    (hx : r.variableAt? x = some v) : g.resultType = v.type := by
  obtain ⟨_, ht, -⟩ := he.whole
  obtain ⟨ty, hty, hresult⟩ := hg.whole
  obtain ⟨-, u, -, rfl⟩ := (hasTyping_expanded hx ht).1 (hty.congr hbare)
  exact hresult.symm

theorem run_expanded (hg : g.Compiled c.registry) (room : engine.limits.Spacious e.expr.tree) :
    engine.run g c = g.outcome c := by
  have hvalues := room.values
  refine hg.run_eq (Machine.toggled?_of_binary hbare) ?_
  rw [Tree.demand_congr hbare, Tree.demand_expanded]
  omega

end
end

/-- `x op= (e)` and `x = x op (e)` are interchangeable in every state of a context that declares
`x`, if `e` compiles and neither an assignment in it nor a callback that it calls writes the cell of
`x`. The limits must leave room for the longer text and its tree. -/
theorem compound_interchangeable {σ : Type} {memory : σ} {c₀ c : Context σ}
    (h₀ : (Context.empty memory).Reaches c₀) (h : c₀.Reaches c) {compiler engine : Engine}
    {e : Expression} (hc : compiler.compile source c₀.registry = .ok e)
    (hx : c₀.registry.variableAt? x = some v)
    (hfree : ∀ y ∈ e.expr.tree.targets, ¬ c.state.Shares x y)
    (hhost : ¬ engine.HostSets e c x) (room : engine.limits.Spacious e.expr.tree)
    (hlength : Text.byteLength (op.expandedText v.name source).toList ≤ Span.maxOffset) :
    engine.Interchangeable (op.text v.name source) (op.expandedText v.name source)
      c₀.registry c := by
  have hdeclared : c₀.registry.Declared := h₀.declared .empty
  have hshort := reads_text hdeclared hx hc room ((op.length_text_le _ _).trans hlength)
  have hlong := reads_expandedText hdeclared hx hc room hlength
  have he : e.Compiled c₀.registry := compile_ok hdeclared hc
  have hvalues := room.values
  have hmeaning : ∀ f g, engine.compile (op.text v.name source) c₀.registry = .ok f →
      engine.compile (op.expandedText v.name source) c₀.registry = .ok g → ∀ u w,
        f.meaning c = (.ok u, w) ↔ g.meaning c = (.ok u, w) := fun f g hf hg u w =>
    meaning_compounded_iff (h₀.compiled h hf) (h₀.compiled h hg) (h₀.compiled h hc)
      (hshort.tree f hf) (hlong.tree g hg) (h.extends.variableAt? hx) (by omega) hfree hhost
  refine ⟨?_, fun f g hf hg => ?_, fun f g hf hg => ?_, fun f g hf hg u hu => ?_⟩
  · obtain ⟨ty, ht, -⟩ := he.whole
    rw [hshort.compiles, hlong.compiles]
    exact typable_compounded_iff hx ht
  · rw [resultType_compounded (hshort.tree f hf) (compile_ok hdeclared hf) he hx,
      resultType_expanded (hlong.tree g hg) (compile_ok hdeclared hg) he hx]
  · rw [run_compounded (hshort.tree f hf) (h₀.compiled h hf) room,
      run_expanded (hlong.tree g hg) (h₀.compiled h hg) room]
    constructor
    · rintro ⟨u, hu⟩
      have hsame := Expression.outcome_congr (fun u w => (hmeaning f g hf hg u w).1) hu
      exact ⟨u, hsame ▸ hu⟩
    · rintro ⟨u, hu⟩
      have hsame := Expression.outcome_congr (fun u w => (hmeaning f g hf hg u w).2) hu
      exact ⟨u, hsame ▸ hu⟩
  · rw [run_compounded (hshort.tree f hf) (h₀.compiled h hf) room] at hu ⊢
    rw [run_expanded (hlong.tree g hg) (h₀.compiled h hg) room]
    exact Expression.outcome_congr (fun u w => (hmeaning f g hf hg u w).1) hu

/-! ## samples -/

/-- An evaluation that succeeds compiles its text and runs it. -/
theorem Engine.evaluate_ok {σ : Type} {engine : Engine} {source : String} {c : Context σ}
    {u : Value} (h : (engine.evaluate source c).result = .ok u) :
    ∃ e, engine.compile source c.registry = .ok e ∧ (engine.run e c).result = .ok u := by
  unfold evaluate at h
  split at h
  · rename_i e he
    exact ⟨e, he, h⟩
  · cases h

/-- The two spellings differ where `e` assigns to another variable of the cell of `x`: the one reads
`x` after that assignment, the other before it. -/
theorem compound_disturbed :
    (Context.empty ()).Reaches sharedContext ∧
      ({} : Engine).compile storingSource sharedContext.registry = .ok storingExpression ∧
      sharedContext.registry.variableAt? 0 = some ⟨"x", .int ⟨true, .w32⟩, false, true⟩ ∧
      0 ∉ storingExpression.expr.tree.targets ∧
      ¬ ({} : Engine).HostSets storingExpression sharedContext 0 ∧
      ({} : Engine).limits.Spacious storingExpression.expr.tree ∧
      ¬ ({} : Engine).Interchangeable (CompoundOp.text .add "x" storingSource)
        (CompoundOp.expandedText .add "x" storingSource) sharedContext.registry sharedContext := by
  have htext : (({} : Engine).evaluate (CompoundOp.text .add "x" storingSource)
      sharedContext).result = .ok (.int (.wrap ⟨true, .w32⟩ 6)) := by decide +kernel
  have hexpanded : (({} : Engine).evaluate (CompoundOp.expandedText .add "x" storingSource)
      sharedContext).result = .ok (.int (.wrap ⟨true, .w32⟩ 4)) := by decide +kernel
  refine ⟨reaches_shared, compile_storing, rfl, by decide, Engine.not_hostSets_of_silent nofun,
    ⟨by decide, by decide, by decide, by decide⟩, fun h => ?_⟩
  obtain ⟨f, hf, hfrun⟩ := Engine.evaluate_ok htext
  obtain ⟨g, hg, hgrun⟩ := Engine.evaluate_ok hexpanded
  rw [h.outcome f g hf hg _ hfrun, hgrun] at hfrun
  exact absurd (Except.ok.inj hfrun) (by decide)

/-- A source that reads `x` and calls `f`. -/
def readingSource : String := "f(1) ? 2 : x"

/-- The tokens of that source. -/
def readingTokens : List Token :=
  [⟨.identifier, ⟨0, 1⟩⟩, ⟨.parenthesis, ⟨1, 2⟩⟩, ⟨.number, ⟨2, 3⟩⟩, ⟨.parenthesis, ⟨3, 4⟩⟩,
   ⟨.operator, ⟨5, 6⟩⟩, ⟨.number, ⟨7, 8⟩⟩, ⟨.operator, ⟨9, 10⟩⟩, ⟨.identifier, ⟨11, 12⟩⟩]

/-- The source with the types of its parts. -/
def readingExpression : Expression where
  expr :=
    ⟨.choice ⟨3, 4, ⟨5, 6⟩⟩
      (.call ⟨2, 0, ⟨0, 4⟩⟩ 0
        [.constant ⟨0, 2, ⟨2, 3⟩⟩ (.int (.wrap ⟨false, .w8⟩ 1)),
         .constant ⟨1, 3, ⟨3, 4⟩⟩ (.bool true)])
      (.constant ⟨4, 5, ⟨7, 8⟩⟩ (.int (.wrap ⟨false, .w8⟩ 2)))
      (.reference ⟨5, 7, ⟨11, 12⟩⟩ 0), 6⟩
  types :=
    ⟨[.same (.int ⟨false, .w8⟩), .same .bool, .same .bool, .same (.int ⟨true, .w64⟩),
      .same (.int ⟨false, .w8⟩), .same (.int ⟨true, .w32⟩)], .int ⟨true, .w64⟩⟩

theorem tokenize_reading : tokenize readingSource = .ok readingTokens := by decide +kernel

set_option maxRecDepth 10000 in
theorem parse_reading :
    parse ⟨readingSource.toList, readingTokens⟩ sampleRegistry {} = .ok readingExpression.expr := rfl

theorem compile_reading :
    ({} : Engine).compile readingSource sampleContext.registry = .ok readingExpression := by
  rw [Engine.compile_of_tokenize _ tokenize_reading]
  show (do
    let expr ← liftError .parse (parse ⟨readingSource.toList, readingTokens⟩ sampleRegistry {})
    let types ← liftError .type (check expr sampleRegistry)
    return (⟨expr, types⟩ : Expression)) = .ok readingExpression
  rw [parse_reading]
  rfl

theorem compound_interchangeable_sample :
    ({} : Engine).Interchangeable "x -= (f(1) ? 2 : x)" "x = x - (f(1) ? 2 : x)" sampleRegistry
        (sampleContext.setVariable 0 (.string "y")) ∧
      ({} : Engine).Interchangeable "w += (y = 3)" "w = w + (y = 3)" sharedRegistry
        sharedContext := by
  have hhost : ¬ ({} : Engine).HostSets readingExpression
      (sampleContext.setVariable 0 (.string "y")) 0 := by
    refine Engine.not_hostSets_of_silent fun callback hcallback _ _ _ => ?_
    rw [List.mem_singleton.1 hcallback]
  have hx : sampleContext.registry.variableAt? 0 = some ⟨"x", .int ⟨true, .w32⟩, false, false⟩ :=
    rfl
  have hw : sharedContext.registry.variableAt? 3 = some ⟨"w", .int ⟨true, .w32⟩, false, false⟩ :=
    rfl
  have htext : CompoundOp.text .sub "x" readingSource = "x -= (f(1) ? 2 : x)" ∧
      CompoundOp.text .add "w" storingSource = "w += (y = 3)" := by
    decide +kernel
  have hexpanded : CompoundOp.expandedText .sub "x" readingSource = "x = x - (f(1) ? 2 : x)" ∧
      CompoundOp.expandedText .add "w" storingSource = "w = w + (y = 3)" := by
    decide +kernel
  have hlength :
      Text.byteLength (CompoundOp.expandedText .sub "x" readingSource).toList ≤ Span.maxOffset ∧
      Text.byteLength (CompoundOp.expandedText .add "w" storingSource).toList ≤
        Span.maxOffset := by
    decide +kernel
  have hroom : ({} : Engine).limits.Spacious readingExpression.expr.tree :=
    ⟨by decide, by decide, by decide, by decide⟩
  have hroom' : ({} : Engine).limits.Spacious storingExpression.expr.tree :=
    ⟨by decide, by decide, by decide, by decide⟩
  have hsame := compound_interchangeable reaches_sample
    (.single (.setVariable sampleContext 0 (.string "y"))) compile_reading hx (by decide) hhost
    hroom hlength.1
  have hsame' := compound_interchangeable reaches_shared .refl compile_storing hw (by decide)
    (Engine.not_hostSets_of_silent nofun) hroom' hlength.2
  rw [htext.1, hexpanded.1] at hsame
  rw [htext.2, hexpanded.2] at hsame'
  exact ⟨hsame, hsame'⟩

end ExprEngine
