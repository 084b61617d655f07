import ExprEngine.Proofs.Engine
import ExprEngine.Proofs.Unfolding

/-!
# What the checker keeps from the machine

Whatever table an expression is read from, a run of it that was checked fails inside the engine at
one kind of part only: a call that passes more or fewer arguments than its function declares. The
checker compares the types of arguments, not their number.

* `Machine.StopsAt`         an error at such a call;
* `Machine.run_course`      a run is safe, or stops there;
* `Arena.UnfitCall`         such a call in a table;
* `check_guards`            internal failures of checked expressions;
* `check_admits_unfit_call` the checker lets such a call pass.
-/

namespace ExprEngine

theorem EvalCause.Expected.not_internal {c : EvalCause} (h : c.Expected) :
    c.isInternal = false := by
  cases c with
  | unbalancedStack => exact h.elim
  | uncheckedOperand => exact h.elim
  | _ => rfl

namespace Machine

variable {σ : Type} {m : Machine σ} {t : Tree} {ty : Typing} {ts : List Tree} {o : Origin}
  {s : ValueStack} {w : World σ} {S T : List ValueType}

/-- An error at a call in a list that does not pass what its function declares. -/
def StopsAt (r : Registry) (ts : List Tree) (e : EvalError) : Prop :=
  ∃ t ∈ ts, ¬ t.FullCall r ∧ e.part = some t.id

theorem arguments_unfit {f : FuncId} {args : List Tree}
    (h : ¬ (Tree.call o f args).FullCall m.registry) :
    ∃ e, m.arguments o f args.length s = .error e ∧ e.part = some o.id := by
  unfold arguments
  by_cases hshort : s.length < args.length
  · refine ⟨_, bind_eq_error.2 (.inl (if_pos hshort)), rfl⟩
  · have hpop : popMany o args.length s =
        .ok ((s.take args.length).reverse, s.drop args.length) := if_neg hshort
    rw [hpop, ok_bind]
    dsimp only
    cases hf : m.registry.functionAt? f with
    | none => exact ⟨_, rfl, rfl⟩
    | some sig =>
      have hcount : (s.take args.length).reverse.length ≠ sig.arity := by
        rw [List.length_reverse, List.length_take_of_le (Nat.le_of_not_lt hshort)]
        exact fun hcount => h ⟨sig, hf, hcount⟩
      exact ⟨_, if_pos hcount, rfl⟩

/-- A call that does not pass what its function declares is not made. -/
theorem step_unfit (h : ¬ t.FullCall m.registry) :
    ∃ e, m.step t s w = (.error e, w) ∧ e.part = some t.id := by
  cases t with
  | call o f args =>
    obtain ⟨e, he, hpart⟩ := arguments_unfit h (s := s)
    refine ⟨e, ?_, hpart⟩
    unfold step
    dsimp only
    rw [he]
  | _ => exact absurd trivial h

/-- A run has the effect of its parts, fails for an expected reason, or stops at an unfit call. -/
theorem run_course (h : m.Course ts S T) (hs : s.map Value.type = S) :
    Safely (m.run ts s w).1 (fun s' => s'.map Value.type = T) ∨
      ∃ e, (m.run ts s w).1 = .error e ∧ StopsAt m.registry ts e := by
  induction h generalizing s w with
  | nil => exact .inl (.ok hs)
  | cons part _ ih =>
    rcases step_safe part hs with ⟨s', hstep, hs'⟩ | ⟨e, hstep, he⟩
    · rw [run_cons_ok hstep]
      rcases ih hs' with hsafe | ⟨e, hrun, t, ht, hunfit⟩
      · exact .inl hsafe
      · exact .inr ⟨e, hrun, t, List.mem_cons_of_mem _ ht, hunfit⟩
    · rw [run_cons_error hstep]
      exact .inl (.error he)
  | stop unfit =>
    obtain ⟨e, hstep, hpart⟩ := step_unfit unfit (s := s) (w := w)
    rw [run_cons_error (congrArg Prod.fst hstep)]
    exact .inr ⟨e, rfl, _, List.mem_cons_self .., unfit, hpart⟩

/-- A typed tree has a value of its type, fails for an expected reason, or stops at an unfit
call. -/
theorem evaluate_course (ht : HasTyping m.registry t ty) (h : m.Knows t.nodes) :
    Safely (m.evaluate t w).1 (fun v => v.type = ty.result) ∨
      ∃ e, (m.evaluate t w).1 = .error e ∧ StopsAt m.registry t.nodes e := by
  cases htoggle : toggled? m.registry t with
  | none =>
    rw [evaluate_eq_run htoggle]
    rcases run_course (w := w) (course_schedule ht h) rfl with hsafe | ⟨e, hrun, n, hn, hunfit⟩
    · exact .inl (hsafe.bind fun s hs => result_safe hs)
    · refine .inr ⟨e, bind_eq_error.2 (.inl hrun), n, Tree.mem_nodes_of_mem_schedule hn, hunfit⟩
  | some p =>
    -- a toggled variable has no calls below it
    refine .inl (evaluate_safe ht fun n hn => ⟨h n hn, ?_⟩)
    obtain ⟨⟨o, rfl⟩, -⟩ := toggled?_ok htoggle
    obtain rfl := List.mem_singleton.1 hn
    trivial

end Machine

/-! ## tables -/

/-- A call below a root that passes more or fewer arguments than its function declares. -/
def Arena.UnfitCall (a : Arena) (root : PartId) (r : Registry) (id : PartId) : Prop :=
  ∃ path p f args, a.follow? root path = some id ∧ a.part? id = some p ∧
    p.kind = .call f args ∧ ∀ s, r.functionAt? f = some s → args.length ≠ s.arity

section
variable {σ : Type} {a : Arena} {root : PartId} {r : Registry} {types : TypeTable}

/-- Such a part of the tree comes from such a call in the table. -/
theorem unfitCall_of_mem {n : Tree} (hn : n ∈ (a.tree root).nodes) (h : ¬ n.FullCall r) :
    a.UnfitCall root r n.id := by
  obtain ⟨path, d, p, hpath, hp, hread⟩ := Arena.exists_entry_of_mem hn
  rw [Arena.unfold_some hp] at hread
  rw [hread] at h
  refine ⟨path, p, ?_⟩
  obtain ⟨kind, token, span⟩ := p
  cases kind with
  | call f args =>
    refine ⟨f, args, hpath, hp, rfl, fun s hs hcount => h ⟨s, hs, ?_⟩⟩
    rw [List.length_map]
    exact hcount
  | operator op slots => cases op <;> exact absurd trivial h
  | _ => exact absurd trivial h

/-- What is checked is typed, and the table of types knows every part. -/
theorem typing_of_check_tree (h : check (a.expr root) r = .ok types) :
    (∀ n ∈ (a.tree root).nodes, HasTyping r n (types.typing n.id)) ∧
      ∃ ty, HasTyping r (a.tree root) ty ∧ ty.result = types.root := by
  obtain ⟨d, hd, -⟩ := map_eq_ok.1 h
  obtain ⟨ty, hty, -⟩ := checkTree_ok hd
  exact typing_of_check (e := a.expr root) (Arena.numbered_tree hty.complete) h

/-- An expression that was checked against a context, read from any table and evaluated there,
fails inside the engine only at a call that passes more or fewer arguments than its function
declares. -/
theorem check_guards {c : Context σ} {limits : Limits} {err : EvalError}
    (checked : check (a.expr root) c.registry = .ok types)
    (failed : (evaluate (a.expr root) types c limits).result = .error err)
    (internal : err.cause.isInternal = true) :
    ∃ id, err.part = some id ∧ a.UnfitCall root c.registry id := by
  obtain ⟨hparts, ty, hty, -⟩ := typing_of_check_tree checked
  let m : Machine σ := ⟨c.registry, c.callbacks, types, limits.maxValues⟩
  have hknows : m.Knows (a.tree root).nodes := hparts
  have hresult : (m.evaluate (a.tree root) { state := c.state }).1 = .error err := failed
  rcases Machine.evaluate_course (m := m) (w := { state := c.state }) hty hknows with
    hsafe | ⟨e, he, n, hn, hunfit, hpart⟩
  · rw [hresult] at hsafe
    rcases hsafe with ⟨v, hv, -⟩ | ⟨e, he, hexpected⟩
    · cases hv
    · cases he
      rw [hexpected.not_internal] at internal
      cases internal
  · rw [hresult] at he
    cases he
    exact ⟨n.id, hpart, unfitCall_of_mem hn hunfit⟩

end

/-- A table with a single part, the function `f` of the sample called with none of its two
arguments. -/
def unfitTable : Arena := ⟨[⟨.call 0 [], 0, .zero⟩]⟩

theorem check_guards_sample :
    ∃ id, some 0 = some id ∧ unfitTable.UnfitCall 0 sampleContext.registry id :=
  @check_guards Unit unfitTable 0 ⟨[.same .bool], .bool⟩ sampleContext {}
    ⟨.uncheckedOperand, some 0, .zero⟩ rfl rfl rfl

theorem unfitTable_acyclic : unfitTable.Acyclic 0 := by
  intro id path cycle _ hcycle
  have hleaf : unfitTable.childrenOf id = [] := by
    rcases id with _ | id
    · rfl
    · rfl
  cases cycle with
  | nil => rfl
  | cons i cycle =>
    obtain ⟨child, hchild, -⟩ := Arena.follow?_cons.1 hcycle
    rw [hleaf] at hchild
    cases hchild

/-- Checking is no guard by itself, not even where the table is a tree. -/
theorem check_admits_unfit_call :
    ¬ ∀ (a : Arena) (root : PartId) (c : Context Unit) (limits : Limits) (types : TypeTable)
      (err : EvalError), a.Acyclic root → root < a.size →
      (∀ p ∈ a.parts, ∀ child ∈ p.kind.children, child < a.size) →
      check (a.expr root) c.registry = .ok types →
      (evaluate (a.expr root) types c limits).result = .error err →
      err.cause.isInternal = false := by
  intro h
  have hinside : ∀ p ∈ unfitTable.parts, ∀ child ∈ p.kind.children, child < unfitTable.size := by
    intro p hp child hchild
    obtain rfl := List.mem_singleton.1 hp
    cases hchild
  have hinternal := h unfitTable 0 sampleContext {} ⟨[.same .bool], .bool⟩
    ⟨.uncheckedOperand, some 0, .zero⟩ unfitTable_acyclic (by decide) hinside rfl rfl
  cases hinternal

end ExprEngine
