import ExprEngine.Proofs.Refinement

/-!
# The demand of a tree is exact

Every operand leaves one value, on which the next one is evaluated. So the stack of a run that
succeeds has been as high as the tree demands, and a lower bound would have stopped the run.

* `Tree.schedule_eq`       a part is executed after its evaluated operands;
* `Machine.run_height`     a tree leaves one value more on the stack;
* `Machine.run_demand`     a run that succeeds had room for what the tree demands;
* `demand_exact`           what is demanded is enough, and needed.
-/

namespace ExprEngine

/-! ## trees -/

namespace Tree

variable {t : Tree}

theorem demand_eq (h : t.Complete) : t.demand = max 1 (demandAll t.evaluated) := by
  have hpos : ∀ x ∈ t.operands, 0 < x.demand := fun x hx => demand_pos (h.operands x hx)
  cases t with
  | hole => exact h.elim
  | constant => rfl
  | reference => rfl
  | call => rfl
  | binary o op l x =>
    have hl : 0 < l.demand := hpos l (by simp [operands])
    have hx : 0 < x.demand := hpos x (by simp [operands])
    rw [demand, evaluated]
    split
    · simp only [demandAll]
      omega
    · simp only [demandAll]
      omega
  | choice o c y n =>
    have hn : 0 < n.demand := hpos n (by simp [operands])
    simp only [demand, evaluated, operands, demandAll]
    omega
  | _ =>
    have hx := hpos _ (List.mem_singleton_self _)
    simp only [demand, evaluated, operands, demandAll]
    omega

/-- A part is executed after its evaluated operands. -/
theorem schedule_eq (h : t.Complete) : t.schedule = scheduleAll t.evaluated ++ [t] := by
  cases t with
  | hole => exact h.elim
  | binary o op l x =>
    have hl : l.isHole = false := h.1.isHole
    rw [schedule, evaluated, hl]
    split
    · simp [scheduleAll]
    · simp [scheduleAll]
  | _ => simp [schedule, evaluated, operands, scheduleAll]

end Tree

/-! ## runs -/

namespace Machine

variable {σ : Type} {m : Machine σ} {t : Tree} {ts us : List Tree} {s s' : ValueStack}
  {w w' : World σ}

theorem run_append_ok (h : m.run (ts ++ us) s w = (.ok s', w')) :
    ∃ s₁ w₁, m.run ts s w = (.ok s₁, w₁) ∧ m.run us s₁ w₁ = (.ok s', w') := by
  induction ts generalizing s w with
  | nil => exact ⟨s, w, rfl, h⟩
  | cons t ts ih =>
    cases hstep : (m.step t s w).1 with
    | error e =>
      rw [List.cons_append, run_cons_error hstep] at h
      cases h
    | ok s₁ =>
      rw [List.cons_append, run_cons_ok hstep] at h
      rw [run_cons_ok hstep]
      exact ih h

/-- A tree leaves one value more on the stack. -/
theorem run_height (ht : t.Complete) (h : m.Accepts t.nodes)
    (hrun : m.run t.schedule s w = (.ok s', w')) : s'.length = s.length + 1 := by
  have htyping := (h t (Tree.mem_nodes_self ht.isHole)).1
  have hsafe := run_safe (w := w) (flow_schedule htyping h) (rfl : s.map Value.type = _)
  rw [hrun] at hsafe
  have hlength := congrArg List.length hsafe.of_ok
  rwa [List.length_cons, List.length_map, List.length_map] at hlength

/-- A run that got through some trees had room for what they demand, one after the other. -/
theorem run_demandAll (complete : ∀ x ∈ ts, x.Complete) (h : ∀ x ∈ ts, m.Accepts x.nodes)
    (ih : ∀ x ∈ ts, ∀ {s s' w w'}, s.length ≤ m.maxValues →
      m.run x.schedule s w = (.ok s', w') → s.length + x.demand ≤ m.maxValues)
    (hs : s.length ≤ m.maxValues) (hrun : m.run (scheduleAll ts) s w = (.ok s', w')) :
    s.length + demandAll ts ≤ m.maxValues := by
  induction ts generalizing s w with
  | nil => exact hs
  | cons x ts ihs =>
    obtain ⟨complete, hcomplete⟩ := List.forall_mem_cons.1 complete
    obtain ⟨hx, hts⟩ := List.forall_mem_cons.1 h
    rw [scheduleAll] at hrun
    obtain ⟨s₁, w₁, hfirst, hrest⟩ := run_append_ok hrun
    have hroom : s.length + x.demand ≤ m.maxValues := ih x (List.mem_cons_self ..) hs hfirst
    -- the rest runs on one value more
    have hheight : s₁.length = s.length + 1 := run_height complete hx hfirst
    have hbelow : s₁.length + demandAll ts ≤ m.maxValues :=
      ihs hcomplete hts (fun y hy => ih y (List.mem_cons_of_mem _ hy)) (length_run hfirst hs) hrest
    rw [demandAll]
    omega

/-- A run that got through a tree had room for what it demands. -/
theorem run_demand (ht : t.Complete) (h : m.Accepts t.nodes) (hs : s.length ≤ m.maxValues)
    (hrun : m.run t.schedule s w = (.ok s', w')) : s.length + t.demand ≤ m.maxValues := by
  induction t using Tree.operand_induction generalizing s s' w w' with
  | part t ih =>
    have hoperand : ∀ x ∈ t.evaluated, x ∈ t.operands := fun _ hx =>
      t.evaluated_sublist.subset hx
    have hcomplete : ∀ x ∈ t.operands, x.Complete := ht.operands
    have haccepts : ∀ x ∈ t.operands, m.Accepts x.nodes := fun x hx n hn =>
      h n (Tree.mem_nodes_of_operand hx hn)
    have hheight : s'.length = s.length + 1 := run_height ht h hrun
    have hlength : s'.length ≤ m.maxValues := length_run hrun hs
    rw [Tree.schedule_eq ht] at hrun
    obtain ⟨s₁, w₁, hbelow, -⟩ := run_append_ok hrun
    have hroom : s.length + demandAll t.evaluated ≤ m.maxValues :=
      run_demandAll (fun x hx => hcomplete x (hoperand x hx))
        (fun x hx => haccepts x (hoperand x hx))
        (fun x hx _ _ _ _ => ih x (hoperand x hx) (hcomplete x (hoperand x hx))
          (haccepts x (hoperand x hx))) hs hbelow
    rw [Tree.demand_eq ht]
    omega

/-- The interactive shortcut needs no room. -/
theorem toggled_not_overflows {p : VarId × Variable} (h : toggled? m.registry t = some p) :
    ¬ Overflows (m.evaluate t w).1 := by
  rintro ⟨e, max, he, hcause⟩
  unfold evaluate toggle readBinding at he
  rw [h] at he
  dsimp only at he
  cases hread : (w.state.value p.1).cast? p.2.type with
  | none =>
    rw [hread] at he
    cases he
    cases hcause
  | some u =>
    rw [hread] at he
    cases he

/-- An evaluation that computes a value had room for what the tree demands. -/
theorem evaluate_demand {v : Value} (ht : t.Complete) (h : m.Accepts t.nodes)
    (plain : toggled? m.registry t = none) (hv : (m.evaluate t w).1 = .ok v) :
    t.demand ≤ m.maxValues := by
  rw [evaluate_eq_run plain] at hv
  obtain ⟨s, hs, -⟩ := bind_eq_ok.1 hv
  have hrun : m.run t.schedule [] w = (.ok s, (m.run t.schedule [] w).2) := Prod.ext hs rfl
  have hroom := run_demand ht h (Nat.zero_le _) hrun
  rwa [List.length_nil, Nat.zero_add] at hroom

end Machine

/-! ## expressions -/

section
variable {σ : Type} {e : Expression} {c : Context σ} {engine : Engine}

/-- Room for what the tree demands is enough, whether the interactive shortcut applies or not. -/
theorem Expression.Compiled.not_overflows_of_demand (h : e.Compiled c.registry)
    (room : e.expr.tree.demand ≤ engine.limits.maxValues) : ¬ engine.Overflows e c := by
  cases htoggle : Machine.toggled? c.registry e.expr.tree with
  | none => exact h.not_overflows htoggle room
  | some p =>
    rintro ⟨err, max, herr, hcause⟩
    rw [engine.run_result] at herr
    cases hresult : ((engine.machine e c).evaluate e.expr.tree ⟨c.state, []⟩).1 with
    | ok v =>
      rw [hresult] at herr
      cases herr
    | error err' =>
      rw [hresult] at herr
      cases herr
      exact Machine.toggled_not_overflows (m := engine.machine e c) htoggle
        ⟨err, max, hresult, hcause⟩

/-- Whatever room a run of a compiled expression is given: as much as its tree demands keeps it
from overflowing, and a run that computes a value has had as much. -/
theorem demand_exact {memory : σ} {c₀ : Context σ} (h₀ : (Context.empty memory).Reaches c₀)
    (h : c₀.Reaches c) {compiler : Engine} {source : String}
    (hc : compiler.compile source c₀.registry = .ok e) :
    (e.expr.tree.demand ≤ engine.limits.maxValues → ¬ engine.Overflows e c) ∧
      (Machine.toggled? c.registry e.expr.tree = none → ∀ v, (engine.run e c).result = .ok v →
        e.expr.tree.demand ≤ engine.limits.maxValues) := by
  have hcompiled : e.Compiled c.registry := h₀.compiled h hc
  refine ⟨hcompiled.not_overflows_of_demand, fun plain v hv => ?_⟩
  rw [engine.run_result] at hv
  exact Machine.evaluate_demand (m := engine.machine e c) hcompiled.complete hcompiled.parts plain
    (liftError_eq_ok hv)

end

/-- The sample computes a value with room for three, which it demands, and none with room for
two. -/
theorem demand_exact_sample :
    let room (n : Nat) : Engine := ⟨{ maxValues := n }⟩
    (∃ v, ((room 3).run sampleExpression sampleContext).result = .ok v) ∧
      sampleExpression.expr.tree.demand ≤ 3 ∧
      ¬ (room 3).Overflows sampleExpression sampleContext ∧
      ∀ v, ((room 2).run sampleExpression sampleContext).result ≠ .ok v := by
  intro room
  have hrun : ∃ v, ((room 3).run sampleExpression sampleContext).result = .ok v := ⟨_, rfl⟩
  obtain ⟨v, hv⟩ := hrun
  have hthree : (_ → ¬ (room 3).Overflows sampleExpression sampleContext) ∧ _ :=
    demand_exact reaches_sample .refl compile_sample
  have htwo : (_ → ¬ (room 2).Overflows sampleExpression sampleContext) ∧ _ :=
    demand_exact reaches_sample .refl compile_sample
  refine ⟨⟨v, hv⟩, hthree.2 rfl v hv, hthree.1 (by decide), fun u hu => ?_⟩
  have hdemand : sampleExpression.expr.tree.demand ≤ 2 := htwo.2 rfl u hu
  exact absurd hdemand (by decide)

end ExprEngine
