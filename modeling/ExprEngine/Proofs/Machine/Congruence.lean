import ExprEngine.Proofs.Machine.Likeness
import ExprEngine.Proofs.Machine.Schedule
import ExprEngine.Proofs.Typing.Placement

/-!
# Typed trees that differ in their origins

Such trees have the same types in all their parts, whatever tables hold them, so they are evaluated
alike.

* `demand_congr`       the same room;
* `schedule_congr`     the same schedule, origins apart;
* `eval_congr`         the same value, if there is one.
-/

namespace ExprEngine

variable {σ : Type}

namespace Tree

variable {t t' : Tree} {f : Origin → Origin}

mutual

theorem demand_mapOrigin : ∀ t : Tree, (t.mapOrigin f).demand = t.demand
  | .hole => by simp [demand]
  | .constant _ _ => by simp [demand]
  | .reference _ _ => by simp [demand]
  | .unary _ _ x => by simp [demand, demand_mapOrigin x]
  | .binary _ _ l x => by simp [demand, demand_mapOrigin l, demand_mapOrigin x]
  | .choice _ c y n => by
    simp [demand, demand_mapOrigin c, demand_mapOrigin y, demand_mapOrigin n]
  | .cast _ _ x => by simp [demand, demand_mapOrigin x]
  | .group _ x => by simp [demand, demand_mapOrigin x]
  | .call _ _ args => by simp [demand, demandAll_mapOrigin args]

theorem demandAll_mapOrigin : ∀ ts : List Tree, demandAll (ts.map (mapOrigin f)) = demandAll ts
  | [] => rfl
  | t :: ts => by
    rw [List.map_cons, demandAll, demandAll, demand_mapOrigin t, demandAll_mapOrigin ts]

end

theorem demand_congr (h : t.bare = t'.bare) : t.demand = t'.demand := by
  have hdemand := congrArg demand h
  rwa [bare, bare, demand_mapOrigin, demand_mapOrigin] at hdemand

theorem schedule_congr (h : t.bare = t'.bare) :
    List.Forall₂ (fun n n' => n.bare = n'.bare) t.schedule t'.schedule := by
  have hschedule := congrArg schedule h
  rw [bare, bare, schedule_mapOrigin, schedule_mapOrigin, ← List.forall₂_eq_eq_eq] at hschedule
  exact List.forall₂_map_right_iff.1 (List.forall₂_map_left_iff.1 hschedule)

end Tree

namespace Machine

variable {t t' : Tree} {r : Registry} {types types' : TypeTable} {callbacks : List (Callback σ)}

/-- Parts of typed trees that differ in their origins have the same types. -/
theorem alike_schedule (h : t.bare = t'.bare)
    (ht : ∀ n ∈ t.nodes, HasTyping r n (types.typing n.id))
    (ht' : ∀ n ∈ t'.nodes, HasTyping r n (types'.typing n.id)) :
    List.Forall₂ (Alike EvalError.cause types types') t.schedule t'.schedule := by
  obtain ⟨hlength, hzip⟩ := List.forall₂_iff_zip.1 (Tree.schedule_congr h)
  refine List.forall₂_iff_zip.2 ⟨hlength, fun {n n'} hmem => ?_⟩
  obtain ⟨hn, hn'⟩ := List.of_mem_zip hmem
  have htyping := ht n (Tree.mem_nodes_of_mem_schedule hn)
  have htyping' := ht' n' (Tree.mem_nodes_of_mem_schedule hn')
  exact ⟨hzip hmem, fun _ => rfl, (htyping.congr (hzip hmem)).unique htyping'⟩

/-- Typed trees that differ in their origins succeed together, with the same value. -/
theorem eval_congr (h : t.bare = t'.bare) (hcomplete : t.Complete) (hcomplete' : t'.Complete)
    (ht : ∀ n ∈ t.nodes, HasTyping r n (types.typing n.id))
    (ht' : ∀ n ∈ t'.nodes, HasTyping r n (types'.typing n.id)) {w w' : World σ} {v : Value} :
    t.eval ⟨r, callbacks, types⟩ w = (.ok v, w') ↔
      t'.eval ⟨r, callbacks, types'⟩ w = (.ok v, w') := by
  let m : Machine σ := ⟨r, callbacks, types, t.demand⟩
  have hrun : AgreeIn EvalError.cause (m.run t.schedule [] w)
      ((m.retyped types').run t'.schedule [] w) :=
    run_agree (alike_schedule h ht ht') [] w
  have hdemand : t'.demand ≤ (m.retyped types').maxValues :=
    Nat.le_of_eq (Tree.demand_congr h).symm
  calc t.eval m.setting w = (.ok v, w')
      ↔ m.run t.schedule [] w = (.ok [v], w') := (run_schedule_ok hcomplete (Nat.le_refl _)).symm
    _ ↔ (m.retyped types').run t'.schedule [] w = (.ok [v], w') := hrun.ok_iff
    _ ↔ t'.eval (m.retyped types').setting w = (.ok v, w') := run_schedule_ok hcomplete' hdemand

end Machine
end ExprEngine
