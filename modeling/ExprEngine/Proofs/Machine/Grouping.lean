import ExprEngine.Proofs.Bracketing
import ExprEngine.Proofs.Machine.Likeness

/-!
# Groups in a run

A group neither pops nor pushes, so a run without its groups is the same run. What a part does
depends on its own fields and not on the trees of its operands. So the parts of a tree with more
groups in it do one after the other what those of the tree do.

* `Tree.head`            a part without the trees of its operands;
* `run_acting`           a run without the parts that do nothing;
* `run_heads`            a run reads heads only;
* `schedule_explicit`    the parts of a tree with a group around every operand;
* `evaluate_explicit`    its evaluation.
-/

namespace ExprEngine

/-! ## what a part reads -/

namespace Tree

/-- The variable that the target of an assignment consists of, if it does. -/
def targetHead (l : Tree) : Tree :=
  match l.singleVariable? with
  | some x => .reference nowhere x
  | none => .hole

/-- A part without the trees of its operands, but for the variable that an assignment writes. -/
def head : Tree → Tree
  | .hole => .hole
  | .constant o v => .constant o v
  | .reference o x => .reference o x
  | .unary o op _ => .unary o op .hole
  | .binary o op l _ => .binary o op (if op.isAssignment then l.targetHead else .hole) .hole
  | .choice o _ _ _ => .choice o .hole .hole .hole
  | .cast o ty _ => .cast o ty .hole
  | .group o _ => .group o .hole
  | .call o f args => .call o f (args.map fun _ => .hole)

variable {t t' : Tree}

theorem origin_head (t : Tree) : t.head.origin = t.origin := by
  cases t <;> rfl

theorem head_congr (h : t.bare = t'.bare) : t.head.bare = t'.head.bare := by
  cases t with
  | hole => rw [bare_eq_hole h]
  | constant o v =>
    obtain ⟨o', rfl⟩ := bare_eq_constant h
    rfl
  | reference o x =>
    obtain ⟨o', rfl⟩ := bare_eq_reference h
    rfl
  | unary o op x =>
    obtain ⟨o', x', rfl, -⟩ := bare_eq_unary h
    rfl
  | cast o ty x =>
    obtain ⟨o', x', rfl, -⟩ := bare_eq_cast h
    rfl
  | group o x =>
    obtain ⟨o', x', rfl, -⟩ := bare_eq_group h
    rfl
  | choice o c y n =>
    obtain ⟨o', c', y', n', rfl, -⟩ := bare_eq_choice h
    rfl
  | binary o op l x =>
    obtain ⟨o', l', x', rfl, hl, -⟩ := bare_eq_binary h
    rw [head, head, targetHead, targetHead, singleVariable?_congr hl]
    simp [bare]
  | call o f args =>
    obtain ⟨o', args', rfl, hargs⟩ := bare_eq_call h
    have hlength : args.length = args'.length := by
      have hmap := congrArg List.length hargs
      rwa [List.length_map, List.length_map] at hmap
    rw [head, head, List.map_const', List.map_const', hlength]
    simp [bare]

theorem singleVariable?_explicit : t.explicit.singleVariable? = t.singleVariable? := by
  cases t <;> rfl

theorem head_explicit : t.explicit.head = t.head := by
  cases t with
  | binary o op l x =>
    cases assigns : op.isAssignment with
    | true => simp [explicit, head, assigns, targetHead, singleVariable?_explicit]
    | false => simp [explicit, head, assigns]
  | call o f args =>
    rw [explicit, explicitAll_eq, head, head, List.map_const', List.map_const', List.length_map]
  | _ => rfl

end Tree

namespace Machine

variable {σ ε : Type} {m : Machine σ} {t : Tree} {ts : List Tree} {s : ValueStack} {w : World σ}

theorem assignment_targetHead {st : State σ} {o : Origin} {op : BinaryOp} {l : Tree} :
    m.assignment st o op l.targetHead s = m.assignment st o op l s := by
  have htarget : l.targetHead.singleVariable? = l.singleVariable? := by
    rw [Tree.targetHead]
    cases l.singleVariable? <;> rfl
  unfold assignment
  rw [htarget]

/-- The machine reads the head of a part. -/
theorem step_head : m.step t.head s w = m.step t s w := by
  cases t with
  | binary o op l x =>
    unfold Tree.head step
    dsimp only
    split
    · rw [assignment_targetHead]
    · cases op <;> rfl
  | call o f args =>
    unfold Tree.head step
    dsimp only
    rw [List.length_map]
  | _ => rfl

theorem run_heads : m.run (ts.map Tree.head) s w = m.run ts s w := by
  induction ts generalizing s w with
  | nil => rfl
  | cons t ts ih =>
    rw [List.map_cons, run, run, step_head]
    simp only [ih]

/-- The parts that do something. -/
def acting (ts : List Tree) : List Tree := ts.filter fun t => !t.passes

theorem run_acting : m.run (acting ts) s w = m.run ts s w := by
  induction ts generalizing s w with
  | nil => rfl
  | cons t ts ih =>
    cases ht : t.passes with
    | true =>
      rw [acting, List.filter_cons_of_neg (by rw [ht]; exact Bool.false_ne_true), ← acting, ih, run,
        step_of_passes ht]
    | false =>
      rw [acting, List.filter_cons_of_pos (by rw [ht]; rfl), ← acting, run, run]
      simp only [ih]

end Machine

/-! ## schedules with more groups -/

open Machine (acting)

theorem acting_append (ts us : List Tree) : acting (ts ++ us) = acting ts ++ acting us :=
  List.filter_append ..

theorem acting_grouping (t : Tree) : acting t.grouping.schedule = acting t.schedule := by
  rw [Tree.grouping, Tree.schedule, acting_append]
  exact List.append_nil _

theorem isHole_explicit (t : Tree) : t.explicit.isHole = t.isHole := by
  cases t <;> rfl

mutual

/-- The parts of a tree with a group around every operand that do something. -/
theorem schedule_explicit : ∀ t : Tree,
    acting t.explicit.schedule = (acting t.schedule).map Tree.explicit
  | .hole => rfl
  | .constant _ _ => rfl
  | .reference _ _ => rfl
  | .unary o op x => by
    rw [Tree.explicit, Tree.schedule, Tree.schedule, acting_append, acting_append, acting_grouping,
      schedule_explicit x, List.map_append]
    rfl
  | .cast o ty x => by
    rw [Tree.explicit, Tree.schedule, Tree.schedule, acting_append, acting_append, acting_grouping,
      schedule_explicit x, List.map_append]
    rfl
  | .group o x => by
    rw [Tree.explicit, Tree.schedule, Tree.schedule, acting_append, acting_append,
      schedule_explicit x, List.map_append]
    rfl
  | .binary o op l x => by
    rw [Tree.explicit, Tree.schedule, Tree.schedule, acting_append, acting_append, List.map_append]
    refine congrArg₂ List.append ?_ rfl
    cases assigns : op.isAssignment with
    | true =>
      -- the target is not evaluated; a hole in its place stays one
      rw [if_pos rfl, if_pos rfl, if_pos rfl, isHole_explicit]
      split
      · rfl
      · rw [acting_grouping, schedule_explicit x]
    | false =>
      simp only [Bool.false_eq_true, if_false, acting_append, acting_grouping, List.map_append,
        schedule_explicit l, schedule_explicit x]
  | .choice o c y n => by
    rw [Tree.explicit, Tree.schedule, Tree.schedule]
    simp only [acting_append, acting_grouping, schedule_explicit c, schedule_explicit y,
      schedule_explicit n, List.map_append]
    rfl
  | .call o f args => by
    rw [Tree.explicit, Tree.schedule, Tree.schedule, acting_append, acting_append,
      scheduleAll_explicit args, List.map_append]
    rfl

theorem scheduleAll_explicit : ∀ ts : List Tree,
    acting (scheduleAll (explicitAll ts)) = (acting (scheduleAll ts)).map Tree.explicit
  | [] => rfl
  | t :: ts => by
    rw [explicitAll, scheduleAll, scheduleAll, acting_append, acting_append, schedule_explicit t,
      scheduleAll_explicit ts, List.map_append]

end

/-! ## evaluations -/

namespace Machine

variable {σ ε : Type} {κ : EvalError → ε} {m : Machine σ} {types : TypeTable} {t t' n n' : Tree}

/-- Parts of trees that differ in groups below them are alike in their heads. -/
theorem alike_heads (hbare : n.explicit.bare = n'.bare) (horigin : n.origin.Alike κ n'.origin)
    (htyping : m.types.typing n.id = types.typing n'.id) :
    Alike κ m.types types n.head n'.head where
  bare := by
    rw [← n.head_explicit]
    exact Tree.head_congr hbare
  origin := by rwa [Tree.origin_head, Tree.origin_head]
  typing := by
    rw [Tree.id, Tree.id, Tree.origin_head, Tree.origin_head]
    exact htyping

/-- A tree without groups and one that has them around every operand are evaluated alike, if their
parts have the same types and their errors agree. -/
theorem evaluate_explicit (hbare : t.explicit.bare = t'.bare)
    (hκ : ∀ o o' : Origin, o.Alike κ o')
    (hwhole : ∀ cause, κ ⟨cause, none, t.extent⟩ = κ ⟨cause, none, t'.extent⟩)
    (htyping : ∀ n ∈ t.nodes, ∀ n' ∈ t'.nodes, n.explicit.bare = n'.bare →
      m.types.typing n.id = types.typing n'.id) (w : World σ) :
    AgreeIn κ (m.evaluate t w) ((m.retyped types).evaluate t' w) := by
  have hvariable : t.singleVariable? = t'.singleVariable? := by
    rw [← t.singleVariable?_explicit]
    exact Tree.singleVariable?_congr hbare
  have hschedule : (acting t.schedule).map (fun n => n.explicit.bare) =
      (acting t'.schedule).map Tree.bare := by
    have hacting : ∀ ts : List Tree, acting (ts.map Tree.bare) = (acting ts).map Tree.bare := by
      intro ts
      rw [acting, acting, List.filter_map]
      refine congrArg (List.map Tree.bare) (List.filter_congr fun n _ => ?_)
      cases n <;> simp [Tree.bare, Tree.passes]
    have hbares : ∀ u : Tree, (acting u.schedule).map Tree.bare = acting u.bare.schedule := by
      intro u
      rw [← hacting, Tree.bare, Tree.schedule_mapOrigin]
      rfl
    rw [hbares t', ← hbare, ← hbares, schedule_explicit, List.map_map]
    rfl
  have hparts : List.Forall₂ (Alike κ m.types types) ((acting t.schedule).map Tree.head)
      ((acting t'.schedule).map Tree.head) := by
    have hmem : ∀ {u n : Tree}, n ∈ acting u.schedule → n ∈ u.nodes := fun h =>
      Tree.mem_nodes_of_mem_schedule (List.mem_of_mem_filter h)
    rw [← List.forall₂_eq_eq_eq, List.forall₂_map_left_iff, List.forall₂_map_right_iff,
      List.forall₂_iff_zip] at hschedule
    rw [List.forall₂_map_left_iff, List.forall₂_map_right_iff, List.forall₂_iff_zip]
    refine ⟨hschedule.1, fun hpair => ?_⟩
    obtain ⟨hn, hn'⟩ := List.of_mem_zip hpair
    have hsame := hschedule.2 hpair
    exact alike_heads hsame (hκ _ _) (htyping _ (hmem hn) _ (hmem hn') hsame)
  have hrun := run_agree hparts [] w
  rw [run_heads, run_heads, run_acting, run_acting] at hrun
  exact evaluate_agree_of_run hvariable hrun (hκ _ _) hwhole

end Machine
end ExprEngine
