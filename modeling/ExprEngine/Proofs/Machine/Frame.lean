import ExprEngine.Proofs.Machine.Schedule
import ExprEngine.Proofs.State

/-!
# What a run leaves alone

A step changes a cell in two ways only: by assigning to a variable, in the type it is declared
with, or by a callback that writes. A variable that shares its cell with none of those keeps its
stored value as it is.

* `Machine.Sets`    a part whose callback writes the cell of a variable;
* `assignment_ok`   what an assignment stores;
* `step_value`      a variable after a step;
* `run_value`       a variable after a run;
* `toggle_value`    a variable after the interactive shortcut.
-/

namespace ExprEngine

variable {σ : Type} {r : Registry} {x y : VarId}

/-- The variable that a part assigns to. -/
def Tree.target? : Tree → Option VarId
  | .binary _ op (.reference _ x) _ => if op.isAssignment then some x else none
  | _ => none

/-- The variables that the parts of a tree assign to. -/
def Tree.targets (t : Tree) : List VarId := t.nodes.filterMap target?

/-- What a run assigns to is assigned to by a part of the tree. -/
theorem Tree.mem_targets_of_mem_schedule {t : Tree} (h : x ∈ t.schedule.filterMap target?) :
    x ∈ t.targets := by
  obtain ⟨n, hn, hx⟩ := List.mem_filterMap.1 h
  exact List.mem_filterMap.2 ⟨n, mem_nodes_of_mem_schedule hn, hx⟩

namespace Machine

variable {m : Machine σ} {t : Tree} {ts : List Tree} {s : ValueStack} {w : World σ} {o : Origin}

/-- A part whose callback writes the cell of a variable. -/
def Sets (m : Machine σ) (t : Tree) (s : ValueStack) (w : World σ) (x : VarId) : Prop :=
  match t with
  | .call o f args => ∃ p, m.arguments o f args.length s = .ok p ∧
      (m.reply f p.2.1 w.state).Sets m.registry w.state x
  | _ => False

/-- A run in which some callback writes the cell of a variable. -/
def HostSets (m : Machine σ) (ts : List Tree) (s : ValueStack) (w : World σ) (x : VarId) : Prop :=
  ∃ t s' w', m.Comes ts s w t s' w' ∧ m.Sets t s' w' x

theorem convert_eq_ok {v u : Value} {t : ValueType} : convert o v t = .ok u ↔ v.cast? t = some u := by
  unfold convert
  cases v.cast? t with
  | none => exact ⟨nofun, nofun⟩
  | some u' =>
    exact ⟨fun h => congrArg some (Except.ok.inj h),
      fun h => congrArg Except.ok (Option.some.inj h)⟩

theorem located_eq_ok {x : Except EvalCause α} {a : α} : located o x = .ok a ↔ x = .ok a := by
  cases x with
  | error c => exact ⟨nofun, nofun⟩
  | ok a' =>
    exact ⟨fun h => congrArg Except.ok (Except.ok.inj h),
      fun h => congrArg Except.ok (Except.ok.inj h)⟩

theorem convert_type {u v : Value} {a : ValueType} (h : convert o v a = .ok u) : u.type = a := by
  unfold convert at h
  split at h
  · rename_i hcast
    cases h
    exact Value.type_of_cast? hcast
  · cases h

theorem stored_type {op : BinaryOp} {var : Variable} {u v : Value} {w : State σ}
    (h : m.stored o op x var u w = .ok v) : v.type = var.type := by
  unfold stored at h
  split at h
  · obtain ⟨old, -, h⟩ := bind_eq_ok.1 h
    obtain ⟨left, -, h⟩ := bind_eq_ok.1 h
    obtain ⟨right, -, h⟩ := bind_eq_ok.1 h
    obtain ⟨combined, -, h⟩ := bind_eq_ok.1 h
    exact convert_type h
  · exact convert_type h

theorem declared_ok {var : Variable} (h : m.declared o x = .ok var) :
    m.registry.variableAt? x = some var := by
  unfold declared at h
  split at h
  · rename_i hvar
    rw [hvar, Except.ok.inj h]
  · cases h

/-- An assignment pops one value and stores a value of the type that its variable is declared
with. -/
theorem assignment_ok {op : BinaryOp} {l : Tree} {v : Value} {w : State σ} {below : ValueStack}
    (h : m.assignment w o op l s = .ok (x, v, below)) :
    (∃ o', l = .reference o' x) ∧ (∃ u, s = u :: below) ∧
      ∃ var, m.registry.variableAt? x = some var ∧ v.type = var.type := by
  cases s with
  | nil => cases h
  | cons u s =>
    cases l with
    | reference o' y =>
      rw [assignment_reference] at h
      obtain ⟨var, hvar, h⟩ := bind_eq_ok.1 h
      obtain ⟨new, hnew, h⟩ := bind_eq_ok.1 h
      cases h
      exact ⟨⟨o', rfl⟩, ⟨u, rfl⟩, var, declared_ok hvar, stored_type hnew⟩
    | _ => cases h

/-- A variable after a step: as it was, or assigned to, itself or another one of its cell, in the
type that this one is declared with, or written by the callback. -/
theorem step_value (m : Machine σ) (t : Tree) (s : ValueStack) (w : World σ) (x : VarId) :
    (m.step t s w).2.state.value x = w.state.value x ∨
      (∃ y, t.target? = some y ∧ w.state.Shares x y ∧ ∃ var, m.registry.variableAt? y = some var ∧
        ((m.step t s w).2.state.value x).type = var.type) ∨ m.Sets t s w x := by
  have hacts := m.step_acts t s w
  revert hacts
  generalize (m.step t s w).2 = w'
  intro hacts
  cases hacts with
  | still => exact .inl rfl
  | @call _ f _ _ values _ passed =>
    by_cases hsets : (m.reply f values w.state).Sets m.registry w.state x
    · exact .inr (.inr ⟨_, passed, hsets⟩)
    · exact .inl (State.value_afterReply hsets)
  | @write o op l _ target v below assigns stored =>
    obtain ⟨⟨o', rfl⟩, -, var, hvar, htype⟩ := assignment_ok stored
    by_cases hx : w.state.Shares x target
    · -- a store out of range writes nothing, hence the case that the value stays
      rcases State.value_store_of_shares (v := v) hx with hnew | hold
      · refine .inr (.inl ⟨target, if_pos assigns, hx, var, hvar, ?_⟩)
        show ((w.state.store target v).value x).type = _
        rw [hnew, htype]
      · exact .inl hold
    · exact .inl (State.value_store_of_not_shares hx)

/-- A step leaves every variable its cell. -/
theorem step_places (m : Machine σ) (t : Tree) (s : ValueStack) (w : World σ) :
    (m.step t s w).2.state.places = w.state.places := by
  have hacts := m.step_acts t s w
  revert hacts
  generalize (m.step t s w).2 = w'
  intro hacts
  cases hacts with
  | still => rfl
  | write => exact State.places_store ..
  | call => exact State.places_afterReply ..

theorem run_places (m : Machine σ) (ts : List Tree) (s : ValueStack) (w : World σ) :
    (m.run ts s w).2.state.places = w.state.places :=
  run_invariant (I := fun w' => w'.state.places = w.state.places) rfl
    fun u s' w' _ hw' => (m.step_places u s' w').trans hw'

theorem Comes.places {u : Tree} {s' : ValueStack} {w' : World σ} (h : m.Comes ts s w u s' w') :
    w'.state.places = w.state.places := by
  obtain ⟨before, after, -, hrun⟩ := h
  have hplaces := m.run_places before s w
  rwa [hrun] at hplaces

/-- A variable whose cell no callback writes, after a run: as it was, or assigned to, itself or
another one of its cell, in the type that this one is declared with. -/
theorem run_value (h : ¬ m.HostSets ts s w x) :
    (m.run ts s w).2.state.value x = w.state.value x ∨
      ∃ y ∈ ts.filterMap Tree.target?, w.state.Shares x y ∧
        ∃ var, m.registry.variableAt? y = some var ∧
          ((m.run ts s w).2.state.value x).type = var.type := by
  refine run_invariant (I := fun w' => w'.state.value x = w.state.value x ∨
    ∃ y ∈ ts.filterMap Tree.target?, w.state.Shares x y ∧
      ∃ var, m.registry.variableAt? y = some var ∧ (w'.state.value x).type = var.type) (.inl rfl)
    fun u s' w' hu hw' => ?_
  rcases m.step_value u s' w' x with hsame | ⟨y, htarget, hshares, hnew⟩ | hsets
  · rw [hsame]
    exact hw'
  · exact .inr ⟨y, List.mem_filterMap.2 ⟨u, hu.mem, htarget⟩,
      (State.shares_congr hu.places).1 hshares, hnew⟩
  · exact absurd ⟨u, s', w', hu, hsets⟩ h

theorem toggle_places {v : Variable} : (toggle o x v w).2.state.places = w.state.places := by
  unfold toggle
  split
  · rfl
  · exact State.places_store ..

theorem toggle_value {v : Variable} (h : w.state.Shares y x) :
    (toggle o x v w).2.state.value y = w.state.value y ∨
      ((toggle o x v w).2.state.value y).type = .bool := by
  unfold toggle
  split
  · exact .inl rfl
  · rcases State.value_store_of_shares (v := .bool _) h with hnew | hold
    · exact .inr (congrArg Value.type hnew)
    · exact .inl hold

theorem toggle_value_of_not_shares {v : Variable} (h : ¬ w.state.Shares y x) :
    (toggle o x v w).2.state.value y = w.state.value y := by
  unfold toggle
  split
  · rfl
  · exact State.value_store_of_not_shares h

/-- An evaluation leaves every variable its cell. -/
theorem evaluate_places (m : Machine σ) (t : Tree) (w : World σ) :
    (m.evaluate t w).2.state.places = w.state.places := by
  cases htoggle : toggled? m.registry t with
  | none =>
    rw [evaluate_eq_run htoggle]
    exact m.run_places ..
  | some p =>
    unfold evaluate
    rw [htoggle]
    exact toggle_places

end Machine
end ExprEngine
