import ExprEngine.Context

/-!
# Cells and the variables in them

A variable stands for a cell, and several variables may stand for one. What is stored in a variable
is read from all that share its cell, and from no others. Only declarations say which cell a
variable stands for.

* `State.Shares`                   variables with one cell;
* `value_store_of_shares`          a store, seen from the same cell,
* `value_store_of_not_shares`      and from another one;
* `places_store`, `places_afterReply`   writes leave every variable its cell;
* `Reply.Sets`                     a reply that writes the cell of a variable;
* `value_afterReply`               a variable whose cell a reply does not write;
* `values_declare`                 a declaration adds the value of its variable.
-/

namespace ExprEngine

variable {σ : Type} {r : Registry} {x y : VarId}

namespace State

variable {s s' : State σ} {v : Value} {w : VarId × Value}

/-! ## values -/

theorem length_values : s.values.length = s.places.length := List.length_map ..

theorem value_eq (s : State σ) (x : VarId) :
    s.value x = (s.places[x]?.map s.content).getD .void := by
  rw [value, values, List.getElem?_map]

theorem value_of_place {k : CellId} (h : s.places[x]? = some k) : s.value x = s.content k := by
  rw [value_eq, h]
  rfl

theorem value_of_no_place (h : s.places[x]? = none) : s.value x = .void := by
  rw [value_eq, h]
  rfl

/-! ## variables with one cell -/

/-- Variables with one cell. Every variable shares its cell with itself. -/
def Shares (s : State σ) (x y : VarId) : Prop := s.places[x]? = s.places[y]?

instance (s : State σ) (x y : VarId) : Decidable (s.Shares x y) :=
  inferInstanceAs (Decidable (_ = _))

theorem shares_congr (h : s'.places = s.places) : s'.Shares x y ↔ s.Shares x y := by
  unfold Shares
  rw [h]

/-! ## writes -/

theorem places_store (s : State σ) (x : VarId) (v : Value) : (s.store x v).places = s.places := by
  unfold store
  split <;> rfl

/-- A store, seen from its cell. What is not declared has none. -/
theorem value_store_of_shares (h : s.Shares x y) :
    (s.store y v).value x = v ∨ (s.store y v).value x = s.value x := by
  cases hy : s.places[y]? with
  | none =>
    right
    unfold store
    rw [hy]
  | some k =>
    left
    have hx : (s.store y v).places[x]? = some k := by
      rw [places_store]
      exact Eq.trans h hy
    have hk : k < s.cells.length := s.inRange k (List.mem_of_getElem? hy)
    rw [value_of_place hx]
    unfold store content
    rw [hy]
    dsimp only
    rw [List.getElem?_set_self hk]
    rfl

/-- A store, seen from another cell. -/
theorem value_store_of_not_shares (h : ¬ s.Shares x y) : (s.store y v).value x = s.value x := by
  rw [value_eq, value_eq, places_store]
  cases hx : s.places[x]? with
  | none => rfl
  | some k =>
    cases hy : s.places[y]? with
    | none =>
      unfold store
      rw [hy]
    | some l =>
      have hne : l ≠ k := by
        rintro rfl
        exact h (hx.trans hy.symm)
      unfold store content
      rw [hy]
      dsimp only
      rw [Option.map_some, Option.map_some, List.getElem?_set_ne hne]

theorem places_poke (r : Registry) (s : State σ) (w : VarId × Value) :
    (s.poke r w).places = s.places := by
  unfold poke
  split
  · exact places_store ..
  · rfl

theorem places_foldl_poke (r : Registry) (writes : List (VarId × Value)) (s : State σ) :
    (writes.foldl (poke r) s).places = s.places := by
  induction writes generalizing s with
  | nil => rfl
  | cons w writes ih => exact (ih (s.poke r w)).trans (places_poke r s w)

theorem places_afterReply (r : Registry) (s : State σ) (reply : Reply σ) :
    (s.afterReply r reply).places = s.places :=
  places_foldl_poke ..

theorem value_poke
    (h : (r.variableAt? w.1).any Variable.shared = true → ¬ s.Shares x w.1) :
    (s.poke r w).value x = s.value x := by
  unfold poke
  split
  · rename_i hshared
    exact value_store_of_not_shares (h hshared)
  · rfl

theorem value_foldl_poke {writes : List (VarId × Value)}
    (h : ∀ w ∈ writes, (r.variableAt? w.1).any Variable.shared = true → ¬ s.Shares x w.1) :
    (writes.foldl (poke r) s).value x = s.value x := by
  induction writes generalizing s with
  | nil => rfl
  | cons w writes ih =>
    obtain ⟨hw, hwrites⟩ := List.forall_mem_cons.1 h
    have hrest : (writes.foldl (poke r) (s.poke r w)).value x = (s.poke r w).value x := by
      refine ih fun u hu hshared => ?_
      rw [shares_congr (places_poke r s w)]
      exact hwrites u hu hshared
    exact hrest.trans (value_poke hw)

end State

/-- A reply that writes the cell of a variable, through a handle that the host keeps. -/
def Reply.Sets (reply : Reply σ) (r : Registry) (s : State σ) (x : VarId) : Prop :=
  ∃ w ∈ reply.writes, (r.variableAt? w.1).any Variable.shared = true ∧ s.Shares x w.1

namespace State

variable {s : State σ} {v : Value}

theorem value_afterReply {reply : Reply σ} (h : ¬ reply.Sets r s x) :
    (s.afterReply r reply).value x = s.value x :=
  value_foldl_poke (s := { s with memory := reply.memory }) fun w hw hshared hshares =>
    h ⟨w, hw, hshared, hshares⟩

/-! ## declarations -/

theorem content_allocate {k : CellId} (h : k < s.cells.length) :
    (s.allocate v).content k = s.content k := by
  unfold content allocate
  rw [List.getElem?_append_left h]

theorem values_allocate (s : State σ) (v : Value) : (s.allocate v).values = s.values ++ [v] := by
  have hlast : (s.allocate v).content s.cells.length = v := by
    unfold content allocate
    rw [List.getElem?_concat_length]
    rfl
  have hold : s.places.map (s.allocate v).content = s.places.map s.content :=
    List.map_congr_left fun k hk => content_allocate (s.inRange k hk)
  show (s.places ++ [s.cells.length]).map (s.allocate v).content = _
  rw [List.map_append, hold, List.map_singleton, hlast]
  rfl

theorem values_share (s : State σ) (x : VarId) : (s.share x).values = s.values ++ [s.value x] := by
  unfold share
  split
  · rename_i h
    rw [value_of_place (List.getElem?_eq_getElem h)]
    exact List.map_append
  · rename_i h
    rw [values_allocate, value_of_no_place (List.getElem?_eq_none (Nat.le_of_not_lt h))]

/-- What shares the cell of an earlier variable has its place. -/
theorem places_share (s : State σ) (x : VarId) :
    ∃ k, (s.share x).places[s.places.length]? = some k ∧
      (x < s.places.length → (s.share x).places[x]? = some k) := by
  unfold share
  split
  · rename_i h
    refine ⟨s.places[x], List.getElem?_concat_length .., fun _ => ?_⟩
    show (s.places ++ _)[x]? = _
    rw [List.getElem?_append_left h, List.getElem?_eq_getElem h]
  · rename_i h
    exact ⟨s.cells.length, List.getElem?_concat_length .., fun hlt => absurd hlt h⟩

/-- A declaration adds the value of its variable behind those of the earlier ones. -/
theorem values_declare (s : State σ) (storage : Storage) :
    (s.declare storage).values = s.values ++ [s.initial storage] := by
  cases storage with
  | own v => exact s.values_allocate v
  | clone x => exact s.values_share x

/-- A declaration adds a place behind the earlier ones, and leaves the host's memory alone. -/
theorem declare_grows (s : State σ) (storage : Storage) :
    s.places <+: (s.declare storage).places ∧ (s.declare storage).memory = s.memory := by
  cases storage with
  | own v => exact ⟨List.prefix_append _ _, rfl⟩
  | clone x =>
    unfold declare share
    dsimp only
    split
    · exact ⟨List.prefix_append _ _, rfl⟩
    · exact ⟨List.prefix_append _ _, rfl⟩

end State
end ExprEngine
