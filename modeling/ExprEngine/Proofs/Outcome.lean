/-!
# Computations that may fail

* `bind_eq_ok`, `map_eq_ok`         a computation that succeeds, taken apart;
* `bind_eq_error`, `map_eq_error`   one that fails;
* `mapOutcome`                      an outcome seen through a map of errors and a map of results;
* `Follows`                         going as another computation does, unless that one is cut off;
* `Ends`                            what holds of a result, or of an error.
-/

namespace ExprEngine

variable {ε α β : Type}

theorem ok_bind {a : α} {f : α → Except ε β} : (Except.ok a >>= f) = f a := rfl

theorem bind_eq_ok {x : Except ε α} {f : α → Except ε β} {b : β} :
    (x >>= f) = .ok b ↔ ∃ a, x = .ok a ∧ f a = .ok b := by
  constructor
  · intro h
    cases x with
    | error e => cases h
    | ok a => exact ⟨a, rfl, h⟩
  · rintro ⟨a, rfl, h⟩
    exact h

theorem bind_eq_error {x : Except ε α} {f : α → Except ε β} {e : ε} :
    (x >>= f) = .error e ↔ x = .error e ∨ ∃ a, x = .ok a ∧ f a = .error e := by
  constructor
  · intro h
    cases x with
    | error e' =>
      cases h
      exact .inl rfl
    | ok a => exact .inr ⟨a, rfl, h⟩
  · rintro (rfl | ⟨a, rfl, h⟩)
    · rfl
    · exact h

theorem map_eq_ok {x : Except ε α} {f : α → β} {b : β} :
    x.map f = .ok b ↔ ∃ a, x = .ok a ∧ f a = b := by
  constructor
  · intro h
    cases x with
    | error e => cases h
    | ok a => exact ⟨a, rfl, Except.ok.inj h⟩
  · rintro ⟨a, rfl, rfl⟩
    rfl

theorem map_eq_error {x : Except ε α} {f : α → β} {e : ε} :
    x.map f = .error e ↔ x = .error e := by
  cases x with
  | error e' =>
    constructor
    · rintro ⟨⟩
      rfl
    · rintro ⟨⟩
      rfl
  | ok a => exact ⟨nofun, nofun⟩

/-! ## maps of outcomes -/

variable {ε' α' β' : Type}

/-- An outcome with a map applied to its error and another to its result. -/
def mapOutcome (κ : ε → ε') (g : α → β) : Except ε α → Except ε' β
  | .ok a => .ok (g a)
  | .error e => .error (κ e)

variable {κ : ε → ε'} {g : α → α'} {g' : β → β'}

@[simp] theorem mapOutcome_ok (a : α) : mapOutcome κ g (.ok a) = .ok (g a) := rfl

@[simp] theorem mapOutcome_error (e : ε) : mapOutcome κ g (.error e) = .error (κ e) := rfl

theorem mapOutcome_bind {x : Except ε α} {f : α → Except ε β} {f' : α' → Except ε' β'}
    (h : ∀ a, mapOutcome κ g' (f a) = f' (g a)) :
    mapOutcome κ g' (x >>= f) = mapOutcome κ g x >>= f' := by
  cases x with
  | ok a => exact h a
  | error e => rfl

theorem mapOutcome_map {x : Except ε α} {f : α → β} {f' : α' → β'} (h : ∀ a, g' (f a) = f' (g a)) :
    mapOutcome κ g' (x.map f) = (mapOutcome κ g x).map f' := by
  cases x with
  | ok a => exact congrArg Except.ok (h a)
  | error e => rfl

/-- Outcomes that look the same. -/
theorem mapOutcome_eq {x y : Except ε α} (h : mapOutcome κ g x = mapOutcome κ g y) :
    (∃ a b, x = .ok a ∧ y = .ok b ∧ g a = g b) ∨
      ∃ e e', x = .error e ∧ y = .error e' ∧ κ e = κ e' := by
  cases x with
  | ok a =>
    cases y with
    | ok b => exact .inl ⟨a, b, rfl, rfl, Except.ok.inj h⟩
    | error e => cases h
  | error e =>
    cases y with
    | ok b => cases h
    | error e' => exact .inr ⟨e, e', rfl, rfl, Except.error.inj h⟩

/-! ## computations that are cut off -/

/-- A computation that goes as another one does, unless that one is cut off: it fails with one of
some errors. -/
def Follows (cut : ε → Prop) (x' x : Except ε α) : Prop := x' = x ∨ ∃ e, x = .error e ∧ cut e

variable {cut : ε → Prop}

theorem Follows.refl (x : Except ε α) : Follows cut x x := .inl rfl

theorem Follows.of_cut {x' : Except ε α} {e : ε} (h : cut e) : Follows cut x' (.error e) :=
  .inr ⟨e, rfl, h⟩

theorem Follows.mono {cut' : ε → Prop} {x' x : Except ε α} (h : Follows cut x' x)
    (hcut : ∀ e, cut e → cut' e) : Follows cut' x' x :=
  h.imp_right fun ⟨e, hx, he⟩ => ⟨e, hx, hcut e he⟩

theorem Follows.bind {x' x : Except ε α} {f' f : α → Except ε β} (hx : Follows cut x' x)
    (hf : ∀ a, x = .ok a → Follows cut (f' a) (f a)) : Follows cut (x' >>= f') (x >>= f) := by
  rcases hx with rfl | ⟨e, rfl, he⟩
  · cases x' with
    | ok a => exact hf a rfl
    | error e => exact .refl _
  · exact .of_cut he

theorem Follows.map {x' x : Except ε α} (hx : Follows cut x' x) (f : α → β) :
    Follows cut (x'.map f) (x.map f) := by
  rcases hx with rfl | ⟨e, rfl, he⟩
  · exact .refl _
  · exact .of_cut he

/-! ## results and errors -/

/-- A computation whose result has a property, or whose error has another. -/
def Ends (E : ε → Prop) (P : α → Prop) : Except ε α → Prop
  | .ok a => P a
  | .error e => E e

section
variable {E : ε → Prop} {P : α → Prop} {Q : β → Prop} {x : Except ε α}

theorem Ends.of_ok (h : Ends E P x) {a : α} (hx : x = .ok a) : P a := by
  rw [hx] at h
  exact h

theorem Ends.of_error (h : Ends E P x) {e : ε} (hx : x = .error e) : E e := by
  rw [hx] at h
  exact h

theorem Ends.mono {E' : ε → Prop} (h : Ends E P x) (he : ∀ e, E e → E' e) : Ends E' P x := by
  cases x with
  | ok a => exact h
  | error e => exact he e h

theorem Ends.bind {f : α → Except ε β} (hx : Ends E P x)
    (hf : ∀ a, x = .ok a → P a → Ends E Q (f a)) : Ends E Q (x >>= f) := by
  cases x with
  | ok a => exact hf a rfl hx
  | error e => exact hx

theorem Ends.map {f : α → β} (hx : Ends E P x) (hf : ∀ a, P a → Q (f a)) :
    Ends E Q (x.map f) := by
  cases x with
  | ok a => exact hf a hx
  | error e => exact hx

end

end ExprEngine
