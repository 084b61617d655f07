import ExprEngine.Proofs.Parse.Cells
import ExprEngine.Proofs.Parse.Bounds

/-!
# Operands in slots

What the parser does to the slots of a table is what it does to trees. Each operation on a stack of
ids is followed beside the one on the stack of entries, in a table that has the entries of the stack
and any others.

* `Mirrors`              an attempt that ends as a computation on trees does;
* `Stacked`              a stack of ids and its table, for a stack of entries;
* `Stacked.connect`      an operand in an empty slot;
* `Stacked.takeLeft`     the way down to a left operand, and the slots emptied on it;
* `Stacked.separate`     a branch that is locked;
* `Stacked.single`       the operand that is left.
-/

namespace ExprEngine

/-! ## attempts -/

section
variable {α β α' β' : Type}

/-- An attempt that ends as a computation does: with the same error, or with a related result. -/
inductive Mirrors (R : α → β → Prop) : Attempt α → Except ParseError β → Prop
  | ok {x : α} {y : β} (h : R x y) : Mirrors R (pure x) (.ok y)
  | error (e : ParseError) : Mirrors R (throw e) (.error e)

variable {R : α → β → Prop} {S : α' → β' → Prop} {x : Attempt α} {y : Except ParseError β}

theorem Mirrors.bind {f : α → Attempt α'} {g : β → Except ParseError β'} (h : Mirrors R x y)
    (hf : ∀ a b, R a b → Mirrors S (f a) (g b)) : Mirrors S (x >>= f) (y >>= g) := by
  cases h with
  | ok h => exact hf _ _ h
  | error e => exact .error e

theorem Mirrors.bind_of_ok {f : α → Attempt α'} {g : β → Except ParseError β'} (h : Mirrors R x y)
    (hf : ∀ a b, y = .ok b → R a b → Mirrors S (f a) (g b)) : Mirrors S (x >>= f) (y >>= g) := by
  cases h with
  | ok h => exact hf _ _ rfl h
  | error e => exact .error e

theorem Mirrors.map {f : α → α'} {g : β → β'} (h : Mirrors R x y)
    (hfg : ∀ a b, R a b → S (f a) (g b)) : Mirrors S (do return f (← x)) (y.map g) := by
  cases h with
  | ok h => exact .ok (hfg _ _ h)
  | error e => exact .error e

theorem Attempt.of_map (x : Except ParseError α) (f : α → β) :
    of (x.map f) = (do return f (← of x)) := by
  cases x <;> rfl

/-- An attempt whose results are told by those of the computation. -/
theorem Mirrors.eq {f : β → α} (h : Mirrors (fun a b => a = f b) x y) : x = .of (y.map f) := by
  cases h with
  | ok h => rw [h]; rfl
  | error e => rfl

theorem Mirrors.of_eq (x : Except ParseError α) : Mirrors Eq (.of x) x := by
  cases x with
  | ok a => exact .ok rfl
  | error e => exact .error e

theorem Mirrors.of_pure {a : α} (h : Mirrors R (pure a) y) : ∃ b, y = .ok b ∧ R a b := by
  generalize hx : (pure a : Attempt α) = x at h
  cases h with
  | ok h =>
    cases hx
    exact ⟨_, rfl, h⟩
  | error e => cases hx

end

/-! ## kinds of entries -/

/-- Whether the entry is a finished tree. -/
def Entry.isDone : Entry → Bool
  | .done _ => true
  | .pending _ => false

theorem PartKind.Filled.isReady {k : PartKind} (h : k.Filled) : k.isReady = true := by
  unfold PartKind.isReady PartKind.slots
  cases k with
  | operator op slots => exact List.all_eq_true.2 h.2
  | cast target slot =>
    rw [List.all_cons, List.all_nil, Bool.and_true]
    exact h
  | _ => rfl

variable {e : Entry} {p : Part} {t : Tree}

theorem Entry.isReady_part (h : e.Complete) (hp : e.part? = some p) : p.kind.isReady = e.isDone := by
  cases e with
  | done t =>
    obtain ⟨p', hp', hfilled, -⟩ := Arena.ofTree?_complete h
    cases hp'.symm.trans hp
    exact hfilled.isReady
  | pending q =>
    cases hp
    cases q <;> rfl

theorem Tree.precedence?_part (hp : Part.ofTree? t = some p) :
    p.kind.precedence? = t.precedence? := by
  cases t with
  | hole => cases hp
  | _ =>
    cases hp
    rfl

/-- A finished part takes no operand. -/
theorem awaits_of_isReady {k : PartKind} (h : k.isReady = true) : k.awaits = false := by
  unfold PartKind.awaits
  rw [h, Bool.not_true, Bool.and_false, Bool.false_and]

/-- A finished part takes no separator. -/
theorem awaitsSeparator_of_isReady {k : PartKind} (h : k.isReady = true) :
    k.awaitsSeparator = false := by
  unfold PartKind.awaitsSeparator
  split
  · rename_i first branch other
    have hother : other.child.isSome = true := by
      apply List.all_eq_true.1 h
      simp [PartKind.slots]
    rw [← Option.not_isSome, hother, Bool.not_true, Bool.and_false]
  · rfl

namespace Pending

variable {p : Pending}

theorem awaits_kind (p : Pending) (t : Tree) : p.kind.awaits = (p.fill? t).isSome := by
  cases p <;> rfl

/-- The entry of the operator with another part in its first empty slot. -/
def filled (p : Pending) (child : PartId) : Part :=
  ⟨p.kind.fill child p.kind.isCast, p.origin.token, p.origin.span⟩

/-- An operator with one operand more: its entry has that operand in the first empty slot. -/
theorem entry_fill {e : Entry} (hp : ∀ x ∈ p.operands, x.Complete) (ht : t.Complete)
    (h : p.fill? t = some e) :
    e.Complete ∧ e.id = p.origin.id ∧
      e.part? = some (p.filled t.id) ∧
      e.operands = p.operands ++ [t] := by
  cases p with
  | unary o op =>
    cases h
    exact ⟨ht, rfl, Part.ofTree?_unary op ht, rfl⟩
  | cast o target =>
    cases h
    exact ⟨ht, rfl, Part.ofTree?_cast target ht, rfl⟩
  | binary o op l =>
    cases h
    have hl : l.Complete := hp l (List.mem_singleton_self l)
    exact ⟨⟨hl, ht⟩, rfl, Part.ofTree?_binary op hl ht, rfl⟩
  | condition o c =>
    cases h
    have hc : c.Complete := hp c (List.mem_singleton_self c)
    exact ⟨List.forall_mem_cons.2 ⟨hc, List.forall_mem_singleton.2 ht⟩, rfl, rfl, rfl⟩
  | branch => cases h
  | otherwise o c y =>
    cases h
    obtain ⟨hc, hy⟩ := List.forall_mem_cons.1 hp
    have hy := List.forall_mem_singleton.1 hy
    exact ⟨⟨hc, hy, ht⟩, rfl, Part.ofTree?_choice hc hy ht, rfl⟩

/-- The slot that is emptied when the operator waits again, with its id. -/
def slot (p : Pending) : PartId × Nat := (p.origin.id, p.operands.length)

end Pending

theorem Entry.cells_of_part (hp : e.part? = some p) :
    e.cells = {(e.id, p)} + cellsOfAll e.operands := by
  cases e with
  | done t => exact Tree.cells_eq hp
  | pending q =>
    cases hp
    rfl

/-! ## stacks -/

/-- A table and a stack of ids for a stack of entries. The table has their entries and others. -/
structure Stacked (size : Nat) (rest : Multiset Cell) (x : Arena × List PartId)
    (s : OperandStack) : Prop where
  ids : x.2 = s.map Entry.id
  complete : ∀ e ∈ s, e.Complete
  stores : x.1.Stores size (s.cells + rest)

theorem Arena.Stores.congr {a : Arena} {n : Nat} {M M' : Multiset Cell} (h : a.Stores n M)
    (hM : M = M') : a.Stores n M' := hM ▸ h

variable {n max : Nat} {F : Multiset Cell} {a : Arena} {ids : List PartId} {s : OperandStack}

namespace Arena

variable {id top : PartId} {below : List PartId}

theorem connect_of_not_ready (h : a.test PartKind.isReady id = false) :
    a.connect max ids id = a.push max id ids := by
  cases ids with
  | nil => rfl
  | cons top below =>
    unfold connect
    rw [h]
    rfl

theorem connect_of_not_awaits (h : a.test PartKind.awaits top = false) :
    a.connect max (top :: below) id = a.push max id (top :: below) := by
  unfold connect
  rw [h, Bool.and_false]
  rfl

theorem connect_of_awaits (hready : a.test PartKind.isReady id = true)
    (hawaits : a.test PartKind.awaits top = true) :
    a.connect max (top :: below) id =
      if (a.fill top id (a.test PartKind.isCast top)).2.test PartKind.isReady top then
        (a.fill top id (a.test PartKind.isCast top)).2.connect max below top
      else return ((a.fill top id (a.test PartKind.isCast top)).2, top :: below) := by
  rw [connect, hready, hawaits]
  rfl

end Arena

/-- The entry of a finished part is filled. -/
theorem Arena.Stores.part_of_tree {M : Multiset Cell} (h : a.Stores n M) (ht : t.Complete) (hM : t.cells ≤ M) :
    ∃ p, Part.ofTree? t = some p ∧ a.part? t.id = some p ∧ p.kind.isReady = true := by
  obtain ⟨p, hp, hpart, -⟩ := h.exists_entry (e := .done t) ht hM
  exact ⟨p, hp, hpart, Entry.isReady_part (e := .done t) ht hp⟩

namespace Stacked

theorem congr {F' : Multiset Cell} {x : Arena × List PartId} (h : Stacked n F x s) (hF : F = F') :
    Stacked n F' x s := hF ▸ h

/-- The part on top of the stack, with all that is beside it. -/
theorem exists_top {below : OperandStack} (h : Stacked n F (a, ids) (e :: below)) :
    ∃ p, e.part? = some p ∧ a.part? e.id = some p ∧
      a.Stores n ({(e.id, p)} + (cellsOfAll e.operands + (below.cells + F))) := by
  obtain ⟨p, hp, hcells, -⟩ := e.exists_part (h.complete e List.mem_cons_self)
  have hstores : a.Stores n ({(e.id, p)} + (cellsOfAll e.operands + (below.cells + F))) := by
    apply h.stores.congr
    rw [OperandStack.cells_cons, hcells]
    abel
  exact ⟨p, hp, hstores.part? (Multiset.le_add_right ..), hstores⟩

theorem le_of_mem (he : e ∈ s) : e.cells ≤ s.cells + F :=
  (OperandStack.cells_le_of_mem he).trans (Multiset.le_add_right ..)

theorem isReady_of_mem (h : Stacked n F (a, ids) s) (he : e ∈ s) :
    a.test PartKind.isReady e.id = e.isDone := by
  have hcomplete := h.complete e he
  obtain ⟨p, hp, hpart, -⟩ := h.stores.exists_entry hcomplete (le_of_mem he)
  rw [Arena.test_eq hpart, Entry.isReady_part hcomplete hp]

theorem errorAt_of_mem (h : Stacked n F (a, ids) s) (he : e ∈ s) (cause : ParseCause) :
    a.errorAt e.id cause = e.origin.parseError cause :=
  Arena.errorAt_eq h.stores (h.complete e he) (le_of_mem he) cause

/-- An entry beside the stack is pushed. -/
theorem push (h : Stacked n (e.cells + F) (a, ids) s) (he : e.Complete) :
    Mirrors (Stacked n F) (a.push max e.id ids) (s.push max e) := by
  have hids : ids = s.map Entry.id := h.ids
  have hlength : ids.length = s.length := by
    rw [hids, List.length_map]
  have herror : a.errorAt e.id (.operandOverflow max) =
      e.origin.parseError (.operandOverflow max) :=
    Arena.errorAt_eq h.stores he ((Multiset.le_add_right ..).trans (Multiset.le_add_left ..)) _
  unfold Arena.push OperandStack.push
  rw [hlength, herror]
  split
  · exact .error _
  · refine .ok ⟨congrArg _ h.ids, List.forall_mem_cons.2 ⟨he, h.complete⟩, ?_⟩
    apply h.stores.congr
    rw [OperandStack.cells_cons]
    abel

/-- A part that is not finished is pushed when it is handed over. -/
theorem connect_pending {p : Pending} (h : Stacked n (p.cells + F) (a, ids) s)
    (hp : (Entry.pending p).Complete) :
    Mirrors (Stacked n F) (a.connect max ids p.origin.id) (s.push max (.pending p)) := by
  have hpart : a.part? p.origin.id = some p.part := by
    apply h.stores.part?
    exact ((Multiset.le_add_right ..).trans (Multiset.le_add_right ..)).trans
      (Multiset.le_add_left ..)
  have hready : a.test PartKind.isReady p.origin.id = false := by
    rw [Arena.test_eq hpart]
    exact Entry.isReady_part (e := .pending p) hp rfl
  rw [Arena.connect_of_not_ready hready]
  exact push (e := .pending p) h hp

/-- The operator on top with one operand more, which was beside the stack: its slot is filled, and
the rest of the table is as it was. -/
theorem fill_top {p : Pending} {below : OperandStack}
    (h : Stacked n (t.cells + F) (a, ids) (.pending p :: below)) (ht : t.Complete)
    (hfill : p.fill? t = some e) :
    e.Complete ∧ e.id = p.origin.id ∧
      (a.fill p.origin.id t.id p.kind.isCast).2.test PartKind.isReady p.origin.id = e.isDone ∧
      Stacked n (e.cells + F)
        ((a.fill p.origin.id t.id p.kind.isCast).2, below.map Entry.id) below := by
  obtain ⟨q, hq, -, hstores⟩ := h.exists_top
  cases hq
  obtain ⟨hcomplete, hid, hpart, hoperands⟩ :=
    Pending.entry_fill (h.complete (.pending p) List.mem_cons_self) ht hfill
  have hfilled := hstores.fill t.id p.kind.isCast
  refine ⟨hcomplete, hid, ?_, rfl, fun x hx => h.complete x (List.mem_cons_of_mem _ hx), ?_⟩
  · rw [← Entry.isReady_part hcomplete hpart]
    exact Arena.test_eq (hfilled.part? (Multiset.le_add_right ..)) _
  · refine hfilled.congr ?_
    rw [Entry.cells_of_part hpart, hid, hoperands, cellsOfAll_append, cellsOfAll_cons,
      cellsOfAll_nil]
    show {(p.origin.id, p.filled t.id)} +
      (cellsOfAll p.operands + (OperandStack.cells below + (t.cells + F))) = _
    abel

/-- A finished part is handed over. -/
theorem connect (h : Stacked n (t.cells + F) (a, ids) s) (ht : t.Complete) :
    Mirrors (Stacked n F) (a.connect max ids t.id) (s.connect max t) := by
  induction s generalizing t a ids F with
  | nil =>
    obtain rfl : ids = [] := h.ids
    exact push (e := .done t) h ht
  | cons e below ih =>
    obtain rfl : ids = e.id :: below.map Entry.id := h.ids
    obtain ⟨q, hq, hpart, -⟩ := h.exists_top
    cases e with
    | done t' =>
      have hawaits : a.test PartKind.awaits t'.id = false := by
        rw [← awaits_of_isReady (Entry.isReady_part (h.complete _ List.mem_cons_self) hq)]
        exact Arena.test_eq hpart _
      exact Arena.connect_of_not_awaits hawaits ▸ push (e := .done t) h ht
    | pending p =>
      cases hq
      have hawaits : a.test PartKind.awaits p.origin.id = (p.fill? t).isSome :=
        (Arena.test_eq hpart _).trans (p.awaits_kind t)
      have hcast : a.test PartKind.isCast p.origin.id = p.kind.isCast := Arena.test_eq hpart _
      show Mirrors (Stacked n F) (a.connect max (p.origin.id :: below.map Entry.id) t.id) _
      unfold OperandStack.connect
      cases hfill : p.fill? t with
      | none =>
        rw [hfill] at hawaits
        rw [Arena.connect_of_not_awaits hawaits]
        exact push (e := .done t) h ht
      | some e' =>
        have hready : a.test PartKind.isReady t.id = true := by
          obtain ⟨p', -, hpart', hready'⟩ := h.stores.part_of_tree ht
            ((Multiset.le_add_right ..).trans (Multiset.le_add_left ..))
          rw [Arena.test_eq hpart', hready']
        rw [hfill] at hawaits
        obtain ⟨hcomplete, hid, hdone, hbelow⟩ := h.fill_top ht hfill
        rw [Arena.connect_of_awaits hready hawaits, hcast, hdone, ← hid]
        rw [← hid] at hbelow
        cases e' with
        | done t' => exact ih hbelow hcomplete
        | pending p' =>
          refine .ok ⟨rfl, List.forall_mem_cons.2 ⟨hcomplete, hbelow.complete⟩,
            hbelow.stores.congr ?_⟩
          rw [OperandStack.cells_cons]
          abel

end Stacked

/-! ## the left operand of an infix operator -/

theorem Binding.keepsKind_part (b : Binding) (hp : Part.ofTree? t = some p) :
    b.keepsKind p.kind = b.keepsWhole t := by
  have hprecedence := Tree.precedence?_part hp
  unfold keepsKind keepsWhole
  generalize p.kind.precedence? = q at hprecedence ⊢
  subst hprecedence
  rfl

/-- An operator in front of its operand binds tighter than any between operands. -/
theorem Binding.keepsWhole_of_not_infix {b : Binding} (hb : b.precedence < castPrecedence)
    (hbinary : ∀ o op l x, t ≠ .binary o op l x) (hchoice : ∀ o c y n, t ≠ .choice o c y n) :
    b.keepsWhole t = true := by
  have htight : (decide (b.precedence < castPrecedence)) = true := decide_eq_true hb
  unfold keepsWhole
  cases t with
  | binary o op l x => exact absurd rfl (hbinary o op l x)
  | choice o c y n => exact absurd rfl (hchoice o c y n)
  | unary o op x => exact Bool.or_eq_true_iff.2 (.inl htight)
  | cast o target x => exact Bool.or_eq_true_iff.2 (.inl htight)
  | _ => rfl

namespace Arena

variable {b : Binding} {steps : Nat} {id : PartId}

theorem descend_whole (h : a.test (fun k => k.isReady && b.keepsKind k) id = true) :
    a.descend b (steps + 1) id = return ([], id) := by
  rw [descend, h]
  rfl

theorem descend_steal {i : Nat} {child : PartId}
    (h : a.test (fun k => k.isReady && b.keepsKind k) id = false) (hp : a.part? id = some p)
    (hsteal : p.kind.stealable? = some (i, child)) :
    a.descend b (steps + 1) id = (do
      let (path, operand) ← a.descend b steps child
      return ((id, i) :: path, operand)) := by
  rw [descend, h, hp, Option.bind_some, hsteal]
  rfl

theorem descend_fail (h : a.test (fun k => k.isReady && b.keepsKind k) id = false)
    (hp : a.part? id = some p) (hsteal : p.kind.stealable? = none) :
    a.descend b (steps + 1) id = throw (a.errorAt id .missingRightOperand) := by
  rw [descend, h, hp, Option.bind_some, hsteal]
  rfl

variable {M : Multiset Cell}

theorem Stores.le_operand {x : Tree} (ht : t.Complete) (hx : x ∈ t.operands) :
    x.cells ≤ t.cells := (Entry.cells_operand (e := .done t) ht hx).1

/-- Enough steps for a part are enough for its operands, with one step less. -/
theorem exists_fewer_steps (ht : t.Complete) (h : t.nodes.length ≤ steps) :
    ∃ fewer, steps = fewer + 1 ∧ ∀ x ∈ t.operands, x.nodes.length ≤ fewer := by
  rw [Tree.nodes_eq_cons ht.isHole, List.length_cons] at h
  refine ⟨steps - 1, by omega, fun x hx => ?_⟩
  have hle := Tree.length_nodes_le hx
  omega

section
variable (h : a.Stores n M) (ht : t.Complete) (hM : t.cells ≤ M) (hsteps : t.nodes.length ≤ steps)
include h ht hM hsteps

/-- The way down ends at a finished part that stays whole. -/
theorem Stores.descend_stop (hwhole : b.keepsWhole t = true) :
    a.descend b steps t.id = return ([], t.id) := by
  obtain ⟨p, hp, hpart, hready⟩ := h.part_of_tree ht hM
  obtain ⟨fewer, rfl, -⟩ := exists_fewer_steps ht hsteps
  apply descend_whole
  rw [test_eq hpart, hready, Bool.true_and, b.keepsKind_part hp, hwhole]

/-- It goes on, with steps enough, through the slot that gives its operand away. -/
theorem Stores.descend_through {i : Nat} {x : Tree} (hopen : b.keepsWhole t = false)
    (hx : x ∈ t.operands)
    (hsteal : ∀ p, Part.ofTree? t = some p → p.kind.stealable? = some (i, x.id)) :
    ∃ fewer, x.nodes.length ≤ fewer ∧ a.descend b steps t.id = (do
      let (path, operand) ← a.descend b fewer x.id
      return ((t.id, i) :: path, operand)) := by
  obtain ⟨p, hp, hpart, hready⟩ := h.part_of_tree ht hM
  obtain ⟨fewer, rfl, hfewer⟩ := exists_fewer_steps ht hsteps
  refine ⟨fewer, hfewer x hx, descend_steal ?_ hpart (hsteal p hp)⟩
  rw [test_eq hpart, hready, Bool.true_and, b.keepsKind_part hp, hopen]

/-- The way down from a finished part leads through the operators that are reopened to the piece
that stays whole. -/
theorem Stores.descend (hb : b.precedence < castPrecedence) :
    a.descend b steps t.id =
      return ((t.reopen b).1.map Pending.slot, (t.reopen b).2.id) := by
  fun_induction Tree.reopen b t generalizing steps with
  | case1 o op l x hwhole => exact h.descend_stop ht hM hsteps hwhole
  | case2 o op l x hopen ih =>
    have hx : x ∈ (Tree.binary o op l x).operands := by simp [Tree.operands]
    have hsteal : ∀ p, Part.ofTree? (.binary o op l x) = some p →
        p.kind.stealable? = some (1, x.id) := by
      intro p hp
      cases (Part.ofTree?_binary op ht.1 ht.2).symm.trans hp
      rfl
    obtain ⟨fewer, hfewer, hdown⟩ :=
      h.descend_through ht hM hsteps (Bool.eq_false_iff.2 hopen) hx hsteal
    rw [hdown, ih ht.2 ((Stores.le_operand ht hx).trans hM) hfewer]
    rfl
  | case3 o c y x hwhole => exact h.descend_stop ht hM hsteps hwhole
  | case4 o c y x hopen ih =>
    have hx : x ∈ (Tree.choice o c y x).operands := by simp [Tree.operands]
    have hsteal : ∀ p, Part.ofTree? (.choice o c y x) = some p →
        p.kind.stealable? = some (2, x.id) := by
      intro p hp
      cases (Part.ofTree?_choice ht.1 ht.2.1 ht.2.2).symm.trans hp
      rfl
    obtain ⟨fewer, hfewer, hdown⟩ :=
      h.descend_through ht hM hsteps (Bool.eq_false_iff.2 hopen) hx hsteal
    rw [hdown, ih ht.2.2 ((Stores.le_operand ht hx).trans hM) hfewer]
    rfl
  | case5 t hbinary hchoice =>
    exact h.descend_stop ht hM hsteps (Binding.keepsWhole_of_not_infix hb hbinary hchoice)

end

end Arena
theorem OperandStack.pushAll_cons (max : Nat) (p : Pending) (ps : List Pending)
    (s : OperandStack) :
    OperandStack.pushAll max (p :: ps) s =
      (OperandStack.push max (.pending p) s >>= OperandStack.pushAll max ps) := by
  rw [OperandStack.pushAll]
  cases OperandStack.push max (.pending p) s <;> rfl

theorem OperandStack.takeLeft_cons (max : Nat) (b : Binding) (here : Lexeme) (e : Entry)
    (below : OperandStack) :
    OperandStack.takeLeft max b here (e :: below) = (e.leftOperand b >>= fun x =>
      OperandStack.pushAll max x.1 below >>= fun s => .ok (x.2, s)) := by
  rw [OperandStack.takeLeft]
  cases e.leftOperand b with
  | error e => rfl
  | ok x =>
    rw [ok_bind]
    dsimp only
    cases OperandStack.pushAll max x.1 below <;> rfl

namespace Stacked

variable {b : Binding} {x : Tree}

/-- With its last slot emptied, an operator waits again, and its operand stands beside it. -/
theorem empty_slot {p : Pending} {q : Part}
    (h : Stacked n ({(p.origin.id, q)} + cellsOfAll (p.operands ++ [x]) + F) (a, ids) s)
    (hq : ⟨q.kind.setSlot p.operands.length {}, q.token, q.span⟩ = p.part) :
    Stacked n (p.cells + (x.cells + F)) (a.setSlot p.origin.id p.operands.length {}, ids) s := by
  have hstores : a.Stores n
      ({(p.origin.id, q)} + (s.cells + cellsOfAll (p.operands ++ [x]) + F)) := by
    apply h.stores.congr
    abel
  refine ⟨h.ids, h.complete, (hstores.set p.operands.length {}).congr ?_⟩
  rw [hq, cellsOfAll_append, cellsOfAll_cons, cellsOfAll_nil, Pending.cells]
  abel

/-- An operator whose last slot is emptied is pushed, and then those below it. -/
theorem reopen_cons {p : Pending} {q : Part} {path : List (PartId × Nat)} {ps : List Pending}
    {F' : Multiset Cell}
    (h : Stacked n ({(p.origin.id, q)} + cellsOfAll (p.operands ++ [x]) + F) (a, ids) s)
    (hq : ⟨q.kind.setSlot p.operands.length {}, q.token, q.span⟩ = p.part)
    (hp : ∀ y ∈ p.operands, y.Complete)
    (hbelow : ∀ a ids s, Stacked n (x.cells + F) (a, ids) s →
      Mirrors (Stacked n F') (a.reopen max path ids) (OperandStack.pushAll max ps s)) :
    Mirrors (Stacked n F') (a.reopen max (p.slot :: path) ids)
      (OperandStack.pushAll max (p :: ps) s) := by
  rw [OperandStack.pushAll_cons]
  refine Mirrors.bind (push (e := .pending p) (h.empty_slot hq) hp) ?_
  rintro ⟨a', ids'⟩ s' h'
  exact hbelow a' ids' s' h'

/-- The slots on the way down are emptied as the operators are reopened. -/
theorem reopen (h : Stacked n (t.cells + F) (a, ids) s) (ht : t.Complete) :
    Mirrors (Stacked n ((t.reopen b).2.cells + F))
      (a.reopen max ((t.reopen b).1.map Pending.slot) ids)
      (OperandStack.pushAll max (t.reopen b).1 s) := by
  fun_induction Tree.reopen b t generalizing a ids s with
  | case1 => exact .ok h
  | case2 o op l x _ ih =>
    rw [Tree.cells_eq (Part.ofTree?_binary op ht.1 ht.2)] at h
    exact reopen_cons (p := .binary o op l) h rfl (List.forall_mem_singleton.2 ht.1)
      fun a ids s h => ih h ht.2
  | case3 => exact .ok h
  | case4 o c y x _ ih =>
    rw [Tree.cells_eq (Part.ofTree?_choice ht.1 ht.2.1 ht.2.2)] at h
    exact reopen_cons (p := .otherwise o c y) h rfl
      (List.forall_mem_cons.2 ⟨ht.1, List.forall_mem_singleton.2 ht.2.1⟩)
      fun a ids s h => ih h ht.2.2
  | case5 => exact .ok h

/-- The way down from an entry leads through the operators that it reopens. -/
theorem descend (h : Stacked n F (a, ids) s) (he : e ∈ s) (hb : b.precedence < castPrecedence) :
    a.descend b a.size e.id =
      .of ((e.leftOperand b).map fun x => (x.1.map Pending.slot, x.2.id)) := by
  have hle : e.cells ≤ s.cells + F := le_of_mem he
  have hsize := h.stores.size_eq
  dsimp only at hsize
  rw [hsize]
  cases e with
  | done t =>
    have ht : t.Complete := h.complete _ he
    exact h.stores.descend ht hle (h.stores.length_le ht hle) hb
  | pending p =>
    have hpart : a.part? p.origin.id = some p.part :=
      h.stores.part? ((Multiset.le_add_right ..).trans hle)
    have hwaits : a.test (fun k => k.isReady && b.keepsKind k) p.origin.id = false := by
      rw [Arena.test_eq hpart]
      have hready : p.part.kind.isReady = false :=
        Entry.isReady_part (e := .pending p) (h.complete _ he) rfl
      rw [hready, Bool.false_and]
    have herror : a.errorAt p.origin.id .missingRightOperand =
        p.origin.parseError .missingRightOperand := h.errorAt_of_mem he _
    have hcard : (Entry.pending p).cells.card ≤ n := h.stores.card_le hle
    obtain ⟨steps, rfl⟩ : ∃ k, n = k + 1 := by
      have hpos : 0 < (Entry.pending p).cells.card := by
        rw [Entry.cells, Pending.cells, Multiset.card_add, Multiset.card_singleton]
        omega
      exact ⟨n - 1, by omega⟩
    cases p with
    | branch o c y =>
      obtain ⟨-, hy⟩ := List.forall_mem_cons.1 (h.complete _ he)
      have hy := List.forall_mem_singleton.1 hy
      -- the operator itself takes a step, so that one less is left for the branch
      obtain ⟨hyle, hylt⟩ := Entry.cells_operand (h.complete _ he)
        (List.mem_cons_of_mem _ (List.mem_singleton_self y))
      have hysteps : y.nodes.length ≤ steps := by
        rw [← Tree.card_cells hy]
        omega
      refine (Arena.descend_steal hwaits hpart rfl).trans ?_
      rw [h.stores.descend hy (hyle.trans hle) hysteps hb]
      rfl
    | _ =>
      refine (Arena.descend_fail hwaits hpart rfl).trans ?_
      rw [herror]
      rfl

theorem pop {below : OperandStack} (h : Stacked n F (a, ids) (e :: below)) :
    Stacked n (e.cells + F) (a, below.map Entry.id) below := by
  refine ⟨rfl, fun x hx => h.complete x (List.mem_cons_of_mem _ hx), h.stores.congr ?_⟩
  rw [OperandStack.cells_cons]
  abel

end Stacked

theorem Tree.Complete.reopen (b : Binding) (h : t.Complete) : (t.reopen b).2.Complete := by
  fun_induction Tree.reopen b t with
  | case2 o op l x _ ih => exact ih h.2
  | case4 o c y x _ ih => exact ih h.2.2
  | _ => exact h

namespace Stacked

variable {b : Binding}

/-- The slots on the way down from the entry on top are emptied as the operators are reopened. -/
theorem reopen_top {below : OperandStack} {ps : List Pending} {operand : Tree}
    (h : Stacked n F (a, ids) (e :: below)) (hleft : e.leftOperand b = .ok (ps, operand)) :
    operand.Complete ∧ Mirrors (Stacked n (operand.cells + F))
      (a.reopen max (ps.map Pending.slot) (below.map Entry.id))
      (OperandStack.pushAll max ps below) := by
  have hbelow := h.pop
  have he := h.complete e List.mem_cons_self
  cases e with
  | done t =>
    have hreopen : t.reopen b = (ps, operand) := Except.ok.inj hleft
    have hcomplete := Tree.Complete.reopen b (t := t) he
    have hmirrors : Mirrors (Stacked n ((t.reopen b).2.cells + F))
        (a.reopen max ((t.reopen b).1.map Pending.slot) (below.map Entry.id))
        (OperandStack.pushAll max (t.reopen b).1 below) := reopen hbelow he
    rw [hreopen] at hcomplete hmirrors
    exact ⟨hcomplete, hmirrors⟩
  | pending p =>
    cases p with
    | branch o c y =>
      cases hleft
      obtain ⟨hc, hy⟩ := List.forall_mem_cons.1 he
      have hy := List.forall_mem_singleton.1 hy
      refine ⟨hy.reopen b, reopen_cons (p := .condition o c) (x := y) hbelow rfl ?_ ?_⟩
      · exact List.forall_mem_singleton.2 hc
      · exact fun a ids s h => reopen h hy
    | _ => cases hleft

/-- A left operand with the table and the stack it was taken out of. -/
def Taken (n : Nat) (F : Multiset Cell) (x : PartId × Arena × List PartId)
    (y : Tree × OperandStack) : Prop :=
  x.1 = y.1.id ∧ y.1.Complete ∧ Stacked n (y.1.cells + F) x.2 y.2

/-- The left operand of an infix operator is taken out of the same slots as out of the same
operators. -/
theorem takeLeft {here : Lexeme} (h : Stacked n F (a, ids) s)
    (hb : b.precedence < castPrecedence) :
    Mirrors (Taken n F) (a.takeLeft max b here ids) (s.takeLeft max b here) := by
  cases s with
  | nil =>
    obtain rfl : ids = [] := h.ids
    exact .error _
  | cons e below =>
    obtain rfl : ids = e.id :: below.map Entry.id := h.ids
    rw [OperandStack.takeLeft_cons, Arena.takeLeft, h.descend List.mem_cons_self hb]
    cases hleft : e.leftOperand b with
    | error err => exact .error err
    | ok y =>
      obtain ⟨ps, operand⟩ := y
      show Mirrors (Taken n F)
        (a.reopen max (ps.map Pending.slot) (below.map Entry.id) >>= fun x => pure (operand.id, x))
        (OperandStack.pushAll max ps below >>= fun s => .ok (operand, s))
      obtain ⟨hcomplete, hreopen⟩ := h.reopen_top hleft
      exact Mirrors.bind hreopen fun x s h' => .ok ⟨rfl, hcomplete, h'⟩

/-! ## the sign between branches -/

/-- A branch is locked as it is closed. -/
theorem separate {here : Lexeme} (h : Stacked n F (a, ids) s) :
    Mirrors (fun a' s' => Stacked n F (a', ids) s') (a.separate here ids) (s.separate here) := by
  cases s with
  | nil =>
    obtain rfl : ids = [] := h.ids
    exact .error _
  | cons e below =>
    obtain rfl : ids = e.id :: below.map Entry.id := h.ids
    obtain ⟨p, hp, hpart, hstores⟩ := h.exists_top
    have hcomplete := h.complete e List.mem_cons_self
    have herror := h.errorAt_of_mem List.mem_cons_self .missingRightOperand
    rw [Arena.separate, Arena.test_eq hpart, Arena.test_eq hpart, herror]
    cases e with
    | done t =>
      have hready : p.kind.isReady = true := Entry.isReady_part hcomplete hp
      rw [awaitsSeparator_of_isReady hready, hready, Bool.not_true, Bool.and_false]
      exact .error _
    | pending q =>
      cases hp
      cases q with
      | branch o c y =>
        refine .ok ⟨rfl, ?_, (hstores.lock (i := 1) rfl).congr ?_⟩
        · exact List.forall_mem_cons.2 ⟨hcomplete, fun x hx =>
            h.complete x (List.mem_cons_of_mem _ hx)⟩
        · rw [OperandStack.cells_cons]
          exact (add_assoc ..).symm.trans (add_assoc ..).symm
      | _ => exact .error _

/-! ## the operand that is left -/

theorem reverse_ids (h : Stacked n F (a, ids) s) : ids.reverse = s.reverse.map Entry.id := by
  rw [List.map_reverse]
  exact congrArg List.reverse h.ids

theorem unfinished (h : Stacked n F (a, ids) s) :
    (ids.reverse.find? fun id => !a.test PartKind.isReady id) =
      s.unfinished?.map fun p => p.origin.id := by
  have hready : ∀ e ∈ s.reverse, a.test PartKind.isReady e.id = e.isDone := fun e he =>
    h.isReady_of_mem (List.mem_reverse.1 he)
  rw [h.reverse_ids]
  unfold OperandStack.unfinished?
  generalize s.reverse = es at hready ⊢
  induction es with
  | nil => rfl
  | cons e es ih =>
    obtain ⟨he, hes⟩ := List.forall_mem_cons.1 hready
    cases e with
    | done t =>
      rw [List.map_cons, List.find?_cons_of_neg (by rw [he]; exact Bool.false_ne_true)]
      exact ih hes
    | pending p =>
      rw [List.map_cons, List.find?_cons_of_pos (by rw [he]; rfl)]
      rfl

theorem done_of_unfinished {s : OperandStack} (h : s.unfinished? = none) :
    ∀ e ∈ s.reverse, ∃ t, e = .done t := by
  intro e he
  have hnone := List.findSome?_eq_none_iff.1 h e he
  cases e with
  | done t => exact ⟨t, rfl⟩
  | pending p => cases hnone

/-- The operand that is left is the same. -/
theorem single {ifEmpty : ParseError} (h : Stacked n F (a, ids) s) :
    Mirrors (fun id t => id = t.id ∧ s = [.done t]) (.of (a.single ids ifEmpty))
      (s.single ifEmpty) := by
  unfold Arena.single OperandStack.single
  rw [h.unfinished]
  cases hu : s.unfinished? with
  | some p =>
    have herror : a.errorAt p.origin.id .missingRightOperand =
        p.origin.parseError .missingRightOperand :=
      h.errorAt_of_mem (OperandStack.unfinished?_mem hu) _
    show Mirrors _ (throw (a.errorAt p.origin.id .missingRightOperand)) _
    rw [herror]
    exact .error _
  | none =>
    rw [Option.map_none]
    dsimp only
    rw [h.reverse_ids]
    have hdone := done_of_unfinished hu
    have hmem : ∀ e ∈ s.reverse, e ∈ s := fun e he => List.mem_reverse.1 he
    generalize hes : s.reverse = es at hdone hmem
    match es with
    | [] => exact .error _
    | [e] =>
      obtain ⟨t, rfl⟩ := hdone e (List.mem_singleton_self e)
      exact .ok ⟨rfl, List.reverse_eq_iff.1 hes⟩
    | first :: second :: es =>
      obtain ⟨t, rfl⟩ := hdone first List.mem_cons_self
      have hfirst : Entry.done t ∈ s := hmem _ List.mem_cons_self
      have herror := h.errorAt_of_mem (hmem second (by simp)) .missingOperator
      have htree : a.tree (Entry.done t).id = t :=
        h.stores.tree_eq (h.complete _ hfirst)
          ((OperandStack.cells_le_of_mem hfirst).trans (Multiset.le_add_right ..))
      show Mirrors _ (throw { a.errorAt second.id .missingOperator with
        related := some (a.tree (Entry.done t).id).extent }) _
      rw [herror, htree]
      exact .error _

end Stacked
end ExprEngine
