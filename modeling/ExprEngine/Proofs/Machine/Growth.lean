import ExprEngine.Proofs.Machine.Frame
import ExprEngine.Proofs.Typing.Agreement

/-!
# Runs among more declarations

Declarations that are added later stand behind the earlier ones, and so do the cells of later
variables, unless these share earlier ones. A run of what refers only to earlier declarations does
not notice, as long as the callbacks that it calls do not either: the states without and with the
later declarations stay near each other all along.

* `Unnoticed`            when states are near, for all that there was before some declarations;
* `Callback.Knows`       a callback that reads and writes earlier variables only;
* `State.Behind`         a state, and the same with more cells and more variables;
* `Unnoticed.of_knows`   such callbacks do not notice later variables;
* `Machine.Grows`        a machine with more declarations;
* `step_grown`           a step goes the same way;
* `evaluate_grown`       so does an evaluation;
* `evaluate_closed`      what refers to no declaration does not notice any.
-/

namespace ExprEngine

variable {σ : Type} {r r' : Registry} {callbacks : List (Callback σ)}
  {Near : State σ → State σ → Prop}

/-! ## states -/

/-- A relation between the states without and with some declarations, such that nothing that there
was before can tell near states from each other or bring them apart. They agree on the variables,
and stay near when one of these is stored; a callback returns the same in both and leaves them near
each other. -/
structure Unnoticed (r r' : Registry) (callbacks : List (Callback σ))
    (Near : State σ → State σ → Prop) : Prop where
  value : ∀ {s s'}, Near s s' → ∀ x < r.vars.length, s'.value x = s.value x
  store : ∀ {s s'}, Near s s' → ∀ x < r.vars.length, ∀ v, Near (s.store x v) (s'.store x v)
  call : ∀ {s s'}, Near s s' → ∀ callback ∈ callbacks, ∀ args,
    (callback s'.memory s'.values args).value = (callback s.memory s.values args).value ∧
      Near (s.afterReply r (callback s.memory s.values args))
        (s'.afterReply r' (callback s'.memory s'.values args))

/-- A callback that knows the first so many variables only, as long as the host's memory has some
shape: what others hold makes no difference to it, it writes none of them, and the memory keeps its
shape. -/
structure Callback.Knows (callback : Callback σ) (count : Nat) (Shape : σ → Prop) : Prop where
  reads : ∀ memory values more args, Shape memory → values.length = count →
    callback memory (values ++ more) args = callback memory values args
  writes : ∀ memory values args, Shape memory → values.length = count →
    ∀ w ∈ (callback memory values args).writes, w.1 < count
  keeps : ∀ memory values args, Shape memory → values.length = count →
    Shape (callback memory values args).memory

namespace State

variable {s s' : State σ} {x : VarId} {v : Value} {count : Nat} {Shape : σ → Prop}
  {cells : List Value} {places : List CellId}

/-- A state of so many variables whose memory has some shape, and the same with more cells and more
variables, in these or in the earlier cells. -/
structure Behind (count : Nat) (Shape : σ → Prop) (cells : List Value) (places : List CellId)
    (s s' : State σ) : Prop where
  shape : Shape s.memory
  length : s.places.length = count
  cells : s'.cells = s.cells ++ cells
  places : s'.places = s.places ++ places
  memory : s'.memory = s.memory

/-- The earlier variables keep their values. -/
theorem Behind.values (h : Behind count Shape cells places s s') :
    ∃ more, s'.values = s.values ++ more := by
  refine ⟨places.map s'.content, ?_⟩
  have hold : s.places.map s'.content = s.places.map s.content := by
    refine List.map_congr_left fun k hk => ?_
    unfold content
    rw [h.cells, List.getElem?_append_left (s.inRange k hk)]
  rw [State.values, h.places, List.map_append, hold]
  rfl

theorem Behind.place (h : Behind count Shape cells places s s') (hx : x < count) :
    ∃ k < s.cells.length, s.places[x]? = some k ∧ s'.places[x]? = some k := by
  have hlt : x < s.places.length := h.length.symm ▸ hx
  have hplace := List.getElem?_eq_getElem hlt
  refine ⟨s.places[x], s.inRange _ (List.getElem_mem hlt), hplace, ?_⟩
  rw [h.places, List.getElem?_append_left hlt, hplace]

theorem Behind.value (h : Behind count Shape cells places s s') (hx : x < count) :
    s'.value x = s.value x := by
  obtain ⟨more, hmore⟩ := h.values
  have hlt : x < s.values.length := by
    rw [length_values, h.length]
    exact hx
  rw [State.value, State.value, hmore, List.getElem?_append_left hlt]

theorem Behind.store (h : Behind count Shape cells places s s') (hx : x < count) (v : Value) :
    Behind count Shape cells places (s.store x v) (s'.store x v) := by
  obtain ⟨k, hk, hplace, hplace'⟩ := h.place hx
  unfold State.store
  rw [hplace, hplace']
  refine ⟨h.shape, h.length, ?_, h.places, h.memory⟩
  show s'.cells.set k v = s.cells.set k v ++ cells
  rw [h.cells, List.set_append_left k v hk]

theorem Behind.poke (h : Behind r.vars.length Shape cells places s s') (hr : r'.Extends r)
    {w : VarId × Value} (hw : w.1 < r.vars.length) :
    Behind r.vars.length Shape cells places (s.poke r w) (s'.poke r' w) := by
  have hvar : r'.variableAt? w.1 = r.variableAt? w.1 :=
    hr.variableAt?_eq ⟨_, List.getElem?_eq_getElem hw⟩
  unfold State.poke
  rw [hvar]
  split
  · exact h.store hw w.2
  · exact h

theorem Behind.foldl_poke (h : Behind r.vars.length Shape cells places s s') (hr : r'.Extends r)
    {writes : List (VarId × Value)} (hwrites : ∀ w ∈ writes, w.1 < r.vars.length) :
    Behind r.vars.length Shape cells places (writes.foldl (State.poke r) s)
      (writes.foldl (State.poke r') s') := by
  induction writes generalizing s s' with
  | nil => exact h
  | cons w writes ih =>
    obtain ⟨hw, hwrites⟩ := List.forall_mem_cons.1 hwrites
    exact ih (h.poke hr hw) hwrites

theorem Behind.afterReply (h : Behind r.vars.length Shape cells places s s') (hr : r'.Extends r)
    {reply : Reply σ} (hshape : Shape reply.memory)
    (hwrites : ∀ w ∈ reply.writes, w.1 < r.vars.length) :
    Behind r.vars.length Shape cells places (s.afterReply r reply) (s'.afterReply r' reply) := by
  have hmemory : Behind r.vars.length Shape cells places { s with memory := reply.memory }
      { s' with memory := reply.memory } :=
    ⟨hshape, h.length, h.cells, h.places, rfl⟩
  exact hmemory.foldl_poke hr hwrites

end State

/-- Callbacks that know the earlier variables only do not notice later ones. -/
theorem Unnoticed.of_knows (hr : r'.Extends r) {Shape : σ → Prop}
    (hknows : ∀ callback ∈ callbacks, callback.Knows r.vars.length Shape) (cells : List Value)
    (places : List CellId) :
    Unnoticed r r' callbacks (State.Behind r.vars.length Shape cells places) where
  value h x hx := h.value hx
  store h x hx v := h.store hx v
  call := by
    intro s s' h callback hcallback args
    have hcb := hknows callback hcallback
    have hlength : s.values.length = r.vars.length := State.length_values.trans h.length
    obtain ⟨more, hmore⟩ := h.values
    rw [h.memory, hmore, hcb.reads s.memory s.values more args h.shape hlength]
    exact ⟨rfl, h.afterReply hr (hcb.keeps s.memory s.values args h.shape hlength)
      (hcb.writes s.memory s.values args h.shape hlength)⟩

/-- Worlds without and with more declarations: near states, and the same calls. -/
structure World.Beside (Near : State σ → State σ → Prop) (w w' : World σ) : Prop where
  state : Near w.state w'.state
  calls : w'.calls = w.calls

/-- The same outcome in worlds that are near. -/
structure World.Same {α : Type} (Near : State σ → State σ → Prop) (p p' : α × World σ) :
    Prop where
  outcome : p'.1 = p.1
  world : World.Beside Near p.2 p'.2

namespace Machine

/-- A machine with more declarations, which nobody notices in near states. -/
structure Grows (m' m : Machine σ) (Near : State σ → State σ → Prop) : Prop where
  registry : m'.registry.Extends m.registry
  interactive : m'.registry.interactive = m.registry.interactive
  callbacks : m.callbacks <+: m'.callbacks
  count : m.callbacks.length = m.registry.funcs.length
  types : m'.types = m.types
  room : m'.maxValues = m.maxValues
  unnoticed : Unnoticed m.registry m'.registry m.callbacks Near

variable {m m' : Machine σ} {o : Origin} {s : ValueStack} {w w' : State σ} {n t : Tree}
  {x : VarId} {v : Value} {world world' : World σ}

/-! ## the pieces of a step -/

theorem lt_of_variableAt? (hx : ∃ var, r.variableAt? x = some var) : x < r.vars.length := by
  obtain ⟨var, hvar⟩ := hx
  exact (List.getElem?_eq_some_iff.1 hvar).1

theorem declared_grown (h : m'.Grows m Near) (hx : ∃ var, m.registry.variableAt? x = some var) :
    m'.declared o x = m.declared o x := by
  unfold declared
  rw [h.registry.variableAt?_eq hx]

theorem readBinding_grown (h : m'.Grows m Near) (hw : Near w w')
    (hx : ∃ var, m.registry.variableAt? x = some var) (var : Variable) :
    readBinding w' x var = readBinding w x var := by
  unfold readBinding
  rw [h.unnoticed.value hw x (lt_of_variableAt? hx)]

theorem compute_grown (h : m'.Grows m Near) (hn : n.Known m.registry) (hw : Near w w') :
    m'.compute w' n s = m.compute w n s := by
  cases n with
  | reference o x => simp only [compute, declared_grown h hn, readBinding_grown h hw hn]
  | binary o op l x => cases op <;> simp only [compute, h.types]
  | _ => simp only [compute, h.types]

theorem stored_grown (h : m'.Grows m Near) (hw : Near w w')
    (hx : ∃ var, m.registry.variableAt? x = some var) (op : BinaryOp) (var : Variable) :
    m'.stored o op x var v w' = m.stored o op x var v w := by
  unfold stored
  simp only [readBinding_grown h hw hx, h.types]

theorem assignment_grown (h : m'.Grows m Near) {op : BinaryOp} {l : Tree}
    (hl : l.Known m.registry) (hw : Near w w') :
    m'.assignment w' o op l s = m.assignment w o op l s := by
  cases s with
  | nil => rfl
  | cons u s =>
    cases l with
    | reference o' y => simp only [assignment_reference, declared_grown h hl, stored_grown h hw hl]
    | _ => rfl

theorem arguments_grown (h : m'.Grows m Near) {f : FuncId} {count : Nat}
    (hf : ∃ sig, m.registry.functionAt? f = some sig) :
    m'.arguments o f count s = m.arguments o f count s := by
  unfold arguments
  rw [h.registry.functionAt?_eq hf]

/-- An earlier function returns the same and leaves the states near each other. -/
theorem reply_grown (h : m'.Grows m Near) {f : FuncId}
    (hf : ∃ sig, m.registry.functionAt? f = some sig) (args : List Value) (hw : Near w w') :
    (m'.reply f args w').value = (m.reply f args w).value ∧
      Near (w.afterReply m.registry (m.reply f args w))
        (w'.afterReply m'.registry (m'.reply f args w')) := by
  obtain ⟨sig, hsig⟩ := hf
  have hlt : f < m.callbacks.length := by
    rw [h.count]
    exact (List.getElem?_eq_some_iff.1 hsig).1
  have hcallback : m.callbacks[f]? = some m.callbacks[f] := List.getElem?_eq_getElem hlt
  unfold reply
  rw [hcallback, Registry.getElem?_of_prefix h.callbacks hcallback]
  exact h.unnoticed.call hw _ (List.getElem_mem hlt) args

/-! ## a step -/

theorem perform_grown (h : m'.Grows m Near) (hn : ∀ k ∈ n.nodes, k.Known m.registry)
    (hhole : n.isHole = false) (hw : world.Beside Near world') :
    World.Same Near (m.perform n s world) (m'.perform n s world') := by
  have hself : n.Known m.registry := hn n (Tree.mem_nodes_self hhole)
  have hcompute : m'.compute world'.state n s = m.compute world.state n s :=
    compute_grown h hself hw.state
  cases n with
  | call o f args =>
    unfold perform
    dsimp only
    rw [arguments_grown h hself]
    cases m.arguments o f args.length s with
    | error e => exact ⟨rfl, hw⟩
    | ok p =>
      obtain ⟨hvalue, hstate⟩ := reply_grown h hself p.2.1 hw.state
      dsimp only
      rw [hvalue, hw.calls]
      exact ⟨rfl, hstate, rfl⟩
  | binary o op l x =>
    unfold perform
    dsimp only
    by_cases hop : op.isAssignment = true
    · have hl : l.Known m.registry := Tree.known_operand hn (List.mem_cons_self ..)
      rw [if_pos hop, if_pos hop, assignment_grown h hl hw.state]
      cases hassign : m.assignment world.state o op l s with
      | error e => exact ⟨rfl, hw⟩
      | ok p =>
        obtain ⟨-, -, var, hvar, -⟩ := assignment_ok hassign
        have hlt : p.1 < m.registry.vars.length := lt_of_variableAt? ⟨var, hvar⟩
        exact ⟨rfl, h.unnoticed.store hw.state p.1 hlt p.2.1, hw.calls⟩
    · rw [if_neg hop, if_neg hop]
      exact ⟨hcompute, hw⟩
  | _ => exact ⟨hcompute, hw⟩

/-- A step of what refers to earlier declarations goes the same way among more of them. -/
theorem step_grown (h : m'.Grows m Near) (s : ValueStack)
    (hn : ∀ k ∈ n.nodes, k.Known m.registry) (hw : world.Beside Near world') :
    World.Same Near (m.step n s world) (m'.step n s world') := by
  cases hpass : n.passes with
  | true =>
    rw [step_of_passes hpass, step_of_passes hpass]
    exact ⟨rfl, hw⟩
  | false =>
    have hhole : n.isHole = false := by
      cases n with
      | hole => cases hpass
      | _ => rfl
    have hpush : ∀ p : Value × ValueStack, m'.push n.origin p.1 p.2 = m.push n.origin p.1 p.2 := by
      intro p
      unfold push
      rw [h.room]
    obtain ⟨houtcome, hworld⟩ := perform_grown (s := s) h hn hhole hw
    rw [step_eq_perform hpass, step_eq_perform hpass, houtcome]
    simp only [hpush]
    exact ⟨rfl, hworld⟩

/-! ## runs -/

theorem run_grown (h : m'.Grows m Near) {ts : List Tree}
    (hts : ∀ n ∈ ts, ∀ k ∈ n.nodes, k.Known m.registry) (hw : world.Beside Near world') :
    World.Same Near (m.run ts s world) (m'.run ts s world') := by
  induction ts generalizing s world world' with
  | nil => exact ⟨rfl, hw⟩
  | cons n ts ih =>
    obtain ⟨hn, hts⟩ := List.forall_mem_cons.1 hts
    have hstep := step_grown h s hn hw
    rw [run, run]
    cases hm : m.step n s world with
    | mk x next =>
      cases hm' : m'.step n s world' with
      | mk x' next' =>
        rw [hm, hm'] at hstep
        obtain ⟨rfl, hnext⟩ := hstep
        cases x' with
        | error e => exact ⟨rfl, hnext⟩
        | ok s' => exact ih hts hnext

theorem toggled?_grown (h : m'.Grows m Near) (ht : ∀ k ∈ t.nodes, k.Known m.registry) :
    toggled? m'.registry t = toggled? m.registry t := by
  unfold toggled?
  rw [h.interactive]
  cases t with
  | reference o x =>
    have hx : m'.registry.variableAt? x = m.registry.variableAt? x :=
      h.registry.variableAt?_eq (ht _ (List.mem_singleton_self _))
    dsimp only [Tree.singleVariable?, Option.bind]
    rw [hx]
  | _ => rfl

theorem toggle_grown (h : m'.Grows m Near) (hx : ∃ var, m.registry.variableAt? x = some var)
    (var : Variable) (hw : world.Beside Near world') :
    World.Same Near (toggle o x var world) (toggle o x var world') := by
  unfold toggle
  rw [readBinding_grown h hw.state hx]
  cases located o (readBinding world.state x var) with
  | error e => exact ⟨rfl, hw⟩
  | ok old => exact ⟨rfl, h.unnoticed.store hw.state x (lt_of_variableAt? hx) _, hw.calls⟩

/-- An evaluation of what refers to earlier declarations goes the same way among more of them. -/
theorem evaluate_grown (h : m'.Grows m Near) (ht : ∀ k ∈ t.nodes, k.Known m.registry)
    (hw : world.Beside Near world') :
    World.Same Near (m.evaluate t world) (m'.evaluate t world') := by
  have htoggled := toggled?_grown h ht
  cases htoggle : toggled? m.registry t with
  | none =>
    have hschedule : ∀ n ∈ t.schedule, ∀ k ∈ n.nodes, k.Known m.registry := fun n hn k hk =>
      ht k (Tree.mem_nodes_trans (Tree.mem_nodes_of_mem_schedule hn) hk)
    obtain ⟨houtcome, hworld⟩ := run_grown (s := []) h hschedule hw
    rw [htoggle] at htoggled
    rw [evaluate_eq_run htoggle, evaluate_eq_run htoggled, houtcome]
    exact ⟨rfl, hworld⟩
  | some p =>
    obtain ⟨⟨o, rfl⟩, hvar, -⟩ := toggled?_ok htoggle
    rw [htoggle] at htoggled
    unfold evaluate
    rw [htoggle, htoggled]
    exact toggle_grown h ⟨p.2, hvar⟩ p.2 hw

/-! ## what refers to nothing -/

section
variable {τ : Type} {m₀ : Machine τ} {ty : Typing}

theorem perform_closed (htypes : m₀.types = m.types) (hn : HasTyping .empty n ty)
    (s : ValueStack) (w₀ : World τ) (w : World σ) :
    m.perform n s w = ((m₀.perform n s w₀).1, w) := by
  cases hn with
  | reference declared => cases declared
  | assign _ declared => cases declared
  | call declared => cases declared
  | @operate o op l x _ _ _ plain =>
    have hplain : ¬ op.isAssignment = true := by
      rw [plain]
      exact Bool.false_ne_true
    unfold perform
    dsimp only
    rw [if_neg hplain, if_neg hplain]
    cases op <;> simp only [compute, htypes]
  | _ => simp only [perform, compute, htypes]

theorem step_closed (htypes : m₀.types = m.types) (hroom : m₀.maxValues = m.maxValues)
    (hn : HasTyping .empty n ty) (s : ValueStack) (w₀ : World τ) (w : World σ) :
    m.step n s w = ((m₀.step n s w₀).1, w) := by
  cases hpass : n.passes with
  | true => rw [step_of_passes hpass, step_of_passes hpass]
  | false =>
    rw [step_eq_perform hpass, step_eq_perform hpass, perform_closed htypes hn s w₀ w]
    simp only [push, hroom]

theorem run_closed (htypes : m₀.types = m.types) (hroom : m₀.maxValues = m.maxValues)
    {ts : List Tree} (hts : ∀ n ∈ ts, ∃ ty, HasTyping .empty n ty) (s : ValueStack)
    (w₀ : World τ) (w : World σ) : m.run ts s w = ((m₀.run ts s w₀).1, w) := by
  induction ts generalizing s with
  | nil => rfl
  | cons n ts ih =>
    obtain ⟨⟨ty, hn⟩, hts⟩ := List.forall_mem_cons.1 hts
    have hstep := step_closed htypes hroom hn s w₀ w
    have hstill : m₀.step n s w₀ = ((m₀.step n s w₀).1, w₀) := step_closed rfl rfl hn s w₀ w₀
    rw [run, run, hstep, hstill]
    cases (m₀.step n s w₀).1 with
    | error e => rfl
    | ok s' => exact ih hts s'

/-- What refers to no declaration has one value for all machines of its types and room, and does
nothing to the world. -/
theorem evaluate_closed (htypes : m₀.types = m.types) (hroom : m₀.maxValues = m.maxValues)
    (ht : ∀ k ∈ t.nodes, ∃ ty, HasTyping .empty k ty) (w₀ : World τ) (w : World σ) :
    m.evaluate t w = ((m₀.evaluate t w₀).1, w) := by
  have hplain : ∀ r : Registry, toggled? r t = none := by
    intro r
    cases htoggle : toggled? r t with
    | none => rfl
    | some p =>
      obtain ⟨⟨o, rfl⟩, -, -⟩ := toggled?_ok htoggle
      obtain ⟨ty, hty⟩ := ht _ (List.mem_singleton_self _)
      cases hty with
      | reference declared => cases declared
  rw [evaluate_eq_run (hplain _), evaluate_eq_run (hplain _), run_closed htypes hroom
    (fun n hn => ht n (Tree.mem_nodes_of_mem_schedule hn)) [] w₀ w]

end

end Machine
end ExprEngine
