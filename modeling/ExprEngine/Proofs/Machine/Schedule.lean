import ExprEngine.Proofs.Machine.Meaning
import ExprEngine.Proofs.Machine.Run

/-!
# The machine computes the meaning

A schedule, followed by any other parts, runs like those parts with the value of the tree on the
stack, provided that the stack has room for what the tree demands.

* `Tree.demand`         the room that a tree demands;
* `Machine.execute`     a run as a computation on the world;
* `Machine.Pushes`      a part that finds its operands on the stack;
* `realizes`            a schedule leaves the value of its tree;
* `evaluate_eq_eval`    an evaluation gives the value of the tree and the world it leaves.
-/

namespace ExprEngine

mutual

/-- The room that a tree demands: while an operand is evaluated, the values of those before it lie
on the stack. -/
def Tree.demand : Tree → Nat
  | .hole => 0
  | .constant _ _ => 1
  | .reference _ _ => 1
  | .unary _ _ x => x.demand
  | .binary _ op l x => if op.isAssignment then x.demand else max l.demand (x.demand + 1)
  | .choice _ c y n => max c.demand (max (y.demand + 1) (n.demand + 2))
  | .cast _ _ x => x.demand
  | .group _ x => x.demand
  | .call _ _ args => max 1 (demandAll args)

/-- The room for the values of some trees, one after the other. -/
def demandAll : List Tree → Nat
  | [] => 0
  | t :: ts => max t.demand (demandAll ts + 1)

end

theorem Tree.demand_pos {t : Tree} (h : t.Complete) : 0 < t.demand := by
  induction t using Tree.operand_induction with
  | part t ih =>
    have hbelow : ∀ x ∈ t.operands, 0 < x.demand := fun x hx => ih x hx (h.operands x hx)
    cases t with
    | hole => exact h.elim
    | constant => exact Nat.one_pos
    | reference => exact Nat.one_pos
    | unary o op x => exact hbelow x (List.mem_singleton_self x)
    | cast o type x => exact hbelow x (List.mem_singleton_self x)
    | group o x => exact hbelow x (List.mem_singleton_self x)
    | choice o c y n =>
      rw [demand]
      omega
    | call o f args =>
      rw [demand]
      omega
    | binary o op l x =>
      have hx : 0 < x.demand := hbelow x (by simp [operands])
      rw [demand]
      split <;> omega

variable {σ : Type}

theorem Setting.read_apply {o : Origin} {x : VarId} {v : Variable} {w : World σ} :
    Setting.read o x v w = (Machine.located o (Machine.readBinding w.state x v), w) :=
  Evaluation.lift_apply (w := w)

namespace Machine

/-- What the machine knows, its bound apart. -/
def setting (m : Machine σ) : Setting σ := ⟨m.registry, m.callbacks, m.types⟩

/-- A step as a computation on the world. -/
def stepping (m : Machine σ) (t : Tree) (s : ValueStack) : Evaluation σ ValueStack :=
  fun w => m.step t s w

/-- A run as a computation on the world. -/
def execute (m : Machine σ) (ts : List Tree) (s : ValueStack) : Evaluation σ ValueStack :=
  fun w => m.run ts s w

variable {m : Machine σ} {o : Origin} {t l x : Tree} {ts rest : List Tree} {s : ValueStack}
  {v : Value} {below : ValueStack}

theorem execute_cons : m.execute (t :: ts) s = m.stepping t s >>= m.execute ts := by
  funext w
  show m.run (t :: ts) s w = _
  rw [Evaluation.bind_apply, run]
  rcases hstep : m.step t s w with ⟨_ | s', w'⟩
  · have hx : m.stepping t s w = _ := hstep
    rw [hx]
  · have hx : m.stepping t s w = _ := hstep
    rw [hx]
    rfl

/-! ## a part with its operands on the stack -/

/-- A part that pushes what a computation yields, in the place of its operands, if there is room
for it. -/
def Pushes (m : Machine σ) (t : Tree) (s : ValueStack) (c : Evaluation σ Value)
    (below : ValueStack) : Prop :=
  below.length < m.maxValues → m.stepping t s = (do let v ← c; return v :: below)

theorem Pushes.execute {c : Evaluation σ Value} (h : m.Pushes t s c below)
    (room : below.length < m.maxValues) :
    m.execute (t :: rest) s = c >>= fun v => m.execute rest (v :: below) := by
  rw [execute_cons, h room, bind_assoc]
  simp only [pure_bind]

theorem pushes_of_perform {c : Evaluation σ Value} (ht : t.passes = false)
    (hc : ∀ w, m.perform t s w = ((c w).1.map fun v => (v, below), (c w).2)) :
    m.Pushes t s c below := by
  intro room
  funext w
  show m.step t s w = _
  rw [step_eq_perform ht, hc, Evaluation.bind_apply]
  rcases c w with ⟨_ | v, w'⟩
  · rfl
  · have hpush : m.push t.origin v below = .ok (v :: below) := push_eq_ok.2 ⟨room, rfl⟩
    show (m.push t.origin v below, w') = _
    rw [hpush]
    rfl

/-- A part that only computes leaves the world alone. -/
theorem pushes_of_compute {c : Except EvalError Value} (ht : t.passes = false)
    (hc : ∀ w, m.perform t s w = (c >>= fun v => pure (v, below), w)) :
    m.Pushes t s (liftM c) below := by
  refine pushes_of_perform ht fun w => ?_
  rw [hc, Evaluation.lift_apply]
  cases c <;> rfl

theorem pushes_constant : m.Pushes (.constant o v) s (pure v) s :=
  pushes_of_compute (c := .ok v) rfl fun _ => rfl

theorem pushes_cast {type : ValueType} :
    m.Pushes (.cast o type x) (v :: s) (liftM (convert o v type)) s :=
  pushes_of_compute rfl fun _ => rfl

theorem pushes_unary {op : UnaryOp} :
    m.Pushes (.unary o op x) (v :: s) (do
      let v ← convert o v (m.types.operand o.id)
      located o (op.apply v)) s := by
  rw [← liftM_bind]
  refine pushes_of_compute rfl fun w => ?_
  rw [bind_assoc]
  rfl

theorem pushes_choice {c y n : Tree} {cond yes no : Value} :
    m.Pushes (.choice o c y n) (no :: yes :: cond :: s) (do
      let b ← located o cond.truth
      convert o (if b then yes else no) (m.types.result o.id)) s := by
  rw [← liftM_bind]
  refine pushes_of_compute rfl fun w => ?_
  rw [bind_assoc]
  rfl

theorem pushes_operate {op : BinaryOp} {left right : Value} (plain : op.isAssignment = false) :
    m.Pushes (.binary o op l x) (right :: left :: s) (m.setting.operate o op left right) s := by
  have hperform : ∀ s w, m.perform (.binary o op l x) s w =
      (m.compute w.state (.binary o op l x) s, w) := fun s w =>
    if_neg (by rw [plain]; exact Bool.false_ne_true)
  by_cases hlogic : ∃ c, op = .logic c
  · obtain ⟨c, rfl⟩ := hlogic
    exact pushes_of_compute rfl fun w => hperform _ w
  · have hop : ∀ c, op ≠ .logic c := fun c hc => hlogic ⟨c, hc⟩
    have hoperate : m.setting.operate o op left right = liftM (do
        let left ← convert o left (m.types.operand o.id)
        let right ← convert o right (m.types.operand o.id)
        located o (op.apply left right)) := by
      rw [Setting.operate]
      · simp only [liftM_bind]
        rfl
      · exact hop
    rw [hoperate]
    refine pushes_of_compute rfl fun w => ?_
    rw [hperform, compute_binary hop]
    simp only [bind_assoc]
    rfl

theorem setting_declared {y : VarId} :
    m.setting.declared o y = (liftM (m.declared o y) : Evaluation σ Variable) := by
  unfold Setting.declared declared
  rw [show m.setting.registry = m.registry from rfl]
  cases m.registry.variableAt? y <;> rfl

theorem pushes_reference {y : VarId} :
    m.Pushes (.reference o y) s (do
      let v ← m.setting.declared o y
      Setting.read o y v) s := by
  refine pushes_of_perform rfl fun w => ?_
  show ((do
    let v ← m.declared o y
    let u ← located o (readBinding w.state y v)
    return (u, s)), w) = _
  rw [Evaluation.bind_apply, setting_declared, Evaluation.lift_apply]
  cases m.declared o y with
  | error e => rfl
  | ok v =>
    dsimp only
    rw [Setting.read_apply]
    show ((do
      let u ← located o (readBinding w.state y v)
      return (u, s)), w) = _
    cases located o (readBinding w.state y v) <;> rfl

/-- What an assignment stores, read off the state. -/
def stored (m : Machine σ) (o : Origin) (op : BinaryOp) (y : VarId) (u : Variable) (v : Value)
    (w : State σ) : Except EvalError Value :=
  match op with
  | .compound c => do
    let old ← located o (readBinding w y u)
    let old ← convert o old (m.types.operand o.id)
    let v ← convert o v (m.types.operand o.id)
    let combined ← located o (c.base.apply old v)
    convert o combined u.type
  | _ => convert o v u.type

theorem combine_apply {op : BinaryOp} {y : VarId} {u : Variable} {w : World σ} :
    m.setting.combine o op y u v w = (m.stored o op y u v w.state, w) := by
  cases op with
  | compound c =>
    have hpure : ∀ old, (do
        let old ← convert o old (m.setting.types.operand o.id)
        let v ← convert o v (m.setting.types.operand o.id)
        let combined ← located o (c.base.apply old v)
        convert o combined u.type : Evaluation σ Value) = liftM (do
          let old ← convert o old (m.types.operand o.id)
          let v ← convert o v (m.types.operand o.id)
          let combined ← located o (c.base.apply old v)
          convert o combined u.type) := by
      intro old
      simp only [liftM_bind]
      rfl
    unfold Setting.combine
    dsimp only
    simp only [hpure]
    rw [Evaluation.bind_apply, Setting.read_apply]
    unfold stored
    dsimp only
    cases located o (readBinding w.state y u) with
    | error e => rfl
    | ok old => exact Evaluation.lift_apply
  | _ => exact Evaluation.lift_apply

theorem assignment_reference {op : BinaryOp} {o' : Origin} {y : VarId} {w : State σ} :
    m.assignment w o op (.reference o' y) (v :: s) = (do
      let u ← m.declared o y
      let new ← m.stored o op y u v w
      return (y, new, s)) := by
  cases op with
  | compound c =>
    show (do
      let u ← m.declared o y
      let old ← located o (readBinding w y u)
      let old ← convert o old (m.types.operand o.id)
      let v ← convert o v (m.types.operand o.id)
      let combined ← located o (c.base.apply old v)
      let new ← convert o combined u.type
      return (y, new, s)) = _
    simp only [stored, bind_assoc]
  | _ => rfl

theorem pushes_assign {op : BinaryOp} (assigns : op.isAssignment = true) :
    m.Pushes (.binary o op l x) (v :: s) (m.setting.assign o op l v) s := by
  refine pushes_of_perform rfl fun w => ?_
  unfold perform
  dsimp only
  rw [if_pos assigns]
  cases l with
  | reference o' y =>
    rw [assignment_reference]
    simp only [Setting.assign, Setting.target, bind_assoc, pure_bind, setting_declared]
    rw [Evaluation.bind_apply, Evaluation.lift_apply]
    cases m.declared o y with
    | error e => rfl
    | ok u =>
      dsimp only
      rw [Evaluation.bind_apply, combine_apply]
      rw [ok_bind]
      cases m.stored o op y u v w.state <;> rfl
  | _ => rfl

theorem invoke_apply {f : FuncId} {args : List Value} {w : World σ} :
    m.setting.invoke f args w = (.ok (m.reply f args w.state).value,
      ⟨w.state.afterReply m.registry (m.reply f args w.state), w.calls ++ [⟨f, args⟩]⟩) := rfl

theorem pushes_call {f : FuncId} {args : List Tree} {vs : List Value}
    (count : vs.length = args.length) :
    m.Pushes (.call o f args) (vs.reverse ++ s) (m.setting.call o f vs) s := by
  refine pushes_of_perform rfl fun w => ?_
  have hpop : popMany o args.length (vs.reverse ++ s) = pure (vs, s) := by
    unfold popMany
    have hlength : vs.reverse.length = args.length := by rw [List.length_reverse, count]
    rw [if_neg (by rw [List.length_append]; omega), ← hlength, List.take_left, List.drop_left,
      List.reverse_reverse]
    rfl
  unfold perform arguments Setting.call
  dsimp only
  rw [hpop, pure_bind, show m.setting.registry = m.registry from rfl]
  cases m.registry.functionAt? f with
  | none => rfl
  | some sig =>
    by_cases harity : vs.length ≠ sig.arity
    · simp only [if_pos harity]
      rfl
    · simp only [if_neg harity]
      rw [Evaluation.bind_apply, Evaluation.lift_apply]
      cases convertArguments o vs sig.parameters with
      | error e => rfl
      | ok args =>
        dsimp only
        rw [Evaluation.bind_apply, invoke_apply]
        dsimp only
        rw [Evaluation.lift_apply]
        rfl

/-! ## a schedule -/

/-- The schedule of a tree, before any other parts, leaves the value of the tree to them. -/
def Realizes (m : Machine σ) (t : Tree) : Prop :=
  ∀ rest s, s.length + t.demand ≤ m.maxValues →
    m.execute (t.schedule ++ rest) s = t.eval m.setting >>= fun v => m.execute rest (v :: s)

theorem execute_scheduleAll (h : ∀ t ∈ ts, m.Realizes t)
    (room : s.length + demandAll ts ≤ m.maxValues) :
    m.execute (scheduleAll ts ++ rest) s =
      Tree.evalAll m.setting ts >>= fun vs => m.execute rest (vs.reverse ++ s) := by
  induction ts generalizing s with
  | nil =>
    rw [scheduleAll, Tree.evalAll, pure_bind]
    rfl
  | cons t ts ih =>
    rw [demandAll] at room
    rw [scheduleAll, List.append_assoc, h t (List.mem_cons_self ..) _ _ (by omega), Tree.evalAll,
      bind_assoc]
    refine bind_congr fun v => ?_
    have hrest := ih (s := v :: s) (fun u hu => h u (List.mem_cons_of_mem _ hu)) (by
      rw [List.length_cons]
      omega)
    rw [hrest, bind_assoc]
    refine bind_congr fun vs => ?_
    rw [pure_bind, List.reverse_cons, List.append_assoc]
    rfl

theorem length_evalAll {g : Setting σ} {vs : List Value} {w w' : World σ}
    (h : Tree.evalAll g ts w = (.ok vs, w')) : vs.length = ts.length := by
  induction ts generalizing vs w with
  | nil =>
    cases h
    rfl
  | cons t ts ih =>
    rw [Tree.evalAll, Evaluation.bind_apply] at h
    rcases hfirst : t.eval g w with ⟨_ | v, w₁⟩
    · rw [hfirst] at h
      cases h
    · rw [hfirst] at h
      dsimp only at h
      rw [Evaluation.bind_apply] at h
      rcases hrest : Tree.evalAll g ts w₁ with ⟨_ | us, w₂⟩
      · rw [hrest] at h
        cases h
      · rw [hrest] at h
        cases h
        rw [List.length_cons, List.length_cons, ih hrest]

theorem realizes_call {f : FuncId} {args : List Tree} (h : ∀ t ∈ args, m.Realizes t) :
    m.Realizes (.call o f args) := by
  intro rest s room
  rw [Tree.demand] at room
  rw [Tree.schedule, List.append_assoc, execute_scheduleAll h (by omega), Tree.eval, bind_assoc]
  -- that as many values arrive as the call pops is known only once the arguments have succeeded
  funext w
  rw [Evaluation.bind_apply, Evaluation.bind_apply]
  rcases hargs : Tree.evalAll m.setting args w with ⟨_ | vs, w'⟩
  · rfl
  · dsimp only
    rw [List.singleton_append, (pushes_call (length_evalAll hargs)).execute (by omega)]

theorem realizes_leaf (schedule : t.schedule = [t]) (demand : t.demand = 1)
    (pushes : ∀ s, m.Pushes t s (t.eval m.setting) s) : m.Realizes t := by
  intro rest s room
  rw [schedule, List.singleton_append, (pushes s).execute (by omega)]

/-- A part with one operand to evaluate. -/
theorem realizes_operand {c : Value → Evaluation σ Value} (hx : m.Realizes x)
    (pos : 0 < x.demand) (schedule : t.schedule = x.schedule ++ [t])
    (demand : t.demand = x.demand) (eval : t.eval m.setting = x.eval m.setting >>= c)
    (pushes : ∀ v s, m.Pushes t (v :: s) (c v) s) : m.Realizes t := by
  intro rest s room
  rw [demand] at room
  rw [schedule, List.append_assoc, hx _ _ room, eval, bind_assoc]
  refine bind_congr fun v => ?_
  rw [List.singleton_append, (pushes v s).execute (by omega)]

theorem realizes_assignment {op : BinaryOp} (assigns : op.isAssignment = true)
    (hl : l.isHole = false) (hx : m.Realizes x) (pos : 0 < x.demand) :
    m.Realizes (.binary o op l x) := by
  refine realizes_operand hx pos ?_ ?_ ?_ fun v s => pushes_assign assigns
  · rw [Tree.schedule, if_pos assigns, if_neg (by rw [hl]; exact Bool.false_ne_true)]
  · rw [Tree.demand, if_pos assigns]
  · rw [Tree.eval, if_pos assigns]

theorem realizes_binary {op : BinaryOp} (plain : op.isAssignment = false) (hl : m.Realizes l)
    (hx : m.Realizes x) (pos : 0 < l.demand) : m.Realizes (.binary o op l x) := by
  have hplain : ¬ op.isAssignment = true := by
    rw [plain]
    exact Bool.false_ne_true
  intro rest s room
  rw [Tree.demand, if_neg hplain] at room
  rw [Tree.schedule, if_neg hplain, List.append_assoc, List.append_assoc, hl _ _ (by omega),
    Tree.eval, if_neg hplain, bind_assoc]
  refine bind_congr fun left => ?_
  rw [hx _ _ (by rw [List.length_cons]; omega), bind_assoc]
  refine bind_congr fun right => ?_
  rw [List.singleton_append, (pushes_operate plain).execute (by omega)]

theorem realizes_choice {c y n : Tree} (hc : m.Realizes c) (hy : m.Realizes y)
    (hn : m.Realizes n) (pos : 0 < c.demand) : m.Realizes (.choice o c y n) := by
  intro rest s room
  rw [Tree.demand] at room
  rw [Tree.schedule, List.append_assoc, List.append_assoc, List.append_assoc, hc _ _ (by omega),
    Tree.eval, bind_assoc]
  refine bind_congr fun cond => ?_
  rw [hy _ _ (by rw [List.length_cons]; omega), bind_assoc]
  refine bind_congr fun yes => ?_
  rw [hn _ _ (by rw [List.length_cons, List.length_cons]; omega), bind_assoc]
  refine bind_congr fun no => ?_
  rw [List.singleton_append, pushes_choice.execute (by omega)]
  rfl

theorem realizes (h : t.Complete) : m.Realizes t := by
  induction t using Tree.operand_induction with
  | part t ih =>
    have hbelow : ∀ x ∈ t.operands, m.Realizes x := fun x hx => ih x hx (h.operands x hx)
    have hpos : ∀ x ∈ t.operands, 0 < x.demand := fun x hx => Tree.demand_pos (h.operands x hx)
    cases t with
    | hole => exact h.elim
    | constant o v => exact realizes_leaf rfl rfl fun s => pushes_constant
    | reference o y => exact realizes_leaf rfl rfl fun s => pushes_reference
    | call o f args => exact realizes_call hbelow
    | group o x =>
      intro rest s room
      rw [Tree.schedule, List.append_assoc, hbelow x (List.mem_singleton_self x) _ _ room, Tree.eval]
      rfl
    | cast o type x =>
      have hx := List.mem_singleton_self x
      exact realizes_operand (hbelow x hx) (hpos x hx) rfl rfl rfl fun v s => pushes_cast
    | unary o op x =>
      have hx := List.mem_singleton_self x
      exact realizes_operand (hbelow x hx) (hpos x hx) rfl rfl rfl fun v s => pushes_unary
    | choice o c y n =>
      have hc : c ∈ [c, y, n] := by simp
      have hy : y ∈ [c, y, n] := by simp
      have hn : n ∈ [c, y, n] := by simp
      exact realizes_choice (hbelow c hc) (hbelow y hy) (hbelow n hn) (hpos c hc)
    | binary o op l x =>
      have hl : l ∈ [l, x] := by simp
      have hx : x ∈ [l, x] := by simp
      cases hop : op.isAssignment with
      | true => exact realizes_assignment hop h.1.isHole (hbelow x hx) (hpos x hx)
      | false => exact realizes_binary hop (hbelow l hl) (hbelow x hx) (hpos l hl)

/-! ## evaluations -/

/-- With room for what a tree demands, its schedule leaves its value and the same world. -/
theorem run_schedule (ht : t.Complete) (room : t.demand ≤ m.maxValues)
    (w : World σ) :
    m.run t.schedule [] w = ((t.eval m.setting w).1.map fun v => [v], (t.eval m.setting w).2) := by
  have hroom : ([] : ValueStack).length + t.demand ≤ m.maxValues := by
    rw [List.length_nil]
    omega
  have hexec := congrFun (realizes ht [] [] hroom) w
  rw [List.append_nil, Evaluation.bind_apply] at hexec
  refine hexec.trans ?_
  rcases t.eval m.setting w with ⟨_ | v, w'⟩ <;> rfl

theorem run_schedule_ok (ht : t.Complete) (room : t.demand ≤ m.maxValues)
    {w w' : World σ} {v : Value} :
    m.run t.schedule [] w = (.ok [v], w') ↔ t.eval m.setting w = (.ok v, w') := by
  rw [run_schedule ht room, Prod.mk.injEq, Prod.ext_iff, map_eq_ok]
  refine and_congr_left fun _ => ⟨?_, fun h => ⟨v, h, rfl⟩⟩
  rintro ⟨u, hu, huv⟩
  rw [hu, List.singleton_inj.1 huv]

/-- With room for what a tree demands, an evaluation computes its value. -/
theorem evaluate_eq_eval {w : World σ} (ht : t.Complete) (plain : toggled? m.registry t = none)
    (room : t.demand ≤ m.maxValues) : m.evaluate t w = t.eval m.setting w := by
  rw [evaluate_eq_run plain, run_schedule ht room]
  rcases t.eval m.setting w with ⟨_ | v, w'⟩ <;> rfl

/-- An evaluation that did not want for room computes the value of the tree. -/
theorem evaluate_of_not_overflows {w : World σ} (ht : t.Complete)
    (plain : toggled? m.registry t = none) (h : ¬ Overflows (m.evaluate t w).1) :
    m.evaluate t w = t.eval m.setting w := by
  -- a machine with room for both goes the same way, and computes the value
  let wide := m.widen (max m.maxValues t.demand)
  have hwide : wide.evaluate t w = m.evaluate t w := evaluate_widen (Nat.le_max_left ..) h
  rw [← hwide]
  exact evaluate_eq_eval (m := wide) ht plain (Nat.le_max_right ..)

end Machine
end ExprEngine
