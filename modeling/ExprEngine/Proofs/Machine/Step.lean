import ExprEngine.Machine
import ExprEngine.Proofs.Machine.Operation
import ExprEngine.Proofs.Typing.Judgement

/-!
# A typed step

What a part does to a stack is determined by the types of the values on it. A part that finds
operands of the types that its rule was checked for leaves a value of its own type in their place,
or fails for a reason that no checker can foresee.

* `EvalCause.Expected`   the reasons that remain after checking;
* `Safely`               a computation that succeeds with something, or fails for such a reason;
* `Machine.Executes`     the effect of a part on the types of the stack;
* `step_safe`            a step has that effect.
-/

namespace ExprEngine

/-! ## expected failures -/

/-- The reasons for which a checked expression may still have no value. -/
def EvalCause.Expected : EvalCause → Prop
  | .divideByZero => True
  | .bindingType _ _ _ => True
  | .returnType _ _ _ => True
  | .valueOverflow _ => True
  | _ => False

/-- A computation that gives something with a property, or fails for an expected reason. -/
def Safely {α : Type} (x : Except EvalError α) (P : α → Prop) : Prop :=
  (∃ a, x = .ok a ∧ P a) ∨ (∃ e, x = .error e ∧ e.cause.Expected)

section
variable {α β : Type} {x : Except EvalError α} {P Q : α → Prop}

theorem Safely.ok {a : α} (h : P a) : Safely (.ok a) P := .inl ⟨a, rfl, h⟩

theorem Safely.error {e : EvalError} (h : e.cause.Expected) : Safely (.error e) P :=
  .inr ⟨e, rfl, h⟩

theorem Safely.of_ok {a : α} (h : Safely (.ok a) P) : P a := by
  rcases h with ⟨b, hb, hP⟩ | ⟨e, he, -⟩
  · rw [Except.ok.inj hb]
    exact hP
  · cases he

theorem Safely.bind {f : α → Except EvalError β} {R : β → Prop} (h : Safely x P)
    (hf : ∀ a, P a → Safely (f a) R) : Safely (x >>= f) R := by
  rcases h with ⟨a, rfl, ha⟩ | ⟨e, rfl, he⟩
  · exact hf a ha
  · exact .error he

end

/-- A call whose arguments are those that its function declares. -/
def Call.Fits (r : Registry) (c : Call) : Prop :=
  ∃ s, r.functionAt? c.function = some s ∧
    c.args.map Value.type = s.parameters.map Parameter.type

namespace Machine

variable {σ : Type} {m : Machine σ} {o : Origin} {s : ValueStack} {w : State σ}
  {a b t : ValueType} {S : List ValueType}

/-! ## the pieces of a step -/

/-- A value of a type, and a stack of types. -/
def Leaves (t : ValueType) (S : List ValueType) (p : Value × ValueStack) : Prop :=
  p.1.type = t ∧ p.2.map Value.type = S

theorem pop_safe (hs : s.map Value.type = a :: S) : Safely (pop o s) (Leaves a S) := by
  obtain ⟨v, s', rfl, hv, hs'⟩ := List.map_eq_cons_iff.1 hs
  exact .ok ⟨hv, hs'⟩

theorem convert_safe {v : Value} (h : v.type.castsTo t = true) :
    Safely (convert o v t) fun u => u.type = t := by
  obtain ⟨u, hu, ht⟩ := Value.cast?_of_castsTo h
  unfold convert
  rw [hu]
  exact .ok ht

theorem located_safe {x : Except EvalCause Value} (h : Yields x t) :
    Safely (located o x) fun v => v.type = t := by
  rcases h with ⟨v, rfl, hv⟩ | rfl
  · exact .ok hv
  · exact .error trivial

theorem truth_safe {v : Value} (h : v.type.isBoolable = true) :
    Safely (located o v.truth) fun _ => True := by
  obtain ⟨x, hx⟩ := Value.truth_of_isBoolable h
  rw [hx]
  exact .ok trivial

theorem readBinding_safe {x : VarId} {v : Variable} :
    Safely (located o (readBinding w x v)) fun u => u.type = v.type := by
  unfold readBinding
  split
  · rename_i u hu
    exact .ok (Value.type_of_cast? hu)
  · exact .error trivial

theorem declared_safe {x : VarId} {v : Variable} (h : m.registry.variableAt? x = some v) :
    Safely (m.declared o x) fun u => u = v := by
  unfold declared
  rw [h]
  exact .ok rfl

theorem push_safe {v : Value} (hv : v.type = t) (hs : s.map Value.type = S) :
    Safely (m.push o v s) fun s' => s'.map Value.type = t :: S := by
  unfold push
  split
  · exact .error trivial
  · exact .ok (by rw [List.map_cons, hv, hs])

theorem convertArguments_safe {vs : List Value} {ps : List Parameter}
    (h : List.Forall₂ (fun v p => v.type.castsTo p.type = true) vs ps) :
    Safely (convertArguments o vs ps) fun us =>
      us.map Value.type = ps.map Parameter.type := by
  induction h with
  | nil => exact .ok rfl
  | cons hv _ ih =>
    unfold convertArguments
    refine (convert_safe hv).bind fun u hu => ih.bind fun us hus => .ok ?_
    rw [List.map_cons, List.map_cons, hu, hus]

theorem popMany_safe {as : List ValueType} (hs : s.map Value.type = as.reverse ++ S) :
    Safely (popMany o as.length s) fun p =>
      p.1.map Value.type = as ∧ p.2.map Value.type = S := by
  have hlen : ¬ s.length < as.length := by
    have h := congrArg List.length hs
    rw [List.length_map, List.length_append, List.length_reverse] at h
    omega
  unfold popMany
  rw [if_neg hlen]
  refine .ok ⟨?_, ?_⟩
  · rw [List.map_reverse, List.map_take, hs, List.take_left' (List.length_reverse ..),
      List.reverse_reverse]
  · rw [List.map_drop, hs, List.drop_left' (List.length_reverse ..)]

theorem returned_safe {sig : Signature} {v : Value} :
    Safely (returned o sig v) fun u => u.type = sig.returns := by
  unfold returned
  split
  · rename_i u hu
    exact .ok (Value.type_of_cast? hu)
  · exact .error trivial

/-! ## parts that compute -/

theorem compute_reference {x : VarId} {v : Variable} (h : m.registry.variableAt? x = some v)
    (hs : s.map Value.type = S) :
    Safely (m.compute w (.reference o x) s) (Leaves v.type S) := by
  unfold compute
  refine (declared_safe h).bind fun u hu => ?_
  rw [hu]
  exact readBinding_safe.bind fun y hy => .ok ⟨hy, hs⟩

theorem compute_cast {x : Tree} {target : ValueType} (h : a.castsTo target = true)
    (hs : s.map Value.type = a :: S) :
    Safely (m.compute w (.cast o target x) s) (Leaves target S) := by
  unfold compute
  refine (pop_safe hs).bind fun p hp => ?_
  rw [← hp.1] at h
  exact (convert_safe h).bind fun u hu => .ok ⟨hu, hp.2⟩

theorem compute_unary {op : UnaryOp} {x : Tree} (rule : unaryType op a = .ok t)
    (operand : m.types.operand o.id = t) (hs : s.map Value.type = a :: S) :
    Safely (m.compute w (.unary o op x) s) (Leaves t S) := by
  obtain ⟨hcast, happly⟩ := UnaryOp.apply_ok rule
  unfold compute
  refine (pop_safe hs).bind fun p hp => ?_
  rw [← hp.1] at hcast
  rw [operand]
  refine (convert_safe hcast).bind fun u hu => ?_
  exact (located_safe (happly u hu)).bind fun y hy => .ok ⟨hy, hp.2⟩

theorem compute_choice {c y n : Tree} {tc ty tn : ValueType} (truth : tc.isBoolable = true)
    (rule : branchType ty tn = .ok t) (result : m.types.result o.id = t)
    (hs : s.map Value.type = tn :: ty :: tc :: S) :
    Safely (m.compute w (.choice o c y n) s) (Leaves t S) := by
  obtain ⟨hyes, hno⟩ := branchType_ok rule
  unfold compute
  refine (pop_safe hs).bind fun no hn => (pop_safe hn.2).bind fun yes hy =>
    (pop_safe hy.2).bind fun cond hc => ?_
  rw [← hc.1] at truth
  refine (truth_safe truth).bind fun b _ => ?_
  have hpicked : (if b then yes.1 else no.1).type.castsTo t = true := by
    cases b with
    | true =>
      rw [← hy.1] at hyes
      exact hyes
    | false =>
      rw [← hn.1] at hno
      exact hno
  rw [result]
  exact (convert_safe hpicked).bind fun u hu => .ok ⟨hu, hc.2⟩

/-- A connective takes its operands as they are. -/
theorem compute_logic {op : LogicOp} {l x : Tree} (ha : a.isBoolable = true)
    (hb : b.isBoolable = true) (hs : s.map Value.type = b :: a :: S) :
    Safely (m.compute w (.binary o (.logic op) l x) s) (Leaves .bool S) := by
  unfold compute
  refine (pop_safe hs).bind fun right hr => (pop_safe hr.2).bind fun left hl => ?_
  rw [← hl.1] at ha
  rw [← hr.1] at hb
  exact (located_safe (op.apply_ok ha hb)).bind fun u hu => .ok ⟨hu, hl.2⟩

theorem compute_binary {op : BinaryOp} {l x : Tree} (hop : ∀ c, op ≠ .logic c) :
    m.compute w (.binary o op l x) s = (do
      let (right, s) ← pop o s
      let (left, s) ← pop o s
      let left ← convert o left (m.types.operand o.id)
      let right ← convert o right (m.types.operand o.id)
      let u ← located o (op.apply left right)
      return (u, s)) := by
  cases op with
  | logic c => exact absurd rfl (hop c)
  | _ => rfl

/-- Any other operator has them converted first. -/
theorem compute_converted {op : BinaryOp} {l x : Tree} {u : ValueType}
    (hop : ∀ c, op ≠ .logic c) (ha : a.castsTo t = true) (hb : b.castsTo t = true)
    (happly : ∀ y z : Value, y.type = t → z.type = t → Yields (op.apply y z) u)
    (operand : m.types.operand o.id = t) (hs : s.map Value.type = b :: a :: S) :
    Safely (m.compute w (.binary o op l x) s) (Leaves u S) := by
  rw [compute_binary hop, operand]
  refine (pop_safe hs).bind fun right hr => (pop_safe hr.2).bind fun left hl => ?_
  rw [← hl.1] at ha
  rw [← hr.1] at hb
  refine (convert_safe ha).bind fun y hy => (convert_safe hb).bind fun z hz => ?_
  exact (located_safe (happly y z hy hz)).bind fun v hv => .ok ⟨hv, hl.2⟩

theorem compute_operate {op : BinaryOp} {l x : Tree} (plain : op.isAssignment = false)
    (rule : infixType op a b = .ok t) (operand : m.types.operand o.id = t)
    (hs : s.map Value.type = b :: a :: S) :
    Safely (m.compute w (.binary o op l x) s) (Leaves (infixTyping op t).result S) := by
  cases op with
  | arith op =>
    obtain ⟨ha, hb, ht⟩ := arithmeticType_ok rule
    exact compute_converted nofun (ValueType.castsTo_of_isNumeric ha ht)
      (ValueType.castsTo_of_isNumeric hb ht)
      (fun y z hy hz => BinaryOp.apply_arith op hy hz ht) operand hs
  | bits op =>
    obtain ⟨ha, hb, hi⟩ := bitwiseType_ok rule
    have ht := ValueType.isNumeric_of_isInteger hi
    exact compute_converted nofun
      (ValueType.castsTo_of_isNumeric (ValueType.isNumeric_of_isInteger ha) ht)
      (ValueType.castsTo_of_isNumeric (ValueType.isNumeric_of_isInteger hb) ht)
      (fun y z hy hz => BinaryOp.apply_bits op hy hz hi) operand hs
  | compare op =>
    have hcasts : a.castsTo t = true ∧ b.castsTo t = true := by
      rcases comparisonType_ok rule with ⟨ha, hb, ht⟩ | ⟨rfl, rfl, -, -⟩
      · exact ⟨ValueType.castsTo_of_isNumeric ha ht, ValueType.castsTo_of_isNumeric hb ht⟩
      · exact ⟨ValueType.castsTo_self _, ValueType.castsTo_self _⟩
    exact compute_converted nofun hcasts.1 hcasts.2
      (fun y z hy hz => BinaryOp.apply_compare rule hy hz) operand hs
  | logic op =>
    obtain ⟨ha, hb, rfl⟩ := logicalType_ok rule
    exact compute_logic ha hb hs
  | assign => cases plain
  | compound c => cases plain

/-! ## parts that write or call -/

/-- An assignment stores a value of the variable's type: it writes what it reads. -/
theorem assignment_safe {o' : Origin} {op : BinaryOp} {x : VarId} {v : Variable}
    (assigns : op.isAssignment = true) (h : m.registry.variableAt? x = some v)
    (rule : assignmentType op v.type a = .ok t) (operand : m.types.operand o.id = t)
    (hs : s.map Value.type = a :: S) :
    Safely (m.assignment w o op (.reference o' x) s) fun p => Leaves v.type S p.2 := by
  unfold assignment
  refine (pop_safe hs).bind fun p hp => ?_
  dsimp only [Tree.singleVariable?]
  refine (declared_safe h).bind fun u hu => ?_
  rw [hu]
  cases op with
  | assign =>
    unfold assignmentType at rule
    dsimp only at rule
    split at rule
    · rename_i hcast
      rw [← hp.1] at hcast
      exact (convert_safe hcast).bind fun y hy => .ok ⟨hy, hp.2⟩
    · cases rule
  | compound c =>
    obtain ⟨hv, ha, ht, happly⟩ := CompoundOp.base_ok rule
    rw [← hp.1] at ha
    dsimp only
    rw [operand]
    refine readBinding_safe.bind fun y hy => ?_
    rw [← hy] at hv
    refine (convert_safe (ValueType.castsTo_of_isNumeric hv ht)).bind fun old hold => ?_
    refine (convert_safe (ValueType.castsTo_of_isNumeric ha ht)).bind fun value hvalue => ?_
    refine (located_safe (happly old value hold hvalue)).bind fun z hz => ?_
    rw [← hz] at ht
    rw [hy] at hv
    exact (convert_safe (ValueType.castsTo_of_isNumeric ht hv)).bind fun u hu => .ok ⟨hu, hp.2⟩
  | _ => cases assigns

theorem arguments_safe {f : FuncId} {sig : Signature} {as : List ValueType}
    (h : m.registry.functionAt? f = some sig)
    (fits : List.Forall₂ (fun a p => a.castsTo p.type = true) as sig.parameters)
    (hs : s.map Value.type = as.reverse ++ S) :
    Safely (m.arguments o f as.length s) fun p => p.1 = sig ∧
      p.2.1.map Value.type = sig.parameters.map Parameter.type ∧ p.2.2.map Value.type = S := by
  unfold arguments
  refine (popMany_safe hs).bind fun p hp => ?_
  have hcount : ¬ p.1.length ≠ sig.arity := by
    rw [not_not, ← List.length_map Value.type, hp.1]
    exact fits.length_eq
  rw [h]
  dsimp only
  rw [if_neg hcount]
  rw [← hp.1, List.forall₂_map_left_iff] at fits
  exact (convertArguments_safe fits).bind fun us hus => .ok ⟨rfl, hus, hp.2⟩

/-! ## the effect of a part -/

/-- The effect of a part on the types of the stack, newest first. -/
inductive Executes (m : Machine σ) : Tree → List ValueType → List ValueType → Prop
  | constant {o : Origin} {v : Value} {S : List ValueType} :
      Executes m (.constant o v) S (v.type :: S)
  | reference {o : Origin} {x : VarId} {v : Variable} {S : List ValueType}
      (declared : m.registry.variableAt? x = some v) :
      Executes m (.reference o x) S (v.type :: S)
  | group {o : Origin} {x : Tree} {t : ValueType} {S : List ValueType} :
      Executes m (.group o x) (t :: S) (t :: S)
  | cast {o : Origin} {target : ValueType} {x : Tree} {t : ValueType} {S : List ValueType}
      (casts : t.castsTo target = true) : Executes m (.cast o target x) (t :: S) (target :: S)
  | unary {o : Origin} {op : UnaryOp} {x : Tree} {a t : ValueType} {S : List ValueType}
      (rule : unaryType op a = .ok t) (operand : m.types.operand o.id = t) :
      Executes m (.unary o op x) (a :: S) (t :: S)
  | choice {o : Origin} {c y n : Tree} {tc ty tn t : ValueType} {S : List ValueType}
      (truth : tc.isBoolable = true) (rule : branchType ty tn = .ok t)
      (result : m.types.result o.id = t) :
      Executes m (.choice o c y n) (tn :: ty :: tc :: S) (t :: S)
  | operate {o : Origin} {op : BinaryOp} {l x : Tree} {a b t : ValueType} {S : List ValueType}
      (plain : op.isAssignment = false) (rule : infixType op a b = .ok t)
      (operand : m.types.operand o.id = t) :
      Executes m (.binary o op l x) (b :: a :: S) ((infixTyping op t).result :: S)
  | assign {o o' : Origin} {op : BinaryOp} {target : VarId} {v : Variable} {x : Tree}
      {a t : ValueType} {S : List ValueType} (assigns : op.isAssignment = true)
      (declared : m.registry.variableAt? target = some v)
      (rule : assignmentType op v.type a = .ok t) (operand : m.types.operand o.id = t) :
      Executes m (.binary o op (.reference o' target) x) (a :: S) (v.type :: S)
  | call {o : Origin} {f : FuncId} {args : List Tree} {sig : Signature} {as S : List ValueType}
      (declared : m.registry.functionAt? f = some sig)
      (fits : List.Forall₂ (fun a p => a.castsTo p.type = true) as sig.parameters)
      (count : args.length = as.length) :
      Executes m (.call o f args) (as.reverse ++ S) (sig.returns :: S)

variable {tree : Tree} {S' : List ValueType} {world : World σ}

/-- A part that neither writes nor calls. -/
theorem computed_safe {x : Except EvalError (Value × ValueStack)} (h : Safely x (Leaves t S)) :
    Safely (do let (v, s) ← x; m.push o v s) fun s' => s'.map Value.type = t :: S :=
  h.bind fun _ hp => push_safe hp.1 hp.2

/-- A step has the effect of its part, or fails for an expected reason. -/
theorem step_safe (h : m.Executes tree S S') (hs : s.map Value.type = S) :
    Safely (m.step tree s world).1 fun s' => s'.map Value.type = S' := by
  cases h with
  | constant => exact computed_safe (.ok ⟨rfl, hs⟩)
  | reference declared => exact computed_safe (compute_reference declared hs)
  | group => exact .ok hs
  | cast casts => exact computed_safe (compute_cast casts hs)
  | unary rule operand => exact computed_safe (compute_unary rule operand hs)
  | choice truth rule result => exact computed_safe (compute_choice truth rule result hs)
  | operate plain rule operand =>
    unfold step
    dsimp only
    rw [plain]
    exact computed_safe (compute_operate plain rule operand hs)
  | assign assigns declared rule operand =>
    unfold step
    dsimp only
    rw [if_pos assigns]
    rcases assignment_safe assigns declared rule operand hs with ⟨p, hp, hv⟩ | ⟨e, he, hx⟩
    · rw [hp]
      exact push_safe hv.1 hv.2
    · rw [he]
      exact .error hx
  | call declared fits count =>
    unfold step
    dsimp only
    rw [count]
    rcases arguments_safe declared fits hs with ⟨p, hp, rfl, -, hrest⟩ | ⟨e, he, hx⟩
    · rw [hp]
      exact returned_safe.bind fun u hu => push_safe hu hrest
    · rw [he]
      exact .error hx

/-- Every call passes what its function declares. -/
theorem step_calls (h : m.Executes tree S S') (hs : s.map Value.type = S)
    (hw : ∀ c ∈ world.calls, c.Fits m.registry) :
    ∀ c ∈ (m.step tree s world).2.calls, c.Fits m.registry := by
  cases h with
  | @operate o op l x a b t S plain =>
    have hstep : (m.step (.binary o op l x) s world).2 = world := by
      unfold step
      dsimp only
      rw [plain]
      rfl
    rw [hstep]
    exact hw
  | @assign o o' op target v x a t S assigns =>
    have hstep : (m.step (.binary o op (.reference o' target) x) s world).2.calls =
        world.calls := by
      unfold step
      dsimp only
      rw [if_pos assigns]
      split
      · rfl
      · rfl
    rw [hstep]
    exact hw
  | call declared fits count =>
    unfold step
    dsimp only
    rw [count]
    rcases arguments_safe declared fits hs with ⟨p, hp, rfl, hargs, -⟩ | ⟨e, he, -⟩
    · rw [hp]
      intro c hc
      rcases List.mem_append.1 hc with hc | hc
      · exact hw c hc
      · rw [List.mem_singleton.1 hc]
        exact ⟨_, declared, hargs⟩
    · rw [he]
      exact hw
  | _ => exact hw

end Machine
end ExprEngine
