import ExprEngine.Proofs.Machine.Failure
import ExprEngine.Proofs.Machine.Meaning
import ExprEngine.Proofs.Tree
import ExprEngine.Proofs.Typing.Judgement

/-!
# The calls of an evaluation

An evaluation calls every call part of its tree once, in the order in which the parts stand. One
that fails has come only so far.

* `Orderly`           a computation that makes certain calls in order;
* `eval_orderly`      the evaluation of a tree calls the functions of the tree;
* `callees_perm`      these are the functions of the call parts, each as often as it stands there.
-/

namespace ExprEngine

namespace Evaluation

variable {σ α β : Type} {w : World σ} {o : Origin} {fs gs : List FuncId}

/-- The functions that were called, in order. -/
def called (w : World σ) : List FuncId := w.calls.map Call.function

/-- Not a full stack. -/
def Roomy : EvalCause → Prop
  | .valueOverflow _ => False
  | _ => True

/-- A computation that calls these functions in order. If it fails, it has called the first of
them, and a full stack is not the reason. -/
def Orderly (fs : List FuncId) (x : Evaluation σ α) : Prop :=
  ∀ w, ∃ gs, called (x w).2 = called w ++ gs ∧ gs <+: fs ∧
    (∀ a, (x w).1 = .ok a → gs = fs) ∧ Fails Roomy (x w).1

theorem Orderly.bind {x : Evaluation σ α} {f : α → Evaluation σ β} (hx : Orderly fs x)
    (hf : ∀ a, Orderly gs (f a)) : Orderly (fs ++ gs) (x >>= f) := by
  intro w
  obtain ⟨before, hbefore, hprefix, hall, hfail⟩ := hx w
  rw [bind_apply]
  rcases hw : x w with ⟨e | a, w'⟩
  · -- nothing follows, and what was called so far is the first of all
    rw [hw] at hbefore hfail
    exact ⟨before, hbefore, hprefix.trans (List.prefix_append fs gs), nofun, .error (hfail e rfl)⟩
  · rw [hw] at hbefore
    obtain rfl : before = fs := hall a (by rw [hw])
    obtain ⟨after, hafter, hnext, hlast, hfail⟩ := hf a w'
    refine ⟨before ++ after, ?_, (List.prefix_append_right_inj before).2 hnext, ?_, hfail⟩
    · rw [← List.append_assoc, ← hbefore]
      exact hafter
    · intro b hb
      rw [hlast b hb]

/-- Nothing is called after a computation. -/
theorem Orderly.after {x : Evaluation σ α} {f : α → Evaluation σ β} (hx : Orderly fs x)
    (hf : ∀ a, Orderly [] (f a)) : Orderly fs (x >>= f) := by
  have h := hx.bind hf
  rwa [List.append_nil] at h

theorem orderly_pure {a : α} : Orderly [] (pure a : Evaluation σ α) :=
  fun _ => ⟨[], (List.append_nil _).symm, List.prefix_rfl, fun _ _ => rfl, .ok⟩

theorem orderly_throw {cause : EvalCause} (h : Roomy cause) :
    Orderly fs (throw (o.evalError cause) : Evaluation σ α) :=
  fun _ => ⟨[], (List.append_nil _).symm, List.nil_prefix, nofun, .error h⟩

theorem orderly_lift {x : Except EvalError α} (h : Fails Roomy x) :
    Orderly [] (liftM x : Evaluation σ α) := by
  intro w
  rw [lift_apply]
  exact ⟨[], (List.append_nil _).symm, List.prefix_rfl, fun _ _ => rfl, h⟩

theorem roomy_ofOperator {c : EvalCause} (h : c.OfOperator) : Roomy c := by
  cases c with
  | valueOverflow max => exact h
  | _ => trivial

theorem orderly_convert {v : Value} {t : ValueType} :
    Orderly [] (liftM (Machine.convert o v t) : Evaluation σ Value) :=
  orderly_lift (Machine.convert_fails trivial).fails

theorem orderly_located {x : Except EvalCause α} (h : Confined x) :
    Orderly [] (liftM (Machine.located o x) : Evaluation σ α) :=
  orderly_lift (Machine.located_fails h fun _ => roomy_ofOperator).fails

end Evaluation

open Evaluation

namespace Setting

variable {σ : Type} {g : Setting σ} {o : Origin} {x : VarId} {v : Variable}

theorem orderly_declared : Orderly [] (g.declared o x) := by
  unfold declared
  split
  · exact orderly_pure
  · exact orderly_throw trivial

theorem orderly_read : Orderly [] (read o x v : Evaluation σ Value) :=
  fun w => orderly_lift (Machine.readBinding_fails fun _ _ => trivial).fails w

theorem orderly_write {u : Value} : Orderly [] (write x u : Evaluation σ Unit) :=
  fun _ => ⟨[], (List.append_nil _).symm, List.prefix_rfl, fun _ _ => rfl, .ok⟩

theorem orderly_operate {op : BinaryOp} {left right : Value} :
    Orderly [] (g.operate o op left right) := by
  unfold operate
  split
  · exact orderly_located (LogicOp.apply_confined _ _ _)
  · exact orderly_convert.after fun _ => orderly_convert.after fun _ =>
      orderly_located (BinaryOp.apply_confined _ _ _)

theorem orderly_target {l : Tree} : Orderly [] (g.target o l) := by
  unfold target
  split
  · exact orderly_declared.after fun _ => orderly_pure
  · exact orderly_throw trivial

theorem orderly_combine {op : BinaryOp} {value : Value} :
    Orderly [] (g.combine o op x v value) := by
  unfold combine
  split
  · rename_i c
    exact orderly_read.after fun _ => orderly_convert.after fun _ => orderly_convert.after fun _ =>
      (orderly_located (c.base.apply_confined _ _)).after fun _ => orderly_convert
  · exact orderly_convert

theorem orderly_assign {op : BinaryOp} {l : Tree} {value : Value} :
    Orderly [] (g.assign o op l value) :=
  orderly_target.after fun _ => orderly_combine.after fun _ =>
    orderly_write.after fun _ => orderly_pure

theorem orderly_invoke {f : FuncId} {args : List Value} : Orderly [f] (g.invoke f args) := by
  intro w
  refine ⟨[f], ?_, List.prefix_rfl, fun _ _ => rfl, .ok⟩
  show (w.calls ++ [_]).map Call.function = _
  rw [List.map_append]
  rfl

theorem orderly_call {f : FuncId} {values : List Value} : Orderly [f] (g.call o f values) := by
  unfold call
  split
  -- a call that is refused has called nothing, one whose value is refused has called its function
  · exact orderly_throw trivial
  · split
    · exact orderly_throw trivial
    · exact (orderly_lift (Machine.convertArguments_fails trivial).fails).bind fun _ =>
        orderly_invoke.after fun _ => orderly_lift (Machine.returned_fails fun _ _ => trivial).fails

end Setting

/-! ## trees -/

open Setting

variable {σ : Type} {g : Setting σ} {r : Registry}

mutual

/-- The evaluation of a typed tree calls the functions of the tree, in order. -/
theorem eval_orderly : ∀ {t : Tree} {ty : Typing}, HasTyping r t ty →
    Orderly t.callees (t.eval g)
  | .constant _ _, _, .constant => by
    rw [Tree.eval]
    exact orderly_pure
  | .reference _ _, _, .reference _ => by
    rw [Tree.eval]
    exact orderly_declared.after fun _ => orderly_read
  | .group _ _, _, .group inner => by
    rw [Tree.eval, Tree.callees]
    exact eval_orderly inner
  | .cast _ _ _, _, .cast operand _ => by
    rw [Tree.eval]
    exact (eval_orderly operand).after fun _ => orderly_convert
  | .unary _ op _, _, .unary operand _ => by
    rw [Tree.eval]
    exact (eval_orderly operand).after fun _ => orderly_convert.after fun _ =>
      orderly_located (op.apply_confined _)
  | .choice _ _ _ _, _, .choice condition yes no _ _ => by
    rw [Tree.eval, Tree.callees, List.append_assoc]
    exact (eval_orderly condition).bind fun cond => (eval_orderly yes).bind fun _ =>
      (eval_orderly no).after fun _ =>
        (orderly_located cond.truth_confined).after fun _ => orderly_convert
  | .binary _ _ _ _, _, .operate plain left right _ => by
    rw [Tree.eval, if_neg (by rw [plain]; exact Bool.false_ne_true)]
    exact (eval_orderly left).bind fun _ => (eval_orderly right).after fun _ => orderly_operate
  | .binary _ _ (.reference _ _) _, _, .assign assigns _ _ value _ => by
    rw [Tree.eval, if_pos assigns]
    exact (eval_orderly value).after fun _ => orderly_assign
  | .call _ _ _, _, .call _ passed => by
    rw [Tree.eval]
    exact (evalAll_orderly passed).bind fun _ => orderly_call

theorem evalAll_orderly : ∀ {s : Signature} {i : Nat} {args : List Tree},
    HasArguments r s i args → Orderly (Tree.calleesAll args) (Tree.evalAll g args)
  | _, _, [], .nil => by
    rw [Tree.evalAll]
    exact orderly_pure
  | _, _, _ :: _, .cons first _ rest => by
    rw [Tree.evalAll]
    exact (eval_orderly first).bind fun _ => (evalAll_orderly rest).after fun _ => orderly_pure

end

/-- The function that a call part calls. -/
def Tree.callee? : Tree → Option FuncId
  | .call _ f _ => some f
  | _ => none

theorem calleesAll_perm {ts : List Tree}
    (h : ∀ t ∈ ts, t.callees.Perm (t.nodes.filterMap Tree.callee?)) :
    (Tree.calleesAll ts).Perm ((Tree.nodesOfAll ts).filterMap Tree.callee?) := by
  induction ts with
  | nil => exact .nil
  | cons t ts ih =>
    rw [Tree.calleesAll, Tree.nodesOfAll, List.filterMap_append]
    exact (h t (List.mem_cons_self ..)).append
      (ih fun u hu => h u (List.mem_cons_of_mem _ hu))

theorem callees_eq (t : Tree) :
    t.callees = Tree.calleesAll t.operands ++ t.callee?.toList := by
  cases t with
  | _ => simp [Tree.callees, Tree.calleesAll, Tree.operands, Tree.callee?]

/-- The functions of a tree are those of its call parts. -/
theorem callees_perm (t : Tree) : t.callees.Perm (t.nodes.filterMap Tree.callee?) := by
  induction t using Tree.operand_induction with
  | part t ih =>
    have hbelow : (Tree.calleesAll t.operands).Perm
        ((Tree.nodesOfAll t.operands).filterMap Tree.callee?) := calleesAll_perm ih
    cases ht : t.isHole with
    | true =>
      cases t with
      | hole => exact .nil
      | _ => cases ht
    | false =>
      rw [callees_eq, Tree.nodes_eq_cons ht]
      cases hf : t.callee? with
      | none =>
        rw [List.filterMap_cons_none hf]
        simpa using hbelow
      | some f =>
        rw [List.filterMap_cons_some hf]
        exact (List.perm_append_singleton f _).trans (hbelow.cons f)

end ExprEngine
