import ExprEngine.Proofs.Context
import ExprEngine.Proofs.Tree
import ExprEngine.Typing
import Mathlib.Data.List.Forall2
import Mathlib.Data.List.Nodup
import Mathlib.Data.List.Perm.Basic

/-!
# Typing as a judgement

The rules for whole trees, one for each kind of part. A tree that the checker accepts has a
derivation, and so has every part of it, with the types that the table records for it.

* `HasTyping`          the types of a part by the rules;
* `Recorded`           records that give every part of some trees its types;
* `checkTree_ok`       a checked tree is typed, with a record for every part;
* `Tree.Numbered`      parts that share an id only with themselves;
* `typing_of_check`    the table gives every part its types.
-/

namespace ExprEngine

/-! ## the rules -/

/-- The type that a function expects at a position, `void` where it takes no argument. -/
def Signature.expected (s : Signature) (index : Nat) : ValueType :=
  (s.parameters[index]?.map Parameter.type).getD .void

mutual

/-- The types of a part, the names declared by a registry. -/
inductive HasTyping (r : Registry) : Tree → Typing → Prop
  | constant {o : Origin} {v : Value} : HasTyping r (.constant o v) (.same v.type)
  | reference {o : Origin} {x : VarId} {v : Variable} (declared : r.variableAt? x = some v) :
      HasTyping r (.reference o x) (.same v.type)
  | group {o : Origin} {x : Tree} {ty : Typing} (inner : HasTyping r x ty) :
      HasTyping r (.group o x) (.same ty.result)
  | cast {o : Origin} {target : ValueType} {x : Tree} {ty : Typing} (operand : HasTyping r x ty)
      (casts : ty.result.castsTo target = true) :
      HasTyping r (.cast o target x) ⟨target, ty.result⟩
  | unary {o : Origin} {op : UnaryOp} {x : Tree} {ty : Typing} {t : ValueType}
      (operand : HasTyping r x ty) (rule : unaryType op ty.result = .ok t) :
      HasTyping r (.unary o op x) (.same t)
  | choice {o : Origin} {c y n : Tree} {tc ty tn : Typing} {t : ValueType}
      (condition : HasTyping r c tc) (yes : HasTyping r y ty) (no : HasTyping r n tn)
      (truth : tc.result.isBoolable = true) (rule : branchType ty.result tn.result = .ok t) :
      HasTyping r (.choice o c y n) (.same t)
  | operate {o : Origin} {op : BinaryOp} {l x : Tree} {tl tx : Typing} {t : ValueType}
      (plain : op.isAssignment = false) (left : HasTyping r l tl) (right : HasTyping r x tx)
      (rule : infixType op tl.result tx.result = .ok t) :
      HasTyping r (.binary o op l x) (infixTyping op t)
  | assign {o o' : Origin} {op : BinaryOp} {target : VarId} {v : Variable} {x : Tree}
      {tx : Typing} {t : ValueType} (assigns : op.isAssignment = true)
      (declared : r.variableAt? target = some v) (writable : v.readOnly = false)
      (value : HasTyping r x tx) (rule : assignmentType op v.type tx.result = .ok t) :
      HasTyping r (.binary o op (.reference o' target) x) ⟨v.type, t⟩
  | call {o : Origin} {f : FuncId} {args : List Tree} {s : Signature}
      (declared : r.functionAt? f = some s) (passed : HasArguments r s 0 args) :
      HasTyping r (.call o f args) (.same s.returns)

/-- Arguments that convert to what a function expects, the first of them at position `index`. -/
inductive HasArguments (r : Registry) : Signature → Nat → List Tree → Prop
  | nil {s : Signature} {index : Nat} : HasArguments r s index []
  | cons {s : Signature} {index : Nat} {arg : Tree} {args : List Tree} {ty : Typing}
      (first : HasTyping r arg ty) (casts : ty.result.castsTo (s.expected index) = true)
      (rest : HasArguments r s (index + 1) args) : HasArguments r s index (arg :: args)

end

theorem infixTyping_operand (op : BinaryOp) (t : ValueType) : (infixTyping op t).operand = t := by
  cases op with
  | compare c => rfl
  | _ => rfl

variable {r : Registry}

/-- A part has at most one typing. -/
theorem HasTyping.unique : ∀ {t : Tree} {a b : Typing}, HasTyping r t a → HasTyping r t b → a = b
  | _, _, _, .constant, .constant => rfl
  | _, _, _, .reference h, .reference h' => by
    rw [h] at h'
    cases h'
    rfl
  | _, _, _, .group inner, .group inner' => by rw [inner.unique inner']
  | _, _, _, .cast operand _, .cast operand' _ => by rw [operand.unique operand']
  | _, _, _, .unary operand rule, .unary operand' rule' => by
    rw [operand.unique operand', rule'] at rule
    cases rule
    rfl
  | _, _, _, .choice _ yes no _ rule, .choice _ yes' no' _ rule' => by
    rw [yes.unique yes', no.unique no', rule'] at rule
    cases rule
    rfl
  | _, _, _, .operate _ left right rule, .operate _ left' right' rule' => by
    rw [left.unique left', right.unique right', rule'] at rule
    cases rule
    rfl
  | _, _, _, .operate plain _ _ _, .assign assigns _ _ _ _ => by
    rw [plain] at assigns
    cases assigns
  | _, _, _, .assign assigns _ _ _ _, .operate plain _ _ _ => by
    rw [plain] at assigns
    cases assigns
  | _, _, _, .assign _ h _ value rule, .assign _ h' _ value' rule' => by
    rw [h] at h'
    cases h'
    rw [value.unique value', rule'] at rule
    cases rule
    rfl
  | _, _, _, .call h _, .call h' _ => by
    rw [h] at h'
    cases h'
    rfl

mutual

/-- A registry that declares more types the same trees alike. -/
theorem HasTyping.extend {r' : Registry} (hr : r'.Extends r) : ∀ {t : Tree} {ty : Typing},
    HasTyping r t ty → HasTyping r' t ty
  | _, _, .constant => .constant
  | _, _, .reference h => .reference (hr.variableAt? h)
  | _, _, .group inner => .group (inner.extend hr)
  | _, _, .cast operand casts => .cast (operand.extend hr) casts
  | _, _, .unary operand rule => .unary (operand.extend hr) rule
  | _, _, .choice condition yes no truth rule =>
    .choice (condition.extend hr) (yes.extend hr) (no.extend hr) truth rule
  | _, _, .operate plain left right rule => .operate plain (left.extend hr) (right.extend hr) rule
  | _, _, .assign assigns h writable value rule =>
    .assign assigns (hr.variableAt? h) writable (value.extend hr) rule
  | _, _, .call h passed => .call (hr.functionAt? h) (passed.extend hr)

theorem HasArguments.extend {r' : Registry} (hr : r'.Extends r) : ∀ {s : Signature} {i : Nat}
    {args : List Tree}, HasArguments r s i args → HasArguments r' s i args
  | _, _, _, .nil => .nil
  | _, _, _, .cons first casts rest => .cons (first.extend hr) casts (rest.extend hr)

end

mutual

/-- A typed tree has all its operands. -/
theorem HasTyping.complete : ∀ {t : Tree} {ty : Typing}, HasTyping r t ty → t.Complete
  | _, _, .constant => trivial
  | _, _, .reference _ => trivial
  | _, _, .group inner => inner.complete
  | _, _, .cast operand _ => operand.complete
  | _, _, .unary operand _ => operand.complete
  | _, _, .choice condition yes no _ _ => ⟨condition.complete, yes.complete, no.complete⟩
  | _, _, .operate _ left right _ => ⟨left.complete, right.complete⟩
  | _, _, .assign _ _ _ value _ => ⟨trivial, value.complete⟩
  | _, _, .call _ passed => passed.complete

theorem HasArguments.complete : ∀ {s : Signature} {i : Nat} {args : List Tree},
    HasArguments r s i args → CompleteAll args
  | _, _, _, .nil => trivial
  | _, _, _, .cons first _ rest => ⟨first.complete, rest.complete⟩

end

/-! ## records -/

/-- Records that give every part of a list its types, in some order. -/
def Recorded (r : Registry) (ns : List Tree) (records : List (PartId × Typing)) : Prop :=
  ∃ ns' : List Tree, ns'.Perm ns ∧
    List.Forall₂ (fun n p => n.id = p.1 ∧ HasTyping r n p.2) ns' records

theorem Recorded.nil : Recorded r [] [] := ⟨[], .nil, .nil⟩

theorem Recorded.append {ms ns : List Tree} {ps qs : List (PartId × Typing)}
    (hm : Recorded r ms ps) (hn : Recorded r ns qs) : Recorded r (ms ++ ns) (ps ++ qs) := by
  obtain ⟨ms', hms, hps⟩ := hm
  obtain ⟨ns', hns, hqs⟩ := hn
  exact ⟨ms' ++ ns', hms.append hns, List.rel_append hps hqs⟩

/-- A part is recorded after all that is below it. -/
theorem Recorded.node {t : Tree} {ty : Typing} {ns : List Tree} {ps : List (PartId × Typing)}
    (hn : Recorded r ns ps) (ht : HasTyping r t ty) :
    Recorded r (t :: ns) (ps ++ [(t.id, ty)]) := by
  obtain ⟨ns', hns, hps⟩ := hn
  refine ⟨ns' ++ [t], ?_, List.rel_append hps (.cons ⟨rfl, ht⟩ .nil)⟩
  exact (List.perm_append_singleton t ns').trans (hns.cons t)

/-! ## the checker -/

theorem raise_ok {α : Type} {f : TypeCause → TypeError} {x : Except TypeCause α} {a : α}
    (h : raise f x = .ok a) : x = .ok a := by
  cases x with
  | ok => exact congrArg Except.ok (Except.ok.inj h)
  | error => cases h

/-- A checked tree: its typing, and a record for every part. -/
def Checked (r : Registry) (t : Tree) (d : Typed) : Prop :=
  ∃ ty, HasTyping r t ty ∧ ty.result = d.type ∧ Recorded r t.nodes d.records

theorem Checked.node {t : Tree} {ty : Typing} {ns : List Tree} {ps : List (PartId × Typing)}
    (hn : Recorded r ns ps) (ht : HasTyping r t ty) (hnodes : t.nodes = t :: ns) :
    Checked r t (.node t.id ty ps) := by
  refine ⟨ty, ht, rfl, ?_⟩
  rw [hnodes]
  exact hn.node ht

theorem singleVariable?_eq_some {t : Tree} {x : VarId} (h : t.singleVariable? = some x) :
    ∃ o, t = .reference o x := by
  cases t with
  | reference o y =>
    cases h
    exact ⟨o, rfl⟩
  | _ => cases h

/-- What the checker found in a choice. -/
theorem checkTree_choice {o : Origin} {c y n : Tree} {d : Typed}
    (h : checkTree r (.choice o c y n) = .ok d) :
    ∃ dc dy dn t, checkTree r c = .ok dc ∧ checkTree r y = .ok dy ∧ checkTree r n = .ok dn ∧
      dc.type.isBoolable = true ∧ branchType dy.type dn.type = .ok t ∧
      d = .node o.id (.same t) (dc.records ++ dy.records ++ dn.records) := by
  rw [checkTree] at h
  split at h
  · cases h
  obtain ⟨dc, hc, h⟩ := bind_eq_ok.1 h
  obtain ⟨dy, hy, h⟩ := bind_eq_ok.1 h
  obtain ⟨dn, hn, h⟩ := bind_eq_ok.1 h
  split at h
  · cases h
  rename_i hb
  obtain ⟨t, ht, h⟩ := bind_eq_ok.1 h
  cases h
  exact ⟨dc, dy, dn, t, hc, hy, hn, by simpa using hb, raise_ok ht, rfl⟩

/-- What the checker found in an assignment. -/
theorem checkTree_assign {o : Origin} {op : BinaryOp} {l x : Tree} {d : Typed}
    (hop : op.isAssignment = true) (h : checkTree r (.binary o op l x) = .ok d) :
    ∃ o' y v dl dx t, l = .reference o' y ∧ r.variableAt? y = some v ∧ v.readOnly = false ∧
      checkTree r l = .ok dl ∧ checkTree r x = .ok dx ∧
      assignmentType op v.type dx.type = .ok t ∧
      d = .node o.id ⟨v.type, t⟩ (dl.records ++ dx.records) := by
  rw [checkTree] at h
  split at h
  · cases h
  obtain ⟨dl, hl, h⟩ := bind_eq_ok.1 h
  split at h
  · cases h
  rename_i y hy
  split at h
  · cases h
  rename_i v hv
  obtain ⟨dx, hx, h⟩ := bind_eq_ok.1 h
  split at h
  · cases h
  rename_i hw
  obtain ⟨t, ht, h⟩ := bind_eq_ok.1 h
  cases h
  obtain ⟨o', ho⟩ := singleVariable?_eq_some hy
  exact ⟨o', y, v, dl, dx, t, ho, hv, by simpa using hw, hl, hx, raise_ok ht, rfl⟩

/-- What the checker found in any other infix operator. -/
theorem checkTree_operate {o : Origin} {op : BinaryOp} {l x : Tree} {d : Typed}
    (hop : op.isAssignment = false) (h : checkTree r (.binary o op l x) = .ok d) :
    ∃ dl dx t, checkTree r l = .ok dl ∧ checkTree r x = .ok dx ∧
      infixType op dl.type dx.type = .ok t ∧
      d = .node o.id (infixTyping op t) (dl.records ++ dx.records) := by
  rw [checkTree] at h
  split at h
  · cases h
  rw [if_neg (by rw [hop]; exact Bool.false_ne_true)] at h
  obtain ⟨dl, hl, h⟩ := bind_eq_ok.1 h
  obtain ⟨dx, hx, h⟩ := bind_eq_ok.1 h
  obtain ⟨t, ht, h⟩ := bind_eq_ok.1 h
  cases h
  exact ⟨dl, dx, t, hl, hx, raise_ok ht, rfl⟩

mutual

/-- A tree that the checker accepts is typed, and every part of it is recorded. -/
theorem checkTree_ok : ∀ {t : Tree} {d : Typed}, checkTree r t = .ok d → Checked r t d
  | .hole, _, h => by
    rw [checkTree] at h
    cases h
  | .constant o v, _, h => by
    rw [checkTree] at h
    cases h
    exact .node .nil .constant rfl
  | .reference o x, _, h => by
    rw [checkTree] at h
    split at h
    · cases h
    · rename_i v hv
      cases h
      exact .node .nil (.reference hv) rfl
  | .group o x, _, h => by
    rw [checkTree] at h
    obtain ⟨d, hx, h⟩ := bind_eq_ok.1 h
    obtain ⟨ty, hty, hd, hrec⟩ := checkTree_ok hx
    cases h
    exact .node hrec (hd ▸ .group hty) rfl
  | .cast o target x, _, h => by
    rw [checkTree] at h
    split at h
    · cases h
    obtain ⟨d, hx, h⟩ := bind_eq_ok.1 h
    obtain ⟨ty, hty, hd, hrec⟩ := checkTree_ok hx
    split at h
    · rename_i hc
      cases h
      rw [← hd] at hc ⊢
      exact .node hrec (.cast hty hc) rfl
    · cases h
  | .unary o op x, _, h => by
    rw [checkTree] at h
    split at h
    · cases h
    obtain ⟨d, hx, h⟩ := bind_eq_ok.1 h
    obtain ⟨t, ht, h⟩ := bind_eq_ok.1 h
    obtain ⟨ty, hty, hd, hrec⟩ := checkTree_ok hx
    cases h
    have hrule := raise_ok ht
    rw [← hd] at hrule
    exact .node hrec (.unary hty hrule) rfl
  | .choice o c y n, _, h => by
    obtain ⟨dc, dy, dn, t, hc, hy, hn, hb, hrule, rfl⟩ := checkTree_choice h
    obtain ⟨tc, htc, hdc, hrc⟩ := checkTree_ok hc
    obtain ⟨ty, hty, hdy, hry⟩ := checkTree_ok hy
    obtain ⟨tn, htn, hdn, hrn⟩ := checkTree_ok hn
    rw [← hdc] at hb
    rw [← hdy, ← hdn] at hrule
    exact .node ((hrc.append hry).append hrn) (.choice htc hty htn hb hrule) rfl
  | .binary o op l x, _, h => by
    cases hop : op.isAssignment with
    | true =>
      obtain ⟨o', y, v, dl, dx, t, ho, hv, hw, hl, hx, hrule, rfl⟩ := checkTree_assign hop h
      obtain ⟨tl, htl, hdl, hrl⟩ := checkTree_ok hl
      obtain ⟨tx, htx, hdx, hrx⟩ := checkTree_ok hx
      subst ho
      rw [← hdx] at hrule
      exact .node (hrl.append hrx) (.assign hop hv hw htx hrule) rfl
    | false =>
      obtain ⟨dl, dx, t, hl, hx, hrule, rfl⟩ := checkTree_operate hop h
      obtain ⟨tl, htl, hdl, hrl⟩ := checkTree_ok hl
      obtain ⟨tx, htx, hdx, hrx⟩ := checkTree_ok hx
      rw [← hdl, ← hdx] at hrule
      exact .node (hrl.append hrx) (.operate hop htl htx hrule) rfl
  | .call o f args, _, h => by
    rw [checkTree] at h
    split at h
    · cases h
    rename_i s hs
    obtain ⟨ps, hps, h⟩ := bind_eq_ok.1 h
    obtain ⟨hargs, hrec⟩ := checkArguments_ok hps
    cases h
    exact .node hrec (.call hs hargs) rfl

theorem checkArguments_ok : ∀ {s : Signature} {i : Nat} {args : List Tree}
    {ps : List (PartId × Typing)}, checkArguments r s i args = .ok ps →
    HasArguments r s i args ∧ Recorded r (Tree.nodesOfAll args) ps
  | _, _, [], _, h => by
    rw [checkArguments] at h
    cases h
    exact ⟨.nil, .nil⟩
  | s, i, arg :: args, _, h => by
    rw [checkArguments] at h
    obtain ⟨d, hd, h⟩ := bind_eq_ok.1 h
    obtain ⟨ty, hty, hres, hrec⟩ := checkTree_ok hd
    dsimp only at h
    split at h
    · cases h
    rename_i hc
    obtain ⟨qs, hqs, h⟩ := bind_eq_ok.1 h
    obtain ⟨hargs, hrest⟩ := checkArguments_ok hqs
    cases h
    rw [← hres] at hc
    exact ⟨.cons hty (by simpa [Signature.expected] using hc) hargs, hrec.append hrest⟩

end

/-! ## the table -/

/-- Records of other ids leave an entry alone. -/
theorem getElem?_records_of_not_mem {records : List (PartId × Typing)} {id : PartId}
    (h : id ∉ records.map Prod.fst) (es : List Typing) :
    (records.foldl (fun es (id, ty) => es.set id ty) es)[id]? = es[id]? := by
  induction records generalizing es with
  | nil => rfl
  | cons p ps ih =>
    rw [List.map_cons, List.mem_cons, not_or] at h
    rw [List.foldl_cons, ih h.2, List.getElem?_set_ne (Ne.symm h.1)]

/-- The entry of an id holds what all its records say. -/
theorem getElem?_records {records : List (PartId × Typing)} {id : PartId} {ty : Typing}
    (hall : ∀ ty', (id, ty') ∈ records → ty' = ty) (h : (id, ty) ∈ records) {es : List Typing}
    (hid : id < es.length) :
    (records.foldl (fun es (id, ty) => es.set id ty) es)[id]? = some ty := by
  induction records generalizing es with
  | nil => cases h
  | cons p ps ih =>
    rw [List.foldl_cons]
    by_cases hrest : id ∈ ps.map Prod.fst
    · obtain ⟨⟨_, ty'⟩, hp, rfl⟩ := List.mem_map.1 hrest
      obtain rfl := hall ty' (List.mem_cons_of_mem _ hp)
      exact ih (fun ty' h => hall ty' (List.mem_cons_of_mem _ h)) hp (by rwa [List.length_set])
    · rw [getElem?_records_of_not_mem hrest]
      rcases List.mem_cons.1 h with rfl | h
      · exact List.getElem?_set_self hid
      · exact absurd (List.mem_map_of_mem h) hrest

/-- Every part has a record, and every record is that of a part. -/
theorem forall₂_records {ns : List Tree} {records : List (PartId × Typing)}
    (h : List.Forall₂ (fun n p => n.id = p.1 ∧ HasTyping r n p.2) ns records) :
    (∀ n ∈ ns, ∃ ty, (n.id, ty) ∈ records ∧ HasTyping r n ty) ∧
      ∀ p ∈ records, ∃ n ∈ ns, n.id = p.1 ∧ HasTyping r n p.2 := by
  induction h with
  | nil => exact ⟨nofun, nofun⟩
  | @cons n p ns ps hp _ ih =>
    constructor
    · intro m hm
      rcases List.mem_cons.1 hm with rfl | hm
      · exact ⟨p.2, by rw [hp.1]; exact List.mem_cons_self .., hp.2⟩
      · obtain ⟨ty, hmem, hty⟩ := ih.1 m hm
        exact ⟨ty, List.mem_cons_of_mem _ hmem, hty⟩
    · intro q hq
      rcases List.mem_cons.1 hq with rfl | hq
      · exact ⟨n, List.mem_cons_self .., hp⟩
      · obtain ⟨m, hm, hq⟩ := ih.2 q hq
        exact ⟨m, List.mem_cons_of_mem _ hm, hq⟩

/-- Parts of one id are one part, and their ids are below a count. -/
structure Tree.Numbered (t : Tree) (count : Nat) : Prop where
  inside : ∀ n ∈ t.nodes, n.id < count
  same : ∀ n ∈ t.nodes, ∀ m ∈ t.nodes, n.id = m.id → n = m

theorem Tree.numbered_of_perm {t : Tree} {count : Nat}
    (h : (t.nodes.map Tree.id).Perm (List.range count)) : t.Numbered count where
  inside _ hn := List.mem_range.1 (h.mem_iff.1 (List.mem_map_of_mem hn))
  same _ hn _ hm hid :=
    List.inj_on_of_nodup_map (h.nodup_iff.2 List.nodup_range) hn hm hid

/-- The table has an entry for every part, with its types. -/
theorem entries_of_check {e : Expr} {types : TypeTable} (hids : e.tree.Numbered e.partCount)
    (h : check e r = .ok types) :
    ∀ n ∈ e.tree.nodes, ∃ ty, types.entries[n.id]? = some ty ∧ HasTyping r n ty := by
  obtain ⟨d, hd, rfl⟩ := map_eq_ok.1 h
  obtain ⟨-, -, -, ns', hperm, hrec⟩ := checkTree_ok hd
  obtain ⟨hrecorded, hparts⟩ := forall₂_records hrec
  intro n hn
  obtain ⟨ty, hin, hty⟩ := hrecorded n (hperm.mem_iff.2 hn)
  refine ⟨ty, getElem?_records ?_ hin ?_, hty⟩
  · intro ty' hty'
    obtain ⟨m, hm, hid, hm'⟩ := hparts _ hty'
    have hmn : m = n := hids.same m (hperm.mem_iff.1 hm) n hn hid
    subst hmn
    exact hm'.unique hty
  · rw [List.length_replicate]
    exact hids.inside n hn

/-- The table of an expression gives every part its types, and the type of the whole. -/
theorem typing_of_check {e : Expr} {types : TypeTable} (hids : e.tree.Numbered e.partCount)
    (h : check e r = .ok types) :
    (∀ n ∈ e.tree.nodes, HasTyping r n (types.typing n.id)) ∧
      ∃ ty, HasTyping r e.tree ty ∧ ty.result = types.root := by
  refine ⟨fun n hn => ?_, ?_⟩
  · obtain ⟨ty, hentry, hty⟩ := entries_of_check hids h n hn
    unfold TypeTable.typing
    rw [hentry]
    exact hty
  · obtain ⟨d, hd, rfl⟩ := map_eq_ok.1 h
    obtain ⟨ty, hty, hres, -⟩ := checkTree_ok hd
    exact ⟨ty, hty, hres⟩

end ExprEngine
