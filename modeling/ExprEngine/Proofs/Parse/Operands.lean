import ExprEngine.Proofs.Grammar

/-!
# The operand stack, its bound apart

The bound on a stack decides only whether an operation succeeds, never what it yields. Here each
operation is described without it, and the lexemes a stack stands for are followed through each.

* `attach`             what handing over a tree yields;
* `reopened`           what pushing waiting operators yields;
* `Pending.Phrase`     a waiting operator and the lexemes read for it so far;
* `StackPhrase`        a stack and the lexemes read for it so far.
-/

namespace ExprEngine

namespace OperandStack

/-! ## operations without the bound -/

/-- The stack after a finished tree was handed to it. -/
def attach : OperandStack → Tree → OperandStack
  | .pending p :: below, t =>
    match p.fill? t with
    | some (.done t') => attach below t'
    | some (.pending p') => .pending p' :: below
    | none => .done t :: .pending p :: below
  | s, t => .done t :: s

/-- The stack with waiting operators on top, the outermost pushed first. -/
def reopened : List Pending → OperandStack → OperandStack
  | [], s => s
  | p :: ps, s => reopened ps (.pending p :: s)

theorem push_ok {max : Nat} {e : Entry} {s s' : OperandStack} (h : push max e s = .ok s') :
    s' = e :: s := by
  unfold push at h
  split at h
  · cases h
  · cases h; rfl

theorem push_of_lt {max : Nat} (e : Entry) {s : OperandStack} (h : s.length < max) :
    push max e s = .ok (e :: s) := if_neg (by omega)

theorem connect_ok {max : Nat} {s s' : OperandStack} {t : Tree} (h : connect max s t = .ok s') :
    s' = attach s t := by
  fun_induction connect max s t with
  | case1 p below t t' hf ih =>
    rw [attach, hf]
    exact ih h
  | case2 p below t p' hf =>
    rw [attach, hf]
    cases h; rfl
  | case3 p below t hf =>
    rw [attach, hf]
    exact push_ok h
  | case4 s t hs =>
    rw [push_ok h, attach]
    exact hs

theorem connect_of_lt {max : Nat} {s : OperandStack} (t : Tree) (h : s.length < max) :
    connect max s t = .ok (attach s t) := by
  fun_induction attach s t with
  | case1 p below t t' hf ih =>
    rw [connect, hf]
    exact ih (by simp only [List.length_cons] at h; omega)
  | case2 p below t p' hf => rw [connect, hf]
  | case3 p below t hf =>
    rw [connect, hf]
    exact push_of_lt _ h
  | case4 s t hs =>
    rw [connect]
    · exact push_of_lt _ h
    · exact hs

theorem pushAll_ok {max : Nat} {ps : List Pending} {s s' : OperandStack}
    (h : pushAll max ps s = .ok s') : s' = reopened ps s := by
  induction ps generalizing s with
  | nil => cases h; rfl
  | cons p ps ih =>
    rw [pushAll] at h
    split at h
    · rename_i s₁ hp
      rw [push_ok hp] at h
      exact ih h
    · cases h

theorem length_reopened (ps : List Pending) (s : OperandStack) :
    (reopened ps s).length = ps.length + s.length := by
  induction ps generalizing s with
  | nil => simp [reopened]
  | cons p ps ih =>
    rw [reopened, ih, List.length_cons, List.length_cons]
    omega

theorem pushAll_of_le {max : Nat} {ps : List Pending} {s : OperandStack}
    (h : (reopened ps s).length ≤ max) : pushAll max ps s = .ok (reopened ps s) := by
  induction ps generalizing s with
  | nil => rfl
  | cons p ps ih =>
    have hl := length_reopened (p :: ps) s
    rw [List.length_cons] at hl
    rw [pushAll, push_of_lt _ (by omega)]
    exact ih h

theorem takeLeft_ok {max : Nat} {b : Binding} {here : Lexeme} {s s' : OperandStack} {left : Tree}
    (h : takeLeft max b here s = .ok (left, s')) :
    ∃ e below ps, s = e :: below ∧ e.leftOperand b = .ok (ps, left) ∧ s' = reopened ps below := by
  unfold takeLeft at h
  split at h
  · cases h
  · rename_i e below
    split at h
    · cases h
    · rename_i ps operand he
      split at h
      · cases h
      · rename_i s₁ hs
        cases h
        exact ⟨e, below, ps, rfl, he, pushAll_ok hs⟩

theorem separate_ok {here : Lexeme} {s s' : OperandStack} (h : separate here s = .ok s') :
    ∃ o c y below, s = .pending (.branch o c y) :: below ∧
      s' = .pending (.otherwise o c y) :: below := by
  unfold separate at h
  split at h
  · cases h
  · rename_i o c y below
    cases h
    exact ⟨o, c, y, below, rfl, rfl⟩
  · cases h
  · cases h

theorem single_ok {s : OperandStack} {e : ParseError} {t : Tree} (h : s.single e = .ok t) :
    s = [.done t] := by
  unfold single at h
  split at h
  · cases h
  · rename_i hu
    split at h
    · cases h
    · rename_i e hs
      have hs' : s = [e] := by simpa using congrArg List.reverse hs
      cases e with
      | done t' => cases h; exact hs'
      | pending p => simp [hs', unfinished?] at hu
    · cases h

end OperandStack

/-! ## the lexemes of a stack -/

/-- A waiting operator and the lexemes read for it so far. -/
inductive Pending.Phrase (r : Registry) : Pending → List Lexeme → Prop
  | unary {id : PartId} {l : Lexeme} {op : UnaryOp} (sign : l.Signs (Operator.unary op).symbol) :
      Pending.Phrase r (.unary ⟨id, l.index, l.span⟩ op) [l]
  | cast {id : PartId} {opening name close : Lexeme} {target : ValueType}
      (bracket : opening.kind = .parenthesis) (opens : opening.isOpening = true)
      (kind : name.kind = .identifier) (type : ValueType.ofName? name.text = some target)
      (closes : close.Closes) :
      Pending.Phrase r (.cast ⟨id, opening.index, opening.span.merge close.span⟩ target)
        [opening, name, close]
  | binary {id : PartId} {l : Lexeme} {op : BinaryOp} {a : Tree} {as : List Lexeme}
      (sign : l.Signs (Operator.binary op).symbol) (left : ExprEngine.Phrase r a as) :
      Pending.Phrase r (.binary ⟨id, l.index, l.span⟩ op a) (as ++ [l])
  | condition {id : PartId} {l : Lexeme} {c : Tree} {cs : List Lexeme}
      (sign : l.Signs Operator.choice.symbol) (condition : ExprEngine.Phrase r c cs) :
      Pending.Phrase r (.condition ⟨id, l.index, l.span⟩ c) (cs ++ [l])
  | branch {id : PartId} {l : Lexeme} {c y : Tree} {cs ys : List Lexeme}
      (sign : l.Signs Operator.choice.symbol) (condition : ExprEngine.Phrase r c cs)
      (yes : ExprEngine.Phrase r y ys) :
      Pending.Phrase r (.branch ⟨id, l.index, l.span⟩ c y) (cs ++ l :: ys)
  | otherwise {id : PartId} {l colon : Lexeme} {c y : Tree} {cs ys : List Lexeme}
      (sign : l.Signs Operator.choice.symbol) (separator : colon.Signs branchSymbol)
      (condition : ExprEngine.Phrase r c cs) (yes : ExprEngine.Phrase r y ys) :
      Pending.Phrase r (.otherwise ⟨id, l.index, l.span⟩ c y) (cs ++ l :: (ys ++ [colon]))

/-- An entry and the lexemes read for it so far. -/
def Entry.Phrase (r : Registry) : Entry → List Lexeme → Prop
  | .done t => ExprEngine.Phrase r t
  | .pending p => Pending.Phrase r p

/-- A stack and the lexemes read for it so far, those of the oldest entry first. -/
inductive StackPhrase (r : Registry) : OperandStack → List Lexeme → Prop
  | nil : StackPhrase r [] []
  | cons {e : Entry} {below : OperandStack} {ls es : List Lexeme} (rest : StackPhrase r below ls)
      (top : e.Phrase r es) : StackPhrase r (e :: below) (ls ++ es)

variable {r : Registry}

/-- An operator with one operand more stands for the lexemes of both. -/
theorem Pending.Phrase.fill {p : Pending} {ps : List Lexeme} (hp : p.Phrase r ps) {t : Tree}
    {ts : List Lexeme} (ht : ExprEngine.Phrase r t ts) {e : Entry} (h : p.fill? t = some e) :
    e.Phrase r (ps ++ ts) := by
  cases hp with
  | unary sign => cases h; exact .unary sign ht
  | cast bracket opens kind type closes => cases h; exact .cast bracket opens kind type closes ht
  | binary sign left =>
    cases h
    rw [List.append_assoc]
    exact .binary sign left ht
  | condition sign condition =>
    cases h
    rw [List.append_assoc]
    exact .branch sign condition ht
  | branch => cases h
  | otherwise sign separator condition yes =>
    cases h
    rw [List.append_assoc, List.cons_append, List.append_assoc]
    exact .choice sign separator condition yes ht

theorem StackPhrase.attach {s : OperandStack} {ls : List Lexeme} (hs : StackPhrase r s ls)
    {t : Tree} {ts : List Lexeme} (ht : Phrase r t ts) : StackPhrase r (s.attach t) (ls ++ ts) := by
  fun_induction OperandStack.attach s t generalizing ls ts with
  | case1 p below t t' hf ih =>
    obtain _ | ⟨rest, top⟩ := hs
    rw [List.append_assoc]
    exact ih rest (top.fill ht hf)
  | case2 p below t p' hf =>
    obtain _ | ⟨rest, top⟩ := hs
    rw [List.append_assoc]
    exact .cons rest (Pending.Phrase.fill top ht hf)
  | case3 => exact .cons hs ht
  | case4 => exact .cons hs ht

/-- Waiting operators, the outermost first, and the lexemes read for them so far. -/
inductive PendingsPhrase (r : Registry) : List Pending → List Lexeme → Prop
  | nil : PendingsPhrase r [] []
  | cons {p : Pending} {ps : List Pending} {ls ls' : List Lexeme} (outer : p.Phrase r ls)
      (inner : PendingsPhrase r ps ls') : PendingsPhrase r (p :: ps) (ls ++ ls')

theorem StackPhrase.reopened {ps : List Pending} {ls' : List Lexeme}
    (hp : PendingsPhrase r ps ls') {s : OperandStack} {ls : List Lexeme}
    (hs : StackPhrase r s ls) : StackPhrase r (s.reopened ps) (ls ++ ls') := by
  induction hp generalizing s ls with
  | nil => rwa [List.append_nil]
  | cons outer _ ih =>
    rw [← List.append_assoc]
    exact ih (.cons hs outer)

/-- What is reopened and the last piece stand for the same lexemes as the tree. -/
theorem Phrase.reopen (b : Binding) {t : Tree} {ts : List Lexeme} (h : Phrase r t ts) :
    ∃ us vs, ts = us ++ vs ∧ PendingsPhrase r (t.reopen b).1 us ∧ Phrase r (t.reopen b).2 vs := by
  fun_induction Tree.reopen b t generalizing ts with
  | case1 => exact ⟨[], ts, rfl, .nil, h⟩
  | case2 o op l x _ ih =>
    cases h with
    | @binary _ _ _ _ _ as _ sign left right =>
      obtain ⟨us, vs, rfl, hu, hv⟩ := ih right
      exact ⟨_, vs, by simp, .cons (.binary sign left) hu, hv⟩
  | case3 => exact ⟨[], ts, rfl, .nil, h⟩
  | case4 o c y n _ ih =>
    cases h with
    | choice sign separator condition yes no =>
      obtain ⟨us, vs, rfl, hu, hv⟩ := ih no
      exact ⟨_, vs, by simp, .cons (.otherwise sign separator condition yes) hu, hv⟩
  | case5 => exact ⟨[], ts, rfl, .nil, h⟩

/-- A left operand and the stack it was taken from stand for the lexemes of the whole. -/
theorem StackPhrase.takeLeft {max : Nat} {b : Binding} {here : Lexeme} {s s' : OperandStack}
    {left : Tree} {ls : List Lexeme} (hs : StackPhrase r s ls)
    (h : s.takeLeft max b here = .ok (left, s')) :
    ∃ us vs, ls = us ++ vs ∧ StackPhrase r s' us ∧ Phrase r left vs := by
  obtain ⟨e, below, ps, rfl, he, rfl⟩ := OperandStack.takeLeft_ok h
  obtain _ | ⟨rest, top⟩ := hs
  unfold Entry.leftOperand at he
  split at he
  · rename_i t
    have hr : t.reopen b = (ps, left) := Except.ok.inj he
    obtain ⟨us, vs, rfl, hu, hv⟩ := Phrase.reopen b top
    rw [hr] at hu hv
    exact ⟨_, vs, (List.append_assoc ..).symm, .reopened hu rest, hv⟩
  · rename_i o c y
    cases he
    cases top with
    | branch sign condition yes =>
      obtain ⟨us, vs, rfl, hu, hv⟩ := Phrase.reopen b yes
      exact ⟨_, vs, by simp, .reopened (.cons (.condition sign condition) hu) rest, hv⟩
  · cases he

theorem StackPhrase.separate {here : Lexeme} {s s' : OperandStack} {ls : List Lexeme}
    (hs : StackPhrase r s ls) (hh : here.Signs branchSymbol) (h : s.separate here = .ok s') :
    StackPhrase r s' (ls ++ [here]) := by
  obtain ⟨o, c, y, below, rfl, rfl⟩ := OperandStack.separate_ok h
  obtain _ | ⟨rest, top⟩ := hs
  cases top with
  | branch sign condition yes =>
    rw [List.append_assoc, List.append_assoc, List.cons_append]
    exact .cons rest (Pending.Phrase.otherwise sign hh condition yes)

theorem StackPhrase.eq_nil {s : OperandStack} (h : StackPhrase r s []) : s = [] := by
  generalize e : ([] : List Lexeme) = ls at h
  cases h with
  | nil => rfl
  | @cons e' _ _ es _ top =>
    have hes : es = [] := (List.append_eq_nil_iff.1 e.symm).2
    subst hes
    cases e' with
    | done t => exact absurd rfl (Phrase.ne_nil top)
    | pending p =>
      generalize e' : ([] : List Lexeme) = es at top
      cases top <;> simp at e'

theorem StackPhrase.done {t : Tree} {ls : List Lexeme} (h : StackPhrase r [.done t] ls) :
    Phrase r t ls := by
  obtain _ | ⟨rest, top⟩ := h
  cases rest
  exact top

end ExprEngine
