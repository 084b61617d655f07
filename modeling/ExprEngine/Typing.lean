import ExprEngine.Typing.Rules
import ExprEngine.Tree

/-!
# Typing a tree

Every part gets the type of the value it yields and the type it computes in. Operands are typed
before their operator, left to right, and the first fault ends the walk.

* `Typing`         the two types of a part;
* `TypeTable`      the types of all parts, by id;
* `checkTree`      the type of a tree with the types of its parts;
* `check`          the type table of an expression.
-/

namespace ExprEngine

/-- The types of a part. -/
structure Typing where
  /-- the type of the value it yields -/
  result : ValueType
  /-- the type its operands are brought to -/
  operand : ValueType
deriving DecidableEq, Repr

/-- A part that yields its operand type. -/
def Typing.same (t : ValueType) : Typing := ⟨t, t⟩

/-- The types of all parts, by id, and of the whole. -/
structure TypeTable where
  entries : List Typing
  root : ValueType
deriving DecidableEq, Repr

namespace TypeTable

/-- The types of an id, `void` for one the table does not have. -/
def typing (t : TypeTable) (id : PartId) : Typing := t.entries[id]?.getD (.same .void)

/-- The type of the value that a part yields. -/
def result (t : TypeTable) (id : PartId) : ValueType := (t.typing id).result

/-- The type that a part computes in. -/
def operand (t : TypeTable) (id : PartId) : ValueType := (t.typing id).operand

/-- The table of some records, `void` where there is none and the last one where there are many. -/
def ofRecords (size : Nat) (root : ValueType) (records : List (PartId × Typing)) : TypeTable :=
  ⟨records.foldl (fun es (id, ty) => es.set id ty) (List.replicate size (.same .void)), root⟩

end TypeTable

/-- A typing error, the part it blames and a span. -/
structure TypeError where
  cause : TypeCause
  part : PartId
  span : Span
deriving DecidableEq, Repr

/-- An error at the token of a tree's topmost part. -/
def Tree.typeError (t : Tree) (cause : TypeCause) : TypeError := ⟨cause, t.id, t.origin.span⟩

/-- An error that covers a whole tree. -/
def Tree.typeErrorOver (t : Tree) (cause : TypeCause) : TypeError := ⟨cause, t.id, t.extent⟩

/-- The tree that an operator's fault is blamed on: the operand at fault, else the operator. -/
def blame (whole left right : Tree) (cause : TypeCause) : TypeError :=
  match cause with
  | .leftOperand .. => left.typeErrorOver cause
  | .rightOperand .. => right.typeErrorOver cause
  | _ => whole.typeError cause

/-- A type with the types of every part below it. -/
structure Typed where
  type : ValueType
  records : List (PartId × Typing)
deriving DecidableEq, Repr

/-- A part typed over operands that are typed already. -/
def Typed.node (id : PartId) (ty : Typing) (below : List (PartId × Typing)) : Typed :=
  ⟨ty.result, below ++ [(id, ty)]⟩

/-- The type an infix operator that assigns nothing computes in. -/
def infixType (op : BinaryOp) (left right : ValueType) : Except TypeCause ValueType :=
  match op with
  | .arith _ => arithmeticType (.binary op) left right
  | .compare c => comparisonType c left right
  | .bits _ => bitwiseType (.binary op) left right
  | .logic l => logicalType l left right
  | _ => assignmentType op left right

/-- The types of an infix operator that computes in `t`. -/
def infixTyping (op : BinaryOp) (t : ValueType) : Typing :=
  match op with
  | .compare _ => ⟨.bool, t⟩
  | _ => .same t

/-- A cause as an error. -/
def raise {α : Type} (f : TypeCause → TypeError) : Except TypeCause α → Except TypeError α
  | .ok a => .ok a
  | .error c => .error (f c)

mutual

/-- The type of a tree and of every part in it, the names declared by a registry. -/
def checkTree (r : Registry) : Tree → Except TypeError Typed
  | .hole => .error (Tree.hole.typeError .missingContext)
  | .constant o v => .ok (.node o.id (.same v.type) [])
  | .reference o x =>
    match r.variableAt? x with
    | none => .error ((Tree.reference o x).typeError .missingContext)
    | some v => .ok (.node o.id (.same v.type) [])
  | .group o x => do
    let t ← checkTree r x
    return .node o.id (.same t.type) t.records
  | .cast o target x =>
    if x.isHole then .error ((Tree.cast o target x).typeError (.cast .void target))
    else do
      let t ← checkTree r x
      if t.type.castsTo target then return .node o.id ⟨target, t.type⟩ t.records
      else .error ((Tree.cast o target x).typeError (.cast t.type target))
  | .unary o op x =>
    if x.isHole then .error ((Tree.unary o op x).typeError (.rightOperand (.unary op) .void))
    else do
      let t ← checkTree r x
      let ty ← raise x.typeErrorOver (unaryType op t.type)
      return .node o.id (.same ty) t.records
  | .choice o c y n =>
    let whole := Tree.choice o c y n
    if c.isHole || y.isHole || n.isHole then
      .error (whole.typeError (.rightOperand .choice .void))
    else do
      let tc ← checkTree r c
      let ty ← checkTree r y
      let tn ← checkTree r n
      if !tc.type.isBoolable then .error (c.typeErrorOver (.condition tc.type))
      else
        let t ← raise whole.typeError (branchType ty.type tn.type)
        return .node o.id (.same t) (tc.records ++ ty.records ++ tn.records)
  | .binary o op l x =>
    let whole := Tree.binary o op l x
    if l.isHole || x.isHole then .error (whole.typeError (.rightOperand (.binary op) .void))
    else if op.isAssignment then do
      let tl ← checkTree r l
      match l.singleVariable? with
      | none => .error (l.typeErrorOver (.leftOperand (.binary op) tl.type))
      | some var =>
        match r.variableAt? var with
        | none => .error (l.typeError .missingContext)
        | some v =>
          let tx ← checkTree r x
          if v.readOnly then .error (l.typeError (.readOnly v.name))
          else
            let t ← raise (blame whole l x) (assignmentType op v.type tx.type)
            return .node o.id ⟨v.type, t⟩ (tl.records ++ tx.records)
    else do
      let tl ← checkTree r l
      let tx ← checkTree r x
      let t ← raise (blame whole l x) (infixType op tl.type tx.type)
      return .node o.id (infixTyping op t) (tl.records ++ tx.records)
  | .call o f args =>
    match r.functionAt? f with
    | none => .error ((Tree.call o f args).typeError .missingContext)
    | some s => do
      let records ← checkArguments r s 0 args
      return .node o.id (.same s.returns) records

/-- The types of the parts in a call's arguments, the first of them at position `index`. -/
def checkArguments (r : Registry) (s : Signature) (index : Nat) :
    List Tree → Except TypeError (List (PartId × Typing))
  | [] => .ok []
  | arg :: args => do
    let t ← checkTree r arg
    let expected := (s.parameters[index]?.map Parameter.type).getD .void
    if !t.type.castsTo expected then
      .error (arg.typeErrorOver (.argument s.name index expected t.type))
    else
      let rest ← checkArguments r s (index + 1) args
      return t.records ++ rest

end

def check (e : Expr) (r : Registry) : Except TypeError TypeTable :=
  (checkTree r e.tree).map fun t => .ofRecords e.partCount t.type t.records

end ExprEngine
