import ExprEngine.Value

/-!
# The names an expression may use

A registry declares variables and functions, and keeps tables of their ids by name. It holds no
values and runs nothing: it is all that parsing and typing need to know of the host.

* `Registry.addVariable`, `Registry.addFunction`   checked declarations;
* `Registry.variableNamed?`                        the variable of a name;
* `Registry.resolve`                               the function a call means.
-/

namespace ExprEngine

/-- A variable's position in its registry. -/
abbrev VarId := Nat

/-- A function's position in its registry. -/
abbrev FuncId := Nat

structure Variable where
  name : String
  type : ValueType
  readOnly : Bool := false
  /-- whether the host keeps a handle to the value -/
  shared : Bool := false
deriving DecidableEq

/-- A declared parameter; a default makes it optional. -/
structure Parameter where
  type : ValueType
  default : Option Value := none
deriving DecidableEq

structure Signature where
  name : String
  returns : ValueType
  parameters : List Parameter
deriving DecidableEq

namespace Signature

def arity (f : Signature) : Nat := f.parameters.length

/-- Number of parameters that every call must supply. -/
def required (f : Signature) : Nat := (f.parameters.takeWhile fun p => p.default.isNone).length

/-- Whether defaults complete a call with `count` arguments. -/
def accepts (f : Signature) (count : Nat) : Bool := f.required ≤ count && count ≤ f.arity

end Signature

/-- Most parameters a function may declare. -/
def maxArguments : Nat := 8

/-- Why a declaration is refused. -/
inductive RegistryError
  | invalidName (name : String)
  | reservedName (name : String)
  | duplicateVariable (name : String)
  | duplicateFunction (name : String) (arity : Nat)
  | initialValueType (name : String) (declared found : ValueType)
  | voidParameter (name : String)
  | tooManyParameters (name : String) (count : Nat)
  | requiredAfterOptional (name : String)
  | defaultType (name : String) (index : Nat) (expected found : ValueType)
deriving DecidableEq

/-- The text of a refusal. -/
def RegistryError.message : RegistryError → String
  | invalidName n => "`" ++ n ++ "` is not a valid identifier"
  | reservedName n => "`" ++ n ++ "` is reserved"
  | duplicateVariable n => "variable `" ++ n ++ "` is already defined"
  | duplicateFunction n arity =>
    "function `" ++ n ++ "` taking " ++ toString arity ++ " argument(s) is already defined"
  | initialValueType n declared found =>
    "variable `" ++ n ++ "` is declared `" ++ declared.name ++ "` but holds a `" ++ found.name ++
      "`"
  | voidParameter n => "function `" ++ n ++ "` declares a `void` parameter"
  | tooManyParameters n count =>
    "function `" ++ n ++ "` declares " ++ toString count ++ " parameters, the limit is " ++
      toString maxArguments
  | requiredAfterOptional n =>
    "function `" ++ n ++ "` declares a required parameter after an optional one"
  | defaultType n index expected found =>
    "default for parameter " ++ toString index ++ " of `" ++ n ++ "` is `" ++ found.name ++
      "`, expected `" ++ expected.name ++ "`"

/-- Why no function fits a call. -/
inductive ArityMismatch
  | unknown
  /-- more arguments than any function of the name takes -/
  | tooMany (max : Nat)
  /-- no function of the name can be called with so few -/
  | missing (min : Nat)
deriving DecidableEq, Repr

/-- A list of named things with one replaced, or added at the end. -/
def putNamed {α : Type} (name : String) (a : α) : List (String × α) → List (String × α)
  | [] => [(name, a)]
  | (n, b) :: l => if n == name then (n, a) :: l else (n, b) :: putNamed name a l

/-- A table of ids with one more under a name. -/
def pushNamed (name : String) (id : Nat) (table : List (String × List Nat)) :
    List (String × List Nat) :=
  putNamed name ((table.lookup name).getD [] ++ [id]) table

/-- Declarations by id, and tables of the ids by name. -/
structure Registry where
  vars : List Variable := []
  funcs : List Signature := []
  /-- whether a bare variable as a whole expression toggles it -/
  interactive : Bool := false
  /-- the id of the variable of each name; a registry that is written out has the names of its
  variables -/
  variableIds : List (String × VarId) :=
    vars.zipIdx.foldl (fun table v => putNamed v.1.name v.2 table) []
  /-- the ids of the functions of each name, in order of registration -/
  functionIds : List (String × List FuncId) :=
    funcs.zipIdx.foldl (fun table f => pushNamed f.1.name f.2 table) []
deriving DecidableEq

/-- The boolean constant a name stands for, in any letter case. -/
def booleanNamed? (s : String) : Option Bool :=
  if Text.sameIgnoringCase s "true" then some true
  else if Text.sameIgnoringCase s "false" then some false
  else none

/-- Whether a name already has a meaning of its own. -/
def isReserved (s : String) : Bool := (booleanNamed? s).isSome || (ValueType.ofName? s).isSome

namespace Registry

def empty : Registry := {}

/-- Refuses a name that cannot be written or has a meaning already. -/
def checkName (name : String) : Except RegistryError Unit :=
  if !Text.isName name.toList then .error (.invalidName name)
  else if isReserved name then .error (.reservedName name)
  else .ok ()

def variableAt? (r : Registry) (x : VarId) : Option Variable := r.vars[x]?

def functionAt? (r : Registry) (f : FuncId) : Option Signature := r.funcs[f]?

def variableNamed? (r : Registry) (name : String) : Option VarId := r.variableIds.lookup name

def functionsNamed (r : Registry) (name : String) : List FuncId :=
  (r.functionIds.lookup name).getD []

/-- The functions of a name with their ids, in order of registration. -/
def overloads (r : Registry) (name : String) : List (Signature × FuncId) :=
  (r.functionsNamed name).filterMap fun f => (r.functionAt? f).map fun s => (s, f)

/-- Declares a variable whose stored value starts as `initial`. -/
def addVariable (r : Registry) (v : Variable) (initial : Value) : Except RegistryError Registry :=
  match checkName v.name with
  | .error e => .error e
  | .ok () =>
    if (r.variableNamed? v.name).isSome then .error (.duplicateVariable v.name)
    else if !initial.type.castsTo v.type then
      .error (.initialValueType v.name v.type initial.type)
    else .ok { r with
      variableIds := putNamed v.name r.vars.length r.variableIds
      vars := r.vars ++ [v] }

/-- The first fault in a list of parameters, the first of them at position `index`. -/
def parameterFault? (name : String) : Nat → Bool → List Parameter → Option RegistryError
  | _, _, [] => none
  | index, seenOptional, p :: ps =>
    if p.type = .void then some (.voidParameter name)
    else match p.default with
      | some d =>
        if d.type ≠ p.type then some (.defaultType name index p.type d.type)
        else parameterFault? name (index + 1) true ps
      | none =>
        if seenOptional then some (.requiredAfterOptional name)
        else parameterFault? name (index + 1) false ps

/-- Declares a function. Functions of one name differ in their arity. -/
def addFunction (r : Registry) (f : Signature) : Except RegistryError Registry :=
  match checkName f.name with
  | .error e => .error e
  | .ok () =>
    if maxArguments < f.arity then .error (.tooManyParameters f.name f.arity)
    else match parameterFault? f.name 0 false f.parameters with
      | some e => .error e
      | none =>
        if (r.overloads f.name).any fun g => g.1.arity == f.arity then
          .error (.duplicateFunction f.name f.arity)
        else .ok { r with
          functionIds := pushNamed f.name r.funcs.length r.functionIds
          funcs := r.funcs ++ [f] }

/-- The function that a call of `name` with `count` arguments means: the one of that arity, else the
first whose defaults complete the call. -/
def resolve (r : Registry) (name : String) (count : Nat) : Except ArityMismatch FuncId :=
  let candidates := r.overloads name
  if candidates.isEmpty then .error .unknown
  else match candidates.find? fun f => f.1.arity == count with
    | some f => .ok f.2
    | none => match candidates.find? fun f => f.1.accepts count with
      | some f => .ok f.2
      | none =>
        let most := (candidates.map fun f => f.1.arity).foldl max 0
        if most < count then .error (.tooMany most)
        else .error (.missing ((candidates.map fun f => f.1.required).min?.getD 0))

end Registry
end ExprEngine
