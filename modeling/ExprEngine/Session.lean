import ExprEngine.Arena
import ExprEngine.Engine
import ExprEngine.Script

/-!
# Sessions

A session keeps contexts and compiled expressions under names, and one engine to use them with.

* `Session`                 the named contexts and expressions, and the engine;
* `Session.evaluate`        text in a context, with what there is to show of it;
* `Session.inspect`         an expression through its stages, one by one.

A context that is named for the first time is empty. Where no context is named at all, the empty
one stands in: it declares nothing, so nothing can be found in it.
-/

namespace ExprEngine

/-- Named contexts and expressions, and the engine. -/
structure Session where
  contexts : List (String × Context HostMemory) := []
  compiled : List (String × Expression) := []
  engine : Engine := {}

namespace Session

/-- The context of a name, the empty one for a new name or none. -/
def context (s : Session) (name : Option String) : Context HostMemory :=
  (name.bind fun n => s.contexts.lookup n).getD (.empty {})

/-- The session with another context under a name. -/
def putContext (s : Session) (name : Option String) (c : Context HostMemory) : Session :=
  match name with
  | some n => { s with contexts := putNamed n c s.contexts }
  | none => s

/-- The session with an expression kept under a name. -/
def keep (s : Session) (slot : Option String) (e : Expression) : Session :=
  match slot with
  | some n => { s with compiled := putNamed n e s.compiled }
  | none => s

/-- Declares a variable; the host keeps a handle to a shared one. -/
def addVariable (s : Session) (name : Option String) (v : Variable) (initial : Value) :
    Except RegistryError VarId × Session :=
  let c := s.context name
  let x := c.registry.vars.length
  match c.addVariable v (.own initial) with
  | .error e => (.error e, s)
  | .ok c =>
    let memory := c.state.memory
    let memory := if v.shared then { memory with handles := (v.name, x) :: memory.handles }
      else memory
    (.ok x, s.putContext name { c with state := { c.state with memory } })

/-- Declares a function with its script. -/
def addFunction (s : Session) (name : Option String) (f : Signature) (script : Script) :
    Except RegistryError FuncId × Session :=
  let c := s.context name
  let id := c.registry.funcs.length
  match c.addFunction f (script.callback id) with
  | .error e => (.error e, s)
  | .ok c => (.ok id, s.putContext name c)

/-- Stores a value in the variable of a name; whether there is one. -/
def setVariable (s : Session) (name : Option String) (variableName : String) (v : Value) :
    Bool × Session :=
  let c := s.context name
  match c.registry.variableNamed? variableName with
  | some x => (true, s.putContext name (c.setVariable x v))
  | none => (false, s)

/-- Stores a value through the host's handle of a name; whether there is one. -/
def setThroughHandle (s : Session) (name : Option String) (variableName : String) (v : Value) :
    Bool × Session :=
  let c := s.context name
  match c.state.memory.handle? variableName with
  | some x => (true, s.putContext name (c.setVariable x v))
  | none => (false, s)

/-- What an evaluation shows: its result, the calls it made, and the compiled expression, if the
session's engine can compile the text. -/
structure Evaluation where
  result : Except Error Value
  calls : List Call
  compiled : Option Expression

/-- Evaluates text in a context, under the engine's limits or under the default ones. -/
def evaluate (s : Session) (name : Option String) (source : String) (defaultLimits : Bool) :
    Evaluation × Session :=
  let c := s.context name
  let compiled := (s.engine.compile source c.registry).toOption
  let out := if defaultLimits then evaluateText source c else s.engine.evaluate source c
  (⟨out.result, out.calls, compiled⟩, s.putContext name out.context)

/-- Runs an expression kept under a name, if there is one. -/
def runKept (s : Session) (name : Option String) (slot : String) :
    Option (Outcome HostMemory Error) × Session :=
  match s.compiled.lookup slot with
  | none => (none, s)
  | some e =>
    let out := s.engine.run e (s.context name)
    (some out, s.putContext name out.context)

/-- Where an expression is shown, typed and run, and whose types replace its own. -/
structure InspectionPlan where
  showIn : Option String
  checkIn : Option String
  runIn : Option String
  typesOf : Option String := none

/-- An expression through its stages: the table of its types, and if there is one, the run. -/
structure Inspection where
  types : Except TypeError TypeTable
  run : Option (Except EvalError Value × List Call)

/-- Types and runs an expression. Types of another expression may stand in for its own. -/
def inspect (s : Session) (plan : InspectionPlan) (e : Expr) : Inspection × Session :=
  let types : Except TypeError TypeTable :=
    match plan.typesOf.bind fun n => s.compiled.lookup n with
    | some other => .ok other.types
    | none => check e (s.context plan.checkIn).registry
  match types with
  | .error err => (⟨.error err, none⟩, s)
  | .ok table =>
    let out := ExprEngine.evaluate e table (s.context plan.runIn) s.engine.limits
    (⟨.ok table, some (out.result, out.calls)⟩, s.putContext plan.runIn out.context)

end Session
end ExprEngine
