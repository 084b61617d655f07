import ExprEngine.Error
import ExprEngine.Parse
import ExprEngine.Token.Tokenizer

/-!
# The engine

* `Engine.compile`     text to a typed expression;
* `Engine.run`         a typed expression in a context;
* `Engine.evaluate`    both at once.
-/

namespace ExprEngine

/-- A parsed expression with the types of its parts. -/
structure Expression where
  expr : Expr
  types : TypeTable

/-- The type of the value that a run yields. -/
def Expression.resultType (e : Expression) : ValueType := e.types.root

/-- The engine: its stages under common limits. -/
structure Engine where
  limits : Limits := {}
deriving DecidableEq, Repr

/-- The error of a stage among all errors. -/
def liftError {α ε : Type} (f : ε → Error) : Except ε α → Except Error α
  | .ok a => .ok a
  | .error e => .error (f e)

namespace Engine
variable {σ : Type}

def parseSource (engine : Engine) (source : String) (r : Registry) : Except Error Expr := do
  let tokens ← liftError .lex (tokenize source)
  liftError .parse (parse ⟨source.toList, tokens⟩ r engine.limits)

def compile (engine : Engine) (source : String) (r : Registry) : Except Error Expression := do
  let expr ← engine.parseSource source r
  let types ← liftError .type (check expr r)
  return ⟨expr, types⟩

/-- Runs an expression. The context should be the one it was compiled in, or a later state. -/
def run (engine : Engine) (e : Expression) (c : Context σ) : Outcome σ Error :=
  let out := ExprEngine.evaluate e.expr e.types c engine.limits
  ⟨liftError .eval out.result, out.context, out.calls⟩

def evaluate (engine : Engine) (source : String) (c : Context σ) : Outcome σ Error :=
  match engine.compile source c.registry with
  | .ok e => engine.run e c
  | .error e => ⟨.error e, c, []⟩

end Engine

/-- Compiles and runs text under the default limits. -/
def evaluateText {σ : Type} (source : String) (c : Context σ) : Outcome σ Error :=
  ({} : Engine).evaluate source c

end ExprEngine
