import ExprEngine.Context

/-!
# Scripted hosts

A host can describe its functions as data. A script says what a callback does; its memory is the
handles the host keeps to variables and how often each function was called.

* `HostMemory`         handles and counters;
* `Script`             what a callback does;
* `Script.callback`    the callback of a script.
-/

namespace ExprEngine

/-- What a scripted host remembers. -/
structure HostMemory where
  /-- the variables the host keeps a handle to, by name -/
  handles : List (String × VarId) := []
  /-- the functions that counted their calls, with the counts -/
  counts : List (FuncId × Nat) := []
deriving DecidableEq, Repr

namespace HostMemory

/-- The variable behind a handle. -/
def handle? (m : HostMemory) (name : String) : Option VarId := m.handles.lookup name

/-- How often a function has counted. -/
def count (m : HostMemory) (f : FuncId) : Nat := (m.counts.lookup f).getD 0

/-- The memory after one call more. -/
def countUp (m : HostMemory) (f : FuncId) : HostMemory :=
  { m with counts := (f, m.count f + 1) :: m.counts }

end HostMemory

/-- What a callback does. -/
inductive Script
  /-- returns a value -/
  | constant (v : Value)
  /-- returns one of its arguments -/
  | argument (index : Nat)
  /-- returns the sum of its arguments as floats -/
  | sum
  /-- returns how often it was called -/
  | count
  /-- writes a variable through its handle and returns its first argument -/
  | poke (variableName : String) (v : Value)
  /-- returns nothing -/
  | silent

/-- A value as a summand; one that is no number adds nothing. -/
def Value.summand (v : Value) : Float :=
  match v.cast? .r64 with
  | some (.r64 x) => x
  | _ => 0.0

/-- The callback of a script, for the function of a given id. -/
def Script.callback (f : FuncId) : Script → Callback HostMemory
  | constant v, m, _, _ => { value := v, memory := m }
  | argument i, m, _, args => { value := args[i]?.getD .void, memory := m }
  | sum, m, _, args =>
    { value := .r64 (args.foldl (fun total v => total + v.summand) 0.0), memory := m }
  | count, m, _, _ =>
    { value := .int (.wrap ⟨false, .w64⟩ (m.countUp f |>.count f)), memory := m.countUp f }
  | poke name v, m, _, args =>
    { value := args[0]?.getD .void, writes := ((m.handle? name).map fun x => (x, v)).toList,
      memory := m }
  | silent, m, _, _ => { value := .void, memory := m }

end ExprEngine
