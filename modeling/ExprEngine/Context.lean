import ExprEngine.Registry

/-!
# What the host provides

A context is a registry with everything that may change: the stored values of its variables, and a
memory of the host's own that its callbacks read and write. Values are stored in cells. A variable
is bound to a cell, and a host that keeps a handle to the cell may bind another variable to it.

* `Callback`               a function of the host;
* `State`                  the cells, the cell of each variable, and the host's memory;
* `Context`                a registry, the callbacks of its functions and the state;
* `Context.addVariable`    a checked declaration with its cell;
* `State.poke`             a write by the host.
-/

namespace ExprEngine

/-- What a callback gives back: its value, the shared variables it wrote in order, and the host's
memory after it. -/
structure Reply (σ : Type) where
  value : Value
  writes : List (VarId × Value) := []
  memory : σ

/-- A function of the host: from its memory, the stored values of all variables and the arguments
to a reply. -/
abbrev Callback (σ : Type) := σ → List Value → List Value → Reply σ

/-- A cell for a value. -/
abbrev CellId := Nat

/-- The cell that a variable is declared with: a cell of its own that holds a first value, or the
cell of an earlier variable. -/
inductive Storage
  | own (initial : Value)
  | clone (x : VarId)

/-- All that a run may change, and the cells of the variables, which it may not. -/
structure State (σ : Type) where
  /-- the values in the cells -/
  cells : List Value
  /-- the cells of the variables, by id -/
  places : List CellId
  memory : σ
  inRange : ∀ k ∈ places, k < cells.length

/-- A registry with callbacks for its functions and a state. -/
structure Context (σ : Type) where
  registry : Registry
  /-- the callbacks of the functions, by id -/
  callbacks : List (Callback σ)
  state : State σ

namespace State
variable {σ : Type}

/-- The value in a cell. -/
def content (s : State σ) (k : CellId) : Value := s.cells[k]?.getD .void

/-- The stored values of the variables, by id. -/
def values (s : State σ) : List Value := s.places.map s.content

def value (s : State σ) (x : VarId) : Value := s.values[x]?.getD .void

/-- Stores a value in the cell of a variable. -/
def store (s : State σ) (x : VarId) (v : Value) : State σ :=
  match s.places[x]? with
  | some k => { s with
      cells := s.cells.set k v
      inRange := by rw [List.length_set]; exact s.inRange }
  | none => s

/-- One more variable, in a cell of its own. -/
def allocate (s : State σ) (v : Value) : State σ where
  cells := s.cells ++ [v]
  places := s.places ++ [s.cells.length]
  memory := s.memory
  inRange := by
    intro k hk
    rw [List.length_append, List.length_singleton]
    rcases List.mem_append.1 hk with hk | hk
    · exact Nat.lt_succ_of_lt (s.inRange k hk)
    · exact Nat.lt_succ_of_le (Nat.le_of_eq (List.mem_singleton.1 hk))

/-- One more variable, in the cell of another. What is not declared has none to share. -/
def share (s : State σ) (x : VarId) : State σ :=
  if h : x < s.places.length then { s with
    places := s.places ++ [s.places[x]]
    inRange := List.forall_mem_append.2
      ⟨s.inRange, List.forall_mem_singleton.2 (s.inRange _ (List.getElem_mem h))⟩ }
  else s.allocate .void

/-- One more variable, bound as it is declared. -/
def declare (s : State σ) : Storage → State σ
  | .own v => s.allocate v
  | .clone x => s.share x

/-- What a variable holds that is declared. -/
def initial (s : State σ) : Storage → Value
  | .own v => v
  | .clone x => s.value x

/-- A write by the host. It reaches only variables the host keeps a handle to. -/
def poke (r : Registry) (s : State σ) (w : VarId × Value) : State σ :=
  if (r.variableAt? w.1).any Variable.shared then s.store w.1 w.2 else s

def afterReply (r : Registry) (s : State σ) (reply : Reply σ) : State σ :=
  reply.writes.foldl (poke r) { s with memory := reply.memory }

end State

namespace Context
variable {σ : Type}

def empty (memory : σ) : Context σ := ⟨.empty, [], ⟨[], [], memory, nofun⟩⟩

/-- Declares a variable with its cell. What the cell holds then must fit the variable. -/
def addVariable (c : Context σ) (v : Variable) (storage : Storage) :
    Except RegistryError (Context σ) :=
  (c.registry.addVariable v (c.state.initial storage)).map fun r =>
    { c with registry := r, state := c.state.declare storage }

/-- Declares a function with its callback. -/
def addFunction (c : Context σ) (f : Signature) (callback : Callback σ) :
    Except RegistryError (Context σ) :=
  (c.registry.addFunction f).map fun r =>
    { c with registry := r, callbacks := c.callbacks ++ [callback] }

/-- Turns the toggling of bare variables on or off. -/
def setInteractive (c : Context σ) (on : Bool) : Context σ :=
  { c with registry := { c.registry with interactive := on } }

/-- Stores a value in a variable, whatever its type. -/
def setVariable (c : Context σ) (x : VarId) (v : Value) : Context σ :=
  { c with state := c.state.store x v }

/-- The stored value of the variable of a name. -/
def valueOf? (c : Context σ) (name : String) : Option Value :=
  (c.registry.variableNamed? name).map c.state.value

end Context
end ExprEngine
