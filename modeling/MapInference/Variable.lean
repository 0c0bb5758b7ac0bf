import MapInference.Arena
import MapInference.Failure

/-!
# Variables and literals

Binary variables, their literals, and variables with several states, whose states are consecutive
binary variables of which exactly one is true.
-/

namespace MapInference

structure BinaryVariable where
  id : Nat
  deriving Repr, DecidableEq

instance : Handle BinaryVariable where
  index := BinaryVariable.id
  ofIndex := BinaryVariable.mk

def BinaryVariable.name (v : BinaryVariable) : String := s!"x{v.id}"

structure Literal where
  atom : BinaryVariable
  negated : Bool := false
  deriving Repr, DecidableEq

namespace BinaryVariable

def literal (v : BinaryVariable) : Literal := ⟨v, false⟩
def negation (v : BinaryVariable) : Literal := ⟨v, true⟩

end BinaryVariable

namespace Literal

def negation (l : Literal) : Literal := { l with negated := !l.negated }

def holds (l : Literal) (value : Bool) : Bool := value != l.negated

def name (l : Literal) : String := if l.negated then s!"!{l.atom.name}" else l.atom.name

end Literal

/-- A variable with `numStates` states, the first of which is `firstState`. -/
structure MultiVariable where
  id : Nat
  firstState : BinaryVariable
  numStates : Nat
  deriving Repr, DecidableEq

namespace MultiVariable

def state? (m : MultiVariable) (state : Nat) : Option BinaryVariable :=
  if state < m.numStates then some ⟨m.firstState.id + state⟩ else none

def state (m : MultiVariable) (state : Nat) : Except Failure BinaryVariable :=
  match m.state? state with
  | some v => .ok v
  | none => .error (.stateOutOfRange state m.numStates)

def states (m : MultiVariable) : List BinaryVariable :=
  (List.range m.numStates).map fun state => ⟨m.firstState.id + state⟩

@[simp] theorem length_states (m : MultiVariable) : m.states.length = m.numStates := by
  simp [states]

theorem states_getElem? (m : MultiVariable) (state : Nat) :
    m.states[state]? = m.state? state := by
  by_cases h : state < m.numStates <;> simp [states, state?, h]

end MultiVariable

structure FactorId where
  id : Nat
  deriving Repr, DecidableEq

instance : Handle FactorId where
  index := FactorId.id
  ofIndex := FactorId.mk

end MapInference
