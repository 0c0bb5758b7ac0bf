/-!
# Requests without an answer

What goes wrong when a value is asked for that does not exist. A request that names something
outside of its range carries a text; an access to a missing entry has none.
-/

namespace MapInference

inductive Failure where
  | stateOutOfRange (state numStates : Nat)
  | variableOutOfRange (index numVariables : Nat)
  | negativeBudget
  /-- An index outside of a list. -/
  | missingEntry
  /-- The active set of a quadratic program has lost its last configuration. -/
  | emptyActiveSet
  deriving Repr, DecidableEq

def Failure.message? : Failure → Option String
  | .stateOutOfRange state numStates =>
    some s!"state {state} is out of range for a variable with {numStates} states"
  | .variableOutOfRange index numVariables =>
    some s!"variable {index} is not part of a graph with {numVariables} variables"
  | .negativeBudget => some "a budget cannot be negative"
  | .missingEntry => none
  | .emptyActiveSet => none

end MapInference
