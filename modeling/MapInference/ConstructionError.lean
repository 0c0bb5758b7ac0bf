import MapInference.Logic.Operator

/-!
# Errors of graph construction
-/

namespace MapInference

inductive Listing where
  | variableScores
  | additionalScores
  | costs
  | factorVariables
  | transitions
  | additionalLogPotentials
  deriving Repr, DecidableEq

def Listing.text : Listing → String
  | variableScores => "variable scores"
  | additionalScores => "additional scores"
  | costs => "costs"
  | factorVariables => "variables"
  | transitions => "transition log-potentials"
  | additionalLogPotentials => "additional log-potentials"

inductive Parameter where
  | cost
  | budget
  deriving Repr, DecidableEq

def Parameter.text : Parameter → String
  | cost => "cost"
  | budget => "budget"

inductive ShapeError where
  | denseWithoutVariables
  | jointStates (numLogPotentials : Nat) (sizes : List Nat)
  | matchingWithoutPairs (numRows numColumns : Nat)
  | segmentationWithoutPositions
  deriving Repr, DecidableEq

def ShapeError.message : ShapeError → String
  | denseWithoutVariables => "a dense factor needs at least one variable"
  | jointStates numLogPotentials sizes =>
    s!"{numLogPotentials} log-potentials do not match the joint states of variables with ["
      ++ ", ".intercalate (sizes.map toString) ++ "] states"
  | matchingWithoutPairs numRows numColumns =>
    s!"a matching needs at least one row and one column, got {numRows}x{numColumns}"
  | segmentationWithoutPositions => "a segmentation needs at least one position"

/-- Why a variable or a factor cannot be added to a graph, or a factor not be solved. -/
inductive ConstructionError (α : Type) where
  | lengthMismatch (what : Listing) (expected actual : Nat)
  | invalidParameter (parameter : Parameter) (value : α)
  | shapeMismatch (cause : ShapeError)
  | unknownVariable (id : Nat)
  | stateOutOfRange (state numStates : Nat)
  | emptyDomain
  | notEnoughLiterals (operator : LogicOperator) (minimum actual : Nat)
  | duplicateVariable (id : Nat)
  | unknownFactor (id : Nat)
  /-- The factor has a closed form. -/
  | noActiveSetSolver (id : Nat)
  | graphSealed
  /-- The number of variables of a factor exceeds the machine words. -/
  | sizeOverflow
  deriving Repr, DecidableEq

def ConstructionError.message {α : Type} (showScalar : α → String) : ConstructionError α → String
  | lengthMismatch what expected actual =>
    s!"expected {expected} {what.text}, but {actual} were provided"
  | invalidParameter parameter value =>
    s!"parameter `{parameter.text}` must be a non-negative integer, but got " ++ showScalar value
  | shapeMismatch cause => "invalid factor shape: " ++ cause.message
  | unknownVariable id => s!"variable {id} does not belong to this factor graph"
  | stateOutOfRange state numStates =>
    s!"state {state} is out of range for a variable with {numStates} states"
  | emptyDomain => "a multi-state variable needs at least one state"
  | notEnoughLiterals operator minimum actual =>
    s!"the {operator.keyword} factor needs at least {minimum} literals, but got {actual}"
  | duplicateVariable id => s!"variable {id} occurs more than once in the factor"
  | unknownFactor id => s!"factor {id} does not belong to this factor graph"
  | noActiveSetSolver id => s!"factor {id} is not solved with the active-set method"
  | graphSealed => "the factor graph has already been solved and cannot be extended"
  | sizeOverflow => "the factor is too large"

end MapInference
