import MapInference.Graph.Call

/-!
# Calls in place

A caller has one graph, which its calls write to piece by piece: an error ends a call, and what has
been written until then stays written. Here the calls are given in this form, with their writes in
the order in which they happen.
-/

namespace MapInference

open Scalar
variable {α β : Type}

namespace FactorGraph

/-- A call that works on a graph in place. An error does not take back what has been written. -/
abbrev InPlace (α β : Type) := EStateM (ConstructionError α) (FactorGraph α) β

namespace InPlace

def ask (f : FactorGraph α → Except (ConstructionError α) β) : InPlace α β := do
  match f (← get) with
  | .ok b => return b
  | .error e => throw e

def write (v : BinaryVariable) (x : α) : InPlace α Unit :=
  modify fun g => { g with logPotentials := g.logPotentials.set v x }

def setLogPotential (v : BinaryVariable) (x : α) : InPlace α Unit := do
  ask (·.checkVariable v)
  write v x

def setStateLogPotential (m : MultiVariable) (state : Nat) (x : α) : InPlace α Unit := do
  ask (·.checkMulti m)
  match m.state? state with
  | some v => write v x
  | none => throw (.stateOutOfRange state m.numStates)

def factor (id : FactorId) : InPlace α (WarmFactor α) :=
  ask fun g => do
    g.checkFactor id
    match g.factors.get? id with
    | some w => return w
    | none => throw (.unknownFactor id.id)

def setAdditional (id : FactorId) (xs : List α) : InPlace α Unit := do
  let w ← factor id
  if xs.length ≠ w.factor.numAdditionals then
    throw (.lengthMismatch .additionalLogPotentials w.factor.numAdditionals xs.length)
  let changed : WarmFactor α := ⟨{ w.factor with additional := xs }, w.activeSet⟩
  modify fun g => { g with factors := g.factors.set id changed }

variable [Scalar α]

def addBinary : InPlace α BinaryVariable := do
  let v := (← get).logPotentials.nextKey
  modify fun g => { g with logPotentials := g.logPotentials.push 0 }
  return v

def addBinaries : Nat → InPlace α Unit
  | 0 => return
  | n + 1 => do
    let _ ← addBinary
    addBinaries n

def addMulti (numStates : Nat) : InPlace α MultiVariable := do
  if numStates = 0 then throw .emptyDomain
  let firstState := (← get).logPotentials.nextKey
  addBinaries numStates
  let m : MultiVariable := ⟨(← get).multiVariables.length, firstState, numStates⟩
  modify fun g => { g with multiVariables := g.multiVariables ++ [m] }
  return m

/-- The variables are marked as covered, the factor is counted and then appended. -/
def declare (spec : FactorSpec α) : InPlace α FactorId := do
  if (← get).isSealed then throw .graphSealed
  let f ← ask fun g => do
    g.check spec
    spec.toFactor
  modify fun g => { g with coveredByDense := g.coveredByDense ++ spec.denseVariables }
  modify fun g => { g with numDeclared := g.numDeclared + 1 }
  let id := (← get).factors.nextKey
  modify fun g => { g with factors := g.factors.push { factor := f } }
  return id

def solveProgram (id : FactorId) (scores additional : List α) :
    InPlace α (QuadraticProgram.Solution α × QuadraticProgram.Stop) := do
  let w ← factor id
  match w.oracle? with
  | none => throw (.noActiveSetSolver id.id)
  | some oracle =>
    let outcome ← ask fun _ => QuadraticProgram.solveChecked oracle scores additional w.activeSet
    let changed : WarmFactor α := ⟨w.factor, outcome.activeSet⟩
    modify fun g => { g with factors := g.factors.set id changed }
    return (outcome.solution oracle, outcome.stop)

end InPlace

variable [Scalar α]

def Call.inPlace : Call α → InPlace α Unit
  | addBinary => discard InPlace.addBinary
  | addMulti numStates => discard (InPlace.addMulti numStates)
  | setLogPotential v x => InPlace.setLogPotential v x
  | setStateLogPotential m state x => InPlace.setStateLogPotential m state x
  | declare spec => discard (InPlace.declare spec)
  | setAdditional id xs => InPlace.setAdditional id xs
  | solve options monitor monitorState =>
    modify fun g => (g.solve options monitor monitorState).1.graph
  | solveProgram id scores additional => discard (InPlace.solveProgram id scores additional)

end FactorGraph
end MapInference
