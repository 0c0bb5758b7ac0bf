import MapInference.Event
import MapInference.Graph.Spec
import MapInference.Statistics

/-!
# Factor graphs

A factor graph collects variables with log-potentials and factors over them. A declaration that
fails leaves the graph as it is. The first solve seals the graph: from then on no factor is
declared, and every multi-state variable that occurs in no dense factor has a factor of its own
that makes exactly one of its states true.
-/

namespace MapInference

open Scalar

structure FactorGraph (α : Type) where
  logPotentials : Arena BinaryVariable α := {}
  multiVariables : List MultiVariable := []
  /-- The multi-state variables that occur in dense factors. -/
  coveredByDense : List MultiVariable := []
  /-- The declared factors, followed by those of the multi-state variables. -/
  factors : Arena FactorId (WarmFactor α) := {}
  numDeclared : Nat := 0
  /-- The number of multi-state variables that the seal has dealt with. -/
  numGrouped : Nat := 0
  isSealed : Bool := false
  statistics : Statistics α

namespace FactorGraph

variable {α : Type} [Scalar α]

def empty : FactorGraph α := { statistics := .zero }

def addBinary (g : FactorGraph α) : BinaryVariable × FactorGraph α :=
  (g.logPotentials.nextKey, { g with logPotentials := g.logPotentials.push 0 })

def addMulti (g : FactorGraph α) (numStates : Nat) :
    Except (ConstructionError α) (MultiVariable × FactorGraph α) :=
  if numStates = 0 then .error .emptyDomain
  else
    let m : MultiVariable := ⟨g.multiVariables.length, g.logPotentials.nextKey, numStates⟩
    .ok (m,
      { g with
        logPotentials := ⟨g.logPotentials.values ++ zeros numStates⟩
        multiVariables := g.multiVariables ++ [m] })

def checkVariable (g : FactorGraph α) (v : BinaryVariable) : Except (ConstructionError α) Unit :=
  if g.logPotentials.contains v then .ok () else .error (.unknownVariable v.id)

def checkMulti (g : FactorGraph α) (m : MultiVariable) : Except (ConstructionError α) Unit :=
  if g.multiVariables[m.id]? = some m then .ok () else .error (.unknownVariable m.id)

/-- Checks that all literals have variables of the graph, which are different from those in
`seen` and from each other. -/
def checkLiterals (g : FactorGraph α) (seen : List BinaryVariable) :
    List Literal → Except (ConstructionError α) Unit
  | [] => .ok ()
  | l :: rest => do
    g.checkVariable l.atom
    if l.atom ∈ seen then .error (.duplicateVariable l.atom.id)
    else g.checkLiterals (l.atom :: seen) rest

def setLogPotential (g : FactorGraph α) (v : BinaryVariable) (x : α) :
    Except (ConstructionError α) (FactorGraph α) := do
  g.checkVariable v
  return { g with logPotentials := g.logPotentials.set v x }

def setStateLogPotential (g : FactorGraph α) (m : MultiVariable) (state : Nat) (x : α) :
    Except (ConstructionError α) (FactorGraph α) := do
  g.checkMulti m
  match m.state? state with
  | some v => return { g with logPotentials := g.logPotentials.set v x }
  | none => .error (.stateOutOfRange state m.numStates)

def setStateLogPotentials (g : FactorGraph α) (m : MultiVariable) (state : Nat) :
    List α → Except (ConstructionError α) (FactorGraph α)
  | [] => .ok g
  | x :: rest => do
    let g ← g.setStateLogPotential m state x
    g.setStateLogPotentials m (state + 1) rest

def logPotential? (g : FactorGraph α) (v : BinaryVariable) : Option α := g.logPotentials.get? v

/-- The number of binary variables; states of multi-state variables are among them. -/
def numBinary (g : FactorGraph α) : Nat := g.logPotentials.size

def numMulti (g : FactorGraph α) : Nat := g.multiVariables.length

def check (g : FactorGraph α) (spec : FactorSpec α) : Except (ConstructionError α) Unit := do
  if let .dense vars _ := spec then
    if vars.isEmpty then .error (.shapeMismatch .denseWithoutVariables)
    vars.forM g.checkMulti
  spec.checkShape
  g.checkLiterals [] spec.literals

def declare (g : FactorGraph α) (spec : FactorSpec α) :
    Except (ConstructionError α) (FactorId × FactorGraph α) := do
  if g.isSealed then .error .graphSealed
  g.check spec
  let f ← spec.toFactor
  return (g.factors.nextKey,
    { g with
      coveredByDense := g.coveredByDense ++ spec.denseVariables
      factors := g.factors.push { factor := f }
      numDeclared := g.numDeclared + 1 })

def declarationEvents (id : FactorId) (g : FactorGraph α) (spec : FactorSpec α) :
    List (Event α) :=
  (spec.replacedBudget?.map Event.negativeBudget).toList
    ++ ((g.factors.get? id).map fun w =>
      Event.factorDeclared w.factor.kind.name id.id w.factor.literals.length).toList

def checkFactor (g : FactorGraph α) (id : FactorId) : Except (ConstructionError α) Unit :=
  if id.id < g.numDeclared then .ok () else .error (.unknownFactor id.id)

def setAdditional (g : FactorGraph α) (id : FactorId) (xs : List α) :
    Except (ConstructionError α) (FactorGraph α) := do
  g.checkFactor id
  match g.factors.get? id with
  | none => .error (.unknownFactor id.id)
  | some w =>
    if xs.length ≠ w.factor.numAdditionals then
      .error (.lengthMismatch .additionalLogPotentials w.factor.numAdditionals xs.length)
    else
      let changed : WarmFactor α := ⟨{ w.factor with additional := xs }, w.activeSet⟩
      return { g with factors := g.factors.set id changed }

def exactlyOneState (m : MultiVariable) : Factor α where
  literals := m.states.map BinaryVariable.literal
  additional := []
  kind := .logic (.ofOperator .xor m.numStates)

/-- Ends declarations and groups the states of the multi-state variables that are new. -/
def sealed (g : FactorGraph α) : FactorGraph α :=
  let ungrouped := (g.multiVariables.drop g.numGrouped).filter fun m => m ∉ g.coveredByDense
  { g with
    factors :=
      ⟨g.factors.values ++ ungrouped.map fun m => { factor := exactlyOneState m }⟩
    numGrouped := g.multiVariables.length
    isSealed := true }

def problem (g : FactorGraph α) : Problem α :=
  ⟨g.factors.values.map (·.factor), g.logPotentials.values⟩

def declaredFactors (g : FactorGraph α) : List (Factor α) :=
  (g.factors.values.take g.numDeclared).map (·.factor)

/-- Solves the quadratic program of one declared factor, whose active set is kept. -/
def solveProgram (g : FactorGraph α) (id : FactorId) (scores additional : List α) :
    Except (ConstructionError α)
      (FactorGraph α × QuadraticProgram.Solution α × QuadraticProgram.Stop) := do
  g.checkFactor id
  match g.factors.get? id with
  | none => .error (.unknownFactor id.id)
  | some w =>
    match w.oracle? with
    | none => .error (.noActiveSetSolver id.id)
    | some oracle =>
      let outcome ← QuadraticProgram.solveChecked oracle scores additional w.activeSet
      let changed : WarmFactor α := ⟨w.factor, outcome.activeSet⟩
      return ({ g with factors := g.factors.set id changed }, outcome.solution oracle, outcome.stop)

end FactorGraph
end MapInference
