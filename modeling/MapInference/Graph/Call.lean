import MapInference.Graph.Solve

/-!
# Calls of the interface

The calls that may change a graph, and the graphs that sequences of calls lead to from the empty
one. A call that fails leaves the graph as it is.
-/

namespace MapInference
namespace FactorGraph

variable {α : Type}

inductive Call (α : Type) : Type 1 where
  | addBinary
  | addMulti (numStates : Nat)
  | setLogPotential (v : BinaryVariable) (x : α)
  | setStateLogPotential (m : MultiVariable) (state : Nat) (x : α)
  | declare (spec : FactorSpec α)
  | setAdditional (id : FactorId) (xs : List α)
  | solve {σ : Type} (options : Options α) (monitor : Monitor σ) (monitorState : σ)
  | solveProgram (id : FactorId) (scores additional : List α)

def Call.isSolve : Call α → Bool
  | solve _ _ _ => true
  | _ => false

variable [Scalar α]

def attempt (g : FactorGraph α) : Call α → Except (ConstructionError α) (FactorGraph α)
  | .addBinary => .ok g.addBinary.2
  | .addMulti numStates => (g.addMulti numStates).map (·.2)
  | .setLogPotential v x => g.setLogPotential v x
  | .setStateLogPotential m state x => g.setStateLogPotential m state x
  | .declare spec => (g.declare spec).map (·.2)
  | .setAdditional id xs => g.setAdditional id xs
  | .solve options monitor monitorState => .ok (g.solve options monitor monitorState).1.graph
  | .solveProgram id scores additional => (g.solveProgram id scores additional).map (·.1)

def perform (g : FactorGraph α) (c : Call α) : FactorGraph α :=
  match g.attempt c with
  | .ok g' => g'
  | .error _ => g

def run (calls : List (Call α)) : FactorGraph α := calls.foldl perform empty

end FactorGraph
end MapInference
