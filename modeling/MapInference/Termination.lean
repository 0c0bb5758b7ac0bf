/-!
# Termination conditions

A search asks a monitor before every node whether to stop, and tells it about every node that it
has explored. Termination conditions are the monitors that can be composed from budgets.
-/

namespace MapInference

structure Monitor (σ : Type) where
  /-- Whether to stop now, and the state after the question. -/
  shouldStop : σ → Bool × σ
  nodeExplored : σ → σ

inductive Condition where
  | indefinite
  /-- Stops once `explored` nodes, counted from here on, have reached the budget. -/
  | nodeBudget (budget : Nat) (explored : Nat)
  /-- Stops once the given number of milliseconds has elapsed. -/
  | timeBudget (milliseconds : Nat)
  /-- Stops when either condition stops. -/
  | both (first second : Condition)
  deriving Repr, DecidableEq

namespace Condition

def optional : Option Condition → Condition
  | none => indefinite
  | some c => c

def shouldStop (elapsed : Nat) : Condition → Bool
  | indefinite => false
  | nodeBudget budget explored => decide (budget ≤ explored)
  | timeBudget milliseconds => decide (milliseconds ≤ elapsed)
  | both first second => shouldStop elapsed first || shouldStop elapsed second

def nodeExplored : Condition → Condition
  | indefinite => indefinite
  | nodeBudget budget explored => nodeBudget budget (explored + 1)
  | timeBudget milliseconds => timeBudget milliseconds
  | both first second => both (nodeExplored first) (nodeExplored second)

def monitor (elapsed : Nat) : Monitor Condition where
  shouldStop c := (c.shouldStop elapsed, c)
  nodeExplored := nodeExplored

end Condition

namespace Monitor

variable {σ : Type}

/-- Stops as well once a budget of nodes is used up; the state counts the nodes. -/
def withNodeBudget (m : Monitor σ) (budget : Nat) : Monitor (Nat × σ) where
  shouldStop s :=
    let (stop, t) := m.shouldStop s.2
    (decide (budget ≤ s.1) || stop, (s.1, t))
  nodeExplored s := (s.1 + 1, m.nodeExplored s.2)

end Monitor
end MapInference
