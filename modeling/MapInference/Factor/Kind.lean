import MapInference.LocalProblem
import MapInference.Oracle.Dense
import MapInference.Oracle.Knapsack
import MapInference.Oracle.Matching
import MapInference.Oracle.Pair
import MapInference.Oracle.Segmentation

/-!
# Kinds of factors
-/

namespace MapInference

inductive FactorKind where
  | logic (c : LogicConstraint)
  | budget (b : BudgetConstraint)
  | pair
  /-- Variables with the given numbers of states. -/
  | dense (sizes : List Nat)
  | knapsack (costs : List Nat) (capacity : Nat)
  | matching (numRows numColumns : Nat)
  | segmentation (length : Nat)
  deriving Repr, DecidableEq

namespace FactorKind

def name : FactorKind → String
  | logic _ => "logic"
  | budget _ => "budget"
  | pair => "pair"
  | dense _ => "dense"
  | knapsack _ _ => "knapsack"
  | matching _ _ => "matching"
  | segmentation _ => "segmentation"

/-- The configurations of a factor; a factor with a closed form needs none. -/
def Configuration : FactorKind → Type
  | logic _ | budget _ => Empty
  | pair => Bool × Bool
  | dense _ => List Nat
  | knapsack _ _ => List Nat
  | matching _ _ => List (Option Nat)
  | segmentation _ => List (Nat × Nat)

instance (k : FactorKind) : DecidableEq k.Configuration :=
  match k with
  | logic _ | budget _ => inferInstanceAs (DecidableEq Empty)
  | pair => inferInstanceAs (DecidableEq (Bool × Bool))
  | dense _ => inferInstanceAs (DecidableEq (List Nat))
  | knapsack _ _ => inferInstanceAs (DecidableEq (List Nat))
  | matching _ _ => inferInstanceAs (DecidableEq (List (Option Nat)))
  | segmentation _ => inferInstanceAs (DecidableEq (List (Nat × Nat)))

/-- Whether the table that finds a best configuration leaves the machine words. -/
def outgrows : FactorKind → Bool
  | knapsack costs capacity => Knapsack.outgrows costs capacity
  | _ => false

/-- Whether a value leaves the machine words when an assignment of the literals is evaluated. -/
def overflows (k : FactorKind) (values : List Bool) : Bool :=
  match k with
  | knapsack costs _ => Knapsack.overflows costs values
  | _ => false

variable (α : Type) [Scalar α]

def localProblem : (k : FactorKind) → LocalProblem α k.Configuration
  | logic c => .closedForm ⟨c.project, c.best, c.holds⟩
  | budget b => .closedForm ⟨b.project, b.best, b.holds⟩
  | pair => .oracle Pair.oracle
  | dense sizes => .oracle (Dense.oracle sizes)
  | knapsack costs capacity => .oracle (Knapsack.oracle costs capacity)
  | matching numRows numColumns => .oracle (Matching.oracle numRows numColumns)
  | segmentation length => .oracle (Segmentation.oracle length)

end FactorKind
end MapInference
