import MapInference.Relaxation

/-!
# Events

What the solver has to say while it builds a graph and solves it. Events are values in the order in
which they happen; who runs the solver decides which to show.
-/

namespace MapInference

inductive EventLevel where
  | warning
  | info
  | debug
  deriving Repr, DecidableEq

inductive Event (α : Type) where
  | factorDeclared (kind : String) (id numVariables : Nat)
  /-- A negative budget has been replaced by zero. -/
  | negativeBudget (budget : α)
  | roundFinished (report : Relaxation.Report α)
  | relaxationFinished (iterations : Nat) (value bound : Extended α) (integral : Bool)
  | incumbentFound (value : α)
  /-- The search has been stopped, with or without a feasible assignment. -/
  | searchStopped (feasible : Bool)

def Event.level {α : Type} : Event α → EventLevel
  | factorDeclared _ _ _ | roundFinished _ | incumbentFound _ => .debug
  | relaxationFinished _ _ _ _ => .info
  | negativeBudget _ | searchStopped _ => .warning

def Relaxation.events {α : Type} (x : Relaxation α) : List (Event α) :=
  x.reports.map .roundFinished
    ++ [.relaxationFinished x.iterations x.value x.bound x.integral.isSome]

end MapInference
