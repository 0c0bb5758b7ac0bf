import MapInference.Decimal.Layout
import MapInference.Event
import MapInference.Extended.Double

/-!
# Texts of events

Objective values and bounds are written with six places, residuals and step sizes in scientific
notation with three.
-/

namespace MapInference

def showObjective (x : Extended Float) : String := Decimal.fixed 6 x.toDouble

def showResidual (x : Float) : String := Decimal.scientific 3 x

def Relaxation.Report.text (r : Relaxation.Report Float) : String :=
  s!"iteration {r.iteration}: value {showObjective (.value r.value)}, "
    ++ s!"upper bound {showObjective r.bound}, "
    ++ s!"primal residual {showResidual r.primalResidual}, "
    ++ s!"dual residual {showResidual r.dualResidual}, eta {showResidual r.stepSize}"

def Event.text : Event Float → String
  | factorDeclared kind id numVariables =>
    s!"declared {kind} factor {id} over {numVariables} variables"
  | negativeBudget budget =>
    s!"knapsack budget {Decimal.plain budget} is negative and is replaced by 0"
  | roundFinished report => report.text
  | relaxationFinished iterations value bound integral =>
    s!"relaxation finished after {iterations} iterations: value {showObjective value}, "
      ++ s!"upper bound {showObjective bound}, " ++ if integral then "integral" else "fractional"
  | incumbentFound value => s!"new incumbent with value {Decimal.plain value}"
  | searchStopped true =>
    "the search budget was exhausted; the returned solution is not proven optimal"
  | searchStopped false =>
    "the search budget was exhausted before a feasible solution was found"

def Event.warnings (events : List (Event Float)) : List String :=
  (events.filter fun e => e.level == .warning).map Event.text

end MapInference
