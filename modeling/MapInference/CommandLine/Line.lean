import MapInference.Decimal.Layout
import MapInference.Extended.Double
import MapInference.GraphFile.Declaration
import MapInference.Solution

/-!
# Lines of output

Every line begins with a letter that says what it holds: `c` a comment, `s` the status of the
solution, `o` its value, `b` the upper bound, and `v` the marginals of a variable.
-/

namespace MapInference.CommandLine

inductive Line where
  | comment (text : String)
  | status (s : Status)
  | objective (x : Float)
  | bound (x : Float)
  /-- The marginal of a binary variable, or those of the states of another one. -/
  | marginals (name : String) (xs : List Float)

def Line.render (showNumber : Float → String) : Line → String
  | comment text => "c " ++ text
  | status s => "s " ++ s.name.toUpper
  | objective x => "o " ++ showNumber x
  | bound x => "b " ++ showNumber x
  | marginals name xs => s!"v {name} " ++ " ".intercalate (xs.map showNumber)

def Line.text (l : Line) : String := l.render Decimal.plain

def marginalsOf (s : Solution Float) : GraphFile.NamedVariable → List Float
  | .binary v => (s.marginals[v.id]?).toList
  | .multi m => (s.marginals.drop m.firstState.id).take m.numStates

def solutionLines (names : GraphFile.Names) (s : Solution Float) : List Line :=
  [.status s.status, .objective s.value.toDouble, .bound s.bound.toDouble]
    ++ names.map fun (name, v) => .marginals name (marginalsOf s v)

end MapInference.CommandLine
