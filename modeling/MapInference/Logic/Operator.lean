/-!
# Logic operators

The hard constraints that can be declared over a list of literals, with their keywords. Where an
operator has an output, it is the last literal.
-/

namespace MapInference

inductive LogicOperator where
  /-- Exactly one literal is true. -/
  | xor
  /-- At most one input is true, and the output is true when one is. -/
  | xorOut
  /-- At most one literal is true. -/
  | atMostOne
  /-- At least one literal is true. -/
  | or
  /-- The output is the disjunction of the inputs. -/
  | orOut
  /-- The output is the conjunction of the inputs. -/
  | andOut
  /-- The conjunction of the inputs implies the output. -/
  | imply
  deriving Repr, DecidableEq

namespace LogicOperator

def all : List LogicOperator := [xor, xorOut, atMostOne, or, orOut, andOut, imply]

theorem mem_all (op : LogicOperator) : op ∈ all := by cases op <;> decide

def minimumArity : LogicOperator → Nat
  | xor | atMostOne | or => 1
  | xorOut | orOut | andOut | imply => 2

def keyword : LogicOperator → String
  | xor => "XOR"
  | xorOut => "XOROUT"
  | atMostOne => "ATMOSTONE"
  | or => "OR"
  | orOut => "OROUT"
  | andOut => "ANDOUT"
  | imply => "IMPLY"

def sameLetters (s t : String) : Bool := s.toList.map Char.toLower == t.toList.map Char.toLower

/-- The operator with the given keyword, in upper or lower case. -/
def ofKeyword? (text : String) : Option LogicOperator :=
  all.find? fun op => sameLetters op.keyword text

def unknownMessage (text : String) : String := s!"unknown logic operator '{text}'"

theorem ofKeyword?_keyword (op : LogicOperator) : ofKeyword? op.keyword = some op := by
  cases op <;> decide

end LogicOperator
end MapInference
