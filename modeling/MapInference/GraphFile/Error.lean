import MapInference.ConstructionError

/-!
# Errors in graph files
-/

namespace MapInference.GraphFile

inductive NumberKind where
  | scalar
  | natural
  deriving Repr, DecidableEq

def NumberKind.text : NumberKind → String
  | scalar => "number"
  | natural => "non-negative integer"

inductive Arity where
  | exactly (n : Nat)
  | atLeast (n : Nat)
  deriving Repr, DecidableEq

def Arity.text : Arity → String
  | exactly n => toString n
  | atLeast n => s!"at least {n}"

inductive LineError (α : Type) where
  | unknownDeclaration (keyword : String)
  | invalidNumber (token : String) (expected : NumberKind)
  | argumentCount (expected : Arity) (actual : Nat)
  | invalidLiteral (token : String)
  | unknownVariable (name : String)
  | duplicateName (name : String)
  | declaration (cause : ConstructionError α)
  deriving Repr, DecidableEq

def LineError.message {α : Type} (showScalar : α → String) : LineError α → String
  | unknownDeclaration keyword => s!"'{keyword}' is not a known declaration"
  | invalidNumber token expected => s!"'{token}' is not a valid {expected.text}"
  | argumentCount expected actual => s!"expected {expected.text} arguments, but got {actual}"
  | invalidLiteral token => s!"'{token}' is an invalid literal"
  | unknownVariable name => s!"'{name}' is not a declared variable"
  | duplicateName name => s!"the name '{name}' is already in use"
  | declaration cause => cause.message showScalar

/-- Why a file is no graph. Lines are counted from one. -/
inductive ParseError (α : Type) where
  /-- A line is not valid UTF-8. -/
  | unreadable
  | line (number : Nat) (cause : LineError α)
  deriving Repr, DecidableEq

def ParseError.message {α : Type} (showScalar : α → String) : ParseError α → String
  | unreadable => "failed to read file"
  | line number cause => s!"line {number}: " ++ cause.message showScalar

end MapInference.GraphFile
