import MapInference.Factor.Kind
import MapInference.Variable

/-!
# Factors

A factor applies a kind of constraint to literals and rewards its additional variables. The local
problems are posed over the literals; the functions here pose and answer them over the variables.
-/

namespace MapInference

open Scalar

structure Factor (α : Type) where
  literals : List Literal
  additional : List α
  kind : FactorKind
  deriving Repr, DecidableEq

namespace Factor

variable {α : Type}

def numAdditionals (f : Factor α) : Nat := f.additional.length

def indices (f : Factor α) : List Nat := f.literals.map fun l => l.atom.id

def marks (f : Factor α) : List Bool := f.literals.map (·.negated)

@[simp] theorem length_indices (f : Factor α) : f.indices.length = f.literals.length := by
  simp [indices]

@[simp] theorem length_marks (f : Factor α) : f.marks.length = f.literals.length := by
  simp [marks]

def restrict (f : Factor α) (values : List Bool) : List Bool :=
  f.indices.map fun i => values[i]?.getD false

@[simp] theorem length_restrict (f : Factor α) (values : List Bool) :
    (f.restrict values).length = f.literals.length := by
  simp [restrict]

def fixedLiterals (f : Factor α) (fixed : List (Option Bool)) : List (Option Bool) :=
  f.literals.map fun l => (fixed[l.atom.id]?.join).map l.holds

/-- Whether a value leaves the machine words when the values of the variables are evaluated, which
then has no result. -/
def overflows (f : Factor α) (values : List Bool) : Bool :=
  f.kind.overflows (Complement.assignment f.marks values)

/-- Whether a table leaves the machine words when the factor is asked about a partial assignment of
all variables. It needs none when no literal is fixed. -/
def outgrowsAt (f : Factor α) (fixed : List (Option Bool)) : Bool :=
  f.kind.outgrows && !(f.fixedLiterals fixed).all (·.isNone)

variable [Scalar α]

def localProblem (f : Factor α) : LocalProblem α f.kind.Configuration := f.kind.localProblem α

def best (f : Factor α) (scores : List α) : α :=
  Complement.constant f.marks scores
    + f.localProblem.best (Complement.scores f.marks scores) f.additional

/-- The score of the additional variables for the values of the variables, and their indicators;
`none` when the values violate the factor. -/
def evaluate (f : Factor α) (values : List Bool) : Option (α × List α) :=
  f.localProblem.evaluate (Complement.assignment f.marks values) f.additional

/-- Scores a literal that is fixed to true with one and one that is fixed to false with minus
one. -/
def fixedScore : Option Bool → α
  | some true => 1
  | some false => -1
  | none => 0

/-- Whether some configuration agrees with a partial assignment of all variables: it reaches the
number of literals that are fixed to true. -/
def admits (f : Factor α) (fixed : List (Option Bool)) : Bool :=
  let literals := f.fixedLiterals fixed
  if literals.all (·.isNone) then true
  else
    let required := literals.count (some true)
    decide (ofNat required - half
      < f.localProblem.best (literals.map fixedScore) (zeros f.numAdditionals))

end Factor

structure WarmFactor (α : Type) where
  factor : Factor α
  activeSet : ActiveSet α factor.kind.Configuration := {}

/-- The active-set program of a factor; `none` when it has a closed form. -/
def WarmFactor.oracle? {α : Type} [Scalar α] (w : WarmFactor α) :
    Option (Oracle α w.factor.kind.Configuration) :=
  match w.factor.localProblem with
  | .closedForm _ => none
  | .oracle o => some o

end MapInference
