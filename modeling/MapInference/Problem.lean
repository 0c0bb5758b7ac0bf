import MapInference.Factor

/-!
# Problems

A problem asks for an assignment of binary variables that every factor admits and that maximizes
the log-potentials of the true variables and of the true additional variables of the factors.
-/

namespace MapInference

open Scalar

structure Problem (α : Type) where
  factors : List (Factor α)
  logPotentials : List α
  deriving Repr, DecidableEq

structure Integral (α : Type) where
  assignment : List Bool
  value : α
  deriving Repr, DecidableEq

namespace Problem

variable {α : Type}

def numVariables (p : Problem α) : Nat := p.logPotentials.length

def degree (p : Problem α) (i : Nat) : Nat :=
  p.factors.foldr (fun f sum => f.indices.count i + sum) 0

def degrees (p : Problem α) : List Nat := (List.range p.numVariables).map p.degree

def outgrows (p : Problem α) : Bool := p.factors.any (·.kind.outgrows)

variable [Scalar α]

def unaryValue (p : Problem α) (values : List Bool) : α :=
  total ((List.zipWith Prod.mk p.logPotentials values).filterMap fun (x, value) =>
    if value then some x else none)

/-- Adds the value of an assignment for a factor; `none` when the factor does not admit it. -/
def addFactor (values : List Bool) (sum : α) (f : Factor α) : Option α :=
  (f.evaluate (f.restrict values)).map fun v => sum + v.1

/-- The value of an assignment; `none` when a factor does not admit it. -/
def value? (p : Problem α) (values : List Bool) : Option α :=
  p.factors.foldlM (addFactor values) (p.unaryValue values)

/-- Whether a value leaves the machine words when the factors evaluate an assignment one after the
other, until one of them does not admit it. -/
def overflows (p : Problem α) (values : List Bool) : Bool := go p.factors
where
  go : List (Factor α) → Bool
    | [] => false
    | f :: rest =>
      f.overflows (f.restrict values) || (f.evaluate (f.restrict values)).isSome && go rest

/-- Whether a table leaves the machine words when the factors are asked about a partial assignment
one after the other, until one of them admits nothing that agrees with it. -/
def outgrowsAt (p : Problem α) (fixed : List (Option Bool)) : Bool := go p.factors
where
  go : List (Factor α) → Bool
    | [] => false
    | f :: rest => f.outgrowsAt fixed || f.admits fixed && go rest

def integral? (p : Problem α) (values : List Bool) : Option (Integral α) :=
  (p.value? values).map fun v => ⟨values, v⟩

theorem integral?_assignment {p : Problem α} {values : List Bool} {a : Integral α}
    (h : p.integral? values = some a) : a.assignment = values ∧ p.value? values = some a.value := by
  obtain ⟨v, hv, rfl⟩ := Option.map_eq_some_iff.mp h
  exact ⟨rfl, hv⟩

end Problem
end MapInference
