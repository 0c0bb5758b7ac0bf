import MapInference.Consensus.Round

/-!
# Relaxations

The consensus iteration solves a relaxation of a restricted problem: rounds are repeated until the
rounded consensus is certified by the dual bound, or the residuals are small, or the rounds are
used up. The best dual bound of all rounds bounds the value of every assignment that agrees with
the restriction.
-/

namespace MapInference

open Scalar

namespace Relaxation

def integralityTolerance {α : Type} [Scalar α] : α := tenthPower 6

/-- An assignment whose value is within this relative distance of the bound counts as optimal. -/
def gapTolerance {α : Type} [Scalar α] : α := tenthPower 6

def adaptationInterval : Nat := 10

def minStepSize {α : Type} [Scalar α] : α := tenthPower 3

def maxStepSize {α : Type} [Scalar α] : α := ofNat 1000

structure Report (α : Type) where
  iteration : Nat
  value : α
  bound : Extended α
  primalResidual : α
  dualResidual : α
  stepSize : α

structure State (α : Type) where
  workers : List (Worker α)
  consensus : List α
  stepSize : α
  bound : Extended α := .top
  /-- The value of the consensus. -/
  value : Extended α := .bottom
  iterations : Nat := 0
  adaptations : Nat := 0
  overflowed : Bool := false
  /-- The reports of all rounds, the latest first. -/
  reports : List (Report α) := []

inductive Verdict (α : Type) where
  | proceed
  | converged
  /-- The rounded consensus matches the bound. -/
  | certified (a : Integral α)

variable {α : Type} [Scalar α]

def certifies (bound : Extended α) (value : α) : Bool :=
  match bound with
  | .value b => decide (b - value ≤ gapTolerance * larger (abs b) 1)
  | .top => belowTop value
  | .bottom => aboveBottom value

def isIntegral (consensus : List α) : Bool :=
  consensus.all fun x => decide (fractionality x ≤ integralityTolerance)

/-- Doubles the step size when the primal residual dominates and halves it when the dual one
does. -/
def balanced (primalResidual dualResidual stepSize : α) : α :=
  if ofNat 10 * dualResidual < primalResidual then smaller (stepSize * ofNat 2) maxStepSize
  else if ofNat 10 * primalResidual < dualResidual then larger (stepSize / ofNat 2) minStepSize
  else stepSize

namespace State

def start (r : Restriction α) (options : Options α) : State α where
  workers := r.problem.factors.map Worker.start
  consensus := r.initialConsensus
  stepSize := clamp minStepSize maxStepSize options.stepSize

def record (s : State α) (round : Round α) : State α :=
  let bound := Extended.min s.bound (.value round.dualValue)
  { s with
    workers := round.workers
    consensus := round.consensus
    bound
    value := .value round.value
    iterations := s.iterations + 1
    overflowed := s.overflowed || round.overflowed
    reports :=
      ⟨s.iterations + 1, round.value, bound, round.primalResidual, round.dualResidual,
        s.stepSize⟩ :: s.reports }

def adapt (s : State α) (options : Options α) (round : Round α) : State α :=
  if options.adaptive && s.iterations % adaptationInterval == 0 then
    let stepSize := balanced round.primalResidual round.dualResidual s.stepSize
    { s with
      stepSize
      adaptations := if same stepSize s.stepSize then s.adaptations else s.adaptations + 1 }
  else s

/-- The rounded consensus, if it is feasible and matches the bound. -/
def certificate? (s : State α) (problem : Problem α) : Option (Integral α) :=
  (problem.integral? (rounded s.consensus)).filter fun a => certifies s.bound a.value

def advance (s : State α) (r : Restriction α) (options : Options α) : State α × Verdict α :=
  let round := r.round options.projectionLimit s.stepSize s.workers s.consensus
  let t := s.record round
  match t.certificate? r.problem with
  | some a => (t, .certified a)
  | none =>
    if round.primalResidual < options.residualThreshold
        ∧ round.dualResidual < options.residualThreshold then (t, .converged)
    else (t.adapt options round, .proceed)

def run (r : Restriction α) (options : Options α) (s : State α) :
    (limit : Nat) → State α × Option (Integral α)
  | 0 => (s, none)
  | limit + 1 =>
    match s.advance r options with
    | (t, .proceed) => run r options t limit
    | (t, .converged) => (t, none)
    | (t, .certified a) => (t, some a)

/-- However a round ends, it is recorded, and nothing but the step size may change besides. -/
theorem exists_advance_eq (s : State α) (r : Restriction α) (options : Options α) :
    ∃ stepSize adaptations, (s.advance r options).1 =
      { s.record (r.round options.projectionLimit s.stepSize s.workers s.consensus) with
        stepSize, adaptations } := by
  unfold advance
  dsimp only
  split
  · exact ⟨_, _, rfl⟩
  · split
    · exact ⟨_, _, rfl⟩
    · unfold adapt
      split <;> exact ⟨_, _, rfl⟩

theorem iterations_advance (s : State α) (r : Restriction α) (options : Options α) :
    (s.advance r options).1.iterations = s.iterations + 1 := by
  obtain ⟨_, _, h⟩ := exists_advance_eq s r options
  rw [h]
  rfl

theorem run_iterations_le (r : Restriction α) (options : Options α) (s : State α) (limit : Nat) :
    (s.run r options limit).1.iterations ≤ s.iterations + limit := by
  induction limit generalizing s with
  | zero => exact Nat.le_refl _
  | succ limit ih =>
    have hs := iterations_advance s r options
    unfold run
    split
    · next t h =>
      rw [h] at hs
      have := ih t
      dsimp only at hs
      omega
    · next t h =>
      rw [h] at hs
      dsimp only at hs ⊢
      omega
    · next t a h =>
      rw [h] at hs
      dsimp only at hs ⊢
      omega

end State
end Relaxation

structure Relaxation (α : Type) where
  workers : List (Worker α)
  consensus : List α
  /-- The value of the consensus with the additional posteriors. -/
  value : Extended α
  bound : Extended α
  /-- A feasible rounding of the consensus, when the consensus is integral or the rounding is
  certified. -/
  integral : Option (Integral α)
  /-- Whether the rounding matches the bound, which proves it optimal. -/
  certified : Bool
  iterations : Nat
  adaptations : Nat
  stepSize : α
  /-- Whether a table or the value of a rounding has left the machine words. -/
  overflowed : Bool
  reports : List (Relaxation.Report α)

namespace Relaxation

variable {α : Type} [Scalar α]

def innerIterations (x : Relaxation α) : Nat :=
  x.workers.foldr (fun w sum => w.iterations + sum) 0

/-- Whether there is no answer: the active set of a projection has lost its last configuration, or a
table or a value has left the machine words. -/
def emptied (x : Relaxation α) : Bool := x.workers.any (·.emptied) || x.overflowed

def ofState (problem : Problem α) (s : State α) (certificate : Option (Integral α)) :
    Relaxation α where
  workers := s.workers
  consensus := s.consensus
  value := s.value
  bound := s.bound
  integral := certificate.or
    (if isIntegral s.consensus then problem.integral? (rounded s.consensus) else none)
  certified := certificate.isSome
  iterations := s.iterations
  adaptations := s.adaptations
  stepSize := s.stepSize
  overflowed :=
    s.overflowed || isIntegral s.consensus && problem.overflows (rounded s.consensus)
  reports := s.reports.reverse

def solve (problem : Problem α) (fixed : List (Option Bool)) (options : Options α) :
    Relaxation α :=
  let r : Restriction α := { problem, fixed }
  let (s, certificate) := (State.start r options).run r options options.maxIterations
  ofState problem s certificate

theorem iterations_solve_le (problem : Problem α) (fixed : List (Option Bool))
    (options : Options α) :
    (solve problem fixed options).iterations ≤ options.maxIterations := by
  have h := State.run_iterations_le { problem, fixed } options
    (State.start { problem, fixed } options) options.maxIterations
  simpa [solve, ofState, State.start] using h

end Relaxation
end MapInference
