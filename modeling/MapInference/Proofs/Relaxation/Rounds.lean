import MapInference.Proofs.Extended
import MapInference.Proofs.Relaxation.Dual
import MapInference.Proofs.Relaxation.Lengths

/-!
# Bounds and roundings of relaxations

Every round keeps the factors and a multiplier for each of their literals, so that the best dual
bound of any number of rounds covers the values of all assignments that agree with the fixed
variables. Fixed variables keep their values in the consensus; its rounding therefore agrees with
them.
-/

namespace MapInference

open Scalar
variable {α : Type} [ExactScalar α]

namespace Restriction

variable {r : Restriction α}

theorem keepsFixed_initialConsensus (r : Restriction α) : r.KeepsFixed r.initialConsensus := by
  constructor
  · simp [initialConsensus, Problem.numVariables]
  · intro i b hi hb
    unfold Problem.numVariables at hi
    have hfixed : r.fixedValue? i = some b := by simp [fixedValue?, hb]
    simp [initialConsensus, hfixed, hi]

theorem KeepsFixed.average {consensus : List α} (h : r.KeepsFixed consensus)
    (workers : List (Worker α)) : r.KeepsFixed (r.average workers consensus) := by
  constructor
  · simpa [Restriction.average] using h.length_eq
  · intro i b hi hb
    have hshared : r.isShared i = false := by simp [isShared, fixedValue?, hb]
    simp [Restriction.average, hshared, h.eq_fixed hi hb]

theorem KeepsFixed.agrees_rounded {consensus : List α} (h : r.KeepsFixed consensus)
    (hfixed : r.fixed.length = r.problem.numVariables) :
    Agrees r.fixed (Relaxation.rounded consensus) := by
  intro i b hb
  have hi : i < r.problem.numVariables := by
    rw [← hfixed]
    exact (List.getElem?_eq_some_iff.mp hb).1
  have hround : decide ((half : α) ≤ ofBool b) = b := by
    have htwo : (2 : α)⁻¹ ≤ 1 := inv_le_one_of_one_le₀ one_le_two
    cases b <;> simp [half_eq, ofBool, htwo]
  rw [Relaxation.rounded, List.getElem?_map, h.eq_fixed hi hb, Option.map_some, hround]

end Restriction

namespace Relaxation

namespace State

variable {r : Restriction α} {s : State α}

structure IsSound (r : Restriction α) (s : State α) : Prop where
  factors_eq : s.workers.map (·.factor) = r.problem.factors
  isAligned : ∀ w ∈ s.workers, w.IsAligned
  keepsFixed : r.KeepsFixed s.consensus
  bound_ne_bottom : s.bound ≠ .bottom
  covers {values : List Bool} {v : α} : Agrees r.fixed values → r.problem.value? values = some v →
    s.bound.Covers v

structure IsCertificate (r : Restriction α) (s : State α) (a : Integral α) : Prop where
  integral?_eq : r.problem.integral? (rounded s.consensus) = some a
  matches_bound : ∃ b, s.bound = .value b ∧ b - a.value ≤ gapTolerance * max |b| 1

theorem isSound_start (r : Restriction α) (options : Options α) : (start r options).IsSound r where
  factors_eq := by
    simp only [start, List.map_map]
    exact List.map_id' r.problem.factors
  isAligned w hw := by
    obtain ⟨f, _, rfl⟩ := List.mem_map.mp hw
    exact Worker.isAligned_start f
  keepsFixed := r.keepsFixed_initialConsensus
  bound_ne_bottom := by simp [start]
  covers _ _ := Extended.covers_top

theorem IsSound.round (h : s.IsSound r) (hdegrees : r.degrees = r.problem.degrees)
    (hwf : ∀ f ∈ r.problem.factors, f.WellFormed r.problem.numVariables) (limit : ℕ)
    (stepSize : α) :
    (s.record (r.round limit stepSize s.workers s.consensus)).IsSound r := by
  let round := r.round limit stepSize s.workers s.consensus
  have hfactors : round.workers.map (·.factor) = r.problem.factors := by
    rw [← h.factors_eq]
    simp [round, Restriction.round]
  have haligned : ∀ w ∈ round.workers, w.IsAligned := by
    intro w hw
    simp only [round, Restriction.round, List.map_map, List.mem_map] at hw
    obtain ⟨u, hu, rfl⟩ := hw
    exact Worker.isAligned_price_project (h.isAligned u hu) _ _ _ _ _ _
  constructor
  case factors_eq => exact hfactors
  case isAligned => exact haligned
  case keepsFixed => exact h.keepsFixed.average _
  case bound_ne_bottom =>
    change Extended.min s.bound (.value round.dualValue) ≠ .bottom
    obtain ⟨b, hb⟩ := Extended.exists_min_value_eq h.bound_ne_bottom round.dualValue
    rw [hb]
    exact nofun
  case covers =>
    intro values v hagree hv
    change (Extended.min s.bound (.value round.dualValue)).Covers v
    rw [Extended.covers_min]
    exact ⟨h.covers hagree hv,
      Restriction.value_le_dualObjective ⟨hdegrees, hwf, hfactors, haligned⟩ hagree hv⟩

theorem IsSound.adapt (h : s.IsSound r) (options : Options α) (round : Round α) :
    (s.adapt options round).IsSound r := by
  unfold State.adapt
  split_ifs
  · exact ⟨h.factors_eq, h.isAligned, h.keepsFixed, h.bound_ne_bottom, h.covers⟩
  · exact h

theorem isCertificate_of_certificate? {t : State α} {dualValue : α} {a : Integral α}
    (hne : s.bound ≠ .bottom) (hbound : t.bound = Extended.min s.bound (.value dualValue))
    (h : t.certificate? r.problem = some a) : t.IsCertificate r a := by
  obtain ⟨hintegral, hcertifies⟩ := Option.filter_eq_some_iff.mp h
  obtain ⟨b, hb⟩ : ∃ b, t.bound = .value b :=
    hbound ▸ Extended.exists_min_value_eq hne dualValue
  refine ⟨hintegral, b, hb, ?_⟩
  simpa [certifies, hb] using hcertifies

theorem IsSound.advance (h : s.IsSound r) (hdegrees : r.degrees = r.problem.degrees)
    (hwf : ∀ f ∈ r.problem.factors, f.WellFormed r.problem.numVariables) (options : Options α) :
    (s.advance r options).1.IsSound r ∧
      ∀ a, (s.advance r options).2 = .certified a → (s.advance r options).1.IsCertificate r a := by
  let round := r.round options.projectionLimit s.stepSize s.workers s.consensus
  have hround : (s.record round).IsSound r := h.round hdegrees hwf _ _
  unfold State.advance
  dsimp only
  split
  · next a ha =>
    refine ⟨hround, ?_⟩
    rintro _ ⟨rfl⟩
    exact isCertificate_of_certificate? h.bound_ne_bottom rfl ha
  · split_ifs
    · exact ⟨hround, by simp⟩
    · exact ⟨hround.adapt _ _, by simp⟩

theorem IsSound.run (h : s.IsSound r) (hdegrees : r.degrees = r.problem.degrees)
    (hwf : ∀ f ∈ r.problem.factors, f.WellFormed r.problem.numVariables) (options : Options α)
    (limit : ℕ) :
    (s.run r options limit).1.IsSound r ∧
      ∀ a, (s.run r options limit).2 = some a → (s.run r options limit).1.IsCertificate r a := by
  induction limit generalizing s with
  | zero => exact ⟨h, by simp [State.run]⟩
  | succ limit ih =>
    obtain ⟨hsound, hcertified⟩ := h.advance hdegrees hwf options
    unfold State.run
    split
    · next t ht =>
      rw [ht] at hsound
      exact ih hsound
    · next t ht =>
      rw [ht] at hsound
      exact ⟨hsound, by simp⟩
    · next t a ht =>
      rw [ht] at hsound hcertified
      refine ⟨hsound, ?_⟩
      rintro _ ⟨rfl⟩
      exact hcertified a rfl

end State

/-- What a solved relaxation says about the assignments that agree with the fixed variables. -/
structure IsSound (p : Problem α) (fixed : List (Option Bool)) (x : Relaxation α) : Prop where
  factors_eq : x.workers.map (·.factor) = p.factors
  length_consensus : x.consensus.length = p.numVariables
  covers {values : List Bool} {v : α} : Agrees fixed values → p.value? values = some v →
    x.bound.Covers v
  integral_eq {a : Integral α} : x.integral = some a →
    p.integral? (rounded x.consensus) = some a ∧ Agrees fixed a.assignment
  integral_ne_none : isIntegral x.consensus → x.integral = none →
    p.integral? (rounded x.consensus) = none
  certified : x.certified → ∃ a b, x.integral = some a ∧ x.bound = .value b ∧
    b - a.value ≤ gapTolerance * max |b| 1

theorem isSound_solve {p : Problem α} (hwf : ∀ f ∈ p.factors, f.WellFormed p.numVariables)
    {fixed : List (Option Bool)} (hfixed : fixed.length = p.numVariables) (options : Options α) :
    (solve p fixed options).IsSound p fixed := by
  let r : Restriction α := { problem := p, fixed }
  obtain ⟨hsound, hcertified⟩ :=
    (State.isSound_start r options).run rfl hwf options options.maxIterations
  generalize hrun : (State.start r options).run r options options.maxIterations = result
    at hsound hcertified
  obtain ⟨s, certificate⟩ := result
  have hsolve : solve p fixed options = ofState p s certificate := by
    unfold solve
    dsimp only
    rw [hrun]
  have hagree : Agrees fixed (rounded s.consensus) := hsound.keepsFixed.agrees_rounded hfixed
  rw [hsolve]
  constructor
  case factors_eq => exact hsound.factors_eq
  case length_consensus => exact hsound.keepsFixed.length_eq
  case covers => exact hsound.covers
  case integral_eq =>
    intro a ha
    have hintegral : p.integral? (rounded s.consensus) = some a := by
      cases certificate with
      | some c =>
        have hca : c = a := by simpa [ofState] using ha
        exact hca ▸ (hcertified c rfl).integral?_eq
      | none =>
        simp only [ofState, Option.none_or] at ha
        split_ifs at ha
        exact ha
    exact ⟨hintegral, (Problem.integral?_assignment hintegral).1 ▸ hagree⟩
  case integral_ne_none =>
    intro hint hnone
    cases certificate with
    | some c => simp [ofState] at hnone
    | none =>
      have hint : isIntegral s.consensus = true := hint
      simpa [ofState, hint] using hnone
  case certified =>
    intro hc
    obtain ⟨a, rfl⟩ := Option.isSome_iff_exists.mp hc
    obtain ⟨b, hb, hgap⟩ := (hcertified a rfl).matches_bound
    exact ⟨a, b, rfl, hb, hgap⟩

end Relaxation
end MapInference
