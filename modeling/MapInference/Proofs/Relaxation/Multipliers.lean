import MapInference.Proofs.Relaxation.Rounds

/-!
# Multipliers of rounds

A round moves the multipliers of a variable against the disagreements of its posteriors with their
average, so that the multipliers of a variable that is not fixed always sum to zero. Variables
without factors keep their value, and the step size stays positive.
-/

namespace MapInference

open Scalar
variable {α : Type} [ExactScalar α]

namespace Worker

theorem sumAt_append (os os' : List (ℕ × α)) (i : ℕ) :
    sumAt (os ++ os') i = sumAt os i + sumAt os' i := by
  induction os with
  | nil => rw [List.nil_append, sumAt_nil, zero_add]
  | cons o os ih => rw [List.cons_append, sumAt_cons, sumAt_cons, ih, add_assoc]

theorem sumAt_eq_zero_of_forall {os : List (ℕ × α)} (h : ∀ o ∈ os, o.2 = 0) (i : ℕ) :
    sumAt os i = 0 := by
  induction os with
  | nil => rfl
  | cons o os ih =>
    rw [sumAt_cons, h o List.mem_cons_self, ih fun o ho => h o (List.mem_cons_of_mem _ ho)]
    simp

omit [ExactScalar α] in
theorem occurrences_cons (w : Worker α) (workers : List (Worker α))
    (quantity : Worker α → List α) :
    occurrences (w :: workers) quantity =
      List.zipWith Prod.mk w.factor.indices (quantity w) ++ occurrences workers quantity :=
  List.flatMap_cons

/-- What pricing takes from the multipliers of a variable, occurrence by occurrence. -/
theorem sumAt_price {w : Worker α} (hm : w.multipliers.length = w.factor.literals.length)
    (hq : w.posteriors.length = w.factor.literals.length) (consensus : List α) (stepSize : α)
    (i : ℕ) :
    sumAt (List.zipWith Prod.mk w.factor.indices (w.price consensus stepSize).multipliers) i =
      sumAt (List.zipWith Prod.mk w.factor.indices w.multipliers) i -
        stepSize * (sumAt (List.zipWith Prod.mk w.factor.indices w.posteriors) i -
          (w.factor.indices.count i : α) * coordinate consensus i) := by
  rw [← Factor.length_indices] at hm hq
  unfold price disagreements
  generalize w.factor.indices = indices at hm hq ⊢
  generalize w.multipliers = multipliers at hm ⊢
  generalize w.posteriors = posteriors at hq ⊢
  induction indices generalizing multipliers posteriors with
  | nil => simp
  | cons j indices ih =>
    obtain ⟨m, multipliers, rfl⟩ := List.exists_cons_of_length_eq_add_one hm
    obtain ⟨q, posteriors, rfl⟩ := List.exists_cons_of_length_eq_add_one hq
    have hrest := ih multipliers (by simpa using hm) posteriors (by simpa using hq)
    simp only [List.zipWith_cons_cons, sumAt_cons, List.count_cons] at hrest ⊢
    rw [hrest]
    by_cases hj : j = i
    · simp only [hj, ↓reduceIte, beq_self_eq_true, Nat.cast_add, Nat.cast_one]
      ring
    · simp [hj]

theorem sumAt_occurrences_price {workers : List (Worker α)}
    (hm : ∀ w ∈ workers, w.multipliers.length = w.factor.literals.length)
    (hq : ∀ w ∈ workers, w.posteriors.length = w.factor.literals.length) (consensus : List α)
    (stepSize : α) (i : ℕ) :
    sumAt (occurrences (workers.map fun w => w.price consensus stepSize) multipliers) i =
      sumAt (occurrences workers multipliers) i -
        stepSize * (sumAt (occurrences workers posteriors) i -
          (((workers.map (·.factor)).flatMap Factor.indices).count i : α) *
            coordinate consensus i) := by
  induction workers with
  | nil => simp [occurrences]
  | cons w workers ih =>
    have hrest := ih (fun u hu => hm u (List.mem_cons_of_mem _ hu))
      (fun u hu => hq u (List.mem_cons_of_mem _ hu))
    have hhead := sumAt_price (hm w List.mem_cons_self) (hq w List.mem_cons_self) consensus
      stepSize i
    rw [List.map_cons, occurrences_cons, occurrences_cons, occurrences_cons, sumAt_append,
      sumAt_append, sumAt_append, hrest, factor_price, hhead, List.map_cons, List.flatMap_cons,
      List.count_append, Nat.cast_add]
    ring

end Worker

namespace Restriction

variable {r : Restriction α}

theorem coordinate_average {workers : List (Worker α)} {consensus : List α} {i : ℕ}
    (hi : i < consensus.length) :
    coordinate (r.average workers consensus) i =
      if r.isShared i then
        Worker.sumAt (Worker.occurrences workers Worker.posteriors) i / (r.degree i : α)
      else coordinate consensus i := by
  simp [coordinate, average, hi]

end Restriction

namespace Relaxation.State

variable {r : Restriction α} {options : Options α} {s : State α}

/-- The states that the iteration goes through, each before a round. -/
inductive Reached (r : Restriction α) (options : Options α) : State α → Prop
  | start : Reached r options (start r options)
  | advance {s t : State α} (h : Reached r options s)
      (proceeds : s.advance r options = (t, .proceed)) : Reached r options t

def round (s : State α) (r : Restriction α) (options : Options α) : Round α :=
  r.round options.projectionLimit s.stepSize s.workers s.consensus

def projected (s : State α) (r : Restriction α) (options : Options α) (w : Worker α) : Worker α :=
  w.project s.consensus r.problem.logPotentials r.degrees s.stepSize options.projectionLimit

theorem workers_round (s : State α) (r : Restriction α) (options : Options α) :
    (s.round r options).workers = (s.workers.map (s.projected r options)).map fun w =>
      w.price (s.round r options).consensus s.stepSize := rfl

theorem eq_of_proceeds {t : State α} (h : s.advance r options = (t, .proceed)) :
    t = (s.record (s.round r options)).adapt options (s.round r options) := by
  unfold advance at h
  dsimp only at h
  split at h
  · cases h
  · split_ifs at h
    · cases h
    · exact (Prod.mk.inj h).1.symm

theorem advance_spec (s : State α) (r : Restriction α) (options : Options α) :
    (s.advance r options).1.workers = (s.round r options).workers ∧
      (s.advance r options).1.consensus = (s.round r options).consensus ∧
      (s.advance r options).1.value = .value (s.round r options).value := by
  obtain ⟨_, _, h⟩ := exists_advance_eq s r options
  rw [h]
  exact ⟨rfl, rfl, rfl⟩

/-- The iteration ends with the round after one of the states that it goes through. -/
theorem Reached.exists_run_eq (h : Reached r options s) {limit : ℕ} (hlimit : 0 < limit) :
    ∃ u, Reached r options u ∧ (s.run r options limit).1 = (u.advance r options).1 := by
  induction limit generalizing s with
  | zero => exact absurd hlimit (Nat.lt_irrefl 0)
  | succ limit ih =>
    rw [State.run]
    split
    · next t ht =>
      rcases Nat.eq_zero_or_pos limit with rfl | hpos
      · exact ⟨s, h, by rw [ht, State.run]⟩
      · exact ih (h.advance ht) hpos
    · next t ht => exact ⟨s, h, by rw [ht]⟩
    · next t a ht => exact ⟨s, h, by rw [ht]⟩

structure IsBalanced (r : Restriction α) (s : State α) : Prop where
  stepSize_pos : 0 < s.stepSize
  sum_eq_zero {i : ℕ} : i < r.problem.numVariables → r.fixedValue? i = none →
    Worker.sumAt (Worker.occurrences s.workers Worker.multipliers) i = 0
  eq_free {i : ℕ} : i < r.problem.numVariables → r.fixedValue? i = none → r.degree i = 0 →
    coordinate s.consensus i = ofBool (decide (0 < coordinate r.problem.logPotentials i))

theorem minStepSize_pos : (0 : α) < minStepSize := by
  rw [minStepSize, tenthPower_eq]
  positivity

theorem maxStepSize_pos : (0 : α) < maxStepSize := by
  rw [maxStepSize, ofNat_eq_cast]
  positivity

theorem isBalanced_start (r : Restriction α) (options : Options α) :
    (start r options).IsBalanced r where
  stepSize_pos := by
    change 0 < clamp minStepSize maxStepSize options.stepSize
    unfold clamp
    split_ifs with hlow
    · exact minStepSize_pos
    · exact maxStepSize_pos
    · exact minStepSize_pos.trans_le (not_lt.mp hlow)
  sum_eq_zero _ _ := by
    refine Worker.sumAt_eq_zero_of_forall (fun o ho => ?_) _
    obtain ⟨w, hw, ho⟩ := List.mem_flatMap.mp ho
    obtain ⟨f, _, rfl⟩ := List.mem_map.mp hw
    rw [← List.zip_eq_zipWith] at ho
    exact List.eq_of_mem_replicate (List.of_mem_zip ho).2
  eq_free hi hnone hdegree := by
    unfold Problem.numVariables at hi
    simp [start, Restriction.initialConsensus, coordinate, hnone, hdegree, hi]

theorem IsSound.hasWorkers (h : s.IsSound r) (hdegrees : r.degrees = r.problem.degrees)
    (hwf : ∀ f ∈ r.problem.factors, f.WellFormed r.problem.numVariables) :
    r.HasWorkers s.workers :=
  ⟨hdegrees, hwf, h.factors_eq, h.isAligned⟩

/-- What rounds keep of the lengths, whatever the factors are. -/
structure IsShaped (r : Restriction α) (s : State α) : Prop where
  factors_eq : s.workers.map (·.factor) = r.problem.factors
  isAligned : ∀ w ∈ s.workers, w.IsAligned
  length_consensus : s.consensus.length = r.problem.numVariables

theorem IsSound.isShaped (h : s.IsSound r) : s.IsShaped r :=
  ⟨h.factors_eq, h.isAligned, h.keepsFixed.length_eq⟩

theorem isShaped_start (r : Restriction α) (options : Options α) : (start r options).IsShaped r :=
  (isSound_start r options).isShaped

theorem IsShaped.factors_projected (h : s.IsShaped r) (options : Options α) :
    (s.workers.map (s.projected r options)).map (·.factor) = r.problem.factors := by
  rw [← h.factors_eq, List.map_map]
  rfl

theorem IsShaped.length_multipliers (h : s.IsShaped r) (options : Options α) :
    ∀ w ∈ s.workers.map (s.projected r options),
      w.multipliers.length = w.factor.literals.length := by
  intro w hw
  obtain ⟨u, hu, rfl⟩ := List.mem_map.mp hw
  exact h.isAligned u hu

theorem IsShaped.length_posteriors (h : s.IsShaped r) (options : Options α) :
    ∀ w ∈ s.workers.map (s.projected r options),
      w.posteriors.length = w.factor.literals.length := by
  intro w hw
  obtain ⟨u, hu, rfl⟩ := List.mem_map.mp hw
  exact Worker.length_posteriors_project (h.isAligned u hu) _ _ _ _ _

theorem IsShaped.record (h : s.IsShaped r) (options : Options α) :
    (s.record (s.round r options)).IsShaped r where
  factors_eq := by
    rw [← h.factors_eq]
    simp [State.record, State.round, Restriction.round]
  isAligned w hw := by
    obtain ⟨v, hv, rfl⟩ := List.mem_map.mp hw
    obtain ⟨u, hu, rfl⟩ := List.mem_map.mp hv
    exact Worker.isAligned_price_project (h.isAligned u hu) _ _ _ _ _ _
  length_consensus := by
    rw [← h.length_consensus]
    simp [State.record, State.round, Restriction.round, Restriction.average]

theorem IsShaped.advance (h : s.IsShaped r) (options : Options α) :
    (s.advance r options).1.IsShaped r := by
  have hrecord := h.record options
  obtain ⟨_, _, hadvance⟩ := exists_advance_eq s r options
  rw [hadvance]
  exact ⟨hrecord.factors_eq, hrecord.isAligned, hrecord.length_consensus⟩

theorem IsBalanced.record (h : s.IsBalanced r) (hs : s.IsShaped r)
    (hdegrees : r.degrees = r.problem.degrees) (options : Options α) :
    (s.record (s.round r options)).IsBalanced r := by
  let projected := s.workers.map (s.projected r options)
  have hfactors : projected.map (·.factor) = r.problem.factors := hs.factors_projected options
  constructor
  case stepSize_pos => exact h.stepSize_pos
  case sum_eq_zero =>
    intro i hi hnone
    by_cases hdegree : r.degree i = 0
    · have hround := hs.record options
      exact Restriction.sumAt_multipliers_eq_zero hdegrees hround.factors_eq hround.isAligned hi
        hdegree
    have hshared : r.isShared i = true := by simp [Restriction.isShared, hnone, hdegree]
    have hprice := Worker.sumAt_occurrences_price (hs.length_multipliers options)
      (hs.length_posteriors options) (r.average projected s.consensus) s.stepSize i
    have hsame : Worker.sumAt (Worker.occurrences projected Worker.multipliers) i = 0 := by
      rw [← h.sum_eq_zero hi hnone]
      simp [projected, Worker.occurrences, List.flatMap_map, State.projected, Worker.project]
    rw [hsame, hfactors, Restriction.count_eq_degree hdegrees hi] at hprice
    change Worker.sumAt (Worker.occurrences (projected.map fun w =>
      w.price (r.average projected s.consensus) s.stepSize) Worker.multipliers) i = 0
    rw [hprice, Restriction.coordinate_average (hs.length_consensus.symm ▸ hi), if_pos hshared,
      mul_div_cancel₀ _ (Nat.cast_ne_zero.mpr hdegree), sub_self, mul_zero, sub_zero]
  case eq_free =>
    intro i hi hnone hdegree
    have hshared : r.isShared i = false := by simp [Restriction.isShared, hdegree]
    change coordinate (r.average projected s.consensus) i = _
    rw [Restriction.coordinate_average (hs.length_consensus.symm ▸ hi), hshared,
      if_neg Bool.false_ne_true]
    exact h.eq_free hi hnone hdegree

theorem IsBalanced.adapt (h : s.IsBalanced r) (options : Options α) (round : Round α) :
    (s.adapt options round).IsBalanced r := by
  unfold State.adapt
  split_ifs
  · refine ⟨?_, h.sum_eq_zero, h.eq_free⟩
    change 0 < balanced _ _ s.stepSize
    unfold balanced
    rw [smaller_eq_min, larger_eq_max]
    split_ifs
    · exact lt_min (mul_pos h.stepSize_pos (by simp)) maxStepSize_pos
    · exact lt_max_of_lt_right minStepSize_pos
    · exact h.stepSize_pos
  · exact h

theorem Reached.isShaped_isBalanced (h : Reached r options s)
    (hdegrees : r.degrees = r.problem.degrees) : s.IsShaped r ∧ s.IsBalanced r := by
  induction h with
  | start => exact ⟨isShaped_start r options, isBalanced_start r options⟩
  | advance _ proceeds ih =>
    have hshaped := ih.1.advance options
    rw [proceeds] at hshaped
    refine ⟨hshaped, ?_⟩
    rw [eq_of_proceeds proceeds]
    exact (ih.2.record ih.1 hdegrees options).adapt options _

theorem Reached.isSound_isBalanced (h : Reached r options s)
    (hdegrees : r.degrees = r.problem.degrees)
    (hwf : ∀ f ∈ r.problem.factors, f.WellFormed r.problem.numVariables) :
    s.IsSound r ∧ s.IsBalanced r := by
  refine ⟨?_, (h.isShaped_isBalanced hdegrees).2⟩
  induction h with
  | start => exact isSound_start r options
  | advance _ proceeds ih =>
    have hadvance := (ih.advance hdegrees hwf options).1
    rwa [proceeds] at hadvance

end Relaxation.State
end MapInference
