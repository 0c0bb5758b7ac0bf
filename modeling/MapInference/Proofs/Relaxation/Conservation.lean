import MapInference.Proofs.Relaxation.Multipliers

/-!
# Conservation of the multipliers

A round averages the posteriors of a variable over its occurrences and moves the multiplier of each
occurrence against its disagreement with the average, all with the same step size. The disagreements
cancel, so that the multipliers of a variable that is not fixed sum to zero after every round,
however often the step size has been adapted and whatever the factors are.
-/

namespace MapInference

open Scalar
variable {α : Type} [ExactScalar α]

namespace Worker

def valuesAt (workers : List (Worker α)) (quantity : Worker α → List α) (i : ℕ) : List α :=
  workers.flatMap fun w =>
    ((w.factor.indices.zip (quantity w)).filter fun o => o.1 == i).map (·.2)

variable {workers : List (Worker α)} {quantity : Worker α → List α}

theorem sumAt_eq_sum_valuesAt (workers : List (Worker α)) (quantity : Worker α → List α) (i : ℕ) :
    sumAt (occurrences workers quantity) i = (valuesAt workers quantity i).sum := by
  induction workers with
  | nil => rfl
  | cons w workers ih =>
    have hhead (os : List (ℕ × α)) :
        sumAt os i = ((os.filter fun o => o.1 == i).map (·.2)).sum := by
      induction os with
      | nil => rfl
      | cons o os ih => by_cases h : o.1 = i <;> simp [sumAt_cons, ih, h]
    rw [occurrences_cons, sumAt_append, ih, hhead, valuesAt, valuesAt, List.flatMap_cons,
      List.sum_append]
    rfl

omit [ExactScalar α] in
theorem length_valuesAt (h : ∀ w ∈ workers, (quantity w).length = w.factor.literals.length)
    (i : ℕ) :
    (valuesAt workers quantity i).length =
      ((workers.map (·.factor)).flatMap Factor.indices).count i := by
  induction workers with
  | nil => rfl
  | cons w workers ih =>
    have hlen : w.factor.indices.length ≤ (quantity w).length := by
      rw [Factor.length_indices, h w List.mem_cons_self]
    have hhead : (((w.factor.indices.zip (quantity w)).filter fun o => o.1 == i).map (·.2)).length =
        w.factor.indices.count i := by
      conv_rhs => rw [← List.map_fst_zip hlen]
      rw [List.length_map, ← List.countP_eq_length_filter, List.count, List.countP_map]
      rfl
    rw [valuesAt, List.flatMap_cons, List.length_append, hhead, List.map_cons, List.flatMap_cons,
      List.count_append, ← ih fun u hu => h u (List.mem_cons_of_mem _ hu), valuesAt]

end Worker

namespace Relaxation

/-- For every variable that is not fixed and occurs in a factor, the multipliers sum to zero and the
consensus value is the average of the posteriors; each occurrence has one of both. -/
structure IsConserved (p : Problem α) (fixed : List (Option Bool)) (workers : List (Worker α))
    (consensus : List α) : Prop where
  factors_eq : workers.map (·.factor) = p.factors
  length_multipliers {w : Worker α} : w ∈ workers →
    w.multipliers.length = w.factor.literals.length
  length_posteriors {w : Worker α} : w ∈ workers →
    w.posteriors.length = w.factor.literals.length
  sum_multipliers {i : ℕ} : i < p.numVariables → fixed[i]?.join = none →
    (∃ f ∈ p.factors, i ∈ f.indices) →
    (Worker.valuesAt workers Worker.multipliers i).sum = 0
  consensus_eq {i : ℕ} : i < p.numVariables → fixed[i]?.join = none →
    (∃ f ∈ p.factors, i ∈ f.indices) →
    consensus[i]? = some ((Worker.valuesAt workers Worker.posteriors i).sum /
      (Worker.valuesAt workers Worker.posteriors i).length)

namespace State

variable {r : Restriction α} {options : Options α} {s : State α}

theorem posteriors_round (s : State α) (r : Restriction α) (options : Options α) :
    (s.round r options).workers.map (·.posteriors) =
      s.workers.map fun w => (s.projected r options w).posteriors := by
  rw [workers_round, List.map_map, List.map_map]
  rfl

theorem isConserved_round (hs : s.IsShaped r) (hbalanced : s.IsBalanced r)
    (hdegrees : r.degrees = r.problem.degrees) :
    IsConserved r.problem r.fixed (s.round r options).workers (s.round r options).consensus := by
  let round := s.round r options
  let projected := s.workers.map (s.projected r options)
  have hround : (s.record round).IsShaped r := hs.record options
  have hposteriors (w : Worker α) (hw : w ∈ round.workers) :
      w.posteriors.length = w.factor.literals.length := by
    obtain ⟨u, hu, rfl⟩ := List.mem_map.mp hw
    exact hs.length_posteriors options u hu
  constructor
  case factors_eq => exact hround.factors_eq
  case length_multipliers => exact hround.isAligned _
  case length_posteriors => exact hposteriors _
  case sum_multipliers =>
    intro i hi hfree _
    rw [← Worker.sumAt_eq_sum_valuesAt]
    exact (hbalanced.record hs hdegrees options).sum_eq_zero hi hfree
  case consensus_eq =>
    intro i hi hfree hoccurs
    have hcount : (r.problem.factors.flatMap Factor.indices).count i = r.degree i :=
      Restriction.count_eq_degree hdegrees hi
    have hpositive : r.degree i ≠ 0 := by
      rw [← hcount]
      exact (List.count_pos_iff.mpr (List.mem_flatMap.mpr hoccurs)).ne'
    have hshared : r.isShared i = true := by
      simp [Restriction.isShared, Restriction.fixedValue?, hfree, hpositive]
    have haverage : coordinate round.consensus i =
        Worker.sumAt (Worker.occurrences projected Worker.posteriors) i / (r.degree i : α) := by
      have hi : i < s.consensus.length := hs.length_consensus.symm ▸ hi
      exact (Restriction.coordinate_average hi).trans (if_pos hshared)
    have hsame : Worker.valuesAt projected Worker.posteriors i =
        Worker.valuesAt round.workers Worker.posteriors i := by
      simp only [Worker.valuesAt, round, workers_round, List.flatMap_map, projected]
      rfl
    have hlength : (Worker.valuesAt round.workers Worker.posteriors i).length = r.degree i := by
      rw [Worker.length_valuesAt hposteriors, ← hcount, ← hround.factors_eq]
      rfl
    have hget : round.consensus[i]? = some (coordinate round.consensus i) :=
      getElem?_eq_some_coordinate (hround.length_consensus.symm ▸ hi)
    exact hget.trans (by rw [haverage, Worker.sumAt_eq_sum_valuesAt, hsame, hlength])

end State

/-- After every round of every run the multipliers are conserved, and the consensus is the average
of the posteriors of that round. -/
theorem multipliers_conserved (p : Problem α) (fixed : List (Option Bool)) (options : Options α) :
    let r : Restriction α := { problem := p, fixed }
    (∀ s, State.Reached r options s →
      let t := (s.advance r options).1
      t.workers.map (·.posteriors) = s.workers.map (fun w =>
        (w.project s.consensus p.logPotentials p.degrees s.stepSize
          options.projectionLimit).posteriors) ∧
      IsConserved p fixed t.workers t.consensus) ∧
    (0 < options.maxIterations →
      IsConserved p fixed (solve p fixed options).workers (solve p fixed options).consensus) := by
  intro r
  have hround (s : State α) (hs : State.Reached r options s) :
      IsConserved p fixed (s.advance r options).1.workers (s.advance r options).1.consensus := by
    obtain ⟨hshaped, hbalanced⟩ := hs.isShaped_isBalanced rfl
    obtain ⟨hworkers, hconsensus, _⟩ := s.advance_spec r options
    rw [hworkers, hconsensus]
    exact State.isConserved_round hshaped hbalanced rfl
  refine ⟨fun s hs => ⟨?_, hround s hs⟩, fun hlimit => ?_⟩
  · rw [(s.advance_spec r options).1]
    exact s.posteriors_round r options
  · have hstart : State.Reached r options (State.start r options) := .start
    obtain ⟨u, hu, hrun⟩ := hstart.exists_run_eq hlimit
    have hsolve : (solve p fixed options).workers = (u.advance r options).1.workers ∧
        (solve p fixed options).consensus = (u.advance r options).1.consensus := by
      rw [← hrun]
      exact ⟨rfl, rfl⟩
    rw [hsolve.1, hsolve.2]
    exact hround u hu

def contestedProblem : Problem ℚ :=
  ⟨[⟨[⟨⟨0⟩, false⟩, ⟨⟨1⟩, false⟩], [], .budget ⟨1⟩⟩, ⟨[⟨⟨0⟩, true⟩, ⟨⟨2⟩, false⟩], [1], .pair⟩],
    [1, 2, 3]⟩

def contestedOptions : Options ℚ :=
  { (.standard : Options ℚ) with stepSize := 10, maxIterations := 1 }

/-- After the only round the multipliers of the shared variable are `1/8` and `-1/8`. -/
theorem multipliers_conserved_contestedProblem :
    let r : Restriction ℚ := { problem := contestedProblem, fixed := [] }
    let first := ((State.start r contestedOptions).advance r contestedOptions).1
    let solved := solve contestedProblem [] contestedOptions
    0 < contestedOptions.maxIterations ∧
      State.Reached r contestedOptions (.start r contestedOptions) ∧
      solved.workers.map (·.multipliers) = [[1 / 8, 0], [-1 / 8, 0]] ∧
      IsConserved contestedProblem [] first.workers first.consensus ∧
      IsConserved contestedProblem [] solved.workers solved.consensus := by
  intro r first solved
  obtain ⟨hround, hsolve⟩ := multipliers_conserved contestedProblem [] contestedOptions
  have hmultipliers : solved.workers.map (·.multipliers) = [[1 / 8, 0], [-1 / 8, 0]] := by
    decide +kernel
  exact ⟨Nat.one_pos, .start, hmultipliers, (hround _ .start).2, hsolve Nat.one_pos⟩

end Relaxation
end MapInference
