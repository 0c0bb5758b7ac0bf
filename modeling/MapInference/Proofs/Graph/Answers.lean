import MapInference.Proofs.Graph.Factors
import MapInference.Proofs.Relaxation.Ranges

/-!
# Solves that have an answer

There is no answer when a projection loses its last configuration, or when the table of a knapsack
or the cost of an assignment leaves the machine words. In exact arithmetic the active sets stay
sound, so that no projection loses its last configuration; and a knapsack whose costs add up to a
word and whose table has a word of entries leaves the words nowhere.
-/

namespace MapInference

open Scalar

namespace Knapsack

theorem outgrows_iff (costs : List ℕ) (capacity : ℕ) : outgrows costs capacity = true ↔
    Word.limit ≤ capacity + 1 ∨ Word.limit ≤ costs.length * (capacity + 1) := by
  unfold outgrows Word.checked
  split_ifs with hwidth
  · simp only [Option.bind_some]
    split_ifs with hentries
    · simp [hwidth, hentries]
    · simpa using Or.inr (not_lt.mp hentries)
  · simpa using Or.inl (not_lt.mp hwidth)

theorem selectedCost_le_sum (costs : List ℕ) (values : List Bool) :
    selectedCost costs values ≤ costs.sum := by
  induction costs generalizing values with
  | nil => exact Nat.zero_le _
  | cons cost costs ih =>
    cases values with
    | nil => exact Nat.zero_le _
    | cons value values =>
      have hrest := ih values
      unfold selectedCost at hrest ⊢
      rw [List.zipWith_cons_cons, List.sum_cons, List.sum_cons]
      split_ifs <;> omega

end Knapsack

/-- The costs of a knapsack add up to a machine word, and its table has a word of entries. -/
def FactorKind.FitsWords : FactorKind → Prop
  | knapsack costs capacity => costs.sum < Word.limit ∧ capacity + 1 < Word.limit ∧
      costs.length * (capacity + 1) < Word.limit
  | _ => True

namespace FactorKind

instance : DecidablePred FitsWords
  | knapsack _ _ => inferInstanceAs (Decidable (_ ∧ _ ∧ _))
  | logic _ | budget _ | pair | dense _ | matching _ _ | segmentation _ => isTrue trivial

variable {k : FactorKind}

theorem FitsWords.outgrows_eq (h : k.FitsWords) : k.outgrows = false := by
  cases k with
  | knapsack costs capacity =>
    rw [outgrows, ← Bool.not_eq_true, Knapsack.outgrows_iff]
    simpa using h.2
  | _ => rfl

theorem FitsWords.overflows_eq (h : k.FitsWords) {n m : ℕ} (hfits : k.Fits n m)
    {values : List Bool} (hvalues : values.length = n) : k.overflows values = false := by
  cases k with
  | knapsack costs capacity =>
    rw [overflows, ← Bool.not_eq_true, Knapsack.overflows_iff (hvalues.trans hfits.1), not_le]
    exact (Knapsack.selectedCost_le_sum costs values).trans_lt h.1
  | _ => rfl

end FactorKind

namespace Problem

variable {α : Type} {p : Problem α}

def FitsWords (p : Problem α) : Prop := ∀ f ∈ p.factors, f.kind.FitsWords

instance (p : Problem α) : Decidable p.FitsWords :=
  inferInstanceAs (Decidable (∀ f ∈ p.factors, f.kind.FitsWords))

theorem FitsWords.outgrows_eq (h : p.FitsWords) : p.outgrows = false := by
  rw [outgrows, List.any_eq_false]
  exact fun f hf => Bool.eq_false_iff.mp (h f hf).outgrows_eq

variable [Scalar α]

theorem FitsWords.overflows_eq (h : p.FitsWords) {n : ℕ} (hwf : ∀ f ∈ p.factors, f.WellFormed n)
    (values : List Bool) : p.overflows values = false := by
  have hgo (factors : List (Factor α))
      (h : ∀ f ∈ factors, f.kind.FitsWords ∧ f.WellFormed n) :
      overflows.go values factors = false := by
    induction factors with
    | nil => rfl
    | cons f factors ih =>
      obtain ⟨⟨hf, hwf⟩, hrest⟩ := List.forall_mem_cons.mp h
      have hlen : (Complement.assignment f.marks (f.restrict values)).length =
          f.literals.length := by simp [Complement.assignment]
      rw [overflows.go, Factor.overflows, hf.overflows_eq hwf.fits hlen, ih hrest, Bool.and_false,
        Bool.or_false]
  exact hgo p.factors fun f hf => ⟨h f hf, hwf f hf⟩

end Problem

namespace Relaxation

section

variable {β : Type} [Scalar β]

namespace State

theorem overflowed_advance (s : State β) (r : Restriction β) (options : Options β) :
    (s.advance r options).1.overflowed = (s.overflowed ||
      (r.round options.projectionLimit s.stepSize s.workers s.consensus).overflowed) := by
  obtain ⟨_, _, h⟩ := exists_advance_eq s r options
  rw [h]
  rfl

theorem exists_run_succ_eq (s : State β) (r : Restriction β) (options : Options β) (limit : ℕ) :
    ∃ n, (s.run r options (limit + 1)).1 = ((s.advance r options).1.run r options n).1 := by
  rw [run]
  split
  · next t ht => exact ⟨limit, by rw [ht]⟩
  · next t ht => exact ⟨0, by rw [ht, run]⟩
  · next t a ht => exact ⟨0, by rw [ht, run]⟩

theorem overflowed_run_of_outgrows {r : Restriction β} {options : Options β} {s : State β}
    (h : r.problem.outgrows = true) {limit : ℕ} (hlimit : limit ≠ 0) :
    (s.run r options limit).1.overflowed = true := by
  obtain ⟨limit, rfl⟩ := Nat.exists_eq_succ_of_ne_zero hlimit
  obtain ⟨n, hn⟩ := exists_run_succ_eq s r options limit
  have hfirst : (s.advance r options).1.overflowed = true := by
    rw [overflowed_advance, Restriction.round, h, Bool.true_or, Bool.or_true]
  rw [hn]
  exact State.run_induction (P := fun t => t.overflowed = true)
    (fun t ht => by rw [overflowed_advance, ht, Bool.true_or]) hfirst n

end State

/-- A relaxation with a table that leaves the machine words has no answer once it makes a round. -/
theorem emptied_solve_of_outgrows {p : Problem β} (h : p.outgrows = true)
    (fixed : List (Option Bool)) {options : Options β} (hrounds : options.maxIterations ≠ 0) :
    (solve p fixed options).emptied = true := by
  let r : Restriction β := { problem := p, fixed }
  have hlast : ((State.start r options).run r options options.maxIterations).1.overflowed = true :=
    State.overflowed_run_of_outgrows h hrounds
  have hoverflowed : (solve p fixed options).overflowed = true := by
    change (_ || _ && p.overflows _) = true
    rw [hlast, Bool.true_or]
  rw [emptied, hoverflowed, Bool.or_true]

end

end Relaxation

variable {α : Type} [ExactScalar α]

/-- No projection of the worker has lost its last configuration, and its active set is one that the
next solution may start from. -/
structure Worker.IsIntact (w : Worker α) : Prop where
  emptied_eq : w.emptied = false
  isSound {o : Oracle α w.factor.kind.Configuration} : w.factor.localProblem = .oracle o →
    w.activeSet = {} ∨ w.activeSet.IsSound o w.factor.kind.IsConfiguration

namespace Worker

variable {w : Worker α}

theorem IsIntact.project (h : w.IsIntact)
    (hfits : w.factor.kind.Fits w.factor.literals.length w.factor.numAdditionals)
    (haligned : w.IsAligned) (consensus logPotentials : List α) (degrees : List ℕ) (stepSize : α)
    (limit : ℕ) : (w.project consensus logPotentials degrees stepSize limit).IsIntact := by
  -- A solution of the quadratic program starts from a sound active set and ends with one.
  have hsolve {o : Oracle α w.factor.kind.Configuration} (ho : w.factor.localProblem = .oracle o) :
      (w.project consensus logPotentials degrees stepSize limit).emptied = false ∧
        (w.project consensus logPotentials degrees stepSize limit).activeSet.IsSound o
          w.factor.kind.IsConfiguration := by
    obtain ⟨hlaws, hn, hm⟩ := w.factor.kind.hasTrueIndices hfits ho
    obtain ⟨hactive, -, -, hemptied⟩ :=
      project_eq_of_oracle consensus logPotentials degrees stepSize limit ho
    have hpoint : (Complement.point w.factor.marks
        (w.target consensus logPotentials degrees stepSize)).length = o.numVariables := by
      have haligned : w.multipliers.length = w.factor.literals.length := haligned
      simp [target, haligned, hn]
    obtain ⟨hstop, hsound, -⟩ := QuadraticProgram.solve_spec hlaws.hasIndicators (h.isSound ho)
      hpoint ((List.length_map (· / stepSize)).trans hm.symm) limit
    rw [hemptied, hactive]
    exact ⟨by simp [h.emptied_eq, hstop], hsound⟩
  constructor
  case emptied_eq =>
    cases hlocal : w.factor.localProblem with
    | closedForm form =>
      simp only [Worker.project, hlocal, LocalProblem.project, h.emptied_eq, Bool.or_self]
    | oracle o => exact (hsolve hlocal).1
  case isSound => exact fun ho => Or.inr (hsolve ho).2

theorem IsIntact.price (h : w.IsIntact) (consensus : List α) (stepSize : α) :
    (w.price consensus stepSize).IsIntact := ⟨h.emptied_eq, h.isSound⟩

end Worker

namespace Relaxation

namespace State

variable {r : Restriction α} {options : Options α} {s : State α}

/-- The rounds so far have an answer. -/
structure IsIntact (r : Restriction α) (s : State α) : Prop extends s.IsShaped r where
  isIntact : ∀ w ∈ s.workers, w.IsIntact
  overflowed_eq : s.overflowed = false

theorem IsIntact.advance (h : s.IsIntact r)
    (hwf : ∀ f ∈ r.problem.factors, f.WellFormed r.problem.numVariables)
    (hwords : r.problem.FitsWords) (options : Options α) :
    (s.advance r options).1.IsIntact r := by
  refine ⟨h.toIsShaped.advance options, ?_, ?_⟩
  · rw [(s.advance_spec r options).1, workers_round, List.map_map]
    intro w hw
    obtain ⟨u, hu, rfl⟩ := List.mem_map.mp hw
    have hfactor : u.factor ∈ r.problem.factors := h.factors_eq ▸ List.mem_map_of_mem hu
    exact ((h.isIntact u hu).project (hwf _ hfactor).fits (h.isAligned u hu) _ _ _ _ _).price _ _
  · rw [overflowed_advance, h.overflowed_eq, Restriction.round, hwords.outgrows_eq,
      hwords.overflows_eq hwf]
    rfl

end State

end Relaxation

namespace Search

variable {σ : Type} {p : Problem α} {s : State α σ}

variable (hwf : ∀ f ∈ p.factors, f.WellFormed p.numVariables) (hwords : p.FitsWords)
  (options : Options α) (monitor : Monitor σ)

end Search

namespace FactorGraph

theorem Solved.solution_eq {β : Type} {x : Solved β} {solution : Solution β}
    (h : x.answer? = some solution) : x.solution = solution := by
  unfold answer? at h
  split_ifs at h
  exact Option.some.inj h

variable {σ : Type} {g : FactorGraph α}

theorem answer?_eq_none_of_breaksDown {β σ : Type} [Scalar β] {g : FactorGraph β}
    {options : Options β} (h : g.breaksDown options = true) (monitor : Monitor σ) (m : σ) :
    (g.solve options monitor m).1.answer? = none := by
  rw [breaksDown, Bool.and_eq_true, bne_iff_ne] at h
  have hroot : (g.begin options).root.emptied = true :=
    Relaxation.emptied_solve_of_outgrows h.2 _ h.1
  have hemptied : (g.solve options monitor m).1.emptied = true := by
    unfold solve
    dsimp only
    split_ifs
    · change (_ || _) = true
      rw [hroot, Bool.true_or]
    · exact hroot
  rw [Solved.answer?, hemptied]
  rfl

end FactorGraph
end MapInference
