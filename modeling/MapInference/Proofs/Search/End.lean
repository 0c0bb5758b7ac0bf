import MapInference.Proofs.Search.Accounts
import MapInference.Proofs.Search.Traversal

/-!
# The end of a search

The step limit suffices for the whole tree, and the search is stopped only when the monitor says so
of an open node. What is proved at the end follows from the accounts of the assignments.
-/

namespace MapInference

open Scalar
variable {α : Type} [ExactScalar α]

namespace Search

variable {σ : Type} {p : Problem α} {s : State α σ} {root : Relaxation α}

section Run

variable (p) (monitor : Monitor σ) (options : Options α)

theorem isFinished_finalState (root : Relaxation α) (monitor : Monitor σ) (m : σ) :
    (finalState p options root monitor m).isFinished = true := by
  have hlimit : stepLimit p.numVariables = 2 ^ (p.numVariables + 1) := rfl
  exact isFinished_run_start (by omega)

end Run

theorem exists_integral_of_eq_zero {fixed : List (Option Bool)} (hroot : root.IsSound p fixed)
    (hzero : p.numVariables = 0) {values : List Bool} {v : α}
    (hlen : values.length = p.numVariables) (hv : p.value? values = some v) :
    ∃ a, root.integral = some a ∧ v = a.value := by
  have hvalues : values = [] := List.length_eq_zero_iff.mp (hlen.trans hzero)
  have hconsensus : root.consensus = [] :=
    List.length_eq_zero_iff.mp (hroot.length_consensus.trans hzero)
  have hintegral : p.integral? (Relaxation.rounded root.consensus) = some ⟨values, v⟩ := by
    rw [hconsensus, Relaxation.rounded, List.map_nil, ← hvalues, Problem.integral?, hv,
      Option.map_some]
  cases ha : root.integral with
  | none =>
    have hall : Relaxation.isIntegral root.consensus = true := by
      simp [hconsensus, Relaxation.isIntegral]
    simp [hroot.integral_ne_none hall ha] at hintegral
  | some a =>
    have heq := (hroot.integral_eq ha).1
    rw [hintegral] at heq
    exact ⟨a, rfl, congrArg Integral.value (Option.some.inj heq)⟩

/-- The search starts with the children of the root, which a certified relaxation or, without a
variable, the only assignment makes superfluous. -/
theorem isSound_start (hroot : root.IsSound p (List.replicate p.numVariables none))
    (options : Options α) (m : σ) : IsSound p (State.start p options root m) := by
  constructor
  case factors_eq => exact hroot.factors_eq
  case length_fixed =>
    intro node hnode
    simp only [State.start] at hnode
    split_ifs at hnode
    · simp at hnode
    · rw [length_fixed_of_mem_split hnode, List.length_replicate]
  case incumbent_eq => exact integral_eq_of_isSound hroot
  case accounted =>
    intro values v hlen hv
    have hagree := agrees_replicate_none p.numVariables values
    by_cases hcertified : root.certified
    · exact accounted_of_certified hroot hcertified (fun a ha => ⟨a, ha, le_rfl⟩) hagree hv
    · have hfrontier : (State.start p options root m : State α σ).frontier =
          split options root.consensus (List.replicate p.numVariables none) root.bound :=
        if_neg hcertified
      rw [hfrontier]
      rcases Nat.eq_zero_or_pos p.numVariables with hzero | hpos
      · obtain ⟨a, ha, hle⟩ := exists_integral_of_eq_zero hroot hzero hlen hv
        exact Or.inr ⟨a, ha, hle.le.trans (le_add_of_nonneg_right (tolerance_nonneg v))⟩
      · have hopen : 0 < numOpen (List.replicate p.numVariables none) := by simpa [numOpen]
        obtain ⟨node, hnode, hnodeAgrees, hbound⟩ := exists_mem_split options root.consensus
          root.bound hagree (by rw [hlen, List.length_replicate]) hopen
        exact Or.inl ⟨node, hnode, hnodeAgrees, hbound ▸ hroot.covers hagree hv⟩

theorem isSound_finalState (hwf : ∀ f ∈ p.factors, f.WellFormed p.numVariables)
    (hroot : root.IsSound p (List.replicate p.numVariables none)) (options : Options α)
    (monitor : Monitor σ) (m : σ) : IsSound p (finalState p options root monitor m) :=
  (isSound_start hroot options _).run _ options hwf _

theorem covers_foldl_max {nodes : List (Node α)} {b : Extended α} {v : α} :
    (nodes.foldl (fun b node => Extended.max b node.bound) b).Covers v ↔
      b.Covers v ∨ ∃ node ∈ nodes, node.bound.Covers v := by
  induction nodes generalizing b with
  | nil => simp
  | cons node nodes ih => rw [List.foldl_cons, ih, Extended.covers_max]; simp [or_assoc]

/-- When no node is left open, every feasible assignment is about as good as the incumbent at
most. -/
theorem exists_incumbent_of_exhausted (h : IsSound p s) (hfinished : s.isFinished)
    (hstopped : s.stopped = false) {values : List Bool} {v : α}
    (hlen : values.length = p.numVariables) (hv : p.value? values = some v) :
    ∃ a, s.incumbent = some a ∧ v ≤ a.value + tolerance v := by
  have hempty : s.frontier = [] := by
    simpa [State.isFinished, hstopped] using hfinished
  rcases h.accounted hlen hv with ⟨node, hnode, _⟩ | hincumbent
  · simp [hempty] at hnode
  · exact hincumbent

theorem covers_provedBound (h : IsSound p s) (hfinished : s.isFinished)
    (hroot : root.IsSound p (List.replicate p.numVariables none)) {values : List Bool} {v : α}
    (hlen : values.length = p.numVariables) (hv : p.value? values = some v) :
    (provedBound s root).Covers (v - tolerance v) := by
  have hcovers : root.bound.Covers (v - tolerance v) :=
    (hroot.covers (agrees_replicate_none _ _) hv).mono (sub_le_self v (tolerance_nonneg v))
  have hincumbent (a : Integral α) (ha : s.incumbent = some a) (hle : v ≤ a.value + tolerance v) :
      (Extended.ofOption (s.incumbent.map (·.value))).Covers (v - tolerance v) := by
    rw [ha]
    exact sub_le_iff_le_add.mpr hle
  unfold provedBound
  dsimp only
  split_ifs with hcertified hstopped
  · exact hcovers
  · refine Extended.covers_min.mpr ⟨Extended.covers_max.mpr ?_, hcovers⟩
    rcases h.accounted hlen hv with ⟨node, hnode, _, hbound⟩ | ⟨a, ha, hle⟩
    · refine Or.inl (covers_foldl_max.mpr (Or.inr ⟨node, hnode, ?_⟩))
      exact hbound.mono (sub_le_self v (tolerance_nonneg v))
    · exact Or.inr (hincumbent a ha hle)
  · rw [Bool.not_eq_true] at hstopped
    obtain ⟨a, ha, hle⟩ := exists_incumbent_of_exhausted h hfinished hstopped hlen hv
    exact hincumbent a ha hle

end Search
end MapInference
