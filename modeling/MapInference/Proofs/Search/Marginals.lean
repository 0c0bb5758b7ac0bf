import MapInference.Proofs.Search.Nodes
import MapInference.Proofs.Search.Workers

/-!
# The marginals of a solution

A relaxation has a consensus value for every variable, and an open node says of every variable
whether it is fixed. So every assignment that a solve finds has a value for every variable, and a
solution has a marginal for every binary variable of the graph, however the solve ends.
-/

namespace MapInference

variable {α : Type} [Scalar α]

namespace Relaxation

variable {r : Restriction α} {options : Options α}

theorem State.length_consensus_advance (s : State α) :
    (s.advance r options).1.consensus.length = s.consensus.length := by
  obtain ⟨_, _, h⟩ := exists_advance_eq s r options
  rw [h]
  simp [record, Restriction.round, Restriction.average]

theorem State.length_consensus_run (s : State α) (limit : ℕ) :
    (s.run r options limit).1.consensus.length = s.consensus.length :=
  State.run_induction (P := fun t => t.consensus.length = s.consensus.length)
    (fun t ht => t.length_consensus_advance.trans ht) rfl limit

theorem State.assignment_advance {s : State α} {a : Integral α}
    (h : (s.advance r options).2 = .certified a) :
    a.assignment = rounded (s.advance r options).1.consensus := by
  unfold advance at h ⊢
  dsimp only at h ⊢
  split at h
  · next b hcertificate =>
    obtain rfl : b = a := Verdict.certified.inj h
    exact (Problem.integral?_assignment (Option.filter_eq_some_iff.mp hcertificate).1).1
  · split_ifs at h

theorem State.assignment_run {s : State α} {limit : ℕ} {a : Integral α}
    (h : (s.run r options limit).2 = some a) :
    a.assignment = rounded (s.run r options limit).1.consensus := by
  induction limit generalizing s with
  | zero => cases h
  | succ limit ih =>
    unfold State.run at h ⊢
    split at h
    · next t heq => exact ih h
    · cases h
    · next t b heq =>
      obtain rfl : b = a := Option.some.inj h
      have hverdict : (s.advance r options).2 = .certified b := by rw [heq]
      have hassignment := State.assignment_advance hverdict
      rwa [heq] at hassignment

theorem length_consensus_solve (p : Problem α) (fixed : List (Option Bool)) (options : Options α) :
    (solve p fixed options).consensus.length = p.numVariables := by
  refine (State.length_consensus_run _ _).trans ?_
  simp [State.start, Restriction.initialConsensus, Problem.numVariables]

theorem length_assignment_solve {p : Problem α} {fixed : List (Option Bool)} {options : Options α}
    {a : Integral α} (h : (solve p fixed options).integral = some a) :
    a.assignment.length = p.numVariables := by
  have hassignment : a.assignment = rounded (solve p fixed options).consensus := by
    rcases Option.or_eq_some_iff.mp h with hcertificate | ⟨_, hrounding⟩
    · exact State.assignment_run hcertificate
    · split_ifs at hrounding
      exact (Problem.integral?_assignment hrounding).1
  rw [hassignment, rounded, List.length_map, length_consensus_solve]

end Relaxation

namespace Search

variable {σ : Type} {p : Problem α} {options : Options α} {monitor : Monitor σ} {s : State α σ}

/-- Nodes and assignments of a search have an entry for each of `n` variables. -/
structure IsOver (n : ℕ) (s : State α σ) : Prop where
  length_fixed : ∀ node ∈ s.frontier, node.fixed.length = n
  length_incumbent : ∀ a, s.incumbent = some a → a.assignment.length = n

theorem IsOver.offer? {n : ℕ} (h : IsOver n s) {a? : Option (Integral α)}
    (ha : ∀ a, a? = some a → a.assignment.length = n) : IsOver n (s.offer? a?) where
  length_fixed := by
    rw [frontier_offer?]
    exact h.length_fixed
  length_incumbent a hincumbent := by
    rcases incumbent_offer?_eq s hincumbent with hoffered | hbefore
    · exact ha a hoffered
    · exact h.length_incumbent a hbefore

theorem IsOver.explore {node : Node α} (h : IsOver p.numVariables s)
    (hnode : node.fixed.length = p.numVariables) :
    IsOver p.numVariables (s.explore monitor p options node) := by
  let x := Relaxation.solve p node.fixed options
  have hrecord : IsOver p.numVariables (s.record monitor x) := ⟨h.length_fixed, h.length_incumbent⟩
  have hoffer : IsOver p.numVariables ((s.record monitor x).offer? x.integral) :=
    hrecord.offer? fun a ha => Relaxation.length_assignment_solve ha
  unfold State.explore
  dsimp only
  split_ifs
  · exact ⟨hoffer.length_fixed, hoffer.length_incumbent⟩
  · refine ⟨fun child hchild => ?_, hoffer.length_incumbent⟩
    rcases List.mem_append.mp hchild with hchild | hchild
    · exact (length_fixed_of_mem_split hchild).trans hnode
    · exact hoffer.length_fixed child hchild

theorem IsOver.process {node : Node α} (h : IsOver p.numVariables s)
    (hnode : node.fixed.length = p.numVariables) :
    IsOver p.numVariables (s.process monitor p options node) := by
  unfold State.process
  split_ifs
  · exact ⟨h.length_fixed, h.length_incumbent⟩
  · exact ⟨h.length_fixed, h.length_incumbent⟩
  · refine h.offer? fun a ha => ?_
    rw [(Problem.integral?_assignment ha).1, List.length_map, hnode]
  · exact h.explore hnode

theorem IsOver.step (h : IsOver p.numVariables s) :
    IsOver p.numVariables (s.step monitor p options) := by
  unfold State.step
  split
  · exact h
  · next node rest hs =>
    obtain ⟨hnode, hrest⟩ := List.forall_mem_cons.mp (hs ▸ h.length_fixed)
    dsimp only
    split_ifs
    · exact ⟨h.length_fixed, h.length_incumbent⟩
    · exact IsOver.process ⟨hrest, h.length_incumbent⟩ hnode

theorem isOver_start {root : Relaxation α} {m : σ}
    (hroot : ∀ a, root.integral = some a → a.assignment.length = p.numVariables) :
    IsOver p.numVariables (State.start p options root m) where
  length_fixed node hnode := by
    unfold State.start at hnode
    split_ifs at hnode
    · cases hnode
    · rw [length_fixed_of_mem_split hnode, List.length_replicate]
  length_incumbent := hroot

theorem isOver_finalState {root : Relaxation α}
    (hroot : ∀ a, root.integral = some a → a.assignment.length = p.numVariables)
    (options : Options α) (monitor : Monitor σ) (m : σ) :
    IsOver p.numVariables (finalState p options root monitor m) :=
  run_induction (fun _ hs => hs.step) (isOver_start hroot) _

end Search

namespace FactorGraph

/-- A solution has a marginal for every binary variable of the graph, whatever its status is. -/
theorem length_marginals_solve {σ : Type} (g : FactorGraph α) (options : Options α)
    (monitor : Monitor σ) (m : σ) :
    (g.solve options monitor m).1.solution.marginals.length = g.numBinary := by
  have hconsensus : (g.begin options).root.consensus.length = g.numBinary :=
    Relaxation.length_consensus_solve _ _ _
  have hintegral : ∀ a, (g.begin options).root.integral = some a →
      a.assignment.length = g.numBinary :=
    fun a ha => Relaxation.length_assignment_solve ha
  have hincumbent := (Search.isOver_finalState (p := (g.begin options).graph.problem) hintegral
    options monitor m).length_incumbent
  unfold solve
  dsimp only
  split_ifs
  · unfold Solving.searched
    dsimp only
    split
    · next a ha => exact (List.length_map _).trans (hincumbent a ha)
    · split_ifs <;> exact hconsensus
  · unfold Solving.relaxed
    dsimp only
    split
    · next a ha => exact (List.length_map _).trans (hintegral a ha)
    · exact hconsensus

end FactorGraph
end MapInference
