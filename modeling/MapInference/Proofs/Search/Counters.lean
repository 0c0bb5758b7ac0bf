import MapInference.Proofs.Search.Workers

/-!
# Budgets and counts of a solve

A search explores no more nodes than the options and every budget in its termination condition
allow, however the condition is composed and whatever it has been told before, and it tells each of
them of exactly the nodes that it has explored. One relaxation is solved for the root and one for
each explored node. A node that is discarded or evaluated at once counts for none of this.
-/

namespace MapInference

namespace Condition

/-- The node budgets that a condition is composed of, each with the nodes that it knows of. -/
def nodeBudgets : Condition → List (ℕ × ℕ)
  | indefinite => []
  | nodeBudget budget explored => [(budget, explored)]
  | timeBudget _ => []
  | both first second => first.nodeBudgets ++ second.nodeBudgets

theorem nodeBudgets_nodeExplored (c : Condition) :
    c.nodeExplored.nodeBudgets = c.nodeBudgets.map fun b => (b.1, b.2 + 1) := by
  induction c with
  | indefinite => rfl
  | nodeBudget budget explored => rfl
  | timeBudget milliseconds => rfl
  | both first second ihFirst ihSecond =>
    rw [nodeExplored, nodeBudgets, nodeBudgets, ihFirst, ihSecond, List.map_append]

theorem nodeBudgets_iterate (c : Condition) (n : ℕ) :
    (nodeExplored^[n] c).nodeBudgets = c.nodeBudgets.map fun b => (b.1, b.2 + n) := by
  induction n with
  | zero => simp
  | succ n ih =>
    rw [Function.iterate_succ_apply', nodeBudgets_nodeExplored, ih, List.map_map]
    rfl

theorem lt_of_shouldStop_eq_false {c : Condition} {elapsed : ℕ} (h : c.shouldStop elapsed = false) :
    ∀ b ∈ c.nodeBudgets, b.2 < b.1 := by
  induction c with
  | indefinite => exact fun b hb => absurd hb List.not_mem_nil
  | nodeBudget budget explored =>
    intro b hb
    rw [List.mem_singleton.mp hb]
    exact not_le.mp (of_decide_eq_false h)
  | timeBudget milliseconds => exact fun b hb => absurd hb List.not_mem_nil
  | both first second ihFirst ihSecond =>
    obtain ⟨hfirst, hsecond⟩ := Bool.or_eq_false_iff.mp h
    intro b hb
    rcases List.mem_append.mp hb with hb | hb
    · exact ihFirst hfirst b hb
    · exact ihSecond hsecond b hb

end Condition

open Scalar
variable {α σ : Type}

namespace Search

def State.counts (s : State α σ) : σ × ℕ × EngineStatistics α :=
  (s.monitorState, s.statistics.explored, s.engine)

structure IsCounted (options : Options α) (c : Condition) (s : State α (ℕ × Condition)) :
    Prop where
  monitorState_eq : s.monitorState =
    (s.statistics.explored, Condition.nodeExplored^[s.statistics.explored] c)
  explored_le : s.statistics.explored ≤ options.maxNodes
  explored_le_budget : ∀ b ∈ c.nodeBudgets, s.statistics.explored ≤ b.1 - b.2
  relaxations_eq : s.engine.relaxations = s.statistics.explored
  iterations_le : s.engine.iterations ≤ options.maxIterations * s.statistics.explored

theorem IsCounted.congr {options : Options α} {c : Condition} {s t : State α (ℕ × Condition)}
    (h : IsCounted options c s) (hcounts : t.counts = s.counts) : IsCounted options c t := by
  simp only [State.counts, Prod.mk.injEq] at hcounts
  obtain ⟨hmonitor, hexplored, hengine⟩ := hcounts
  refine ⟨?_, ?_, ?_, ?_, ?_⟩
  · rw [hmonitor, hexplored, h.monitorState_eq]
  · exact hexplored ▸ h.explored_le
  · exact hexplored ▸ h.explored_le_budget
  · rw [hengine, hexplored, h.relaxations_eq]
  · exact hengine ▸ hexplored ▸ h.iterations_le

variable [Scalar α]

@[simp] theorem counts_offer? (s : State α σ) (a? : Option (Integral α)) :
    (s.offer? a?).counts = s.counts := by
  cases a? with
  | none => rfl
  | some a =>
    simp only [State.offer?, State.offer]
    split_ifs <;> rfl

theorem counts_process (monitor : Monitor σ) (p : Problem α) (options : Options α) (s : State α σ)
    (node : Node α) :
    (s.process monitor p options node).counts = s.counts ∨
      (s.process monitor p options node).counts =
        (s.record monitor (Relaxation.solve p node.fixed options)).counts := by
  unfold State.process
  split_ifs
  · exact Or.inl rfl
  · exact Or.inl rfl
  · exact Or.inl (counts_offer? _ _)
  · unfold State.explore
    dsimp only
    split_ifs
    · exact Or.inr (counts_offer? _ _)
    · exact Or.inr (counts_offer? _ _)

namespace IsCounted

variable {options : Options α} {c : Condition} {s : State α (ℕ × Condition)} {elapsed : ℕ}

/-- Exploring a node keeps the counts when neither the options nor the condition end the search. -/
theorem record (h : IsCounted options c s)
    (hgo : ((boundedMonitor options (Condition.monitor elapsed)).shouldStop s.monitorState).1 =
      false) (p : Problem α) (fixed : List (Option Bool)) :
    IsCounted options c (s.record (boundedMonitor options (Condition.monitor elapsed))
      (Relaxation.solve p fixed options)) := by
  have hstate := h.monitorState_eq
  rw [hstate] at hgo
  obtain ⟨hnodes, hcondition⟩ := Bool.or_eq_false_iff.mp hgo
  have hleft := Condition.lt_of_shouldStop_eq_false hcondition
  have hiterations := Relaxation.iterations_solve_le p fixed options
  refine ⟨?_, ?_, ?_, ?_, ?_⟩
  · simp only [State.record, hstate, Function.iterate_succ_apply']
    rfl
  · exact not_le.mp (of_decide_eq_false hnodes)
  · intro b hb
    rw [Condition.nodeBudgets_iterate] at hleft
    have hlt : b.2 + s.statistics.explored < b.1 := hleft _ (List.mem_map_of_mem hb)
    change s.statistics.explored + 1 ≤ b.1 - b.2
    omega
  · exact congrArg (· + 1) h.relaxations_eq
  · exact Nat.add_le_add h.iterations_le hiterations

theorem step (h : IsCounted options c s) (p : Problem α) :
    IsCounted options c (s.step (boundedMonitor options (Condition.monitor elapsed)) p options) := by
  unfold State.step
  split
  · exact h
  · next node rest _ =>
    dsimp only
    split_ifs with hstop
    · exact h.congr rfl
    · -- Asking the monitor leaves its state as it is.
      let taken : State α (ℕ × Condition) := { s with frontier := rest }.noteTables p node
      have htaken : IsCounted options c taken := h.congr rfl
      rcases counts_process (boundedMonitor options (Condition.monitor elapsed)) p options taken
        node with hcounts | hcounts
      · exact htaken.congr hcounts
      · exact (htaken.record (Bool.eq_false_of_not_eq_true hstop) p node.fixed).congr hcounts

theorem run (h : IsCounted options c s) (p : Problem α) (limit : ℕ) :
    IsCounted options c
      (s.run (boundedMonitor options (Condition.monitor elapsed)) p options limit) :=
  run_induction (fun _ hs => hs.step p) h limit

theorem start (p : Problem α) (options : Options α) (root : Relaxation α) (c : Condition) :
    IsCounted options c (State.start p options root (0, c)) where
  monitorState_eq := rfl
  explored_le := Nat.zero_le _
  explored_le_budget _ _ := Nat.zero_le _
  relaxations_eq := rfl
  iterations_le := Nat.zero_le _

theorem finalState (p : Problem α) (options : Options α) (root : Relaxation α) (elapsed : ℕ)
    (c : Condition) :
    IsCounted options c (finalState p options root (Condition.monitor elapsed) c) :=
  (start p options root c).run p _

end IsCounted

end Search

namespace FactorGraph

open Search
variable [Scalar α]

theorem counts_solution_relaxed (s : Solving α) :
    s.relaxed.solution.nodes = s.relaxed.graph.statistics.search.explored ∧
      s.relaxed.solution.iterations = s.relaxed.graph.statistics.engine.iterations := by
  simp only [Solving.relaxed]
  split <;> exact ⟨rfl, rfl⟩

theorem counts_solution_searched (s : Solving α) (o : Outcome α) :
    (s.searched o).solution.nodes = (s.searched o).graph.statistics.search.explored ∧
      (s.searched o).solution.iterations = (s.searched o).graph.statistics.engine.iterations := by
  simp only [Solving.searched]
  split
  · exact ⟨rfl, rfl⟩
  · split_ifs <;> exact ⟨rfl, rfl⟩

/-- What a solve under a termination condition counts, for a condition of any shape that may know of
the nodes of earlier solves. -/
theorem counts_solve (g : FactorGraph α) (options : Options α) (elapsed : ℕ) (c : Condition) :
    let solved := (g.solve options (Condition.monitor elapsed) c).1
    let c' := (g.solve options (Condition.monitor elapsed) c).2
    let explored := solved.graph.statistics.search.explored
    let engine := solved.graph.statistics.engine
    (explored ≤ options.maxNodes ∧ ∀ b ∈ c.nodeBudgets, explored ≤ b.1 - b.2) ∧
      (c' = Condition.nodeExplored^[explored] c ∧
        c'.nodeBudgets = c.nodeBudgets.map fun b => (b.1, b.2 + explored)) ∧
      engine.relaxations = explored + 1 ∧
      engine.iterations ≤ options.maxIterations * engine.relaxations ∧
      solved.solution.nodes = explored ∧ solved.solution.iterations = engine.iterations := by
  have hroot := Relaxation.iterations_solve_le g.sealed.problem
    (List.replicate g.sealed.numBinary none) options
  unfold solve
  dsimp only
  split_ifs with hsearch
  · let s := g.begin options
    let last := finalState s.graph.problem options s.root (Condition.monitor elapsed) c
    have hcounted : IsCounted options c last := .finalState _ _ _ _ c
    have hcondition := congrArg Prod.snd hcounted.monitorState_eq
    refine ⟨⟨hcounted.explored_le, hcounted.explored_le_budget⟩, ⟨hcondition, ?_⟩, ?_, ?_,
      counts_solution_searched s (finish last s.root)⟩
    · exact (congrArg _ hcondition).trans (Condition.nodeBudgets_iterate _ _)
    · change 0 + 1 + last.engine.relaxations = last.statistics.explored + 1
      rw [hcounted.relaxations_eq]
      omega
    · change 0 + s.root.iterations + last.engine.iterations ≤
        options.maxIterations * (0 + 1 + last.engine.relaxations)
      have hle : s.root.iterations ≤ options.maxIterations := hroot
      have hiterations := hcounted.iterations_le
      rw [hcounted.relaxations_eq, Nat.mul_add]
      omega
  · refine ⟨⟨Nat.zero_le _, fun _ _ => Nat.zero_le _⟩, ⟨rfl, ?_⟩, rfl, ?_,
      counts_solution_relaxed _⟩
    · exact Condition.nodeBudgets_iterate c 0
    · change 0 + (g.begin options).root.iterations ≤ options.maxIterations * (0 + 1)
      have hle : (g.begin options).root.iterations ≤ options.maxIterations := hroot
      omega

def oddCycle : FactorGraph ℚ :=
  let differ (i j : ℕ) : WarmFactor ℚ :=
    { factor := ⟨[⟨⟨i⟩, false⟩, ⟨⟨j⟩, false⟩], [], .logic (.ofOperator .xor 2)⟩ }
  { empty with
    logPotentials := ⟨[0, 0, 0]⟩
    factors := ⟨[differ 0 1, differ 1 2, differ 0 2]⟩
    numDeclared := 3 }

/-- Of two budgets the one with two nodes left ends the search, and both are told of two nodes. -/
theorem counts_solve_oddCycle :
    let c : Condition :=
      .both (.optional (some (.nodeBudget 5 2))) (.both .indefinite (.nodeBudget 3 1))
    let options : Options ℚ := { Options.standard with maxIterations := 1, exact := true }
    let solved := oddCycle.solve options (Condition.monitor 0) c
    solved.1.graph.statistics.search.explored = 2 ∧ solved.1.graph.statistics.engine.relaxations = 3 ∧
      solved.2.nodeBudgets = [(5, 4), (3, 3)] := by
  intro c options solved
  have hexplored : solved.1.graph.statistics.search.explored = 2 := by decide +kernel
  obtain ⟨_, ⟨_, hbudgets⟩, hrelaxations, _⟩ := counts_solve oddCycle options 0 c
  refine ⟨hexplored, hrelaxations.trans (congrArg (· + 1) hexplored), hbudgets.trans ?_⟩
  rw [hexplored]
  rfl

end FactorGraph
end MapInference
