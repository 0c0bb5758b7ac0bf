import MapInference.Proofs.Factor.Additionals
import MapInference.Proofs.Graph.Layout
import MapInference.Proofs.Graph.Status

/-!
# Integral solutions

An integral solution of a graph is a feasible assignment of its variables: exactly one state of each
multi-state variable is true, the value and the edge marginals are those of the true variables and
the true additional variables, and the bound covers the value.
-/

namespace MapInference

open Scalar

namespace Solution

theorem exists_offsets {α : Type} (blocks : List (List α)) {i : ℕ} {block : List α}
    (h : blocks[i]? = some block) (pre : List α) :
    ∃ first last, (offsets pre.length (blocks.map List.length))[i]? = some first ∧
      (offsets pre.length (blocks.map List.length))[i + 1]? = some last ∧
      slice (pre ++ blocks.flatten) first last = .ok block := by
  induction blocks generalizing i pre with
  | nil => simp at h
  | cons head blocks ih =>
    have hoffsets : offsets pre.length ((head :: blocks).map List.length) =
        pre.length :: offsets (pre ++ head).length (blocks.map List.length) := by
      rw [List.map_cons, offsets, List.length_append]
    rw [hoffsets]
    cases i with
    | zero =>
      obtain rfl : head = block := Option.some.inj h
      have hhead : (offsets (pre ++ head).length (blocks.map List.length))[0]? =
          some (pre ++ head).length := by
        cases blocks <;> rfl
      refine ⟨_, _, rfl, hhead, ?_⟩
      rw [slice, if_pos (by simp), List.flatten_cons, ← List.append_assoc, List.take_left',
        List.drop_left']
      · rfl
      · rfl
    | succ i =>
      obtain ⟨first, last, hfirst, hlast, hslice⟩ := ih h (pre ++ head)
      refine ⟨first, last, hfirst, hlast, ?_⟩
      rwa [List.flatten_cons, ← List.append_assoc]

end Solution

namespace MultiVariable

def stateValues (m : MultiVariable) (values : List Bool) : List Bool :=
  m.states.map fun v => values[v.id]?.getD false

/-- Whether exactly one state is true in an assignment of all variables. -/
def HasOneState (m : MultiVariable) (values : List Bool) : Prop :=
  ∃! state, state < m.numStates ∧ values[m.firstState.id + state]? = some true

@[simp] theorem length_stateValues (m : MultiVariable) (values : List Bool) :
    (m.stateValues values).length = m.numStates := by
  simp [stateValues]

theorem stateValues_eq_literalValues (m : MultiVariable) (values : List Bool) :
    (m.states.map BinaryVariable.literal).map
      (fun l => l.holds (values[l.atom.id]?.getD false)) = m.stateValues values := by
  simp [stateValues, BinaryVariable.literal, Literal.holds, Function.comp_def]

theorem hasOneState_of_trueIndices {m : MultiVariable} {values : List Bool} {state : ℕ}
    (h : Oracle.trueIndices (m.stateValues values) = [state]) : m.HasOneState values := by
  have hmem (i : ℕ) : i = state ↔
      i < m.numStates ∧ values[m.firstState.id + i]? = some true := by
    rw [← List.mem_singleton, ← h, Oracle.mem_trueIndices]
    by_cases hi : i < m.numStates
    · cases hvalue : values[m.firstState.id + i]? <;> simp [stateValues, states, hi, hvalue]
    · simp [stateValues, states, hi]
  exact ⟨state, (hmem state).mp rfl, fun i hi => (hmem i).mpr hi⟩

end MultiVariable

variable {α : Type} [ExactScalar α]

namespace Factor

variable {f : Factor α} {values : List Bool}

theorem hasOneState_of_exactlyOneShape {m : MultiVariable} (hshape : f.shape = exactlyOneShape m)
    {v : α × List α} (hval : f.evaluate (f.restrict values) = some v) : m.HasOneState values := by
  obtain ⟨literals, additional, kind⟩ := f
  obtain ⟨rfl, rfl⟩ := Prod.mk.inj hshape
  -- The operator negates nothing and asks for a single true value.
  have hval : (if (LogicConstraint.ofOperator .xor m.numStates).holds (literalValues
      ⟨m.states.map BinaryVariable.literal, additional, .logic (.ofOperator .xor m.numStates)⟩
      values) then some ((0 : α), (zeros additional.length : List α)) else none) = some v := hval
  rw [literalValues_eq_map, MultiVariable.stateValues_eq_literalValues] at hval
  split_ifs at hval with hholds
  have hassignment : Complement.assignment (List.replicate m.numStates false)
      (m.stateValues values) = m.stateValues values := by
    apply List.ext_getElem (by simp)
    intro i h₁ h₂
    simp [Complement.assignment]
  have hcount : (m.stateValues values).count true = 1 := by
    change ((Complement.assignment (List.replicate m.numStates false)
      (m.stateValues values)).count true == 1) = true at hholds
    rw [hassignment] at hholds
    exact beq_iff_eq.mp hholds
  obtain ⟨state, hstate⟩ :=
    List.length_eq_one_iff.mp ((Oracle.length_trueIndices _).trans hcount)
  exact MultiVariable.hasOneState_of_trueIndices hstate

theorem exists_onlyTrue?_of_ofAssignment? {vars : List MultiVariable} {states : List ℕ}
    (h : Dense.ofAssignment? (vars.map (·.numStates))
      (vars.flatMap fun m => m.stateValues values) = some states) :
    ∀ m ∈ vars, ∃ state, Dense.onlyTrue? (m.stateValues values) = some state := by
  induction vars generalizing states with
  | nil => simp
  | cons m vars ih =>
    rw [List.map_cons, List.flatMap_cons, Dense.ofAssignment?,
      List.take_left' (m.length_stateValues values),
      List.drop_left' (m.length_stateValues values)] at h
    obtain ⟨state, hstate, h⟩ := Option.bind_eq_some_iff.mp h
    obtain ⟨rest, hrest, _⟩ := Option.bind_eq_some_iff.mp h
    intro m' hm'
    rcases List.mem_cons.mp hm' with rfl | hm'
    · exact ⟨state, hstate⟩
    · exact ih hrest m' hm'

theorem hasOneState_of_denseShape {vars : List MultiVariable} (hshape : f.shape = denseShape vars)
    {v : α × List α} (hval : f.evaluate (f.restrict values) = some v) :
    ∀ m ∈ vars, m.HasOneState values := by
  obtain ⟨literals, additional, kind⟩ := f
  obtain ⟨rfl, rfl⟩ := Prod.mk.inj hshape
  obtain ⟨states, hof, _⟩ : ∃ states, Dense.ofAssignment? (vars.map (·.numStates))
      (literalValues ⟨vars.flatMap fun m => m.states.map BinaryVariable.literal, additional,
        .dense (vars.map (·.numStates))⟩ values) = some states ∧ _ :=
    Option.map_eq_some_iff.mp hval
  rw [literalValues_eq_map, List.map_flatMap] at hof
  simp only [MultiVariable.stateValues_eq_literalValues] at hof
  intro m hm
  obtain ⟨state, hstate⟩ := exists_onlyTrue?_of_ofAssignment? hof m hm
  exact MultiVariable.hasOneState_of_trueIndices (Dense.onlyTrue?_eq_some_iff.mp hstate)

open scoped Classical in
/-- The sum of the scores of the true additional variables. -/
noncomputable def additionalScore (f : Factor α) (values : List Bool) : α :=
  ∑ j ∈ Finset.range f.numAdditionals,
    if f.kind.IsTrueAdditional (f.literalValues values) j then coordinate f.additional j else 0

open scoped Classical in
/-- One for each true additional variable and zero for the others. -/
noncomputable def additionalIndicator (f : Factor α) (values : List Bool) : List α :=
  (List.range f.numAdditionals).map fun j =>
    if f.kind.IsTrueAdditional (f.literalValues values) j then 1 else 0

theorem evaluate_spec (h : f.kind.Fits f.literals.length f.numAdditionals) {v : α × List α}
    (hval : f.evaluate (f.restrict values) = some v) :
    v = (f.additionalScore values, f.additionalIndicator values) := by
  obtain ⟨hscore, hindicator⟩ := FactorKind.evaluate_spec h
    (by simp [literalValues_eq_map] : (f.literalValues values).length = _) rfl hval
  exact Prod.ext hscore hindicator

theorem additionalScore_eq_zero_of_exactlyOneShape {m : MultiVariable}
    (hshape : f.shape = exactlyOneShape m) : f.additionalScore values = 0 := by
  have hkind : f.kind = .logic (.ofOperator .xor m.numStates) := congrArg Prod.snd hshape
  refine Finset.sum_eq_zero fun j _ => if_neg ?_
  rw [hkind]
  exact id

end Factor

/-- The value of an assignment as a sum over the true variables and additional variables. -/
theorem Problem.value?_eq {p : Problem α} (hwf : ∀ f ∈ p.factors, f.WellFormed p.numVariables)
    {values : List Bool} {v : α} (h : p.value? values = some v) :
    v = gain p.logPotentials values + (p.factors.map fun f => f.additionalScore values).sum := by
  refine Problem.value?_eq_add_sum (fun f hf u hu => ?_) h
  rw [Factor.evaluate_spec (hwf f hf).fits hu]

namespace FactorGraph

variable {σ : Type} {g : FactorGraph α}

omit [ExactScalar α] in
theorem exists_exactlyOneShape (h : g.IsGrouped) {f : Factor α}
    (hf : f ∈ g.problem.factors.drop g.numDeclared) : ∃ m, f.shape = exactlyOneShape m := by
  have hmem : f.shape ∈ g.shapes.drop g.numDeclared := by
    have hshapes : g.shapes = g.problem.factors.map Factor.shape := by
      simp [shapes, problem, Function.comp_def]
    rw [hshapes, ← List.map_drop]
    exact List.mem_map_of_mem hf
  rw [h.grouped] at hmem
  obtain ⟨m, _, hm⟩ := List.mem_map.mp hmem
  exact ⟨m, hm.symm⟩

theorem sum_additionalScore (h : g.IsGrouped) (values : List Bool) :
    (g.sealed.problem.factors.map fun f => f.additionalScore values).sum =
      (g.declaredFactors.map fun f => f.additionalScore values).sum := by
  have hsplit : g.sealed.problem.factors =
      g.sealed.declaredFactors ++ g.sealed.problem.factors.drop g.numDeclared := by
    change g.sealed.problem.factors = (g.sealed.factors.values.take g.numDeclared).map _ ++ _
    rw [List.map_take]
    exact (List.take_append_drop _ _).symm
  have hzero : ((g.sealed.problem.factors.drop g.numDeclared).map
      fun f => f.additionalScore values).sum = 0 := by
    refine List.sum_eq_zero fun x hx => ?_
    obtain ⟨f, hf, rfl⟩ := List.mem_map.mp hx
    obtain ⟨m, hm⟩ := exists_exactlyOneShape h.sealed hf
    exact Factor.additionalScore_eq_zero_of_exactlyOneShape hm
  rw [hsplit, List.map_append, List.sum_append, hzero, add_zero, declaredFactors_sealed h]

omit [ExactScalar α] in
/-- The seal leaves no multi-state variable without a factor that groups its states. -/
theorem IsGrouped.exists_shape (h : g.IsGrouped) {m : MultiVariable}
    (hm : m ∈ g.multiVariables) :
    (∃ vars, m ∈ vars ∧ denseShape vars ∈ g.sealed.shapes) ∨
      exactlyOneShape m ∈ g.sealed.shapes := by
  by_cases hcovered : m ∈ g.coveredByDense
  · exact Or.inl (h.sealed.covered m hcovered)
  · refine Or.inr (List.mem_of_mem_drop (i := g.numDeclared) ?_)
    have hgrouped := h.sealed.grouped
    change g.sealed.shapes.drop g.numDeclared = _ at hgrouped
    rw [hgrouped]
    refine List.mem_map_of_mem (List.mem_filter.mpr ⟨?_, decide_eq_true hcovered⟩)
    change m ∈ g.multiVariables.take g.multiVariables.length
    rwa [List.take_length]

/-- In an assignment that all factors of the sealed graph have a value for, exactly one state of each
multi-state variable is true. -/
theorem hasOneState_of_isFeasible (h : g.IsGrouped) {values : List Bool}
    (hvalues : g.sealed.problem.IsFeasible values) :
    ∀ m ∈ g.multiVariables, m.HasOneState values := by
  intro m hm
  have hfactor {shape : List Literal × FactorKind} (hshape : shape ∈ g.sealed.shapes) :
      ∃ (f : Factor α) (v : α × List α),
        f.shape = shape ∧ f.evaluate (f.restrict values) = some v := by
    obtain ⟨w, hw, rfl⟩ := List.mem_map.mp hshape
    obtain ⟨v, hv⟩ := Option.isSome_iff_exists.mp (hvalues.2 w.factor (List.mem_map_of_mem hw))
    exact ⟨w.factor, v, rfl, hv⟩
  rcases h.exists_shape hm with ⟨vars, hmem, hshape⟩ | hshape
  · obtain ⟨f, v, hf, hv⟩ := hfactor hshape
    exact Factor.hasOneState_of_denseShape hf hv m hmem
  · obtain ⟨f, v, hf, hv⟩ := hfactor hshape
    exact Factor.hasOneState_of_exactlyOneShape hf hv

theorem exists_integralSolution (h : g.IsConsistent) (options : Options α) (monitor : Monitor σ)
    (m : σ) (hstatus : (g.solve options monitor m).1.solution.status = .integral) :
    ∃ a statistics bound, a.assignment.length = g.sealed.problem.numVariables ∧
      g.sealed.problem.value? a.assignment = some a.value ∧
      (g.solve options monitor m).1.solution =
        g.sealed.integralSolution statistics (a : Integral α) bound := by
  let s := g.begin options
  have hroot : s.root.IsSound g.sealed.problem _ := isSound_begin h options
  cases hsearch : s.needsSearch with
  | false =>
    have hsolve : (g.solve options monitor m).1 = s.relaxed :=
      congrArg Prod.fst (if_neg (by simp [s, hsearch]))
    rw [hsolve] at hstatus ⊢
    cases hintegral : s.root.integral with
    | some a =>
      obtain ⟨hlen, hvalue⟩ := Search.integral_eq_of_isSound hroot hintegral
      refine ⟨a, { engine := s.rootStatistics }, s.root.bound, hlen, hvalue, ?_⟩
      simp only [Solving.relaxed, hintegral]
      rfl
    | none =>
      simp only [Solving.relaxed, hintegral] at hstatus
      cases hstatus
  | true =>
    let last := Search.finalState g.sealed.problem options s.root monitor m
    have hsolve : (g.solve options monitor m).1 = s.searched (Search.finish last s.root) := by
      unfold FactorGraph.solve
      exact congrArg Prod.fst (if_pos hsearch)
    have hsound : Search.IsSound g.sealed.problem last :=
      Search.isSound_finalState h.sealed.wellFormed_problem hroot options monitor m
    rw [hsolve] at hstatus ⊢
    cases hincumbent : last.incumbent with
    | some a =>
      obtain ⟨hlen, hvalue⟩ := hsound.incumbent_eq hincumbent
      have hfinish : (Search.finish last s.root).incumbent = some a := hincumbent
      refine ⟨a, s.searchedStatistics (Search.finish last s.root),
        (Search.finish last s.root).bound, hlen, hvalue, ?_⟩
      simp only [Solving.searched, hfinish]
      rfl
    | none =>
      rw [status_searched] at hstatus
      have hfinish : (Search.finish last s.root).incumbent = none := hincumbent
      rw [hfinish] at hstatus
      simp only [Option.isSome_none, Bool.false_eq_true, ↓reduceIte] at hstatus
      split_ifs at hstatus

omit [ExactScalar α] in
/-- With a block of edge marginals for each declared factor, the factors have these blocks. -/
theorem factorEdgeMarginals_solution (h : g.IsGrouped) {blocks : List (List α)}
    (hblocks : blocks.map List.length = g.declaredFactors.map (·.numAdditionals))
    (statistics : Statistics α) (status : Status) (value bound : Extended α) (marginals : List α)
    {i : ℕ} {block : List α} (hi : blocks[i]? = some block) :
    (g.sealed.solution statistics status value bound marginals
      blocks.flatten).factorEdgeMarginals ⟨i⟩ = .ok block := by
  have hoffsets : g.sealed.edgeOffsets = Solution.offsets ([] : List α).length
      (blocks.map List.length) := by
    rw [edgeOffsets, declaredFactors_sealed h, hblocks]
    rfl
  obtain ⟨first, last, hfirst, hlast, hslice⟩ := Solution.exists_offsets blocks hi []
  rw [← hoffsets] at hfirst hlast
  simp only [Solution.factorEdgeMarginals, solution, hfirst, hlast]
  exact hslice

/-- The edge marginals of each declared factor are the indicator of its additional variables. -/
theorem integralEdges_eq_flatten (h : g.IsGrouped) (hconsistent : g.IsConsistent)
    {values : List Bool}
    (hvalues : ∀ f ∈ g.declaredFactors, (f.evaluate (f.restrict values)).isSome) :
    g.sealed.integralEdges values =
      (g.declaredFactors.map fun f => f.additionalIndicator values).flatten := by
  have hwf (f : Factor α) (hf : f ∈ g.declaredFactors) : f.WellFormed g.numBinary := by
    obtain ⟨w, hw, rfl⟩ := List.mem_map.mp hf
    exact hconsistent.wellFormed w (List.mem_of_mem_take hw)
  rw [integralEdges, declaredFactors_sealed h, List.flatMap_def]
  congr 1
  refine List.map_congr_left fun f hf => ?_
  obtain ⟨v, hv⟩ := Option.isSome_iff_exists.mp (hvalues f hf)
  rw [hv, Factor.evaluate_spec (hwf f hf).fits hv]
  rfl

theorem length_additionalIndicators (g : FactorGraph α) (values : List Bool) :
    (g.declaredFactors.map fun f => f.additionalIndicator values).map List.length =
      g.declaredFactors.map (·.numAdditionals) := by
  rw [List.map_map]
  refine List.map_congr_left fun f _ => ?_
  simp [Factor.additionalIndicator]

theorem factorEdgeMarginals_integralSolution (h : g.IsGrouped) (hconsistent : g.IsConsistent)
    (statistics : Statistics α) (a : Integral α) (bound : Extended α)
    (hvalues : ∀ f ∈ g.declaredFactors, (f.evaluate (f.restrict a.assignment)).isSome) {i : ℕ}
    {f : Factor α} (hf : g.declaredFactors[i]? = some f) :
    (g.sealed.integralSolution statistics a bound).factorEdgeMarginals ⟨i⟩ =
      .ok (f.additionalIndicator a.assignment) := by
  rw [integralSolution, integralEdges_eq_flatten h hconsistent hvalues]
  exact factorEdgeMarginals_solution h (length_additionalIndicators g a.assignment) _ _ _ _ _
    (by rw [List.getElem?_map, hf, Option.map_some])

/-- Soundness of integral solutions. The marginals are the values of a feasible assignment, with
exactly one true state of each multi-state variable; the value adds up the log-potentials of its
true variables and true additional variables, the edge marginals of each declared factor are their
indicator, and the bound is at least the value. -/
theorem integral_solve (h : g.Reachable) (options : Options α) (monitor : Monitor σ) (m : σ)
    (hstatus : (g.solve options monitor m).1.solution.status = .integral) :
    let solution := (g.solve options monitor m).1.solution
    ∃ values : List Bool, values.length = g.numBinary ∧ solution.marginals = values.map ofBool ∧
      (∀ f ∈ g.declaredFactors, (f.evaluate (f.restrict values)).isSome) ∧
      (∀ m ∈ g.multiVariables, m.HasOneState values) ∧
      (∀ i f, g.declaredFactors[i]? = some f →
        solution.factorEdgeMarginals ⟨i⟩ = .ok (f.additionalIndicator values)) ∧
      ∃ value, solution.value = .value value ∧
        value = gain g.logPotentials.values values +
          (g.declaredFactors.map fun f => f.additionalScore values).sum ∧
        solution.bound.Covers value := by
  have hconsistent := h.isConsistent
  have hgrouped := h.isGrouped
  obtain ⟨a, statistics, bound, hlen, hvalue, hsolution⟩ :=
    exists_integralSolution hconsistent options monitor m hstatus
  have hfeasible : g.sealed.problem.IsFeasible a.assignment :=
    Problem.isFeasible_iff.mpr ⟨hlen, a.value, hvalue⟩
  have hdeclared : ∀ f ∈ g.declaredFactors, (f.evaluate (f.restrict a.assignment)).isSome := by
    intro f hf
    rw [← declaredFactors_sealed hgrouped] at hf
    obtain ⟨w, hw, rfl⟩ := List.mem_map.mp hf
    exact hfeasible.2 w.factor (List.mem_map_of_mem (List.mem_of_mem_take hw))
  dsimp only
  rw [hsolution]
  refine ⟨a.assignment, hlen, rfl, hdeclared, hasOneState_of_isFeasible hgrouped hfeasible,
    fun i f hf => factorEdgeMarginals_integralSolution hgrouped hconsistent statistics a bound
      hdeclared hf, a.value, rfl, ?_, ?_⟩
  · rw [Problem.value?_eq hconsistent.sealed.wellFormed_problem hvalue,
      sum_additionalScore hgrouped]
    rfl
  · change (Extended.max bound (.value a.value)).Covers a.value
    rw [Extended.covers_max]
    exact Or.inr le_rfl

/-- A variable and a multi-state variable, with a reward when the former is true and the latter in
its first state. -/
def rewarded : FactorGraph ℚ :=
  { (empty : FactorGraph ℚ) with
    logPotentials := ⟨[0, 0, 0]⟩
    multiVariables := [⟨0, ⟨1⟩, 2⟩]
    factors := ⟨[⟨⟨[⟨⟨0⟩, false⟩, ⟨⟨1⟩, false⟩], [2], .pair⟩, {}⟩]⟩
    numDeclared := 1 }

theorem reachable_rewarded : rewarded.Reachable := by
  have hempty : (FactorGraph.empty : FactorGraph ℚ).Reachable := .empty
  have hbinary := hempty.addBinary (by decide)
  have hmulti := @Reachable.addMulti _ _ _ _ 2 _ hbinary (by decide) rfl
  exact @Reachable.declare _ _ _ _ (.pair ⟨⟨0⟩, false⟩ ⟨⟨1⟩, false⟩ 2) _ hmulti rfl

theorem integral_solve_rewarded :
    let solution := (rewarded.solve .standard (Condition.monitor 0) .indefinite).1.solution
    solution.status = .integral ∧
      ∃ values : List Bool, solution.marginals = values.map ofBool ∧
        MultiVariable.HasOneState ⟨0, ⟨1⟩, 2⟩ values := by
  intro solution
  have hstatus : solution.status = .integral := by decide +kernel
  obtain ⟨values, _, hmarginals, _, hstates, _⟩ :=
    integral_solve reachable_rewarded .standard (Condition.monitor 0) .indefinite hstatus
  exact ⟨hstatus, values, hmarginals, hstates _ List.mem_cons_self⟩

end FactorGraph
end MapInference
