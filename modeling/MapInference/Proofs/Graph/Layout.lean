import MapInference.Proofs.Graph.Groups

/-!
# The layout of a graph

Multi-state variables are numbered in the order of their creation, and each owns the states behind
those of the variables before it. The dense factors over a variable can be read off the declared
factors. The implicit factors, behind the declared ones, group the states of the variables that no
dense factor is over.
-/

namespace MapInference

open Scalar
variable {α : Type}

/-- Whether the factor is a dense one over the states of a variable. -/
def Factor.isDenseOver (f : Factor α) (m : MultiVariable) : Bool :=
  match f.kind with
  | .dense _ => m.states.all fun v => decide (v.literal ∈ f.literals)
  | _ => false

theorem Factor.isDenseOver_iff {f : Factor α} {m : MultiVariable} :
    f.isDenseOver m ↔ (∃ sizes, f.kind = .dense sizes) ∧ ∀ v ∈ m.states, v.literal ∈ f.literals := by
  unfold isDenseOver
  split
  · next sizes hkind => simp [hkind]
  · next hkind =>
    constructor
    · exact fun h => nomatch h
    · rintro ⟨⟨sizes, hsizes⟩, _⟩
      exact absurd hsizes (hkind sizes)

theorem MultiVariable.mem_states {m : MultiVariable} {v : BinaryVariable} :
    v ∈ m.states ↔ m.firstState.id ≤ v.id ∧ v.id < m.firstState.id + m.numStates := by
  simp only [states, List.mem_map, List.mem_range]
  constructor
  · rintro ⟨state, hstate, rfl⟩
    exact ⟨Nat.le_add_right _ _, Nat.add_lt_add_left hstate _⟩
  · rintro ⟨hle, hlt⟩
    refine ⟨v.id - m.firstState.id, by omega, ?_⟩
    exact congrArg BinaryVariable.mk (by omega)

theorem BinaryVariable.literal_injective : Function.Injective literal :=
  fun _ _ h => congrArg Literal.atom h

theorem FactorSpec.shape_eq_of_dense [Scalar α] {spec : FactorSpec α} {f : Factor α}
    (h : spec.toFactor = .ok f) {sizes : List ℕ} (hkind : f.kind = .dense sizes) :
    f.shape = denseShape spec.denseVariables := by
  cases spec with
  | dense vars logPotentials => exact FactorGraph.IsGrouped.shape_of_toFactor_dense h
  | knapsack literals costs total =>
    obtain ⟨costs', _, h⟩ := Except.bind_eq_ok_iff.mp h
    obtain ⟨capacity, _, h⟩ := Except.bind_eq_ok_iff.mp h
    rw [← Except.ok.inj h] at hkind
    cases hkind
  | _ =>
    rw [← Except.ok.inj h] at hkind
    cases hkind

namespace FactorGraph

def implicitFactors (g : FactorGraph α) : List (Factor α) := g.problem.factors.drop g.numDeclared

structure IsLaidOut (g : FactorGraph α) : Prop where
  id_eq {i : ℕ} {m : MultiVariable} : g.multiVariables[i]? = some m → m.id = i
  hasStates : ∀ m ∈ g.multiVariables,
    0 < m.numStates ∧ m.firstState.id + m.numStates ≤ g.numBinary
  disjoint : g.multiVariables.Pairwise fun m m' =>
    m.firstState.id + m.numStates ≤ m'.firstState.id
  mem_multiVariables : ∀ m ∈ g.coveredByDense, m ∈ g.multiVariables
  dense : ∀ shape ∈ g.shapes, ∀ sizes, shape.2 = .dense sizes →
    ∃ vars, shape = denseShape vars ∧ ∀ m ∈ vars, m ∈ g.coveredByDense
  implicitFactors_eq : g.implicitFactors =
    ((g.multiVariables.take g.numGrouped).filter fun m => m ∉ g.coveredByDense).map exactlyOneState

variable {g g' : FactorGraph α}

theorem declaredFactors_append_implicitFactors (g : FactorGraph α) :
    g.declaredFactors ++ g.implicitFactors = g.problem.factors := by
  rw [declaredFactors, List.map_take]
  exact List.take_append_drop _ _

theorem declaredFactors_sealed (h : g.IsGrouped) :
    g.sealed.declaredFactors = g.declaredFactors := by
  have hle : g.numDeclared ≤ g.factors.values.length := by
    simpa [shapes] using h.numDeclared_le
  change ((g.factors.values ++ _).take g.numDeclared).map _ = _
  rw [List.take_append_of_le_length hle]
  rfl

theorem implicitFactors_set {id : FactorId} (h : id.id < g.numDeclared) (changed : WarmFactor α) :
    ({ g with factors := g.factors.set id changed } : FactorGraph α).implicitFactors =
      g.implicitFactors := by
  have hdrop : (g.factors.set id changed).values.drop g.numDeclared =
      g.factors.values.drop g.numDeclared := by
    apply List.ext_getElem?
    intro i
    have hne : id.id ≠ g.numDeclared + i := by omega
    simp only [Arena.set, Arena.modify, Handle.index, List.getElem?_drop, List.getElem?_modify]
    simp [hne]
  simp only [implicitFactors, problem, ← List.map_drop, hdrop]

theorem problem_settle {workers : List (Worker α)}
    (hworkers : workers.map (·.factor) = g.problem.factors) (statistics : Statistics α) :
    (g.settle workers statistics).problem = g.problem := by
  have hfactors : (g.settle workers statistics).problem.factors = g.problem.factors := by
    rw [← hworkers]
    simp [FactorGraph.settle, problem, Function.comp_def]
  exact congrArg (Problem.mk · g.logPotentials.values) hfactors

theorem declaredFactors_settle (h : g.IsGrouped) {workers : List (Worker α)}
    (hworkers : workers.map (·.factor) = g.sealed.problem.factors) (statistics : Statistics α) :
    (g.sealed.settle workers statistics).declaredFactors = g.declaredFactors := by
  rw [← declaredFactors_sealed h, declaredFactors, declaredFactors, List.map_take, List.map_take]
  exact congrArg (fun p => List.take g.numDeclared p.factors) (problem_settle hworkers statistics)

namespace IsLaidOut

theorem sealed (h : g.IsLaidOut) (hgrouped : g.IsGrouped) : g.sealed.IsLaidOut := by
  have hle : g.numDeclared ≤ g.problem.factors.length := by
    simpa [problem, shapes] using hgrouped.numDeclared_le
  have hfactors : g.sealed.problem.factors = g.problem.factors ++
      ((g.multiVariables.drop g.numGrouped).filter fun m => m ∉ g.coveredByDense).map
        exactlyOneState := by
    simp [problem, FactorGraph.sealed, Function.comp_def]
  refine ⟨h.id_eq, h.hasStates, h.disjoint, h.mem_multiVariables, ?_, ?_⟩
  · intro shape hshape sizes hsizes
    obtain ⟨w, hw, rfl⟩ := List.mem_map.mp hshape
    rcases List.mem_append.mp hw with hw | hw
    · exact h.dense _ (List.mem_map_of_mem hw) sizes hsizes
    · obtain ⟨m, _, rfl⟩ := List.mem_map.mp hw
      cases hsizes
  · rw [implicitFactors, hfactors]
    change List.drop g.numDeclared _ = ((g.multiVariables.take g.multiVariables.length).filter
      fun m => m ∉ g.coveredByDense).map exactlyOneState
    rw [List.drop_append_of_le_length hle, ← implicitFactors, h.implicitFactors_eq,
      ← List.map_append, ← List.filter_append, List.take_append_drop, List.take_length]

theorem settle (h : g.IsLaidOut) {workers : List (Worker α)}
    (hworkers : workers.map (·.factor) = g.problem.factors) (statistics : Statistics α) :
    (g.settle workers statistics).IsLaidOut := by
  have hproblem := problem_settle hworkers statistics
  have hshapes : (g.settle workers statistics).shapes = g.shapes := by
    have hshapes := congrArg (fun p => p.factors.map Factor.shape) hproblem
    simpa [shapes, problem, Function.comp_def] using hshapes
  refine ⟨h.id_eq, h.hasStates, h.disjoint, h.mem_multiVariables, ?_, ?_⟩
  · rw [hshapes]
    exact h.dense
  · rw [implicitFactors, hproblem]
    exact h.implicitFactors_eq

theorem eq_of_mem_states (h : g.IsLaidOut) {m m' : MultiVariable} (hm : m ∈ g.multiVariables)
    (hm' : m' ∈ g.multiVariables) {v : BinaryVariable} (hv : v ∈ m.states) (hv' : v ∈ m'.states) :
    m = m' := by
  by_contra hne
  have hids {i i' : ℕ} {m m' : MultiVariable} (hi : g.multiVariables[i]? = some m)
      (hi' : g.multiVariables[i']? = some m') (hlt : i < i') :
      m.firstState.id + m.numStates ≤ m'.firstState.id := by
    obtain ⟨_, rfl⟩ := List.getElem?_eq_some_iff.mp hi
    obtain ⟨_, rfl⟩ := List.getElem?_eq_some_iff.mp hi'
    exact List.pairwise_iff_getElem.mp h.disjoint _ _ _ _ hlt
  obtain ⟨i, hi⟩ := List.mem_iff_getElem?.mp hm
  obtain ⟨i', hi'⟩ := List.mem_iff_getElem?.mp hm'
  have hstates := MultiVariable.mem_states.mp hv
  have hstates' := MultiVariable.mem_states.mp hv'
  rcases lt_trichotomy i i' with hlt | rfl | hlt
  · have := hids hi hi' hlt
    omega
  · exact hne (Option.some.inj (hi.symm.trans hi'))
  · have := hids hi' hi hlt
    omega

/-- The variables that the graph has recorded are those that declared dense factors are over. -/
theorem mem_coveredByDense_iff (h : g.IsLaidOut) (hgrouped : g.IsGrouped) {m : MultiVariable}
    (hm : m ∈ g.multiVariables) :
    m ∈ g.coveredByDense ↔ g.declaredFactors.any (·.isDenseOver m) := by
  rw [List.any_eq_true]
  constructor
  · intro hcovered
    obtain ⟨vars, hmem, hvars⟩ := hgrouped.covered m hcovered
    have hshapes : g.shapes = (g.declaredFactors ++ g.implicitFactors).map Factor.shape := by
      simp [declaredFactors_append_implicitFactors, shapes, problem, Function.comp_def]
    rw [hshapes] at hvars
    obtain ⟨f, hf, hshape⟩ := List.mem_map.mp hvars
    obtain ⟨hliterals, hkind⟩ := Prod.mk.inj hshape
    rcases List.mem_append.mp hf with hf | hf
    · refine ⟨f, hf, Factor.isDenseOver_iff.mpr ⟨⟨_, hkind⟩, fun v hv => ?_⟩⟩
      rw [hliterals]
      exact List.mem_flatMap.mpr ⟨m, hmem, List.mem_map_of_mem hv⟩
    · rw [h.implicitFactors_eq] at hf
      obtain ⟨m', _, rfl⟩ := List.mem_map.mp hf
      cases hkind
  · rintro ⟨f, hf, hover⟩
    obtain ⟨⟨sizes, hkind⟩, hstates⟩ := Factor.isDenseOver_iff.mp hover
    obtain ⟨w, hw, rfl⟩ := List.mem_map.mp hf
    obtain ⟨vars, hshape, hcovered⟩ :=
      h.dense _ (List.mem_map_of_mem (List.mem_of_mem_take hw)) sizes hkind
    have hfirst : m.firstState ∈ m.states :=
      MultiVariable.mem_states.mpr ⟨le_rfl, Nat.lt_add_of_pos_right (h.hasStates m hm).1⟩
    have hliteral := hstates _ hfirst
    rw [show w.factor.literals = _ from congrArg Prod.fst hshape] at hliteral
    obtain ⟨m', hm', hmem⟩ := List.mem_flatMap.mp hliteral
    obtain ⟨v, hv, hvm⟩ := List.mem_map.mp hmem
    rw [BinaryVariable.literal_injective hvm] at hv
    have hm'' := h.mem_multiVariables m' (hcovered m' hm')
    exact h.eq_of_mem_states hm hm'' hfirst hv ▸ hcovered m' hm'

theorem implicitFactors_eq_map (h : g.IsLaidOut) (hgrouped : g.IsGrouped) :
    g.implicitFactors = ((g.multiVariables.take g.numGrouped).filter
      fun m => !g.declaredFactors.any (·.isDenseOver m)).map exactlyOneState := by
  rw [h.implicitFactors_eq]
  congr 1
  refine List.filter_congr fun m hm => ?_
  rw [decide_not, Bool.decide_congr (h.mem_coveredByDense_iff hgrouped (List.mem_of_mem_take hm)),
    Bool.decide_eq_true]

variable [Scalar α]

theorem empty : (empty : FactorGraph α).IsLaidOut where
  id_eq h := by simp [FactorGraph.empty] at h
  hasStates := by simp [FactorGraph.empty]
  disjoint := .nil
  mem_multiVariables := by simp [FactorGraph.empty]
  dense := by simp [FactorGraph.empty, shapes]
  implicitFactors_eq := rfl

theorem declared (h : g.IsLaidOut) (hgrouped : g.IsGrouped) {spec : FactorSpec α} {f : Factor α}
    (hunsealed : g.isSealed = false) (hcheck : g.check spec = .ok ())
    (hf : spec.toFactor = .ok f) :
    ({ g with
      coveredByDense := g.coveredByDense ++ spec.denseVariables
      factors := g.factors.push { factor := f }
      numDeclared := g.numDeclared + 1 } : FactorGraph α).IsLaidOut := by
  have hdeclared : g.numDeclared = g.factors.values.length := by
    simpa [shapes] using hgrouped.length_shapes_of_unsealed hunsealed
  refine ⟨h.id_eq, h.hasStates, h.disjoint, ?_, ?_, ?_⟩
  · intro m hm
    rcases List.mem_append.mp hm with hm | hm
    · exact h.mem_multiVariables m hm
    · exact (of_check hcheck).2.2 m hm
  · intro shape hshape sizes hsizes
    obtain ⟨w, hw, rfl⟩ := List.mem_map.mp hshape
    rcases List.mem_append.mp hw with hw | hw
    · obtain ⟨vars, hvars, hcovered⟩ := h.dense _ (List.mem_map_of_mem hw) sizes hsizes
      exact ⟨vars, hvars, fun m hm => List.mem_append_left _ (hcovered m hm)⟩
    · rw [List.mem_singleton.mp hw] at hsizes ⊢
      exact ⟨spec.denseVariables, FactorSpec.shape_eq_of_dense hf hsizes,
        fun m hm => List.mem_append_right _ hm⟩
  · change List.drop (g.numDeclared + 1) ((g.factors.push { factor := f }).values.map (·.factor)) =
      ((g.multiVariables.take g.numGrouped).filter _).map exactlyOneState
    rw [hgrouped.unsealed hunsealed, List.take_zero, List.filter_nil, List.map_nil]
    exact List.drop_eq_nil_of_le (by simp [hdeclared])

theorem edit (h : g.IsLaidOut) (hgrouped : g.IsGrouped) {added : ℕ} (hedit : Edit g added g') :
    g'.IsLaidOut := by
  have hbinary := hedit.numBinary_eq
  cases hedit with
  | logPotentials _ | binary =>
    refine ⟨h.id_eq, fun m hm => ?_, h.disjoint, h.mem_multiVariables, h.dense,
      h.implicitFactors_eq⟩
    obtain ⟨hpos, hle⟩ := h.hasStates m hm
    exact ⟨hpos, by omega⟩
  | multi pos =>
    refine ⟨fun {i m} hm => ?_, fun m hm => ?_, ?_, fun m hm => ?_, h.dense, ?_⟩
    · rw [List.getElem?_append] at hm
      split_ifs at hm with hi
      · exact h.id_eq hm
      · rw [List.getElem?_singleton] at hm
        split_ifs at hm with hzero
        rw [← Option.some.inj hm]
        change g.multiVariables.length = i
        omega
    · rcases List.mem_append.mp hm with hm | hm
      · obtain ⟨hpos, hle⟩ := h.hasStates m hm
        exact ⟨hpos, by omega⟩
      · rw [List.mem_singleton.mp hm]
        exact ⟨pos, hbinary.ge⟩
    · refine List.pairwise_append.mpr ⟨h.disjoint, List.pairwise_singleton _ _, ?_⟩
      intro m hm m' hm'
      rw [List.mem_singleton.mp hm']
      exact (h.hasStates m hm).2
    · exact List.mem_append_left _ (h.mem_multiVariables m hm)
    · rw [List.take_append_of_le_length hgrouped.numGrouped_le]
      exact h.implicitFactors_eq
  | declared hunsealed hcheck hf => exact h.declared hgrouped hunsealed hcheck hf
  | @factor _ _ changed isDeclared get shape_eq _ =>
    refine ⟨h.id_eq, h.hasStates, h.disjoint, h.mem_multiVariables, ?_, ?_⟩
    · have hshapes : (g.factors.set _ changed).values.map (·.factor.shape) = g.shapes :=
        IsGrouped.shapes_set get shape_eq
      change ∀ shape ∈ (g.factors.set _ changed).values.map (·.factor.shape), _
      rw [hshapes]
      exact h.dense
    · rw [implicitFactors_set isDeclared]
      exact h.implicitFactors_eq

theorem change (h : g.IsLaidOut) (hgrouped : g.IsGrouped) {added : ℕ}
    (hchange : Change g added g') : g'.IsLaidOut := by
  cases hchange with
  | edit hedit => exact h.edit hgrouped hedit
  | solved factors_eq => exact (h.sealed hgrouped).settle factors_eq _

end IsLaidOut

theorem isLaidOut_run [Scalar α] (calls : List (Call α)) : (run calls).IsLaidOut := by
  have hboth : (run calls).IsGrouped ∧ (run calls).IsLaidOut :=
    run_induction (P := fun g => g.IsGrouped ∧ g.IsLaidOut) ⟨IsGrouped.empty, IsLaidOut.empty⟩
      (fun ih hchange => ⟨ih.1.change hchange, ih.2.change ih.1 hchange⟩) calls
  exact hboth.2

theorem Reachable.isLaidOut [Scalar α] (h : Reachable g) : g.IsLaidOut := by
  have hboth : g.IsGrouped ∧ g.IsLaidOut :=
    h.change_induction (P := fun g => g.IsGrouped ∧ g.IsLaidOut)
      ⟨IsGrouped.empty, IsLaidOut.empty⟩
      fun ih hchange _ => ⟨ih.1.change hchange, ih.2.change ih.1 hchange⟩
  exact hboth.2

end FactorGraph
end MapInference
