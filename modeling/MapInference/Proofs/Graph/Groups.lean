import MapInference.Proofs.Graph.Reachable

/-!
# Groups of states

The seal of a graph groups the states of each multi-state variable that no dense factor covers, also
of those that are added after an earlier solve. What is kept between calls is stated for the
literals and the kinds of the factors, which no call changes.
-/

namespace MapInference

open Scalar
variable {α : Type}

def denseShape (vars : List MultiVariable) : List Literal × FactorKind :=
  (vars.flatMap fun m => m.states.map BinaryVariable.literal, .dense (vars.map (·.numStates)))

def exactlyOneShape (m : MultiVariable) : List Literal × FactorKind :=
  (m.states.map BinaryVariable.literal, .logic (.ofOperator .xor m.numStates))

namespace FactorGraph

def shapes (g : FactorGraph α) : List (List Literal × FactorKind) :=
  g.factors.values.map (·.factor.shape)

/-- How the factors of a graph are divided up: the declared ones come first, among them one for each
covered variable, and the others group the states of the variables that the seal has dealt with. -/
structure IsGrouped (g : FactorGraph α) : Prop where
  numDeclared_le : g.numDeclared ≤ g.shapes.length
  numGrouped_le : g.numGrouped ≤ g.multiVariables.length
  grouped : g.shapes.drop g.numDeclared =
    ((g.multiVariables.take g.numGrouped).filter fun m => m ∉ g.coveredByDense).map exactlyOneShape
  covered : ∀ m ∈ g.coveredByDense, ∃ vars, m ∈ vars ∧ denseShape vars ∈ g.shapes
  unsealed : g.isSealed = false → g.numGrouped = 0

variable {g g' : FactorGraph α}

namespace IsGrouped

theorem congr (h : g.IsGrouped) (hshapes : g'.shapes = g.shapes)
    (hdeclared : g'.numDeclared = g.numDeclared) (hgrouped : g'.numGrouped = g.numGrouped)
    (hmulti : g'.multiVariables = g.multiVariables)
    (hcovered : g'.coveredByDense = g.coveredByDense) (hsealed : g'.isSealed = g.isSealed) :
    g'.IsGrouped where
  numDeclared_le := by rw [hdeclared, hshapes]; exact h.numDeclared_le
  numGrouped_le := by rw [hgrouped, hmulti]; exact h.numGrouped_le
  grouped := by rw [hshapes, hdeclared, hmulti, hgrouped, hcovered]; exact h.grouped
  covered := by rw [hcovered, hshapes]; exact h.covered
  unsealed := by rw [hsealed, hgrouped]; exact h.unsealed

theorem shapes_set {factors : Arena FactorId (WarmFactor α)} {id : FactorId}
    {w changed : WarmFactor α}
    (hw : factors.get? id = some w) (hshape : changed.factor.shape = w.factor.shape) :
    (factors.set id changed).values.map (·.factor.shape) = factors.values.map (·.factor.shape) := by
  have hget : factors.values[id.id]? = some w := hw
  apply List.ext_getElem?
  intro i
  simp only [Arena.set, Arena.modify, List.getElem?_map, List.getElem?_modify, Handle.index]
  by_cases hi : id.id = i
  · subst hi
    simp [hget, hshape]
  · simp [hi]

theorem sealed (h : g.IsGrouped) : g.sealed.IsGrouped := by
  have hshapes : g.sealed.shapes = g.shapes ++ ((g.multiVariables.drop g.numGrouped).filter
      fun m => m ∉ g.coveredByDense).map exactlyOneShape := by
    simp only [shapes, FactorGraph.sealed, List.map_append, List.map_map]
    rfl
  constructor
  case numDeclared_le =>
    rw [hshapes, List.length_append]
    exact h.numDeclared_le.trans (Nat.le_add_right _ _)
  case numGrouped_le => exact le_rfl
  case grouped =>
    change g.sealed.shapes.drop g.numDeclared =
      ((g.multiVariables.take g.multiVariables.length).filter
        fun m => m ∉ g.coveredByDense).map exactlyOneShape
    rw [hshapes, List.drop_append_of_le_length h.numDeclared_le, h.grouped, ← List.map_append,
      ← List.filter_append, List.take_append_drop, List.take_length]
  case covered =>
    intro m hm
    obtain ⟨vars, hmem, hvars⟩ := h.covered m hm
    exact ⟨vars, hmem, hshapes ▸ List.mem_append_left _ hvars⟩
  case unsealed => exact fun hfalse => nomatch hfalse

theorem settle (h : g.IsGrouped) {workers : List (Worker α)}
    (hworkers : workers.map (·.factor) = g.problem.factors) (statistics : Statistics α) :
    (g.settle workers statistics).IsGrouped := by
  refine h.congr ?_ rfl rfl rfl rfl rfl
  have hshapes := congrArg (List.map Factor.shape) hworkers
  simpa [shapes, FactorGraph.settle, problem, Function.comp_def] using hshapes

theorem length_shapes_of_unsealed (h : g.IsGrouped) (hunsealed : g.isSealed = false) :
    g.numDeclared = g.shapes.length := by
  have hgrouped := h.grouped
  rw [h.unsealed hunsealed, List.take_zero, List.filter_nil, List.map_nil,
    List.drop_eq_nil_iff] at hgrouped
  exact le_antisymm h.numDeclared_le hgrouped

variable [Scalar α]

theorem empty : (empty : FactorGraph α).IsGrouped where
  numDeclared_le := Nat.zero_le _
  numGrouped_le := Nat.zero_le _
  grouped := rfl
  covered := by simp [FactorGraph.empty]
  unsealed _ := rfl

theorem shape_of_toFactor_dense {vars : List MultiVariable} {logPotentials : List α} {f : Factor α}
    (h : (FactorSpec.dense vars logPotentials).toFactor = .ok f) : f.shape = denseShape vars := by
  rw [← Except.ok.inj h]
  rfl

theorem declared (h : g.IsGrouped) {spec : FactorSpec α} {f : Factor α}
    (hunsealed : g.isSealed = false) (hf : spec.toFactor = .ok f) :
    ({ g with
      coveredByDense := g.coveredByDense ++ spec.denseVariables
      factors := g.factors.push { factor := f }
      numDeclared := g.numDeclared + 1 } : FactorGraph α).IsGrouped := by
  have hzero : g.numGrouped = 0 := h.unsealed hunsealed
  have hall := h.length_shapes_of_unsealed hunsealed
  have hshapes : (g.factors.push { factor := f }).values.map (·.factor.shape) =
      g.shapes ++ [f.shape] := by
    rw [Arena.values_push, List.map_append]
    rfl
  constructor
  case numDeclared_le =>
    change g.numDeclared + 1 ≤ ((g.factors.push { factor := f }).values.map (·.factor.shape)).length
    rw [hshapes, List.length_append, hall, List.length_singleton]
  case numGrouped_le => exact h.numGrouped_le
  case grouped =>
    change ((g.factors.push { factor := f }).values.map (·.factor.shape)).drop (g.numDeclared + 1) =
      ((g.multiVariables.take g.numGrouped).filter _).map exactlyOneShape
    rw [hshapes, hzero, hall, List.take_zero, List.filter_nil, List.map_nil]
    exact List.drop_eq_nil_of_le (by simp)
  case covered =>
    intro m hm
    change ∃ vars, m ∈ vars ∧
      denseShape vars ∈ (g.factors.push { factor := f }).values.map (·.factor.shape)
    rw [hshapes]
    rcases List.mem_append.mp hm with hm | hm
    · obtain ⟨vars, hmem, hvars⟩ := h.covered m hm
      exact ⟨vars, hmem, List.mem_append_left _ hvars⟩
    · cases spec with
      | dense vars logPotentials =>
        refine ⟨vars, hm, List.mem_append_right _ ?_⟩
        rw [shape_of_toFactor_dense hf]
        exact List.mem_singleton_self _
      | _ => exact absurd hm List.not_mem_nil
  case unsealed => exact h.unsealed

theorem edit (h : g.IsGrouped) {added : ℕ} (hedit : Edit g added g') : g'.IsGrouped := by
  cases hedit with
  | logPotentials _ => exact h.congr rfl rfl rfl rfl rfl rfl
  | binary => exact h.congr rfl rfl rfl rfl rfl rfl
  | multi _ =>
    constructor
    case numDeclared_le => exact h.numDeclared_le
    case numGrouped_le =>
      rw [List.length_append]
      exact h.numGrouped_le.trans (Nat.le_add_right _ _)
    case grouped =>
      rw [List.take_append_of_le_length h.numGrouped_le]
      exact h.grouped
    case covered => exact h.covered
    case unsealed => exact h.unsealed
  | declared hunsealed _ hf => exact h.declared hunsealed hf
  | factor _ get shape_eq _ => exact h.congr (shapes_set get shape_eq) rfl rfl rfl rfl rfl

theorem change (h : g.IsGrouped) {added : ℕ} (hchange : Change g added g') : g'.IsGrouped := by
  cases hchange with
  | edit hedit => exact h.edit hedit
  | solved factors_eq => exact h.sealed.settle factors_eq _

end IsGrouped

theorem isGrouped_run [Scalar α] (calls : List (Call α)) : (run calls).IsGrouped :=
  run_induction IsGrouped.empty (fun ih hchange => ih.change hchange) calls

theorem Reachable.isGrouped [Scalar α] (h : Reachable g) : g.IsGrouped :=
  h.change_induction IsGrouped.empty fun ih hchange _ => ih.change hchange

end FactorGraph
end MapInference
