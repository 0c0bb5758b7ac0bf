import MapInference.Proofs.Oracle.Feasible
import MapInference.Proofs.Oracle.Pair

/-!
# Vertices

The functions of an oracle describe one vertex for each configuration that it returns: the 0/1
values of the variables and of the additional variables of which the score is a linear function,
multiples of which are accumulated, and whose inner products count common variables. The
configuration is read off the values of the variables again, and no other values have one but the
feasible ones, unless the cost of the items of a knapsack is no machine word. The search for a best
configuration stays among the configurations in any arithmetic, except that the assignment of rows
to columns needs costs that can be compared.
-/

namespace MapInference

open Scalar

namespace Oracle

variable {α C : Type}

/-- A configuration that the oracle finds for some scores with a property, or reads off some
assignment. -/
inductive IsReturned (o : Oracle α C) (Compares : List α → Prop) (c : C) : Prop
  | maximize (scores additional : List α) : scores.length = o.numVariables →
      additional.length = o.numAdditionals → Compares scores →
      (o.maximize scores additional).1 = c → IsReturned o Compares c
  | ofAssignment (values : List Bool) : values.length = o.numVariables →
      o.ofAssignment? values = some c → IsReturned o Compares c

/-- What holds of the configurations that are found and of those that are read off holds of every
configuration that is returned. -/
theorem IsReturned.elim {o : Oracle α C} {Compares : List α → Prop} {c : C} {P : C → Prop}
    (h : o.IsReturned Compares c)
    (hmaximize : ∀ scores additional : List α, Compares scores → P (o.maximize scores additional).1)
    (hof : ∀ values : List Bool, values.length = o.numVariables →
      o.ofAssignment? values = some c → P c) : P c := by
  cases h with
  | maximize scores additional _ _ hscores hc => exact hc ▸ hmaximize scores additional hscores
  | ofAssignment values hv hc => exact hof values hv hc

def vertex (o : Oracle α C) (c : C) : List Bool :=
  assignmentOf o.numVariables (o.trueVariables c)

theorem assignmentOf_trueIndices (values : List Bool) :
    assignmentOf values.length (trueIndices values) = values := by
  refine List.ext_getElem (length_assignmentOf _ _) fun i hi hi' => ?_
  simp [assignmentOf, mem_trueIndices, hi']

variable [ExactScalar α]

def numbers (values : List Bool) : List α := values.map ofBool

theorem indicatorAt_eq_numbers {indices : List ℕ} (hn : indices.Nodup) (n : ℕ) :
    (indicatorAt n indices : List α) = numbers (assignmentOf n indices) := by
  refine eq_of_coordinate (by simp [numbers]) fun i hi => ?_
  rw [length_indicatorAt] at hi
  have hvalue : (numbers (assignmentOf n indices) : List α)[i]? =
      some (ofBool (decide (i ∈ indices))) := by
    simp [numbers, assignmentOf, hi]
  rw [coordinate_indicatorAt hn hi, coordinate_of_getElem? hvalue]
  by_cases hmem : i ∈ indices <;> simp [hmem, ofBool]

/-- The functions of an oracle describe the same vertices: those of the configurations that are
returned, which have the feasible values among those that there is an answer for. -/
structure DescribesVertices (o : Oracle α C) (Returned : C → Prop)
    (HasAnswer IsFeasible : List Bool → Prop) : Prop where
  pairwise_trueVariables {c : C} : Returned c → (o.trueVariables c).Pairwise (· < ·)
  trueVariables_lt {c : C} : Returned c → ∀ i ∈ o.trueVariables c, i < o.numVariables
  /-- The values of the additional variables are the same for every weight and all scores. -/
  exists_additionals {c : C} : Returned c → ∃ additionals : List Bool,
    additionals.length = o.numAdditionals ∧
    (∀ (weight : α) (sums : List α × List α), sums.1.length = o.numVariables →
      sums.2.length = o.numAdditionals →
      o.accumulate c weight sums = (addMultiple sums.1 weight (numbers (o.vertex c)),
        addMultiple sums.2 weight (numbers additionals))) ∧
    ∀ scores additional : List α, o.score scores additional c =
      dot scores (numbers (o.vertex c)) + dot additional (numbers additionals)
  common_eq {c d : C} : Returned c → Returned d →
    (o.common c d : α) = dot (numbers (o.vertex c)) (numbers (o.vertex d)) ∧
      countCommon (o.trueVariables c) (o.trueVariables d) = o.common c d
  hasAnswer_vertex {c : C} : Returned c → HasAnswer (o.vertex c)
  ofAssignment?_vertex {c : C} : Returned c → o.ofAssignment? (o.vertex c) = some c
  vertex_eq {values : List Bool} {c : C} : values.length = o.numVariables →
    o.ofAssignment? values = some c → o.vertex c = values
  isSome_ofAssignment?_iff {values : List Bool} : values.length = o.numVariables →
    HasAnswer values → ((o.ofAssignment? values).isSome ↔ IsFeasible values)

theorem HasTrueIndices.describesVertices {o : Oracle α C} {IsConfiguration Returned : C → Prop}
    {trueAdditionals : C → List ℕ} {HasAnswer IsFeasible : List Bool → Prop}
    (h : o.HasTrueIndices IsConfiguration trueAdditionals)
    (hreturned : ∀ c, Returned c → IsConfiguration c)
    (hanswer : ∀ values c, o.ofAssignment? values = some c → HasAnswer values)
    (hfeasible : ∀ values : List Bool, values.length = o.numVariables →
      ((o.ofAssignment? values).isSome ↔ IsFeasible values)) :
    o.DescribesVertices Returned HasAnswer IsFeasible := by
  have hindicator {c : C} (hc : Returned c) : o.indicator c =
      (numbers (o.vertex c), numbers (assignmentOf o.numAdditionals (trueAdditionals c))) := by
    rw [h.indicator_eq, indicatorAt_eq_numbers (h.nodup_trueVariables (hreturned c hc)),
      indicatorAt_eq_numbers (h.nodup_trueAdditionals (hreturned c hc)), vertex]
  constructor
  case pairwise_trueVariables => exact fun hc => h.pairwise_trueVariables (hreturned _ hc)
  case trueVariables_lt => exact fun hc => h.trueVariables_lt (hreturned _ hc)
  case exists_additionals =>
    refine fun {c} hc => ⟨assignmentOf o.numAdditionals (trueAdditionals c), by simp, ?_, ?_⟩
    · intro weight sums h₁ h₂
      rw [h.hasIndicators.accumulate_eq (hreturned c hc) h₁ h₂, hindicator hc]
    · intro scores additional
      rw [h.score_eq_dot (hreturned c hc), hindicator hc, dot_comm, dot_comm _ additional]
  case common_eq =>
    intro c d hc hd
    refine ⟨?_, ?_⟩
    · rw [h.hasIndicators.common_eq (hreturned c hc) (hreturned d hd), hindicator hc, hindicator hd]
    · rw [h.common_eq (hreturned c hc) (hreturned d hd)]
      exact countCommon_eq_countP (h.pairwise_trueVariables (hreturned c hc))
        (h.pairwise_trueVariables (hreturned d hd))
  case hasAnswer_vertex =>
    exact fun hc => hanswer _ _ (h.ofAssignment?_assignmentOf (hreturned _ hc))
  case ofAssignment?_vertex => exact fun hc => h.ofAssignment?_assignmentOf (hreturned _ hc)
  case vertex_eq =>
    intro values c hv hc
    rw [vertex, ((h.ofAssignment?_eq_some_iff hv).mp hc).2, ← hv, assignmentOf_trueIndices]
  case isSome_ofAssignment?_iff => exact fun hv _ => hfeasible _ hv

/-- The oracles describe the vertices of their feasible assignments. The configurations may be
found in another arithmetic; those of matchings for scores that it can compare, which exact
arithmetic always can. A knapsack has an answer for an assignment whose cost is a machine word. -/
theorem describesVertices_oracles (α β : Type) [ExactScalar α] [Scalar β] :
    (Pair.oracle : Oracle α (Bool × Bool)).DescribesVertices
        ((Pair.oracle : Oracle β (Bool × Bool)).IsReturned fun _ => True)
        (fun _ => True) (fun _ => True) ∧
      (∀ sizes : List ℕ, (∀ size ∈ sizes, 0 < size) →
        (Dense.oracle sizes : Oracle α (List ℕ)).DescribesVertices
          ((Dense.oracle sizes : Oracle β (List ℕ)).IsReturned fun _ => True)
          (fun _ => True) (Dense.HasOneState sizes)) ∧
      (∀ (costs : List ℕ) (capacity : ℕ), capacity < Word.limit →
        (Knapsack.oracle costs capacity : Oracle α (List ℕ)).DescribesVertices
          ((Knapsack.oracle costs capacity : Oracle β (List ℕ)).IsReturned fun _ => True)
          (fun values => Knapsack.overflows costs values = false)
          (fun values => Knapsack.selectedCost costs values ≤ capacity)) ∧
      (∀ numRows numColumns : ℕ,
        (Matching.oracle numRows numColumns : Oracle α (List (Option ℕ))).DescribesVertices
          ((Matching.oracle numRows numColumns : Oracle β (List (Option ℕ))).IsReturned
            (Matching.ComparesScores numRows numColumns))
          (fun _ => True) (Matching.IsSaturating numRows numColumns) ∧
        ∀ scores : List α, Matching.ComparesScores numRows numColumns scores) ∧
      (∀ length : ℕ,
        (Segmentation.oracle length : Oracle α (List (ℕ × ℕ))).DescribesVertices
          ((Segmentation.oracle length : Oracle β (List (ℕ × ℕ))).IsReturned fun _ => True)
          (fun _ => True) (Segmentation.AreDisjoint length)) := by
  refine ⟨?pair, ?dense, ?knapsack, ?matching, ?segmentation⟩
  case pair =>
    refine Pair.hasTrueIndices.describesVertices (fun _ _ => trivial) (fun _ _ _ => trivial)
      fun values hv => ?_
    obtain ⟨first, second, rfl⟩ := List.length_eq_two.mp hv
    exact iff_of_true rfl trivial
  case dense =>
    intro sizes hsizes
    refine (Dense.hasTrueIndices hsizes).describesVertices (fun c hc => ?_) (fun _ _ _ => trivial)
      fun values _ => Dense.isSome_ofAssignment?_iff sizes values
    exact hc.elim
      (fun scores additional _ => Dense.isJointState_maximize hsizes scores additional)
      fun values hv h => ((Dense.ofAssignment?_eq_some_iff hv).mp h).1
  case knapsack =>
    intro costs capacity hcapacity
    refine (Knapsack.hasTrueIndices costs capacity).describesVertices (fun c hc => ?_)
      (fun values c h => Knapsack.overflows_of_ofAssignment? h hcapacity)
      fun values hv => Knapsack.isSome_ofAssignment?_iff capacity hv
    exact hc.elim (fun scores _ _ => Knapsack.isSelection_maximize costs capacity scores)
      fun values hv h => ((Knapsack.ofAssignment?_eq_some_iff hv).mp h).1
  case matching =>
    intro numRows numColumns
    refine ⟨?_, Matching.comparesScores_of_belowTop belowTop_eq_true numRows numColumns⟩
    refine (Matching.hasTrueIndices numRows numColumns).describesVertices (fun c hc => ?_)
      (fun _ _ _ => trivial) fun values hv => Matching.isSome_ofAssignment?_iff hv
    exact hc.elim (fun _ _ hscores => Matching.isMatching_bestColumns hscores)
      fun values hv h => ((Matching.ofAssignment?_eq_some_iff hv).mp h).1
  case segmentation =>
    intro length
    refine (Segmentation.hasTrueIndices length).describesVertices (fun c hc => ?_)
      (fun _ _ _ => trivial) fun values _ => Segmentation.isSome_ofAssignment?_iff length values
    exact hc.elim
      (fun scores additional _ => Segmentation.isSegmentation_maximize length scores additional)
      fun values hv h => ((Segmentation.ofAssignment?_eq_some_iff hv).mp h).1

theorem describesVertices_twoVariables :
    ((∀ size ∈ [2, 3], 0 < size) ∧
      (Dense.oracle [2, 3] : Oracle ℚ (List ℕ)).IsReturned (fun _ => True) [1, 2] ∧
      (Dense.oracle [2, 3] : Oracle ℚ (List ℕ)).DescribesVertices
        ((Dense.oracle [2, 3] : Oracle ℚ (List ℕ)).IsReturned fun _ => True)
        (fun _ => True) (Dense.HasOneState [2, 3])) ∧
    (4 < Word.limit ∧ Knapsack.overflows [2, 3] [true, true] = false ∧
      (Knapsack.oracle [2, 3] 4 : Oracle ℚ (List ℕ)).ofAssignment? [true, true] = none) := by
  have hcapacity : 4 < Word.limit := by decide
  have hfits : Knapsack.overflows [2, 3] [true, true] = false := by decide
  refine ⟨⟨by decide, IsReturned.ofAssignment [false, true, false, false, true] rfl rfl,
    (describesVertices_oracles ℚ ℚ).2.1 [2, 3] (by decide)⟩, hcapacity, hfits, ?_⟩
  have hknapsack := (describesVertices_oracles ℚ ℚ).2.2.1 [2, 3] 4 hcapacity
  rw [← Option.not_isSome_iff_eq_none, hknapsack.isSome_ofAssignment?_iff rfl hfits]
  decide

/-- A variable without states has no joint state; the one that is found for it has a true variable
that does not exist. The cost of two items of half of the limit is no machine word. -/
theorem not_describesVertices :
    (¬ (Dense.oracle [0] : Oracle ℚ (List ℕ)).DescribesVertices
      ((Dense.oracle [0] : Oracle ℚ (List ℕ)).IsReturned fun _ => True)
      (fun _ => True) (Dense.HasOneState [0])) ∧
    Knapsack.overflows [9223372036854775808, 9223372036854775808] [true, true] = true := by
  refine ⟨fun h => ?_, by decide +kernel⟩
  have hreturned : (Dense.oracle [0] : Oracle ℚ (List ℕ)).IsReturned (fun _ => True) [0] :=
    IsReturned.maximize [] [] rfl rfl trivial rfl
  exact absurd (h.trueVariables_lt hreturned 0 List.mem_cons_self) (Nat.lt_irrefl 0)

end Oracle
end MapInference
