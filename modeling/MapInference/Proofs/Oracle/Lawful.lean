import MapInference.Proofs.Gain
import MapInference.Oracle

/-!
# Lawful oracles

The functions of a lawful oracle describe the same configurations: a configuration is determined by
its true variables, its score is the score of these and of its additional variables, and no
configuration has a larger score than the one that the oracle finds. The largest score is then the
greatest gain of the assignments that belong to configurations.
-/

namespace MapInference

open Scalar

namespace Oracle

theorem pairwise_trueIndices (values : List Bool) : (trueIndices values).Pairwise (· < ·) :=
  List.pairwise_lt_range.filter _

def assignmentOf (n : ℕ) (indices : List ℕ) : List Bool :=
  (List.range n).map fun i => decide (i ∈ indices)

@[simp] theorem length_assignmentOf (n : ℕ) (indices : List ℕ) :
    (assignmentOf n indices).length = n := by
  simp [assignmentOf]

theorem trueIndices_assignmentOf {n : ℕ} {indices : List ℕ} (hs : indices.Pairwise (· < ·))
    (hn : ∀ i ∈ indices, i < n) : trueIndices (assignmentOf n indices) = indices := by
  apply (pairwise_trueIndices _).eq_of_mem_iff hs
  intro i
  rw [mem_trueIndices, assignmentOf, List.getElem?_map]
  by_cases hi : i < n
  · simp [hi]
  · have hni : i ∉ indices := fun h => hi (hn i h)
    simp [hi, hni]

theorem trueIndices_cons (value : Bool) (values : List Bool) :
    trueIndices (value :: values) =
      (if value then [0] else []) ++ (trueIndices values).map (· + 1) := by
  have hshift : (trueIndices values).map (· + 1) =
      (((List.range values.length).map (· + 1)).filter fun i =>
        (value :: values)[i]?.getD false) := by
    simp [trueIndices, List.filter_map, Function.comp_def]
  rw [hshift, trueIndices, List.length_cons, List.range_succ_eq_map]
  cases value <;> simp

theorem length_trueIndices (values : List Bool) :
    (trueIndices values).length = values.count true := by
  induction values with
  | nil => rfl
  | cons value values ih =>
    rw [trueIndices_cons, List.length_append, List.length_map, ih, List.count_cons]
    cases value <;> simp [Nat.add_comm]

theorem trueIndices_append (values values' : List Bool) :
    trueIndices (values ++ values') =
      trueIndices values ++ (trueIndices values').map (· + values.length) := by
  induction values with
  | nil => simp [trueIndices]
  | cons value values ih =>
    rw [List.cons_append, trueIndices_cons, trueIndices_cons, ih]
    simp [Function.comp_def, Nat.add_assoc]

theorem lt_of_mem_trueIndices_take {n i : ℕ} {values : List Bool}
    (h : i ∈ trueIndices (values.take n)) : i < n := by
  rw [mem_trueIndices] at h
  obtain ⟨hlt, _⟩ := List.getElem?_eq_some_iff.mp h
  exact hlt.trans_le (List.length_take_le n values)

/-- Two lists of small numbers, each followed by shifted numbers, are equal only part by part. -/
theorem append_map_add_inj {n : ℕ} {is is' js js' : List ℕ} (hi : ∀ i ∈ is, i < n)
    (hi' : ∀ i ∈ is', i < n) :
    is ++ js.map (· + n) = is' ++ js'.map (· + n) ↔ is = is' ∧ js = js' := by
  constructor
  · intro h
    have hlow (ks ls : List ℕ) (hk : ∀ k ∈ ks, k < n) :
        (ks ++ ls.map (· + n)).filter (fun k => decide (k < n)) = ks := by
      rw [List.filter_append, List.filter_eq_self.mpr (by simpa using hk),
        List.filter_eq_nil_iff.mpr (by simp), List.append_nil]
    have his : is = is' := by rw [← hlow is js hi, h, hlow is' js' hi']
    subst his
    have hmap := List.append_cancel_left h
    exact ⟨rfl, List.map_injective_iff.mpr (fun a b hab => Nat.add_right_cancel hab) hmap⟩
  · rintro ⟨rfl, rfl⟩
    rfl

theorem append_eq_trueIndices_iff {n : ℕ} {values : List Bool} {is js : List ℕ}
    (hn : n ≤ values.length) (hi : ∀ i ∈ is, i < n) :
    is ++ js.map (· + n) = trueIndices values ↔
      is = trueIndices (values.take n) ∧ js = trueIndices (values.drop n) := by
  have hsplit : trueIndices values =
      trueIndices (values.take n) ++ (trueIndices (values.drop n)).map (· + n) := by
    conv_lhs => rw [← List.take_append_drop n values, trueIndices_append, List.length_take,
      min_eq_left hn]
  rw [hsplit]
  exact append_map_add_inj hi fun _ => lt_of_mem_trueIndices_take

variable {α : Type} [ExactScalar α]

@[simp] theorem scoreAt_nil (scores : List α) : scoreAt [] scores = 0 := by simp [scoreAt]

@[simp] theorem scoreAt_cons (i : ℕ) (indices : List ℕ) (scores : List α) :
    scoreAt (i :: indices) scores = coordinate scores i + scoreAt indices scores := by
  simp [scoreAt]

theorem scoreAt_append (is js : List ℕ) (scores : List α) :
    scoreAt (is ++ js) scores = scoreAt is scores + scoreAt js scores := by
  simp [scoreAt]

theorem scoreAt_reverse (indices : List ℕ) (scores : List α) :
    scoreAt indices.reverse scores = scoreAt indices scores := by
  simp [scoreAt, List.map_reverse, List.sum_reverse]

theorem scoreAt_map_succ (indices : List ℕ) (s : α) (scores : List α) :
    scoreAt (indices.map (· + 1)) (s :: scores) = scoreAt indices scores := by
  simp only [scoreAt, List.map_map]
  rfl

theorem scoreAt_zeros (indices : List ℕ) (n : ℕ) : scoreAt indices (zeros n : List α) = 0 := by
  induction indices with
  | nil => simp
  | cons i indices ih => rw [scoreAt_cons, ih, add_zero, coordinate_zeros]

theorem scoreAt_trueIndices {scores : List α} {values : List Bool}
    (h : values.length = scores.length) :
    scoreAt (trueIndices values) scores = gain scores values := by
  induction scores generalizing values with
  | nil =>
    rw [List.length_eq_zero_iff.mp h]
    simp [trueIndices]
  | cons s scores ih =>
    cases values with
    | nil => simp at h
    | cons value values =>
      rw [trueIndices_cons, scoreAt_append, scoreAt_map_succ, ih (by simpa using h), gain_cons]
      cases value <;> simp [coordinate]

variable {C : Type}

structure Lawful (o : Oracle α C) (IsConfiguration : C → Prop) : Prop where
  pairwise_trueVariables {c : C} : IsConfiguration c → (o.trueVariables c).Pairwise (· < ·)
  trueVariables_lt {c : C} : IsConfiguration c → ∀ i ∈ o.trueVariables c, i < o.numVariables
  ofAssignment?_eq_some_iff {values : List Bool} {c : C} : values.length = o.numVariables →
    (o.ofAssignment? values = some c ↔
      IsConfiguration c ∧ o.trueVariables c = trueIndices values)
  score_eq {scores additional : List α} {c : C} : IsConfiguration c →
    o.score scores additional c =
      scoreAt (o.trueVariables c) scores + o.score (zeros o.numVariables) additional c
  score_zeros {c : C} : IsConfiguration c →
    o.score (zeros o.numVariables) (zeros o.numAdditionals) c = 0
  isConfiguration_maximize {scores additional : List α} : scores.length = o.numVariables →
    additional.length = o.numAdditionals → IsConfiguration (o.maximize scores additional).1
  maximize_value {scores additional : List α} : scores.length = o.numVariables →
    additional.length = o.numAdditionals →
    (o.maximize scores additional).2 = o.score scores additional (o.maximize scores additional).1
  score_le {scores additional : List α} {c : C} : scores.length = o.numVariables →
    additional.length = o.numAdditionals → IsConfiguration c →
    o.score scores additional c ≤ (o.maximize scores additional).2

namespace Lawful

variable {o : Oracle α C} {IsConfiguration : C → Prop}

theorem ofAssignment?_assignmentOf (h : o.Lawful IsConfiguration) {c : C} (hc : IsConfiguration c) :
    o.ofAssignment? (assignmentOf o.numVariables (o.trueVariables c)) = some c := by
  rw [h.ofAssignment?_eq_some_iff (length_assignmentOf _ _),
    trueIndices_assignmentOf (h.pairwise_trueVariables hc) (h.trueVariables_lt hc)]
  exact ⟨hc, rfl⟩

/-- The score of the configuration of an assignment is the gain of the assignment and the score of
the additional variables. -/
theorem score_ofAssignment? (h : o.Lawful IsConfiguration) {scores additional : List α}
    {values : List Bool} {c : C}
    (hs : scores.length = o.numVariables) (hv : values.length = o.numVariables)
    (hc : o.ofAssignment? values = some c) :
    o.score scores additional c =
      gain scores values + o.score (zeros o.numVariables) additional c := by
  obtain ⟨hconf, htrue⟩ := (h.ofAssignment?_eq_some_iff hv).mp hc
  rw [h.score_eq hconf, htrue, scoreAt_trueIndices (by rw [hv, hs])]

theorem isBest (h : o.Lawful IsConfiguration) {scores additional : List α}
    (hs : scores.length = o.numVariables)
    (ha : additional.length = o.numAdditionals) :
    IsBest (fun values => (o.evaluate values additional).map (·.1)) scores
      (o.best scores additional) := by
  constructor
  · let c := (o.maximize scores additional).1
    let values := assignmentOf o.numVariables (o.trueVariables c)
    have hc : IsConfiguration c := h.isConfiguration_maximize hs ha
    have hv : values.length = o.numVariables := length_assignmentOf _ _
    have hof : o.ofAssignment? values = some c := h.ofAssignment?_assignmentOf hc
    refine ⟨values, o.score (zeros o.numVariables) additional c, by rw [hv, hs], ?_, ?_⟩
    · simp [evaluate, hof]
    · rw [best, h.maximize_value hs ha]
      exact (h.score_ofAssignment? hs hv hof).symm
  · rintro g ⟨values, v, hl, hv, rfl⟩
    have hvl : values.length = o.numVariables := by rw [hl, hs]
    obtain ⟨c, hof, rfl⟩ : ∃ c, o.ofAssignment? values = some c ∧
        o.score (zeros o.numVariables) additional c = v := by
      simpa [evaluate] using hv
    rw [← h.score_ofAssignment? hs hvl hof]
    exact h.score_le hs ha ((h.ofAssignment?_eq_some_iff hvl).mp hof).1

/-- Without scores of the additional variables, every assignment has the value zero. -/
theorem evaluate_zeros (h : o.Lawful IsConfiguration) {values : List Bool}
    (hv : values.length = o.numVariables) {additional : List α} {v : α × List α}
    (hval : o.evaluate values additional = some v) :
    (o.evaluate values (zeros o.numAdditionals)).map (·.1) = some 0 := by
  obtain ⟨c, hc, -⟩ := Option.map_eq_some_iff.mp hval
  obtain ⟨hconf, _⟩ := (h.ofAssignment?_eq_some_iff hv).mp hc
  simp [evaluate, hc, h.score_zeros hconf]

end Lawful
end Oracle
end MapInference
