import MapInference.Proofs.Exact
import MapInference.Complement

/-!
# Gains

The gain of an assignment is the sum of the scores of its true values. It differs from the gain of
the complement, for the complemented scores, by a constant. The greatest gain under a condition
therefore carries over to complements.
-/

namespace MapInference

variable {α : Type}

def selected (scores : List α) (values : List Bool) : List α :=
  (List.zipWith Prod.mk scores values).filterMap fun (s, value) => if value then some s else none

@[simp] theorem selected_cons (s : α) (scores : List α) (value : Bool) (values : List Bool) :
    selected (s :: scores) (value :: values) =
      if value then s :: selected scores values else selected scores values := by
  cases value <;> rfl

theorem selected_sublist (scores : List α) (values : List Bool) :
    (selected scores values).Sublist scores := by
  induction scores generalizing values with
  | nil => exact .refl _
  | cons s scores ih =>
    cases values with
    | nil => exact List.nil_sublist _
    | cons value values =>
      cases value with
      | true => simpa using ih values
      | false => simpa using (ih values).cons s

theorem length_selected {scores : List α} {values : List Bool}
    (h : values.length = scores.length) :
    (selected scores values).length = values.count true := by
  induction scores generalizing values with
  | nil => simp [List.length_eq_zero_iff.mp h, selected]
  | cons s scores ih =>
    cases values with
    | nil => simp at h
    | cons value values =>
      have hl : values.length = scores.length := by simpa using h
      have hi := ih hl
      cases value <;> simp [hi]

theorem exists_selected_eq {scores part : List α} (h : part.Sublist scores) :
    ∃ values : List Bool, values.length = scores.length ∧ selected scores values = part := by
  induction h with
  | slnil => exact ⟨[], rfl, rfl⟩
  | cons s _ ih =>
    obtain ⟨values, hl, hs⟩ := ih
    exact ⟨false :: values, by simp [hl], by simpa using hs⟩
  | cons_cons s _ ih =>
    obtain ⟨values, hl, hs⟩ := ih
    exact ⟨true :: values, by simp [hl], by simp [hs]⟩

variable [ExactScalar α]

def gain (scores : List α) (values : List Bool) : α :=
  (List.zipWith (fun s value => if value then s else 0) scores values).sum

@[simp] theorem gain_nil (values : List Bool) : gain ([] : List α) values = 0 := rfl

@[simp] theorem gain_cons (s : α) (scores : List α) (value : Bool) (values : List Bool) :
    gain (s :: scores) (value :: values) = (if value then s else 0) + gain scores values := by
  simp [gain]

theorem gain_append (scores scores' : List α) (values values' : List Bool)
    (h : scores.length = values.length) :
    gain (scores ++ scores') (values ++ values') = gain scores values + gain scores' values' := by
  unfold gain
  rw [List.zipWith_append h, List.sum_append]

theorem gain_replicate_false (scores : List α) (n : ℕ) :
    gain scores (List.replicate n false) = 0 := by
  induction scores generalizing n with
  | nil => rfl
  | cons s scores ih =>
    cases n with
    | zero => rfl
    | succ n => simp [List.replicate_succ, ih n]

theorem gain_map_pos (scores : List α) :
    gain scores (scores.map fun s => decide (0 < s)) =
      (scores.filter fun s => decide (0 < s)).sum := by
  induction scores with
  | nil => rfl
  | cons s scores ih =>
    rw [List.map_cons, gain_cons, ih]
    by_cases h : 0 < s <;> simp [h]

theorem gain_le_sum_pos (scores : List α) (values : List Bool) :
    gain scores values ≤ (scores.filter fun s => decide (0 < s)).sum := by
  induction scores generalizing values with
  | nil => simp
  | cons s scores ih =>
    have hrest : 0 ≤ (scores.filter fun s => decide (0 < s)).sum := by
      apply List.sum_nonneg
      intro x hx
      exact (of_decide_eq_true (List.mem_filter.mp hx).2).le
    cases values with
    | nil =>
      by_cases h : 0 < s
      · simpa [gain, h] using add_nonneg h.le hrest
      · simpa [gain, h] using hrest
    | cons value values =>
      have hi := ih values
      rw [gain_cons]
      by_cases h : 0 < s
      · cases value <;> simp [h] <;> linarith
      · cases value <;> simp [h] <;> linarith

theorem sum_selected (scores : List α) (values : List Bool) :
    (selected scores values).sum = gain scores values := by
  induction scores generalizing values with
  | nil => rfl
  | cons s scores ih =>
    cases values with
    | nil => rfl
    | cons value values => cases value <;> simp [ih]

theorem gain_eq_zero_of_count {scores : List α} {values : List Bool}
    (h : values.count true = 0) : gain scores values = 0 := by
  have hv : values = List.replicate values.length false := by
    apply List.eq_replicate_of_mem
    intro b hb
    cases b with
    | false => rfl
    | true => exact absurd hb (List.count_eq_zero.mp h)
  rw [hv]
  exact gain_replicate_false scores _

theorem gain_mem_of_count_eq_one {scores : List α} {values : List Bool}
    (hl : values.length = scores.length) (h : values.count true = 1) :
    gain scores values ∈ scores := by
  induction scores generalizing values with
  | nil => simp_all
  | cons s scores ih =>
    cases values with
    | nil => simp at hl
    | cons value values =>
      cases value with
      | true =>
        have h0 : values.count true = 0 := by simpa using h
        simp [gain_eq_zero_of_count h0]
      | false =>
        have hm := ih (by simpa using hl) (by simpa using h)
        simpa using Or.inr hm

theorem exists_gain_eq_of_mem {scores : List α} {s : α} (hs : s ∈ scores) :
    ∃ values : List Bool,
      values.length = scores.length ∧ values.count true = 1 ∧ gain scores values = s := by
  induction scores with
  | nil => simp at hs
  | cons t scores ih =>
    rcases List.mem_cons.mp hs with rfl | hs
    · refine ⟨true :: List.replicate scores.length false, ?_, ?_, ?_⟩
      · simp
      · simp [List.count_replicate]
      · simp [gain_replicate_false]
    · obtain ⟨values, hl, hc, hg⟩ := ih hs
      exact ⟨false :: values, by simp [hl], by simpa using hc, by simpa using hg⟩

/-- Without positive scores, a selection that is not empty gains at most one of its scores. -/
theorem exists_mem_gain_le {scores : List α} {values : List Bool}
    (hl : values.length = scores.length) (hneg : ∀ s ∈ scores, s ≤ 0)
    (h : 1 ≤ values.count true) : ∃ s ∈ scores, gain scores values ≤ s := by
  induction scores generalizing values with
  | nil => simp_all
  | cons s scores ih =>
    cases values with
    | nil => simp at hl
    | cons value values =>
      have hrest : gain scores values ≤ 0 := by
        have hnone : (scores.filter fun s => decide (0 < s)) = [] := by
          apply List.filter_eq_nil_iff.mpr
          intro x hx
          simpa using hneg x (List.mem_cons_of_mem _ hx)
        simpa [hnone] using gain_le_sum_pos scores values
      cases value with
      | true => exact ⟨s, List.mem_cons_self, by simpa using hrest⟩
      | false =>
        obtain ⟨t, ht, hg⟩ := ih (by simpa using hl)
          (fun x hx => hneg x (List.mem_cons_of_mem _ hx)) (by simpa using h)
        exact ⟨t, List.mem_cons_of_mem _ ht, by simpa using hg⟩

/-- The greatest gain of an assignment together with its own value, among the assignments that
have a value. -/
def IsBest (value? : List Bool → Option α) (scores : List α) (best : α) : Prop :=
  IsGreatest {g | ∃ values v, values.length = scores.length ∧ value? values = some v ∧
    gain scores values + v = g} best

def constrained (holds : List Bool → Bool) (values : List Bool) : Option α :=
  if holds values then some 0 else none

theorem isBest_constrained {holds : List Bool → Bool} {scores : List α} {best : α}
    (hle : ∀ values, values.length = scores.length → holds values → gain scores values ≤ best)
    (hex : ∃ values, values.length = scores.length ∧ holds values ∧ gain scores values = best) :
    IsBest (constrained holds) scores best := by
  constructor
  · obtain ⟨values, hl, hh, hg⟩ := hex
    exact ⟨values, 0, hl, by simp [constrained, hh], by simpa using hg⟩
  · rintro g ⟨values, v, hl, hv, rfl⟩
    unfold constrained at hv
    split_ifs at hv with hh
    rw [← Option.some.inj hv, add_zero]
    exact hle values hl hh

namespace Complement

@[simp] theorem length_assignment (marks values : List Bool) :
    (assignment marks values).length = min marks.length values.length := by
  simp [assignment]

theorem foldl_constant (marks : List Bool) (xs : List α) (sum : α) :
    (List.zipWith (fun mark x => (mark, x)) marks xs).foldl
      (fun sum p => if p.1 then sum + p.2 else sum) sum = sum + gain xs marks := by
  induction xs generalizing marks sum with
  | nil => simp
  | cons x xs ih =>
    cases marks with
    | nil => simp [gain]
    | cons mark marks =>
      rw [List.zipWith_cons_cons, List.foldl_cons, ih, gain_cons]
      cases mark <;> simp [add_assoc]

theorem constant_eq_gain (marks : List Bool) (xs : List α) : constant marks xs = gain xs marks := by
  rw [constant, foldl_constant, zero_add]

theorem gain_assignment {marks values : List Bool} {xs : List α}
    (hm : marks.length = xs.length) (hv : values.length = xs.length) :
    constant marks xs + gain (scores marks xs) (assignment marks values) = gain xs values := by
  rw [constant_eq_gain]
  induction xs generalizing marks values with
  | nil => simp [scores]
  | cons x xs ih =>
    cases marks with
    | nil => simp at hm
    | cons mark marks =>
      cases values with
      | nil => simp at hv
      | cons value values =>
        have hml : marks.length = xs.length := by simpa using hm
        have hvl : values.length = xs.length := by simpa using hv
        have hi := ih hml hvl
        simp only [scores, assignment, List.zipWith_cons_cons, gain_cons] at hi ⊢
        cases mark <;> cases value <;> simp <;> linarith

theorem isBest {value? : List Bool → Option α} {marks : List Bool} {xs : List α} {best : α}
    (hm : marks.length = xs.length) (h : IsBest value? (scores marks xs) best) :
    IsBest (fun values => value? (assignment marks values)) xs (constant marks xs + best) := by
  have hs : (scores marks xs).length = xs.length := by simp [hm]
  constructor
  · obtain ⟨values, v, hl, hv, hg⟩ := h.1
    have hvl : marks.length = values.length := by rw [hl, hs, hm]
    refine ⟨assignment marks values, v, ?_, ?_, ?_⟩
    · simp [← hvl, hm]
    · simpa only [assignment_assignment hvl] using hv
    · rw [← gain_assignment hm (by simp [← hvl, hm]), assignment_assignment hvl, add_assoc, hg]
  · rintro g ⟨values, v, hl, hv, rfl⟩
    rw [← gain_assignment hm hl, add_assoc]
    exact add_le_add_right (h.2 ⟨assignment marks values, v, by simp [hm, hl], hv, rfl⟩) _

end Complement
end MapInference
