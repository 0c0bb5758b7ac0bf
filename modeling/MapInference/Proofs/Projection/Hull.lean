import MapInference.Proofs.Projection.OrOutput

/-!
# Convex hulls of assignments

The points of the unit box with a sum between two integers are the convex combinations of the
assignments with as many true values: a point with two fractional coordinates moves along both
directions that keep their sum until one of them is an integer, and a single fractional coordinate
can be rounded either way. The polytope of a disjunction follows by scaling with the output.
-/

namespace MapInference.Projection

open Scalar
variable {α : Type} [ExactScalar α]

def ofValues (values : List Bool) : ℕ → α := coordinate (values.map ofBool)

theorem ofValues_eq_ite (values : List Bool) (i : ℕ) :
    (ofValues values i : α) = if values[i]?.getD false then 1 else 0 := by
  cases hi : values[i]? <;> simp [ofValues, coordinate, hi, ofBool]

theorem ofValues_mem_unitBox (values : List Bool) :
    (ofValues values : ℕ → α) ∈ unitBox values.length := by
  refine ⟨fun i => ?_, fun i hi => coordinate_of_length_le (by simpa using hi)⟩
  rw [ofValues_eq_ite]
  split_ifs
  · exact ⟨zero_le_one, le_rfl⟩
  · exact ⟨le_rfl, zero_le_one⟩

theorem sum_ofValues (values : List Bool) :
    ∑ i ∈ Finset.range values.length, (ofValues values i : α) = values.count true := by
  rw [ofValues, ← sum_eq_sum_coordinate (by simp)]
  induction values with
  | nil => simp
  | cons value values ih =>
    rw [List.map_cons, List.sum_cons, ih, List.count_cons]
    cases value <;> simp [ofBool, add_comm]

/-- The assignments of `n` values of which at least `lower` and at most `upper` are true. -/
def counted (n lower upper : ℕ) : Set (ℕ → α) :=
  {x | ∃ values, values.length = n ∧ (lower ≤ values.count true ∧ values.count true ≤ upper) ∧
    x = ofValues values}

theorem mem_of_segment {K : Set (ℕ → α)} (hK : Convex α K) {x d : ℕ → α} {s t : α} (hs : 0 < s)
    (ht : 0 < t) (hforward : x + s • d ∈ K) (hback : x - t • d ∈ K) : x ∈ K := by
  have hsum : 0 < s + t := add_pos hs ht
  have hcombination : (t / (s + t)) • (x + s • d) + (s / (s + t)) • (x - t • d) = x := by
    funext i
    simp only [Pi.add_apply, Pi.sub_apply, Pi.smul_apply, smul_eq_mul]
    field_simp
    ring
  have hmem := hK hforward hback (div_nonneg ht.le hsum.le) (div_nonneg hs.le hsum.le)
    (by rw [← add_div, add_comm t s, div_self hsum.ne'])
  rwa [hcombination] at hmem

def fractional (n : ℕ) (x : ℕ → α) : Finset ℕ := {i ∈ Finset.range n | 0 < x i ∧ x i < 1}

theorem mem_fractional {n : ℕ} {x : ℕ → α} {i : ℕ} :
    i ∈ fractional n x ↔ i < n ∧ 0 < x i ∧ x i < 1 := by
  simp [fractional]

def shifted (x : ℕ → α) (i j : ℕ) (s : α) (k : ℕ) : α :=
  x k + s * ((if k = i then 1 else 0) - if k = j then 1 else 0)

section Moves

variable {n : ℕ} {lower upper : α} {x : ℕ → α} {i j : ℕ}

theorem sum_shifted (hi : i < n) (hj : j < n) (s : α) :
    ∑ k ∈ Finset.range n, shifted x i j s k = ∑ k ∈ Finset.range n, x k := by
  simp [shifted, Finset.sum_add_distrib, ← Finset.mul_sum, Finset.sum_sub_distrib, hi, hj]

/-- Moving as much as possible from one fractional coordinate to another makes one of them an
integer. -/
theorem exists_shifted (hx : x ∈ sumBox n lower upper) (hi : i ∈ fractional n x)
    (hj : j ∈ fractional n x) (hij : i ≠ j) :
    ∃ s, 0 < s ∧ shifted x i j s ∈ sumBox n lower upper ∧
      (fractional n (shifted x i j s)).card < (fractional n x).card := by
  obtain ⟨hi', hi₀, hi₁⟩ := mem_fractional.mp hi
  obtain ⟨hj', hj₀, hj₁⟩ := mem_fractional.mp hj
  let s := min (1 - x i) (x j)
  have hs : 0 < s := lt_min (by linarith) hj₀
  have hsi : s ≤ 1 - x i := min_le_left _ _
  have hsj : s ≤ x j := min_le_right _ _
  have hat_i : shifted x i j s i = x i + s := by simp [shifted, hij]
  have hat_j : shifted x i j s j = x j - s := by simp [shifted, hij.symm, sub_eq_add_neg]
  have hother (k : ℕ) (hki : k ≠ i) (hkj : k ≠ j) : shifted x i j s k = x k := by
    simp [shifted, hki, hkj]
  refine ⟨s, hs, ⟨⟨fun k => ?_, fun k hk => ?_⟩, ?_⟩, Finset.card_lt_card ?_⟩
  · by_cases hki : k = i
    · subst hki
      rw [hat_i]
      constructor <;> linarith
    by_cases hkj : k = j
    · subst hkj
      rw [hat_j]
      constructor <;> linarith
    · rw [hother k hki hkj]
      exact hx.1.1 k
  · rw [hother k (by omega) (by omega)]
    exact hx.1.2 k hk
  · rw [sum_shifted hi' hj']
    exact hx.2
  · refine Finset.ssubset_iff_subset_ne.mpr ⟨fun k hk => ?_, fun heq => ?_⟩
    · by_cases hki : k = i
      · exact hki ▸ hi
      by_cases hkj : k = j
      · exact hkj ▸ hj
      · obtain ⟨hkn, hk⟩ := mem_fractional.mp hk
        rw [hother k hki hkj] at hk
        exact mem_fractional.mpr ⟨hkn, hk⟩
    · obtain ⟨_, _, hlt⟩ := mem_fractional.mp (heq ▸ hi)
      obtain ⟨_, hpos, _⟩ := mem_fractional.mp (heq ▸ hj)
      rw [hat_i] at hlt
      rw [hat_j] at hpos
      rcases min_choice (1 - x i) (x j) with h | h
      · have : s = 1 - x i := h
        linarith
      · have : s = x j := h
        linarith

end Moves

section Sums

variable {n lower upper : ℕ} {x : ℕ → α}

theorem exists_eq_ofValues (hx : x ∈ unitBox n) (h : fractional n x = ∅) :
    ∃ values, values.length = n ∧ x = ofValues values := by
  refine ⟨(List.range n).map fun i => decide (x i = 1), by simp, ?_⟩
  funext i
  rw [ofValues_eq_ite]
  by_cases hi : i < n
  · have hnot : i ∉ fractional n x := h ▸ Finset.notMem_empty i
    rw [mem_fractional] at hnot
    have hunit := hx.1 i
    simp only [List.getElem?_map, List.getElem?_range hi, Option.map_some, Option.getD_some,
      decide_eq_true_eq]
    split_ifs with hone
    · exact hone
    · by_contra hne
      exact hnot ⟨hi, lt_of_le_of_ne hunit.1 (Ne.symm hne), lt_of_le_of_ne hunit.2 hone⟩
  · rw [List.getElem?_eq_none (by simpa using hi)]
    exact hx.2 i (not_lt.mp hi)

theorem mem_counted_of_fractional_eq_empty (hx : x ∈ sumBox n (lower : α) upper)
    (h : fractional n x = ∅) : x ∈ counted n lower upper := by
  obtain ⟨values, rfl, rfl⟩ := exists_eq_ofValues hx.1 h
  have hsum := hx.2
  rw [sum_ofValues] at hsum
  exact ⟨values, rfl, by exact_mod_cast hsum, rfl⟩

theorem exists_update_eq_ofValues (hx : x ∈ unitBox n) {i : ℕ} (h : fractional n x = {i}) {r : α}
    (hr : r = 0 ∨ r = 1) :
    ∃ values, values.length = n ∧ Function.update x i r = ofValues values := by
  have hi : i < n := (mem_fractional.mp (h ▸ Finset.mem_singleton_self i)).1
  apply exists_eq_ofValues
  · refine ⟨fun k => ?_, fun k hk => ?_⟩
    · by_cases hki : k = i
      · subst hki
        rw [Function.update_self]
        rcases hr with rfl | rfl <;> simp
      · rw [Function.update_of_ne hki]
        exact hx.1 k
    · rw [Function.update_of_ne (by omega)]
      exact hx.2 k hk
  · refine Finset.eq_empty_of_forall_notMem fun k hk => ?_
    obtain ⟨hkn, hk⟩ := mem_fractional.mp hk
    by_cases hki : k = i
    · subst hki
      rw [Function.update_self] at hk
      rcases hr with rfl | rfl
      · exact lt_irrefl _ hk.1
      · exact lt_irrefl _ hk.2
    · rw [Function.update_of_ne hki] at hk
      have hmem : k ∈ fractional n x := mem_fractional.mpr ⟨hkn, hk⟩
      rw [h] at hmem
      exact hki (Finset.mem_singleton.mp hmem)

theorem mem_convexHull_of_fractional_eq_singleton (hx : x ∈ sumBox n (lower : α) upper) {i : ℕ}
    (h : fractional n x = {i}) : x ∈ convexHull α (counted n lower upper) := by
  obtain ⟨hi, hi₀, hi₁⟩ := mem_fractional.mp (h ▸ Finset.mem_singleton_self i)
  obtain ⟨zeros, hzeros, hdown⟩ := exists_update_eq_ofValues hx.1 h (.inl rfl)
  obtain ⟨ones, hones, hup⟩ := exists_update_eq_ofValues hx.1 h (.inr rfl)
  have hsum (r : α) : ∑ k ∈ Finset.range n, Function.update x i r k =
      ∑ k ∈ Finset.range n, x k + (r - x i) := by
    rw [Finset.sum_update_of_mem (Finset.mem_range.mpr hi),
      ← Finset.sum_sdiff (Finset.singleton_subset_iff.mpr (Finset.mem_range.mpr hi)),
      Finset.sum_singleton]
    ring
  have hcount : (zeros.count true : α) = ∑ k ∈ Finset.range n, x k - x i := by
    rw [← sum_ofValues, ← hdown, hzeros, hsum]
    ring
  have hcount' : ones.count true = zeros.count true + 1 := by
    have hcast : (ones.count true : α) = zeros.count true + 1 := by
      rw [hcount, ← sum_ofValues, ← hup, hones, hsum]
      ring
    exact_mod_cast hcast
  obtain ⟨_, hlower, hupper⟩ := hx
  have hlower' : lower < zeros.count true + 1 := by
    have hcast : (lower : α) < zeros.count true + 1 := by linarith
    exact_mod_cast hcast
  have hupper' : zeros.count true < upper := by
    have hcast : (zeros.count true : α) < upper := by linarith
    exact_mod_cast hcast
  have hmem : Function.update x i 0 ∈ convexHull α (counted n lower upper) :=
    subset_convexHull α _ ⟨zeros, hzeros, ⟨by omega, by omega⟩, hdown⟩
  have hmem' : Function.update x i 1 ∈ convexHull α (counted n lower upper) :=
    subset_convexHull α _ ⟨ones, hones, ⟨by omega, by omega⟩, hup⟩
  have hback : Function.update x i 0 = x - x i • Pi.single i 1 := by
    funext k
    by_cases hki : k = i
    · subst hki
      simp
    · simp [hki]
  have hforward : Function.update x i 1 = x + (1 - x i) • Pi.single i 1 := by
    funext k
    by_cases hki : k = i
    · subst hki
      simp
    · simp [hki]
  rw [hback] at hmem
  rw [hforward] at hmem'
  exact mem_of_segment (convex_convexHull α _) (sub_pos.mpr hi₁) hi₀ hmem' hmem

/-- Every point with a sum between two integers is a convex combination of assignments. -/
theorem sumBox_subset_convexHull :
    sumBox n (lower : α) upper ⊆ convexHull α (counted n lower upper) := by
  intro x hx
  induction hcard : (fractional n x).card using Nat.strong_induction_on generalizing x with
  | _ card ih =>
    rcases Nat.lt_or_ge 1 card with hcard' | hcard'
    · obtain ⟨i, hi, j, hj, hij⟩ := Finset.one_lt_card.mp (hcard ▸ hcard')
      obtain ⟨s, hs, hforward, hlt⟩ := exists_shifted hx hi hj hij
      obtain ⟨t, ht, hback, hlt'⟩ := exists_shifted hx hj hi hij.symm
      have hforward' := ih _ (hcard ▸ hlt) hforward rfl
      have hback' := ih _ (hcard ▸ hlt') hback rfl
      let d : ℕ → α := fun k => (if k = i then 1 else 0) - if k = j then 1 else 0
      have hd : shifted x i j s = x + s • d := rfl
      have hd' : shifted x j i t = x - t • d := by
        funext k
        simp only [shifted, d, Pi.sub_apply, Pi.smul_apply, smul_eq_mul]
        ring
      exact mem_of_segment (convex_convexHull α _) hs ht (hd ▸ hforward') (hd' ▸ hback')
    · rcases Nat.le_one_iff_eq_zero_or_eq_one.mp hcard' with h | h
      · have hempty := Finset.card_eq_zero.mp (hcard.trans h)
        exact subset_convexHull α _ (mem_counted_of_fractional_eq_empty hx hempty)
      · obtain ⟨i, hi⟩ := Finset.card_eq_one.mp (hcard.trans h)
        exact mem_convexHull_of_fractional_eq_singleton hx hi

theorem counted_subset_sumBox : counted n lower upper ⊆ sumBox n (lower : α) upper := by
  rintro _ ⟨values, rfl, hcount, rfl⟩
  refine ⟨ofValues_mem_unitBox values, ?_⟩
  rw [sum_ofValues]
  exact_mod_cast hcount

end Sums

def disjunctions (n : ℕ) : Set (ℕ → α) :=
  {x | ∃ inputs : List Bool, inputs.length = n ∧ x = ofValues (inputs ++ [inputs.any id])}

theorem ofValues_append (inputs : List Bool) (output : Bool) :
    (ofValues (inputs ++ [output]) : ℕ → α) =
      ofValues inputs + Pi.single inputs.length (ofBool output) := by
  funext i
  rw [Pi.add_apply, ofValues_eq_ite, ofValues_eq_ite]
  rcases lt_trichotomy i inputs.length with hlt | rfl | hgt
  · rw [List.getElem?_append_left hlt, Pi.single_eq_of_ne hlt.ne, add_zero]
  · rw [List.getElem?_concat_length]
    cases output <;> simp [ofBool]
  · rw [List.getElem?_eq_none (by simp; omega), List.getElem?_eq_none hgt.le,
      Pi.single_eq_of_ne hgt.ne', add_zero]

theorem convex_disjunctionBox (n : ℕ) : Convex α (disjunctionBox n 0 : Set (ℕ → α)) := by
  rintro x ⟨⟨hx, hordered⟩, hbelow⟩ y ⟨⟨hy, hordered'⟩, hbelow'⟩ s t hs ht hst
  rw [add_zero] at hbelow hbelow'
  refine ⟨⟨convex_unitBox hx hy hs ht hst, fun i hi => ?_⟩, ?_⟩
  · exact add_le_add (mul_le_mul_of_nonneg_left (hordered i hi) hs)
      (mul_le_mul_of_nonneg_left (hordered' i hi) ht)
  · simp only [Pi.add_apply, Pi.smul_apply, smul_eq_mul, Finset.sum_add_distrib, ← Finset.mul_sum,
      add_zero]
    exact add_le_add (mul_le_mul_of_nonneg_left hbelow hs) (mul_le_mul_of_nonneg_left hbelow' ht)

theorem disjunctions_subset (n : ℕ) : (disjunctions n : Set (ℕ → α)) ⊆ disjunctionBox n 0 := by
  rintro _ ⟨inputs, rfl, rfl⟩
  have hunit : (ofValues (inputs ++ [inputs.any id]) : ℕ → α) ∈ unitBox _ :=
    ofValues_mem_unitBox _
  rw [List.length_append, List.length_singleton] at hunit
  have houtput : (ofValues (inputs ++ [inputs.any id]) : ℕ → α) inputs.length =
      ofBool (inputs.any id) := by
    rw [ofValues_append, Pi.add_apply, Pi.single_eq_same, ofValues_eq_ite]
    simp
  have hinput (i : ℕ) (hi : i < inputs.length) :
      (ofValues (inputs ++ [inputs.any id]) : ℕ → α) i = ofValues inputs i := by
    rw [ofValues_append, Pi.add_apply, Pi.single_eq_of_ne hi.ne, add_zero]
  have hsum : ∑ i ∈ Finset.range inputs.length,
      (ofValues (inputs ++ [inputs.any id]) : ℕ → α) i = inputs.count true := by
    rw [← sum_ofValues]
    exact Finset.sum_congr rfl fun i hi => hinput i (Finset.mem_range.mp hi)
  refine ⟨⟨hunit, fun i hi => ?_⟩, ?_⟩
  · rw [houtput, hinput i hi]
    cases hany : inputs.any id with
    | true => exact ((ofValues_mem_unitBox inputs).1 i).2
    | false =>
      have hfalse := List.any_eq_false.mp hany inputs[i] (List.getElem_mem hi)
      have hvalue : inputs[i]?.getD false = false := by simpa [hi] using hfalse
      rw [ofValues_eq_ite, hvalue]
      exact le_rfl
  · rw [houtput, hsum, add_zero]
    cases hany : inputs.any id with
    | true =>
      have hcount : (1 : α) ≤ inputs.count true := by
        exact_mod_cast TruthCondition.any_id_eq_true_iff.mp hany
      exact hcount
    | false => exact Nat.cast_nonneg _

theorem zero_mem_disjunctions (n : ℕ) : (0 : ℕ → α) ∈ disjunctions n := by
  refine ⟨List.replicate n false, List.length_replicate .., ?_⟩
  have hany : (List.replicate n false).any id = false := by simp
  funext i
  rw [hany, ← List.replicate_succ', ofValues_eq_ite, List.getElem?_replicate]
  split_ifs <;> simp_all

theorem add_single_mem_convexHull {n : ℕ} {x : ℕ → α} (h : x ∈ sumBox n ((1 : ℕ) : α) n) :
    x + Pi.single n 1 ∈ convexHull α (disjunctions n) := by
  have hconvex : Convex α {x : ℕ → α | x + Pi.single n 1 ∈ convexHull α (disjunctions n)} :=
    (convex_convexHull α (disjunctions n)).translate_preimage_left _
  refine convexHull_min (fun z hz => ?_) hconvex (sumBox_subset_convexHull h)
  obtain ⟨inputs, rfl, hcount, rfl⟩ := hz
  have hany : inputs.any id = true := TruthCondition.any_id_eq_true_iff.mpr hcount.1
  refine subset_convexHull α _ ⟨inputs, rfl, ?_⟩
  rw [ofValues_append, hany]
  rfl

theorem convexHull_disjunctions (n : ℕ) :
    convexHull α (disjunctions n : Set (ℕ → α)) = disjunctionBox n 0 := by
  refine (convexHull_min (disjunctions_subset n) (convex_disjunctionBox n)).antisymm ?_
  rintro x ⟨⟨hbox, hordered⟩, hbelow⟩
  rw [add_zero] at hbelow
  have hzero : (0 : ℕ → α) ∈ convexHull α (disjunctions n) :=
    subset_convexHull α _ (zero_mem_disjunctions n)
  rcases (hbox.1 n).1.eq_or_lt with houtput | houtput
  · have hx : x = 0 := by
      funext i
      rcases lt_trichotomy i n with hlt | rfl | hgt
      · exact le_antisymm ((hordered i hlt).trans_eq houtput.symm) (hbox.1 i).1
      · exact houtput.symm
      · exact hbox.2 i hgt
    exact hx ▸ hzero
  · -- The inputs divided by the output have a sum of at least one.
    let scaled : ℕ → α := fun i => if i < n then x i / x n else 0
    have hunit : scaled ∈ unitBox n := by
      refine ⟨fun i => ?_, fun i hi => if_neg (not_lt.mpr hi)⟩
      simp only [scaled]
      split_ifs with hi
      · exact ⟨div_nonneg (hbox.1 i).1 houtput.le, (div_le_one houtput).mpr (hordered i hi)⟩
      · exact ⟨le_rfl, zero_le_one⟩
    have hsum : ∑ i ∈ Finset.range n, scaled i = (∑ i ∈ Finset.range n, x i) / x n := by
      rw [Finset.sum_div]
      exact Finset.sum_congr rfl fun i hi => if_pos (Finset.mem_range.mp hi)
    have hscaled : scaled ∈ sumBox n ((1 : ℕ) : α) n := by
      refine ⟨hunit, ?_, sum_le_of_mem_unitBox hunit⟩
      rw [hsum, Nat.cast_one]
      exact (one_le_div houtput).mpr hbelow
    have hcombination : x n • (scaled + Pi.single n 1) + (1 - x n) • (0 : ℕ → α) = x := by
      funext i
      rw [smul_zero, add_zero, Pi.smul_apply, Pi.add_apply, smul_eq_mul]
      rcases lt_trichotomy i n with hlt | rfl | hgt
      · rw [Pi.single_eq_of_ne hlt.ne, add_zero, show scaled i = x i / x n from if_pos hlt,
          mul_div_cancel₀ _ houtput.ne']
      · rw [Pi.single_eq_same, show scaled i = 0 from if_neg (lt_irrefl i), zero_add, mul_one]
      · rw [Pi.single_eq_of_ne hgt.ne', show scaled i = 0 from if_neg hgt.not_gt, add_zero,
          mul_zero, hbox.2 i hgt]
    rw [← hcombination]
    exact convex_convexHull α _ (add_single_mem_convexHull hscaled) hzero houtput.le
      (sub_nonneg.mpr (hbox.1 n).2) (add_sub_cancel _ _)

end MapInference.Projection
