import MapInference.Proofs.Exact

/-!
# Lists as vectors

A list of scalars is a vector that is zero outside of the list. Sums and products of lists are sums
over any range of coordinates that covers them.
-/

namespace MapInference.Scalar

variable {α : Type} [ExactScalar α]

theorem coordinate_of_getElem? {xs : List α} {i : ℕ} {x : α} (h : xs[i]? = some x) :
    coordinate xs i = x := by
  simp [coordinate, h]

theorem getElem?_eq_some_coordinate {xs : List α} {i : ℕ} (h : i < xs.length) :
    xs[i]? = some (coordinate xs i) := by
  simp [coordinate, h]

theorem coordinate_of_length_le {xs : List α} {i : ℕ} (h : xs.length ≤ i) :
    coordinate xs i = 0 := by
  simp [coordinate, h]

@[simp] theorem coordinate_nil (i : ℕ) : coordinate ([] : List α) i = 0 := rfl

@[simp] theorem coordinate_cons_zero (x : α) (xs : List α) : coordinate (x :: xs) 0 = x := rfl

@[simp] theorem coordinate_cons_succ (x : α) (xs : List α) (i : ℕ) :
    coordinate (x :: xs) (i + 1) = coordinate xs i := rfl

theorem coordinate_map {β : Type} {f : β → α} {bs : List β} {i : ℕ} {b : β} (h : bs[i]? = some b) :
    coordinate (bs.map f) i = f b := by
  simp [coordinate, h]

theorem coordinate_zipWith {f : α → α → α} {xs ys : List α} {i : ℕ} (hx : i < xs.length)
    (hy : i < ys.length) :
    coordinate (List.zipWith f xs ys) i = f (coordinate xs i) (coordinate ys i) := by
  simp [coordinate, hx, hy]

theorem coordinate_append_left {xs : List α} (ys : List α) {i : ℕ} (h : i < xs.length) :
    coordinate (xs ++ ys) i = coordinate xs i := by
  rw [coordinate, List.getElem?_append_left h, coordinate]

theorem coordinate_append_right (xs ys : List α) (i : ℕ) :
    coordinate (xs ++ ys) (xs.length + i) = coordinate ys i := by
  rw [coordinate, List.getElem?_append_right (Nat.le_add_right _ _), Nat.add_sub_cancel_left,
    coordinate]

theorem mem_zipIdx_zipWith_iff {xs ys : List α} {x y : α} {i : ℕ} :
    ((x, y), i) ∈ (List.zipWith Prod.mk xs ys).zipIdx ↔
      (i < xs.length ∧ i < ys.length) ∧ x = coordinate xs i ∧ y = coordinate ys i := by
  rw [List.mk_mem_zipIdx_iff_getElem?, List.getElem?_zipWith_eq_some]
  constructor
  · rintro ⟨x', y', hx, hy, hpair⟩
    obtain ⟨rfl, rfl⟩ := Prod.mk.inj hpair
    rw [coordinate_of_getElem? hx, coordinate_of_getElem? hy]
    exact ⟨⟨(List.getElem?_eq_some_iff.mp hx).1, (List.getElem?_eq_some_iff.mp hy).1⟩, rfl, rfl⟩
  · rintro ⟨⟨hx, hy⟩, rfl, rfl⟩
    exact ⟨_, _, getElem?_eq_some_coordinate hx, getElem?_eq_some_coordinate hy, rfl⟩

theorem eq_of_coordinate {xs ys : List α} (hlen : xs.length = ys.length)
    (h : ∀ i < xs.length, coordinate xs i = coordinate ys i) : xs = ys := by
  apply List.ext_getElem?
  intro i
  by_cases hi : i < xs.length
  · rw [getElem?_eq_some_coordinate hi, getElem?_eq_some_coordinate (hlen ▸ hi), h i hi]
  · rw [List.getElem?_eq_none (by omega), List.getElem?_eq_none (by omega)]

theorem sum_eq_sum_coordinate {xs : List α} {n : ℕ} (h : xs.length ≤ n) :
    xs.sum = ∑ i ∈ Finset.range n, coordinate xs i := by
  induction xs generalizing n with
  | nil => simp
  | cons x xs ih =>
    obtain ⟨m, rfl⟩ : ∃ m, n = m + 1 := ⟨n - 1, by simp at h; omega⟩
    rw [Finset.sum_range_succ', List.sum_cons, ih (by simpa using h)]
    simp [add_comm]

theorem dot_eq_sum {xs ys : List α} {n : ℕ} (h : xs.length ≤ n) :
    dot xs ys = ∑ i ∈ Finset.range n, coordinate xs i * coordinate ys i := by
  rw [dot, total_eq_sum,
    sum_eq_sum_coordinate (n := n) (by rw [List.length_zipWith]; omega)]
  refine Finset.sum_congr rfl fun i _ => ?_
  by_cases hx : i < xs.length
  · by_cases hy : i < ys.length
    · exact coordinate_zipWith hx hy
    · have hys : ys.length ≤ i := by omega
      rw [coordinate_of_length_le hys, mul_zero,
        coordinate_of_length_le (by rw [List.length_zipWith]; omega)]
  · have hxs : xs.length ≤ i := by omega
    rw [coordinate_of_length_le hxs, zero_mul,
      coordinate_of_length_le (by rw [List.length_zipWith]; omega)]

theorem dot_comm (xs ys : List α) : dot xs ys = dot ys xs := by
  rw [dot, dot, List.zipWith_comm]
  simp only [mul_comm]

end MapInference.Scalar
