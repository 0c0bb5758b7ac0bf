import MapInference.Proofs.Logic
import MapInference.Proofs.Projection.Nearest

/-!
# Thresholds

The thresholds of the projections onto the simplex and onto the polytope of a disjunction come from
one loop over the coordinates in descending order, which pools them for as long as they exceed the
mean of what has been pooled. It finds the value by which a sum of excesses is a linear function.
-/

namespace MapInference.Projection

open Scalar
variable {α : Type} [ExactScalar α]

def excess (threshold : α) (xs : List α) : α := (xs.map fun x => max (x - threshold) 0).sum

theorem excess_perm {xs ys : List α} (h : xs.Perm ys) (threshold : α) :
    excess threshold xs = excess threshold ys :=
  (h.map _).sum_eq

theorem excess_antitone (xs : List α) {s t : α} (h : s ≤ t) : excess t xs ≤ excess s xs :=
  List.sum_le_sum fun _ _ => max_le_max (sub_le_sub_left h _) le_rfl

theorem le_excess (threshold : α) {xs : List α} {x : α} (h : x ∈ xs) :
    max (x - threshold) 0 ≤ excess threshold xs :=
  List.single_le_sum (by simp) _ (List.mem_map_of_mem h)

theorem excess_eq_zero {threshold : α} {xs : List α} (h : ∀ x ∈ xs, x ≤ threshold) :
    excess threshold xs = 0 := by
  refine List.sum_eq_zero fun y hy => ?_
  obtain ⟨x, hx, rfl⟩ := List.mem_map.mp hy
  exact max_eq_right (sub_nonpos.mpr (h x hx))

theorem excess_eq_sum (threshold : α) (xs : List α) :
    excess threshold xs = ∑ i ∈ Finset.range xs.length, max (coordinate xs i - threshold) 0 := by
  rw [excess, sum_eq_sum_coordinate (n := xs.length) (by simp)]
  exact Finset.sum_congr rfl fun i hi => coordinate_map_of_lt (Finset.mem_range.mp hi)

section Pooling

variable {xs : List α} {count : ℕ} {sum pooled : α}

theorem pooled_lt_mean {x : α} (hmean : pooled * (count + 1) = sum) (hx : pooled < x) :
    pooled < (sum + x) / (count + 2) ∧ (sum + x) / (count + 2) < x := by
  have hcount : (0 : α) < count + 2 := by positivity
  rw [lt_div_iff₀ hcount, div_lt_iff₀ hcount, ← hmean]
  have hcast : (0 : α) ≤ count := Nat.cast_nonneg count
  constructor <;> nlinarith

theorem mean_mul (count : ℕ) (sum x : α) : (sum + x) / (count + 2) * ((count + 1 : ℕ) + 1) = sum + x := by
  have hcount : (count + 2 : α) ≠ 0 := by positivity
  push_cast
  rw [show (count + 1 + 1 : α) = count + 2 by ring, div_mul_cancel₀ _ hcount]

theorem pooledValue_cons_of_lt {x : α} (hx : pooled < x) :
    pooledValue count sum pooled (x :: xs) =
      pooledValue (count + 1) (sum + x) ((sum + x) / (count + 2)) xs := by
  rw [pooledValue, if_pos hx, ofNat_eq_cast]
  push_cast
  rfl

theorem pooledValue_le (hmean : pooled * (count + 1) = sum) {bound : α} (hpooled : pooled ≤ bound)
    (hxs : ∀ x ∈ xs, x ≤ bound) : pooledValue count sum pooled xs ≤ bound := by
  induction xs generalizing count sum pooled with
  | nil => exact hpooled
  | cons x xs ih =>
    by_cases hx : pooled < x
    · rw [pooledValue_cons_of_lt hx]
      have hbound := (pooled_lt_mean hmean hx).2.le.trans (hxs x List.mem_cons_self)
      exact ih (mean_mul count sum x) hbound fun y hy => hxs y (List.mem_cons_of_mem _ hy)
    · rw [pooledValue, if_neg hx]
      exact hpooled

/-- The pooled value balances what is pooled with the excess of the remaining coordinates. -/
theorem excess_pooledValue (hd : xs.Pairwise (· ≥ ·)) (hmean : pooled * (count + 1) = sum) :
    excess (pooledValue count sum pooled xs) xs =
      pooledValue count sum pooled xs * (count + 1) - sum := by
  induction xs generalizing count sum pooled with
  | nil => simp [excess, pooledValue, hmean]
  | cons x xs ih =>
    obtain ⟨hx, hxs⟩ := List.pairwise_cons.mp hd
    by_cases hlt : pooled < x
    · rw [pooledValue_cons_of_lt hlt]
      have hmul := mean_mul count sum x
      have hle := pooledValue_le hmul (pooled_lt_mean hmean hlt).2.le hx
      have hrest := ih hxs hmul
      set v := pooledValue (count + 1) (sum + x) ((sum + x) / (count + 2)) xs
      have hcons : excess v (x :: xs) = max (x - v) 0 + excess v xs := List.sum_cons
      rw [hcons, max_eq_left (sub_nonneg.mpr hle), hrest]
      push_cast
      ring
    · rw [pooledValue, if_neg hlt, hmean, sub_self]
      refine excess_eq_zero fun y hy => ?_
      rcases List.mem_cons.mp hy with rfl | hy
      · exact not_lt.mp hlt
      · exact (hx y hy).trans (not_lt.mp hlt)

theorem faceShift_eq_pooledValue (output : α) (count : ℕ) (sum shift : α) (xs : List α) :
    faceShift output count sum shift xs = pooledValue count (sum - output) shift xs := by
  induction xs generalizing count sum shift with
  | nil => rfl
  | cons x xs ih =>
    rw [faceShift, pooledValue, ih, add_sub_right_comm]
    by_cases hx : x ≤ shift
    · rw [if_pos hx, if_neg (not_lt.mpr hx)]
    · rw [if_neg hx, if_pos (not_le.mp hx)]

theorem simplexThreshold_eq_pooledValue (count : ℕ) {sum threshold : α}
    (h : threshold * (count + 1) = sum - 1) (xs : List α) :
    simplexThreshold (count + 1) sum threshold xs = pooledValue count (sum - 1) threshold xs := by
  induction xs generalizing count sum threshold with
  | nil => rfl
  | cons x xs ih =>
    have hcount : (0 : α) < count + 2 := by positivity
    have hmean : (sum + x - 1) / ofNat (count + 1 + 1) = (sum - 1 + x) / (count + 2) := by
      rw [ofNat_eq_cast, add_sub_right_comm]
      push_cast
      ring
    rw [simplexThreshold, hmean]
    by_cases hx : threshold < x
    · have hlt := (pooled_lt_mean h hx).2
      rw [if_pos (sub_pos.mpr hlt), pooledValue_cons_of_lt hx, ← add_sub_right_comm]
      refine ih (count + 1) ?_
      rw [add_sub_right_comm]
      exact mean_mul count (sum - 1) x
    · have hle : x ≤ (sum - 1 + x) / (count + 2) := by
        rw [le_div_iff₀ hcount, ← h]
        have hcast : (0 : α) ≤ count := Nat.cast_nonneg count
        nlinarith [not_lt.mp hx]
      rw [if_neg (by simpa using hle), pooledValue, if_neg hx]

end Pooling

theorem excess_simplexThreshold {xs : List α} (h : xs ≠ []) :
    excess (simplexThreshold 0 0 0 (descending xs)) xs = 1 := by
  have hperm := descending_perm xs
  have hsorted := pairwise_descending xs
  rw [← excess_perm hperm]
  cases hd : descending xs with
  | nil =>
    rw [hd] at hperm
    exact absurd (List.nil_perm.mp hperm) h
  | cons x rest =>
    rw [hd] at hsorted
    obtain ⟨hx, hrest⟩ := List.pairwise_cons.mp hsorted
    have hfirst : (x - 1) * ((0 : ℕ) + 1) = x - 1 := by simp
    have hthreshold : simplexThreshold 0 0 0 (x :: rest) = pooledValue 0 (x - 1) (x - 1) rest := by
      rw [← simplexThreshold_eq_pooledValue 0 hfirst, simplexThreshold]
      simp
    have hle : pooledValue 0 (x - 1) (x - 1) rest ≤ x :=
      pooledValue_le hfirst (by linarith) hx
    have hexcess := excess_pooledValue hrest hfirst
    rw [hthreshold]
    set v := pooledValue 0 (x - 1) (x - 1) rest
    have hcons : excess v (x :: rest) = max (x - v) 0 + excess v rest := List.sum_cons
    rw [hcons, max_eq_left (sub_nonneg.mpr hle), hexcess]
    push_cast
    ring

theorem exists_simplex_eq {point : List α} (h : point ≠ []) :
    ∃ threshold, excess threshold point = 1 ∧
      simplex point = point.map (fun x => clip (x - threshold)) ∧ (simplex point).sum = 1 := by
  have hone := excess_simplexThreshold h
  refine ⟨simplexThreshold 0 0 0 (descending point), hone, ?_, ?_⟩
  · refine List.map_congr_left fun x hx => ?_
    have hle := (le_excess _ hx).trans_eq hone
    rw [larger_eq_max, clip_eq_max ((le_max_left _ _).trans hle)]
  · simp only [simplex, larger_eq_max]
    exact hone

/-- The probability simplex is the part of the box where the coordinates sum to one. -/
theorem isNearest_simplex {point : List α} (h : point ≠ []) :
    coordinate (simplex point) ∈ sumBox point.length 1 1 ∧
      IsNearest point.length (sumBox point.length 1 1) (coordinate point)
        (coordinate (simplex point)) := by
  obtain ⟨threshold, _, hsimplex, hsum⟩ := exists_simplex_eq h
  rw [hsimplex] at hsum ⊢
  refine isNearest_map_clip hsum ⟨le_rfl, le_rfl⟩ fun other hlower hupper => ?_
  rw [le_antisymm hupper hlower, sub_self, mul_zero]

end MapInference.Projection
