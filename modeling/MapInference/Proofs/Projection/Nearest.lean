import MapInference.Proofs.Coordinates
import MapInference.Complement
import MapInference.Projection.Box

/-!
# Nearest points

A point of a convex set is the one nearest to a target when no direction into the set approaches
the target. Points are functions of their coordinates here; the first `n` count. Shifting all
coordinates of the target by the same amount and clipping them is nearest among the points of the
box with the same sum, and complementing coordinates changes nothing.
-/

namespace MapInference

open Scalar
variable {α : Type} [ExactScalar α]

namespace Projection

theorem clip_eq (x : α) : clip x = max 0 (min 1 x) := by
  unfold clip clamp
  split_ifs with hlow hhigh
  · rw [min_eq_right (hlow.le.trans zero_le_one), max_eq_left hlow.le]
  · rw [min_eq_left hhigh.le, max_eq_right zero_le_one]
  · rw [min_eq_right (not_lt.mp hhigh), max_eq_right (not_lt.mp hlow)]

theorem clip_nonneg (x : α) : 0 ≤ clip x := clip_eq x ▸ le_max_left _ _

theorem clip_le_one (x : α) : clip x ≤ 1 :=
  clip_eq x ▸ max_le zero_le_one (min_le_left _ _)

theorem clip_of_mem {x : α} (h₀ : 0 ≤ x) (h₁ : x ≤ 1) : clip x = x := by
  rw [clip_eq, min_eq_right h₁, max_eq_right h₀]

theorem clip_of_nonpos {x : α} (h : x ≤ 0) : clip x = 0 := by
  rw [clip_eq, min_eq_right (h.trans zero_le_one), max_eq_left h]

theorem clip_of_one_le {x : α} (h : 1 ≤ x) : clip x = 1 := by
  rw [clip_eq, min_eq_left h, max_eq_right zero_le_one]

theorem clip_eq_max {x : α} (h : x ≤ 1) : clip x = max x 0 := by
  rw [clip_eq, min_eq_right h, max_comm]

theorem clip_mono {x y : α} (h : x ≤ y) : clip x ≤ clip y := by
  rw [clip_eq, clip_eq]
  exact max_le_max le_rfl (min_le_min le_rfl h)

/-- A shifted and clipped coordinate is away from its target by the shift where it is inside of the
interval, and by something on the outer side elsewhere. -/
theorem sub_clip_mul_le (target shift : α) {x : α} (h₀ : 0 ≤ x) (h₁ : x ≤ 1) :
    (target - clip (target - shift)) * (x - clip (target - shift)) ≤
      shift * (x - clip (target - shift)) := by
  rcases le_total (target - shift) 0 with hlow | hlow
  · rw [clip_of_nonpos hlow]
    nlinarith
  rcases le_total 1 (target - shift) with hhigh | hhigh
  · rw [clip_of_one_le hhigh]
    nlinarith
  · rw [clip_of_mem hlow hhigh, sub_sub_cancel]

/-- How fast a point that moves towards `x` approaches the target. -/
def approach (n : ℕ) (target point x : ℕ → α) : α :=
  ∑ i ∈ Finset.range n, (target i - point i) * (x i - point i)

/-- No direction into the set approaches the target. -/
def IsNearest (n : ℕ) (K : Set (ℕ → α)) (target point : ℕ → α) : Prop :=
  ∀ x ∈ K, approach n target point x ≤ 0

variable {n : ℕ} {target point : ℕ → α}

theorem IsNearest.mono {K L : Set (ℕ → α)} (h : IsNearest n L target point) (hKL : K ⊆ L) :
    IsNearest n K target point :=
  fun x hx => h x (hKL hx)

theorem approach_segment (target point x y : ℕ → α) (t : α) :
    approach n target point (fun i => x i + t * (y i - x i)) =
      (1 - t) * approach n target point x + t * approach n target point y := by
  simp only [approach, Finset.mul_sum, ← Finset.sum_add_distrib]
  exact Finset.sum_congr rfl fun i _ => by ring

def distanceSq (n : ℕ) (x y : ℕ → α) : α := ∑ i ∈ Finset.range n, (x i - y i) ^ 2

theorem distanceSq_nonneg (n : ℕ) (x y : ℕ → α) : 0 ≤ distanceSq n x y :=
  Finset.sum_nonneg fun _ _ => sq_nonneg _

theorem distanceSq_eq_approach_add_approach (n : ℕ) (target x y : ℕ → α) :
    distanceSq n x y = approach n target x y + approach n target y x := by
  unfold distanceSq approach
  rw [← Finset.sum_add_distrib]
  apply Finset.sum_congr rfl
  intro i _
  ring

/-- When moving from `x` to the point does not approach the target, moving back does not lead away
from it. -/
theorem approach_nonneg {x : ℕ → α} (h : approach n target x point ≤ 0) :
    0 ≤ approach n target point x := by
  have hnonneg := distanceSq_nonneg n point x
  rw [distanceSq_eq_approach_add_approach n target] at hnonneg
  linarith

def unitBox (n : ℕ) : Set (ℕ → α) :=
  {x | (∀ i, 0 ≤ x i ∧ x i ≤ 1) ∧ ∀ i, n ≤ i → x i = 0}

theorem convex_unitBox : Convex α (unitBox n : Set (ℕ → α)) := by
  intro x hx y hy s t hs ht hst
  refine ⟨fun i => ?_, fun i hi => ?_⟩
  · have := hx.1 i
    have := hy.1 i
    simp only [Pi.add_apply, Pi.smul_apply, smul_eq_mul]
    constructor <;> nlinarith
  · simp [hx.2 i hi, hy.2 i hi]

theorem sum_nonneg_of_mem_unitBox {x : ℕ → α} (h : x ∈ unitBox n) :
    0 ≤ ∑ i ∈ Finset.range n, x i :=
  Finset.sum_nonneg fun i _ => (h.1 i).1

theorem sum_le_of_mem_unitBox {x : ℕ → α} (h : x ∈ unitBox n) :
    ∑ i ∈ Finset.range n, x i ≤ n := by
  have hle := Finset.sum_le_card_nsmul (Finset.range n) x 1 fun i _ => (h.1 i).2
  simpa using hle

def sumBox (n : ℕ) (lower upper : α) : Set (ℕ → α) :=
  {x | x ∈ unitBox n ∧ lower ≤ ∑ i ∈ Finset.range n, x i ∧ ∑ i ∈ Finset.range n, x i ≤ upper}

/-- The point that is shifted and clipped approaches the target from no point of the box by more
than the shift makes of the difference of the sums. -/
theorem approach_le_of_shift {shift : α} (hpoint : ∀ i < n, point i = clip (target i - shift))
    {x : ℕ → α} (hx : ∀ i < n, 0 ≤ x i ∧ x i ≤ 1) :
    approach n target point x ≤
      shift * (∑ i ∈ Finset.range n, x i - ∑ i ∈ Finset.range n, point i) := by
  rw [← Finset.sum_sub_distrib, Finset.mul_sum]
  refine Finset.sum_le_sum fun i hi => ?_
  rw [hpoint i (Finset.mem_range.mp hi)]
  obtain ⟨h₀, h₁⟩ := hx i (Finset.mem_range.mp hi)
  exact sub_clip_mul_le _ _ h₀ h₁

theorem coordinate_map_of_lt {f : α → α} {xs : List α} {i : ℕ} (h : i < xs.length) :
    coordinate (xs.map f) i = f (coordinate xs i) :=
  coordinate_map (getElem?_eq_some_coordinate h)

theorem coordinate_mem_unitBox {xs : List α} (h : ∀ x ∈ xs, 0 ≤ x ∧ x ≤ 1) :
    coordinate xs ∈ unitBox xs.length := by
  refine ⟨fun i => ?_, fun i hi => coordinate_of_length_le hi⟩
  by_cases hi : i < xs.length
  · have hget := getElem?_eq_some_coordinate hi
    exact h _ (List.mem_of_getElem? hget)
  · rw [coordinate_of_length_le (not_lt.mp hi)]
    exact ⟨le_rfl, zero_le_one⟩

/-- A shifted and clipped target is the nearest point of the box with a sum within bounds when every
other such sum lies on the side that the shift comes from. -/
theorem isNearest_map_clip {xs : List α} {shift lower upper sum : α}
    (hsum : (xs.map fun x => clip (x - shift)).sum = sum) (hmem : lower ≤ sum ∧ sum ≤ upper)
    (hside : ∀ other, lower ≤ other → other ≤ upper → shift * (other - sum) ≤ 0) :
    coordinate (xs.map fun x => clip (x - shift)) ∈ sumBox xs.length lower upper ∧
      IsNearest xs.length (sumBox xs.length lower upper) (coordinate xs)
        (coordinate (xs.map fun x => clip (x - shift))) := by
  have hlen : (xs.map fun x => clip (x - shift)).length = xs.length := List.length_map ..
  have hrange : ∑ i ∈ Finset.range xs.length,
      coordinate (xs.map fun x => clip (x - shift)) i = sum := by
    rw [← sum_eq_sum_coordinate hlen.le, hsum]
  constructor
  · refine ⟨hlen ▸ coordinate_mem_unitBox fun y hy => ?_, hrange.symm ▸ hmem⟩
    obtain ⟨x, _, rfl⟩ := List.mem_map.mp hy
    exact ⟨clip_nonneg _, clip_le_one _⟩
  · rintro x ⟨hx, hlower, hupper⟩
    refine (approach_le_of_shift (fun i hi => coordinate_map_of_lt hi) fun i _ => hx.1 i).trans ?_
    rw [hrange]
    exact hside _ hlower hupper

theorem box_eq_self {xs : List α} {n : ℕ} (h : coordinate xs ∈ unitBox n) : box xs = xs := by
  have hclip : ∀ x ∈ xs, clip x = id x := by
    intro x hx
    obtain ⟨i, hi⟩ := List.mem_iff_getElem?.mp hx
    have hunit := h.1 i
    rw [coordinate_of_getElem? hi] at hunit
    exact clip_of_mem hunit.1 hunit.2
  exact (List.map_congr_left hclip).trans (List.map_id xs)

end Projection

namespace Complement

def map (marks : List Bool) (x : ℕ → α) (i : ℕ) : α :=
  if marks[i]?.getD false then 1 - x i else x i

@[simp] theorem map_map (marks : List Bool) (x : ℕ → α) : map marks (map marks x) = x := by
  funext i
  unfold map
  split_ifs
  · exact sub_sub_cancel 1 _
  · rfl

theorem coordinate_point {marks : List Bool} {xs : List α} (h : marks.length = xs.length) :
    coordinate (point marks xs) = map marks (coordinate xs) := by
  funext i
  by_cases hi : i < xs.length
  · have hm : i < marks.length := h ▸ hi
    simp [coordinate, point, map, hi, hm]
  · have hm : marks[i]? = none := List.getElem?_eq_none (by omega)
    simp [coordinate, point, map, hi, hm]

theorem map_segment (marks : List Bool) (x y : ℕ → α) {s t : α} (h : s + t = 1) :
    map marks (s • x + t • y) = s • map marks x + t • map marks y := by
  funext i
  simp only [map, Pi.add_apply, Pi.smul_apply, smul_eq_mul]
  split_ifs
  · linear_combination -h
  · rfl

theorem map_mem_convexHull (marks : List Bool) {S T : Set (ℕ → α)}
    (h : ∀ x ∈ S, map marks x ∈ T) {x : ℕ → α} (hx : x ∈ convexHull α S) :
    map marks x ∈ convexHull α T := by
  have hconvex : Convex α {x | map marks x ∈ convexHull α T} := by
    intro x hx y hy s t hs ht hst
    change map marks (s • x + t • y) ∈ convexHull α T
    rw [map_segment marks x y hst]
    exact convex_convexHull α T hx hy hs ht hst
  refine convexHull_min (fun z hz => ?_) hconvex hx
  change map marks z ∈ convexHull α T
  exact subset_convexHull α T (h z hz)

theorem approach_map (marks : List Bool) (n : ℕ) (target point x : ℕ → α) :
    Projection.approach n (map marks target) (map marks point) (map marks x) =
      Projection.approach n target point x := by
  refine Finset.sum_congr rfl fun i _ => ?_
  unfold map
  split_ifs
  · ring
  · rfl

end Complement
end MapInference
