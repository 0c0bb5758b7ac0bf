import Mathlib
import MapInference.Extremum

/-!
# Exact arithmetic

The laws of the solver are laws of exact arithmetic: the scalars are the elements of a linearly
ordered field, in which every value is a number. What no ordered field has to offer, a square root, a
rounding, a test for integers and a least value, may be any function, so that nothing that is
proved here rests on it.
-/

namespace MapInference

/-- A linearly ordered field with some functions in place of the other operations of the solver. -/
class ExactScalar (α : Type) extends Field α, LinearOrder α, IsStrictOrderedRing α where
  sqrt : α → α
  round : α → α
  toInt? : α → Option Int
  lowest : α

instance ExactScalar.toScalar {α : Type} [ExactScalar α] : Scalar α where
  decLE := inferInstance
  decLT := inferInstance
  ofNat n := n
  abs x := |x|
  sqrt := ExactScalar.sqrt
  round := ExactScalar.round
  toInt? := ExactScalar.toInt?
  precedes x y := decide (x ≤ y)
  lowest := ExactScalar.lowest

/-- The rational numbers, with a square root that is exact for squares. -/
instance : ExactScalar ℚ where
  sqrt x := Nat.sqrt x.num.natAbs / Nat.sqrt x.den
  round x := if x < 0 then -⌊1 / 2 - x⌋ else ⌊x + 1 / 2⌋
  toInt? x := if x.den = 1 then some x.num else none
  lowest := 0

namespace Scalar

variable {α : Type} [ExactScalar α]

@[simp] theorem isNumber_eq_true (x : α) : isNumber x = true := by simp [isNumber]

@[simp] theorem isFinite_eq_true (x : α) : isFinite x = true := by simp [isFinite]

@[simp] theorem belowTop_eq_true (x : α) : belowTop x = true := by simp [belowTop]

@[simp] theorem aboveBottom_eq_true (x : α) : aboveBottom x = true := by simp [aboveBottom]

@[simp] theorem larger_eq_max (x y : α) : larger x y = max x y := by
  unfold larger
  rcases lt_or_ge x y with h | h
  · simp [h, max_eq_right h.le]
  · simp [not_lt.mpr h, max_eq_left h]

@[simp] theorem smaller_eq_min (x y : α) : smaller x y = min x y := by
  unfold smaller
  rcases lt_or_ge y x with h | h
  · simp [h, min_eq_right h.le]
  · simp [not_lt.mpr h, min_eq_left h]

@[simp] theorem total_eq_sum (xs : List α) : total xs = xs.sum := by
  unfold total
  rw [neg_zero, List.sum_eq_foldl]

@[simp] theorem ofNat_eq_cast (n : ℕ) : (ofNat n : α) = n := rfl

@[simp] theorem abs_eq (x : α) : Scalar.abs x = |x| := rfl

@[simp] theorem precedes_eq (x y : α) : precedes x y = decide (x ≤ y) := rfl

@[simp] theorem coordinate_zeros (n i : ℕ) : coordinate (zeros n : List α) i = 0 := by
  by_cases hi : i < n <;> simp [coordinate, zeros, hi]

theorem coordinate_addAt {xs : List α} {j : ℕ} (h : j < xs.length) (i : ℕ) (weight : α) :
    coordinate (addAt xs i weight) j = coordinate xs j + if i = j then weight else 0 := by
  by_cases hij : i = j
  · simp [coordinate, addAt, hij, h]
  · simp [coordinate, addAt, hij, h]

theorem coordinate_foldl_addAt {indices : List ℕ} (hn : indices.Nodup) {xs : List α} {j : ℕ}
    (h : j < xs.length) (weight : α) :
    coordinate (indices.foldl (fun xs i => addAt xs i weight) xs) j =
      coordinate xs j + if j ∈ indices then weight else 0 := by
  induction indices generalizing xs with
  | nil => simp
  | cons i indices ih =>
    obtain ⟨hi, hn⟩ := List.nodup_cons.mp hn
    rw [List.foldl_cons, ih hn (by simpa using h), coordinate_addAt h, add_assoc]
    by_cases hij : i = j
    · subst hij
      simp [hi]
    · simp [hij, Ne.symm hij]

theorem half_eq : (half : α) = 1 / 2 := by simp [half]

theorem tenTo_eq (k : ℕ) : tenTo k = 10 ^ k := rfl

theorem tenthPower_eq (k : ℕ) : (tenthPower k : α) = 1 / 10 ^ k := by
  simp [tenthPower, tenTo_eq]

end Scalar

theorem eq_map_range {β : Type} {xs : List β} {n : ℕ} {f : ℕ → β} (hlen : xs.length = n)
    (h : ∀ i < n, xs[i]? = some (f i)) : xs = (List.range n).map f := by
  apply List.ext_getElem?
  intro i
  by_cases hi : i < n
  · rw [h i hi, List.getElem?_map, List.getElem?_range hi, Option.map_some]
  · rw [List.getElem?_eq_none (by omega), List.getElem?_eq_none (by simpa using hi)]

/-- A list whose elements are numbered `0, 1, …` in turn has an element for every number. -/
theorem bijOn_of_map_eq_range {β : Type} {index : β → ℕ} {bs : List β} {n : ℕ}
    (h : bs.map index = List.range n) : Set.BijOn index {b | b ∈ bs} (Set.Iio n) := by
  have hmem (i : ℕ) : i ∈ bs.map index ↔ i < n := by rw [h, List.mem_range]
  refine ⟨fun b hb => ?_, fun b hb c hc => ?_, fun i hi => ?_⟩
  · exact (hmem _).mp (List.mem_map_of_mem hb)
  · have hnodup : (bs.map index).Nodup := h ▸ List.nodup_range
    exact List.inj_on_of_nodup_map hnodup hb hc
  · exact List.mem_map.mp ((hmem i).mpr hi)

theorem count_set_add_one {β : Type} [BEq β] [LawfulBEq β] {xs : List β} {i : ℕ} {a b : β}
    (h : xs[i]? = some a) (hne : b ≠ a) : (xs.set i b).count a + 1 = xs.count a := by
  obtain ⟨hi, ha⟩ := List.getElem?_eq_some_iff.mp h
  have hpos : 0 < xs.count a := List.count_pos_iff.mpr (List.mem_of_getElem? h)
  have hset : (xs.set i b).count a = xs.count a - 1 := by simp [List.count_set hi, ha, hne]
  omega

theorem length_le_of_nodup {n : ℕ} {xs : List ℕ} (hn : xs.Nodup) (h : ∀ x ∈ xs, x < n) :
    xs.length ≤ n := by
  have hsub : xs ⊆ List.range n := fun x hx => List.mem_range.mpr (h x hx)
  simpa using (hn.subperm hsub).length_le

end MapInference
