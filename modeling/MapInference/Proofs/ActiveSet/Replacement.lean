import MapInference.Proofs.ActiveSet.Steps
import MapInference.Proofs.ActiveSet.Inversion
import MapInference.Proofs.Oracle.Pair

/-!
# Replacements in active sets

A configuration whose indicator is an affine combination of the active ones takes the place of one
of them: weight moves onto it until the first active configuration has none left. As long as no
pivot, Schur complement or positive coefficient is taken for zero that is not, no weight is cut off
on the way, the inverse is found again and the marginals stay the same.
-/

namespace MapInference

open Scalar
variable {α C : Type} [ExactScalar α] {o : Oracle α C} {IsConfiguration : C → Prop}

namespace Scalar

theorem dot_concat {ws xs : List α} (hlen : ws.length = xs.length) (w x : α) :
    dot (ws ++ [w]) (xs ++ [x]) = dot ws xs + w * x := by
  simp only [dot, total_eq_sum, List.zipWith_append hlen, List.sum_append, List.zipWith_cons_cons,
    List.zipWith_nil_right, List.sum_singleton]

theorem dot_eraseIdx_add {ws xs : List α} {i : ℕ} (hi : i < ws.length) :
    dot (ws.eraseIdx i) (xs.eraseIdx i) + coordinate ws i * coordinate xs i = dot ws xs := by
  have hk : ws.length - 1 + 1 = ws.length := Nat.sub_add_cancel (Nat.one_le_of_lt hi)
  rw [dot_eq_sum (n := ws.length - 1) (by rw [List.length_eraseIdx_of_lt hi]), dot_eq_sum le_rfl]
  simp only [Matrix.coordinate_eraseIdx]
  rw [Matrix.sum_skip (by omega : i ≤ ws.length - 1) fun l => coordinate ws l * coordinate xs l, hk,
    sub_add_cancel]

theorem dot_combination {us ws vs : List α} {k : ℕ} (hu : us.length ≤ k) (hw : ws.length ≤ k)
    (hv : vs.length ≤ k) {a b : α}
    (h : ∀ j < k, coordinate us j = a * coordinate ws j + b * coordinate vs j) (xs : List α) :
    dot us xs = a * dot ws xs + b * dot vs xs := by
  rw [dot_eq_sum hu, dot_eq_sum hw, dot_eq_sum hv, Finset.mul_sum, Finset.mul_sum,
    ← Finset.sum_add_distrib]
  refine Finset.sum_congr rfl fun j hj => ?_
  rw [h j (Finset.mem_range.mp hj)]
  ring

end Scalar

namespace ActiveSet

open MapInference.Matrix (entry IsInverse)

variable {s : ActiveSet α C} {c : C} {cs : List C} {ws : List α}

def pivot (s : ActiveSet α C) (i : ℕ) : α := entry s.inverse (i + 1) (i + 1)

theorem sum_sq_combination (a : ℕ → α) (rows : ℕ → ℕ → α) (k n : ℕ) :
    ∑ t ∈ Finset.range n, (∑ j ∈ Finset.range k, a j * rows t j) ^ 2 =
      ∑ j ∈ Finset.range k, a j * ∑ t ∈ Finset.range n,
        rows t j * ∑ l ∈ Finset.range k, a l * rows t l := by
  calc ∑ t ∈ Finset.range n, (∑ j ∈ Finset.range k, a j * rows t j) ^ 2
      = ∑ t ∈ Finset.range n, ∑ j ∈ Finset.range k,
          a j * (rows t j * ∑ l ∈ Finset.range k, a l * rows t l) := by
        refine Finset.sum_congr rfl fun t _ => ?_
        rw [sq, Finset.sum_mul]
        exact Finset.sum_congr rfl fun j _ => mul_assoc _ _ _
    _ = _ := by
        rw [Finset.sum_comm]
        exact Finset.sum_congr rfl fun j _ => (Finset.mul_sum _ _ _).symm

/-- The pivot of a column is the squared length of an average that is balanced, so that it is zero
only where the other configurations leave no room for another multiplier. -/
theorem HasInverse.pivot_ne_zero (ho : o.HasInnerProducts IsConfiguration)
    (h : s.HasInverse o IsConfiguration) (htwo : 2 ≤ s.configurations.length) {i : ℕ}
    (hi : i < s.configurations.length) : s.pivot i ≠ 0 := by
  intro hzero
  let k := s.configurations.length
  let column (l : ℕ) : α := entry s.inverse l (i + 1)
  let average (t : ℕ) : α :=
    ∑ l ∈ Finset.range k, column (l + 1) * coordinate (o.column s.configurations t) l
  have hsum : ∑ l ∈ Finset.range k, column (l + 1) = 0 := by
    have hfirst := h.isInverse.symm 0 (Nat.succ_pos _) (i + 1) (Nat.succ_lt_succ hi)
    rwa [sum_entry_borderedMatrix_zero, if_neg (Nat.succ_ne_zero i).symm] at hfirst
  have hrow (j : ℕ) (hj : j < k) : column 0 + ∑ t ∈ Finset.range o.numVariables,
      coordinate (o.column s.configurations t) j * average t = if j = i then 1 else 0 := by
    have hsolve := h.isInverse.symm (j + 1) (Nat.succ_lt_succ hj) (i + 1) (Nat.succ_lt_succ hi)
    rw [sum_entry_borderedMatrix_succ o ho h.isConfiguration column hj] at hsolve
    simpa only [Nat.add_right_cancel_iff] using hsolve
  -- The rows, weighted by the column itself.
  have hlength : ∑ t ∈ Finset.range o.numVariables, average t ^ 2 = 0 := by
    calc ∑ t ∈ Finset.range o.numVariables, average t ^ 2
        = ∑ j ∈ Finset.range k, column (j + 1) * ∑ t ∈ Finset.range o.numVariables,
            coordinate (o.column s.configurations t) j * average t :=
          sum_sq_combination (fun l => column (l + 1))
            (fun t => coordinate (o.column s.configurations t)) k o.numVariables
      _ = ∑ j ∈ Finset.range k, column (j + 1) * (column 0 +
            ∑ t ∈ Finset.range o.numVariables,
              coordinate (o.column s.configurations t) j * average t) := by
          simp only [mul_add, Finset.sum_add_distrib]
          rw [← Finset.sum_mul, hsum, zero_mul, zero_add]
      _ = ∑ j ∈ Finset.range k, column (j + 1) * if j = i then 1 else 0 :=
          Finset.sum_congr rfl fun j hj => by rw [hrow j (Finset.mem_range.mp hj)]
      _ = 0 := by
          simp only [mul_ite, mul_one, mul_zero, Finset.sum_ite_eq', Finset.mem_range]
          rw [if_pos hi]
          exact hzero
  have haverage (t : ℕ) (ht : t < o.numVariables) : average t = 0 := by
    rw [Finset.sum_eq_zero_iff_of_nonneg fun _ _ => sq_nonneg _] at hlength
    exact pow_eq_zero_iff two_ne_zero |>.mp (hlength t (Finset.mem_range.mpr ht))
  have hconstant (j : ℕ) (hj : j < k) : column 0 = if j = i then 1 else 0 := by
    have hrest : ∑ t ∈ Finset.range o.numVariables,
        coordinate (o.column s.configurations t) j * average t = 0 := by
      refine Finset.sum_eq_zero fun t ht => ?_
      rw [haverage t (Finset.mem_range.mp ht), mul_zero]
    rw [← hrow j hj, hrest, add_zero]
  obtain ⟨j, hj, hne⟩ : ∃ j < k, j ≠ i := by
    rcases Nat.eq_zero_or_pos i with rfl | hpos
    · exact ⟨1, htwo, one_ne_zero⟩
    · exact ⟨0, h.length_pos, hpos.ne⟩
  have hone := hconstant i hi
  rw [hconstant j hj, if_neg hne, if_pos rfl] at hone
  exact zero_ne_one hone

/-- The tolerance hides nothing from the removal of the configuration `i`, or from the elimination
that is left for it when its pivot is too small. -/
def IsRemovable (o : Oracle α C) (s : ActiveSet α C) (i : ℕ) : Prop :=
  IsZeroOrLarge (s.pivot i) ∨
    ∀ x ∈ Matrix.pivots (borderedMatrix o (s.configurations.eraseIdx i)), IsZeroOrLarge x

instance (i : ℕ) : Decidable (IsRemovable o s i) := inferInstanceAs (Decidable (_ ∨ _))

theorem exists_rebuilt_eq {x : ℕ → ℕ → α} (hne : s.configurations ≠ [])
    (hx : IsInverse (s.configurations.length + 1) x (entry (borderedMatrix o s.configurations)))
    (hpivots : ∀ x ∈ Matrix.pivots (borderedMatrix o s.configurations), IsZeroOrLarge x) :
    ∃ inverse, rebuilt o s = { s with inverse } := by
  have hsquare := isSquare_borderedMatrix o s.configurations
  obtain ⟨inverse, hinvert⟩ := (hx.isRegular hsquare).exists_invert hsquare hpivots
  refine ⟨inverse, ?_⟩
  rw [rebuilt, if_neg (by simpa [isEmpty] using hne), hinvert]

theorem HasInverse.exists_remove_eq (ho : o.HasInnerProducts IsConfiguration)
    (h : s.HasInverse o IsConfiguration) (htwo : 2 ≤ s.configurations.length) {i : ℕ}
    (hi : i < s.configurations.length) (hremovable : IsRemovable o s i) :
    ∃ inverse, remove o s i = ⟨s.configurations.eraseIdx i, s.weights.eraseIdx i, inverse⟩ := by
  have hne := h.pivot_ne_zero ho htwo hi
  by_cases hsmall : |s.pivot i| < Matrix.pivotTolerance
  · -- the downdated inverse exists, although it is not computed
    have hinverse := (h.isInverse_downdated hi hne).2
    have hleft : s.configurations.eraseIdx i ≠ [] := by
      rw [← List.length_pos_iff, List.length_eraseIdx_of_lt hi]
      omega
    have hpivots := hremovable.resolve_left fun hpivot => hne (hpivot.eq_zero hsmall)
    obtain ⟨inverse, hrebuilt⟩ := exists_rebuilt_eq
      (s := { s with configurations := s.configurations.eraseIdx i
                     weights := s.weights.eraseIdx i }) hleft hinverse hpivots
    exact ⟨inverse, (if_pos hsmall).trans hrebuilt⟩
  · exact ⟨_, if_neg hsmall⟩

theorem normalised_of_sum_eq_one (h : s.weights.sum = 1) : s.normalised = s := by
  have hweights := weights_normalised (s := s) (h ▸ one_pos)
  simp only [h, div_one, List.map_id'] at hweights
  rw [normalised, total_eq_sum, if_pos (h ▸ one_pos)]
  simp [h]

theorem dot_map_one (hlen : ws.length = cs.length) : dot ws (cs.map fun _ => (1 : α)) = ws.sum := by
  rw [dot_eq_sum hlen.le, sum_eq_sum_coordinate hlen.le]
  refine Finset.sum_congr rfl fun i hi => ?_
  rw [coordinate_map (List.getElem?_eq_getElem (Finset.mem_range.mp hi)), mul_one]

theorem dot_eraseIdx_of_eq_zero {i : ℕ} (hi : i < ws.length) (hzero : coordinate ws i = 0)
    (f : C → α) : dot (ws.eraseIdx i) ((cs.eraseIdx i).map f) = dot ws (cs.map f) := by
  rw [← List.eraseIdx_map, ← dot_eraseIdx_add hi, hzero, zero_mul, add_zero]

theorem sum_eq_of_forall_dot_eq {cs' : List C} {ws' : List α} (hlen : ws.length = cs.length)
    (hlen' : ws'.length = cs'.length) (h : ∀ f : C → α, dot ws' (cs'.map f) = dot ws (cs.map f)) :
    ws'.sum = ws.sum := by
  rw [← dot_map_one hlen, ← dot_map_one hlen', h]

theorem le_of_blocking? {coefficients : List α} {i : ℕ} {amount : α}
    (h : s.blocking? coefficients = some (i, amount))
    (hlen : coefficients.length = s.weights.length) {j : ℕ} (hj : j < s.weights.length)
    (hlarge : Matrix.pivotTolerance < coordinate coefficients j) :
    amount ≤ coordinate s.weights j / coordinate coefficients j := by
  rw [blocking?_eq] at h
  exact Extremum.le_of_firstLeast? h _ (mem_ratios_iff.mpr ⟨⟨hlen ▸ hj, hj⟩, hlarge, rfl⟩)

theorem exists_blocking? {coefficients : List α} (hlen : coefficients.length = s.weights.length)
    (hsum : coefficients.sum = 1)
    (hregular : ∀ a ∈ coefficients, a ≤ 0 ∨ Matrix.pivotTolerance < a) :
    ∃ i amount, s.blocking? coefficients = some (i, amount) := by
  obtain ⟨a, ha, hpos⟩ : ∃ a ∈ coefficients, 0 < a :=
    List.exists_lt_of_sum_lt (fun _ => 0) id (by simp [hsum])
  obtain ⟨j, hj, rfl⟩ := List.mem_iff_getElem.mp ha
  have hlarge := (hregular _ ha).resolve_left (not_le.mpr hpos)
  rw [← coordinate_of_getElem? (List.getElem?_eq_getElem hj)] at hlarge
  cases hblocking : s.blocking? coefficients with
  | some block => exact ⟨block.1, block.2, rfl⟩
  | none =>
    rw [blocking?_eq, Extremum.firstLeast?_eq_none_iff] at hblocking
    exact absurd (mem_ratios_iff.mpr ⟨⟨hj, hlen ▸ hj⟩, hlarge, rfl⟩)
      (List.eq_nil_iff_forall_not_mem.mp hblocking _)

section Moved

variable {coefficients : List α} {i : ℕ} {amount : α}

theorem moved_eq (h : s.IsSound o IsConfiguration)
    (hlen : coefficients.length = s.configurations.length)
    (hregular : ∀ a ∈ coefficients, a ≤ 0 ∨ Matrix.pivotTolerance < a)
    (hblocking : s.blocking? coefficients = some (i, amount)) :
    List.zipWith (fun w a => larger (w - amount * a) 0) s.weights coefficients =
      List.zipWith (fun w a => w - amount * a) s.weights coefficients := by
  have hlen' : coefficients.length = s.weights.length := hlen.trans h.length_weights.symm
  refine eq_of_coordinate (by simp) fun j hj => ?_
  have hj : j < s.weights.length := by
    rw [List.length_zipWith] at hj
    omega
  rw [coordinate_zipWith hj (hlen' ▸ hj), coordinate_zipWith hj (hlen' ▸ hj), larger_eq_max,
    max_eq_left]
  rcases hregular (coordinate coefficients j)
      (List.mem_of_getElem? (getElem?_eq_some_coordinate (hlen' ▸ hj))) with hnegative | hlarge
  · have hmoves := mul_nonpos_of_nonneg_of_nonpos (h.amount_nonneg hblocking) hnegative
    linarith [h.coordinate_weights_nonneg j]
  · have hratio := le_of_blocking? hblocking hlen' hj hlarge
    rw [le_div_iff₀ (Matrix.pivotTolerance_pos.trans hlarge)] at hratio
    linarith

theorem coordinate_moved_eq_zero (hlen : coefficients.length = s.weights.length)
    (hblocking : s.blocking? coefficients = some (i, amount)) :
    coordinate (List.zipWith (fun w a => w - amount * a) s.weights coefficients) i = 0 := by
  obtain ⟨hi, hlarge, rfl⟩ := of_blocking? hblocking
  rw [coordinate_zipWith hi (hlen ▸ hi),
    div_mul_cancel₀ _ (Matrix.pivotTolerance_pos.trans hlarge).ne', sub_self]

theorem exists_withdrawn_eq (ho : o.HasInnerProducts IsConfiguration)
    (h : s.IsSound o IsConfiguration) (htwo : 2 ≤ s.configurations.length)
    (hlen : coefficients.length = s.configurations.length)
    (hregular : ∀ a ∈ coefficients, a ≤ 0 ∨ Matrix.pivotTolerance < a)
    (hblocking : s.blocking? coefficients = some (i, amount)) (hremovable : IsRemovable o s i) :
    ∃ inverse, withdrawn o s coefficients i amount = ⟨s.configurations.eraseIdx i,
      (List.zipWith (fun w a => w - amount * a) s.weights coefficients).eraseIdx i, inverse⟩ := by
  have hi : i < s.configurations.length := h.length_weights ▸ (of_blocking? hblocking).1
  have hmoved := (isSound_moved h hlen fun w a => w - amount * a).set_zero i
  obtain ⟨inverse, hremove⟩ := hmoved.toHasInverse.exists_remove_eq ho htwo hi hremovable
  refine ⟨inverse, ?_⟩
  rw [withdrawn, hremove, List.eraseIdx_set_eq, moved_eq h hlen hregular hblocking]

end Moved

/-- The averages after an exchange of the configuration `i`, which has no weight left, for `c`. -/
theorem dot_exchanged (hlen : ws.length = cs.length) {coefficients : List α}
    (hcoefficients : coefficients.length = cs.length) {i : ℕ} (hi : i < cs.length) {amount : α}
    (hleft : coordinate (List.zipWith (fun w a => w - amount * a) ws coefficients) i = 0) (c : C)
    (f : C → α) :
    dot ((List.zipWith (fun w a => w - amount * a) ws coefficients).eraseIdx i ++ [amount])
        ((cs.eraseIdx i ++ [c]).map f) =
      dot ws (cs.map f) + amount * (f c - dot coefficients (cs.map f)) := by
  have hrest : (List.zipWith (fun w a => w - amount * a) ws coefficients).length = cs.length := by
    simp [hlen, hcoefficients]
  have hcombination := dot_combination (a := 1) (b := -amount) hrest.le hlen.le hcoefficients.le
    (fun j hj => by rw [coordinate_zipWith (hlen ▸ hj) (hcoefficients ▸ hj)]; ring) (cs.map f)
  rw [List.map_append, List.map_singleton, dot_concat, dot_eraseIdx_of_eq_zero (hrest ▸ hi) hleft f,
    hcombination]
  · ring
  · rw [List.length_eraseIdx_of_lt (hrest ▸ hi), List.length_map, List.length_eraseIdx_of_lt hi,
      hrest]

/-- A configuration that depends on the active ones takes the place of one of them. -/
theorem exists_exchange_eq (ho : o.HasInnerProducts IsConfiguration)
    (h : s.IsSound o IsConfiguration) (hone : s.weights.sum = 1)
    (htwo : 2 ≤ s.configurations.length) (hc : IsConfiguration c) (hzero : schur o s c = 0)
    (hregular : ∀ a ∈ coefficients o s c, a ≤ 0 ∨ Matrix.pivotTolerance < a) {i : ℕ} {amount : α}
    (hblocking : s.blocking? (coefficients o s c) = some (i, amount))
    (hremovable : IsRemovable o s i)
    (hschur : IsZeroOrLarge (schur o (withdrawn o s (coefficients o s c) i amount) c)) :
    ∃ t, exchange o s c (coefficients o s c) = .exchanged t ∧ t.IsSound o IsConfiguration ∧
      t.weights.sum = 1 ∧ t.configurations = s.configurations.eraseIdx i ++ [c] ∧
      ∀ f : C → α, dot t.weights (t.configurations.map f) = dot s.weights (s.configurations.map f) +
        amount * (f c - dot (coefficients o s c) (s.configurations.map f)) := by
  have hlen := h.length_coefficients ho c
  have hi : i < s.configurations.length := h.length_weights ▸ (of_blocking? hblocking).1
  have hpositive : 0 < coordinate (coefficients o s c) i :=
    Matrix.pivotTolerance_pos.trans (of_blocking? hblocking).2.1
  have hrest := isSound_withdrawn h htwo hlen hblocking
  obtain ⟨inverse, hwithdrawn⟩ :=
    exists_withdrawn_eq ho h htwo hlen hregular hblocking hremovable
  -- the configuration does not depend on those that are left
  have hne := h.schur_ne_zero_of_eraseIdx ho hc hrest.toHasInverse hi (by rw [hwithdrawn])
    hpositive.ne' hzero
  have hexchange := exchange_eq_exchanged (c := c) hblocking hrest.inverse_ne_nil
    (not_lt.mpr (hschur.resolve_left hne))
  have hsound := isSound_replaced ho h htwo hlen hblocking hc hne
  let t := replaced o s c (coefficients o s c) i amount
  have hconf : t.configurations = s.configurations.eraseIdx i ++ [c] := by
    simp only [t, replaced, hwithdrawn]
  have hdot (f : C → α) : dot t.weights (t.configurations.map f) =
      dot s.weights (s.configurations.map f) +
        amount * (f c - dot (coefficients o s c) (s.configurations.map f)) := by
    rw [hconf, ← dot_exchanged h.length_weights hlen hi
      (coordinate_moved_eq_zero (hlen.trans h.length_weights.symm) hblocking) c f]
    simp only [t, replaced, hwithdrawn]
  have hsum : t.weights.sum = 1 := by
    rw [← dot_map_one hsound.length_weights, hdot, dot_map_one h.length_weights, dot_map_one hlen,
      hone, h.sum_coefficients ho c, sub_self, mul_zero, add_zero]
  rw [normalised_of_sum_eq_one hsum] at hexchange
  exact ⟨t, hexchange, hsound, hsum, hconf, hdot⟩

theorem eq_coefficients_of_insert {reported : List α} (h : s.inverse ≠ [])
    (hinsert : insert o s c = .dependent reported) : reported = coefficients o s c := by
  by_cases hlt : |schur o s c| < Matrix.pivotTolerance
  · rw [insert_of_lt h hlt] at hinsert
    exact (Insertion.dependent.inj hinsert).symm
  · rw [insert_of_not_lt h hlt] at hinsert
    cases hinsert

/-- A configuration whose indicator is a combination of the active ones has no Schur complement. -/
theorem HasInverse.schur_eq_zero_of_indicator (ho : o.HasInnerProducts IsConfiguration)
    (h : s.HasInverse o IsConfiguration) (hc : IsConfiguration c)
    (hindicator : ∀ t < o.numVariables,
      coordinate (o.indicator c).1 t = dot (coefficients o s c) (o.column s.configurations t)) :
    schur o s c = 0 := by
  rw [h.schur_eq_sum_sq ho hc]
  refine Finset.sum_eq_zero fun t ht => ?_
  rw [hindicator t (Finset.mem_range.mp ht), sub_self, zero_pow two_ne_zero]

theorem marginals_congr (ho : o.HasInnerProducts IsConfiguration) {t : ActiveSet α C}
    (hs : ∀ c ∈ s.configurations, IsConfiguration c)
    (ht : ∀ c ∈ t.configurations, IsConfiguration c)
    (h : ∀ j < o.numVariables,
      dot t.weights (o.column t.configurations j) = dot s.weights (o.column s.configurations j)) :
    (t.marginals o).1 = (s.marginals o).1 := by
  obtain ⟨hlen, -, hcoordinate, -⟩ := marginals_eq_dot ho hs
  obtain ⟨hlen', -, hcoordinate', -⟩ := marginals_eq_dot ho ht
  refine eq_of_coordinate (hlen'.trans hlen.symm) fun j hj => ?_
  have hj : j < o.numVariables := hlen' ▸ hj
  rw [hcoordinate' j hj, hcoordinate j hj, h j hj]

/-- An exchange keeps the marginals. For every oracle that counts what the indicators have in
common, every sound active set of at least two configurations with weights that sum to one, and
every configuration, active or not, whose indicator is the combination of the active ones with the
coefficients that its insertion reports: the configuration takes the place of an active one, with
the exact inverse and with weights that are not negative and sum to one, and the average indicator
of the variables stays the same. The tolerance must not hide a positive coefficient, a pivot of the
removal or the Schur complement of the second insertion. -/
theorem marginals_exchange (ho : o.HasInnerProducts IsConfiguration)
    (h : s.IsSound o IsConfiguration) (hone : s.weights.sum = 1)
    (htwo : 2 ≤ s.configurations.length) (hc : IsConfiguration c) {reported : List α}
    (hinsert : insert o s c = .dependent reported)
    (hindicator : ∀ t < o.numVariables,
      coordinate (o.indicator c).1 t = dot reported (o.column s.configurations t))
    (hregular : ∀ a ∈ reported, a ≤ 0 ∨ Matrix.pivotTolerance < a)
    (hlarge : ∀ i amount, s.blocking? reported = some (i, amount) →
      IsRemovable o s i ∧ IsZeroOrLarge (schur o (withdrawn o s reported i amount) c)) :
    ∃ t, exchange o s c reported = .exchanged t ∧ t.IsSound o IsConfiguration ∧
      t.weights.sum = 1 ∧ t.configurations.length = s.configurations.length ∧
      (∃ i < s.configurations.length, t.configurations = s.configurations.eraseIdx i ++ [c]) ∧
      (t.marginals o).1 = (s.marginals o).1 := by
  obtain rfl := eq_coefficients_of_insert h.inverse_ne_nil hinsert
  have hlen := h.length_coefficients ho c
  have hzero := h.schur_eq_zero_of_indicator ho hc hindicator
  obtain ⟨i, amount, hblocking⟩ := exists_blocking? (hlen.trans h.length_weights.symm)
    (h.sum_coefficients ho c) hregular
  have hi : i < s.configurations.length := h.length_weights ▸ (of_blocking? hblocking).1
  obtain ⟨hremovable, hschur⟩ := hlarge i amount hblocking
  obtain ⟨t, hexchange, hsound, hsum, hconf, hdot⟩ :=
    exists_exchange_eq ho h hone htwo hc hzero hregular hblocking hremovable hschur
  refine ⟨t, hexchange, hsound, hsum, ?_, ⟨i, hi, hconf⟩, ?_⟩
  · rw [hconf, List.length_append, List.length_eraseIdx_of_lt hi, List.length_singleton]
    omega
  · refine marginals_congr ho h.isConfiguration hsound.isConfiguration fun j hj => ?_
    have hsame := hindicator j hj
    unfold Oracle.column at hsame ⊢
    rw [hdot, hsame, sub_self, mul_zero, add_zero]

/-- The last assignment of a pair of variables takes the place of one of the other three: two of
these lose weight, and the third one gains some. -/
theorem marginals_exchange_pair :
    let o : Oracle ℚ (Bool × Bool) := Pair.oracle
    let s : ActiveSet ℚ (Bool × Bool) :=
      ⟨[(false, false), (true, false), (false, true)], [1 / 4, 1 / 4, 1 / 2],
        [[0, 1, 0, 0], [1, 2, -1, -1], [0, -1, 1, 0], [0, -1, 0, 1]]⟩
    s.IsSound o (fun _ => True) ∧ insert o s (true, true) = .dependent [-1, 1, 1] ∧
      s.blocking? [-1, 1, 1] = some (1, 1 / 4) ∧ (s.marginals o).1 = [1 / 4, 1 / 2] ∧
      ∃ t, exchange o s (true, true) [-1, 1, 1] = .exchanged t ∧ t.IsSound o (fun _ => True) ∧
        t.weights.sum = 1 ∧ t.configurations.length = 3 ∧
        (∃ i < 3, t.configurations = s.configurations.eraseIdx i ++ [(true, true)]) ∧
        (t.marginals o).1 = [1 / 4, 1 / 2] := by
  intro o s
  have ho := (Pair.hasTrueIndices (α := ℚ)).hasIndicators.hasInnerProducts
  obtain ⟨hsquare, hinverse⟩ := Matrix.isInverse_invert
    (isSquare_borderedMatrix o s.configurations)
    (show Matrix.invert (borderedMatrix o s.configurations) = some s.inverse by decide +kernel)
  have hsound : s.IsSound o fun _ => True :=
    ⟨⟨by simp [s], fun _ _ => trivial, by decide, hsquare, hinverse⟩, rfl, by decide +kernel⟩
  have hinsert : insert o s (true, true) = .dependent [-1, 1, 1] :=
    (insert_of_lt hsound.inverse_ne_nil (by decide +kernel)).trans
      (congrArg Insertion.dependent (by decide +kernel))
  have hblocking : s.blocking? [-1, 1, 1] = some (1, 1 / 4) := by decide +kernel
  have hmarginals : (s.marginals o).1 = [1 / 4, 1 / 2] := by decide +kernel
  have hexchange := marginals_exchange ho hsound (by decide +kernel) (by decide) trivial hinsert
    (by decide +kernel) (by decide +kernel) fun i amount h => by
      rw [hblocking] at h
      obtain ⟨rfl, rfl⟩ := Prod.mk.inj (Option.some.inj h)
      exact ⟨by decide +kernel, by decide +kernel⟩
  rw [hmarginals] at hexchange
  exact ⟨hsound, hinsert, hblocking, hmarginals, hexchange⟩

end ActiveSet
end MapInference
