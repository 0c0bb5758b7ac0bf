import MapInference.Proofs.ActiveSet.Insertion

/-!
# Removals and exchanges

A removal leaves an active set with an inverse as long as a configuration is left, by the downdated
inverse, by elimination or with a single configuration. The weights that move before a removal are
cut off at zero, which only raises their sum.
-/

namespace MapInference

open Scalar
variable {α C : Type} [ExactScalar α]

namespace ActiveSet

open MapInference.Matrix (entry skip IsSquare IsInverse)

theorem sum_sub_le_sum_eraseIdx {xs : List α} {k i : ℕ} (hlen : xs.length = k) (hi : i < k)
    {f : ℕ → α} (hf : ∀ j < k, f j ≤ coordinate xs j) :
    ∑ j ∈ Finset.range k, f j - f i ≤ (xs.eraseIdx i).sum := by
  have hk : k - 1 + 1 = k := Nat.sub_add_cancel (Nat.one_le_of_lt hi)
  have hle : i ≤ k - 1 := by omega
  rw [sum_eq_sum_coordinate (by rw [List.length_eraseIdx_of_lt (hlen ▸ hi), hlen] :
    (xs.eraseIdx i).length ≤ k - 1)]
  simp only [Matrix.coordinate_eraseIdx]
  calc ∑ j ∈ Finset.range k, f j - f i
      = ∑ l ∈ Finset.range (k - 1), f (skip i l) := by rw [Matrix.sum_skip hle f, hk]
    _ ≤ _ := by
      refine Finset.sum_le_sum fun l hl => hf _ ?_
      have hlt : skip i l < k - 1 + 1 := Matrix.skip_lt (Finset.mem_range.mp hl)
      omega

theorem sum_pos_of_nonneg_concat {ws : List α} {amount : α} (hamount : 0 ≤ amount)
    (hsum : 1 - amount ≤ ws.sum ∨ ws.sum = 1) : 0 < (ws ++ [amount]).sum := by
  rw [List.sum_append, List.sum_singleton]
  rcases hsum with hsum | hsum
  · linarith
  · linarith

/-- An active set with its inverse and with weights for its configurations. -/
structure IsSound (o : Oracle α C) (IsConfiguration : C → Prop) (s : ActiveSet α C) : Prop
    extends s.HasInverse o IsConfiguration where
  length_weights : s.weights.length = s.configurations.length
  weights_nonneg : ∀ w ∈ s.weights, 0 ≤ w

variable {o : Oracle α C} {IsConfiguration : C → Prop} {s : ActiveSet α C}

theorem IsSound.coordinate_weights_nonneg (h : s.IsSound o IsConfiguration) (i : ℕ) :
    0 ≤ coordinate s.weights i := by
  by_cases hi : i < s.weights.length
  · exact h.weights_nonneg _ (List.mem_of_getElem? (getElem?_eq_some_coordinate hi))
  · exact (coordinate_of_length_le (not_lt.mp hi)).ge

theorem HasInverse.withWeights (h : s.HasInverse o IsConfiguration) (weights : List α) :
    HasInverse o IsConfiguration { s with weights := weights } :=
  ⟨h.ne_nil, h.isConfiguration, h.nodup, h.isSquare, h.isInverse⟩

theorem isSound_singleton {c : C} (hc : IsConfiguration c) :
    (singleton o c).IsSound o IsConfiguration :=
  ⟨hasInverse_singleton hc, rfl, fun _ hw => List.mem_singleton.mp hw ▸ zero_le_one⟩

/-- A configuration with a Schur complement is inserted with any weight that is not negative. -/
theorem IsSound.bordered (ho : o.HasInnerProducts IsConfiguration) (h : s.IsSound o IsConfiguration)
    {c : C} (hc : IsConfiguration c) (hne : schur o s c ≠ 0) {w : α} (hw : 0 ≤ w) :
    IsSound o IsConfiguration ⟨s.configurations ++ [c], s.weights ++ [w],
      Matrix.bordered s.inverse (product o s c) (schur o s c)⟩ := by
  refine ⟨h.toHasInverse.bordered ho hc hne _, by simp [h.length_weights], fun v hv => ?_⟩
  rcases List.mem_append.mp hv with hv | hv
  · exact h.weights_nonneg v hv
  · exact List.mem_singleton.mp hv ▸ hw

theorem sum_weights_singleton (c : C) : (singleton o c).weights.sum = 1 := List.sum_singleton

theorem isSound_normalised (h : s.IsSound o IsConfiguration) :
    s.normalised.IsSound o IsConfiguration := by
  unfold normalised
  dsimp only
  split_ifs with hpos
  · refine ⟨h.withWeights _, (List.length_map _).trans h.length_weights, fun w hw => ?_⟩
    obtain ⟨v, hv, rfl⟩ := List.mem_map.mp hw
    exact div_nonneg (h.weights_nonneg v hv) hpos.le
  · exact h

theorem weights_normalised (h : 0 < s.weights.sum) :
    s.normalised.weights = s.weights.map (· / s.weights.sum) := by
  rw [normalised, total_eq_sum, if_pos h]

theorem sum_normalised (h : 0 < s.weights.sum) : s.normalised.weights.sum = 1 := by
  rw [weights_normalised h]
  simp only [div_eq_mul_inv]
  rw [List.sum_map_mul_right, List.map_id', mul_inv_cancel₀ h.ne']

theorem heaviest_lt (h : s.configurations ≠ []) (hlen : s.weights.length = s.configurations.length) :
    s.heaviest < s.configurations.length := by
  have hne : s.weights.zipIdx ≠ [] := by
    rw [← List.length_pos_iff, List.length_zipIdx, hlen]
    exact List.length_pos_iff.mpr h
  obtain ⟨⟨w, i⟩, hmem, hgreatest⟩ := Extremum.exists_lastGreatest? (·.1) hne
  rw [heaviest, hgreatest, Option.map_some, Option.getD_some, ← hlen]
  exact List.snd_lt_of_mem_zipIdx hmem

theorem rebuilt_cases (h : s.configurations ≠ [])
    (hconf : ∀ c ∈ s.configurations, IsConfiguration c) (hnodup : s.configurations.Nodup)
    (hlen : s.weights.length = s.configurations.length) :
    (rebuilt o s).HasInverse o IsConfiguration ∧
      ((rebuilt o s).configurations = s.configurations ∧ (rebuilt o s).weights = s.weights ∨
        ∃ c ∈ s.configurations, rebuilt o s = singleton o c) := by
  have hempty : s.isEmpty = false := by simpa [isEmpty] using h
  rw [rebuilt, if_neg (by simp [hempty])]
  cases hinvert : Matrix.invert (borderedMatrix o s.configurations) with
  | some inverse =>
    obtain ⟨hsquare, hinverse⟩ :=
      Matrix.isInverse_invert (isSquare_borderedMatrix o s.configurations) hinvert
    exact ⟨⟨h, hconf, hnodup, hsquare, hinverse⟩, Or.inl ⟨rfl, rfl⟩⟩
  | none =>
    have hheaviest := heaviest_lt h hlen
    rw [List.getElem?_eq_getElem hheaviest]
    have hmem := List.getElem_mem hheaviest
    exact ⟨hasInverse_singleton (hconf _ hmem), Or.inr ⟨_, hmem, rfl⟩⟩

theorem HasInverse.isInverse_downdated (h : s.HasInverse o IsConfiguration) {i : ℕ}
    (hi : i < s.configurations.length) (hpivot : entry s.inverse (i + 1) (i + 1) ≠ 0) :
    IsSquare ((s.configurations.eraseIdx i).length + 1) (Matrix.downdated s.inverse (i + 1)) ∧
      IsInverse ((s.configurations.eraseIdx i).length + 1)
        (entry (Matrix.downdated s.inverse (i + 1)))
        (entry (borderedMatrix o (s.configurations.eraseIdx i))) := by
  have hlen : (s.configurations.eraseIdx i).length + 1 = s.configurations.length := by
    rw [List.length_eraseIdx_of_lt hi]
    omega
  have hlt : i + 1 < s.configurations.length + 1 := Nat.succ_lt_succ hi
  rw [hlen]
  refine ⟨Matrix.isSquare_downdated h.isSquare hlt, fun j hj l hl => ?_⟩
  rw [← h.isInverse.downdated h.isSquare hlt hpivot j hj l hl]
  refine Finset.sum_congr rfl fun m _ => ?_
  rw [entry_borderedMatrix_eraseIdx]

theorem HasInverse.remove_cases (h : s.HasInverse o IsConfiguration)
    (hlen : s.weights.length = s.configurations.length) {i : ℕ} (hi : i < s.configurations.length)
    (htwo : 2 ≤ s.configurations.length) :
    (remove o s i).HasInverse o IsConfiguration ∧
      ((remove o s i).configurations = s.configurations.eraseIdx i ∧
          (remove o s i).weights = s.weights.eraseIdx i ∨
        ∃ c ∈ s.configurations.eraseIdx i, remove o s i = singleton o c) := by
  have hne : s.configurations.eraseIdx i ≠ [] := by
    rw [← List.length_pos_iff, List.length_eraseIdx_of_lt hi]
    omega
  have hconf (c : C) (hc : c ∈ s.configurations.eraseIdx i) : IsConfiguration c :=
    h.isConfiguration c (List.mem_of_mem_eraseIdx hc)
  have hnodup : (s.configurations.eraseIdx i).Nodup := h.nodup.eraseIdx i
  unfold remove
  dsimp only
  split_ifs with hsmall
  · refine rebuilt_cases hne hconf hnodup ?_
    rw [List.length_eraseIdx_of_lt hi, List.length_eraseIdx_of_lt (hlen ▸ hi), hlen]
  · have hpivot := Matrix.ne_zero_of_le_abs (not_lt.mp hsmall)
    obtain ⟨hsquare, hinverse⟩ := h.isInverse_downdated hi hpivot
    exact ⟨⟨hne, hconf, hnodup, hsquare, hinverse⟩, Or.inl ⟨rfl, rfl⟩⟩

theorem IsSound.remove (h : s.IsSound o IsConfiguration) {i : ℕ} (hi : i < s.configurations.length)
    (htwo : 2 ≤ s.configurations.length) : (remove o s i).IsSound o IsConfiguration := by
  obtain ⟨hinverse, ⟨hconf, hweights⟩ | ⟨c, hc, hsingle⟩⟩ :=
    h.toHasInverse.remove_cases h.length_weights hi htwo
  · refine ⟨hinverse, ?_, fun w hw => ?_⟩
    · rw [hconf, hweights, List.length_eraseIdx_of_lt hi,
        List.length_eraseIdx_of_lt (h.length_weights ▸ hi), h.length_weights]
    · rw [hweights] at hw
      exact h.weights_nonneg w (List.mem_of_mem_eraseIdx hw)
  · rw [hsingle]
    exact isSound_singleton (h.isConfiguration c (List.mem_of_mem_eraseIdx hc))

/-- The ratios of two lists at the entries of the first one with some property, each with its
index. -/
def ratios (p : α → Prop) [DecidablePred p] (ratio : α → α → α) (xs ws : List α) : List (ℕ × α) :=
  (List.zipWith Prod.mk xs ws).zipIdx.filterMap fun ((x, w), i) =>
    if p x then some (i, ratio x w) else none

theorem mem_ratios_iff {p : α → Prop} [DecidablePred p] {ratio : α → α → α} {xs ws : List α}
    {i : ℕ} {r : α} : (i, r) ∈ ratios p ratio xs ws ↔ (i < xs.length ∧ i < ws.length) ∧
      p (coordinate xs i) ∧ r = ratio (coordinate xs i) (coordinate ws i) := by
  constructor
  · intro h
    obtain ⟨⟨⟨x, w⟩, j⟩, hmem, hif⟩ := List.mem_filterMap.mp h
    obtain ⟨hlt, rfl, rfl⟩ := mem_zipIdx_zipWith_iff.mp hmem
    dsimp only at hif
    split_ifs at hif with hp
    obtain ⟨rfl, rfl⟩ := Prod.mk.inj (Option.some.inj hif)
    exact ⟨hlt, hp, rfl⟩
  · rintro ⟨hlt, hp, rfl⟩
    exact List.mem_filterMap.mpr ⟨_, mem_zipIdx_zipWith_iff.mpr ⟨hlt, rfl, rfl⟩, if_pos hp⟩

theorem blocking?_eq (s : ActiveSet α C) (coefficients : List α) :
    s.blocking? coefficients = Extremum.firstLeast? (·.2)
      (ratios (Matrix.pivotTolerance < ·) (fun a w => w / a) coefficients s.weights) := rfl

theorem of_blocking? {coefficients : List α} {i : ℕ} {amount : α}
    (h : s.blocking? coefficients = some (i, amount)) :
    i < s.weights.length ∧ Matrix.pivotTolerance < coordinate coefficients i ∧
      amount = coordinate s.weights i / coordinate coefficients i := by
  rw [blocking?_eq] at h
  obtain ⟨⟨-, hi⟩, hratio⟩ := mem_ratios_iff.mp (Extremum.mem_of_firstLeast? h)
  exact ⟨hi, hratio⟩

theorem IsSound.amount_nonneg (h : s.IsSound o IsConfiguration) {coefficients : List α} {i : ℕ}
    {amount : α} (hblocking : s.blocking? coefficients = some (i, amount)) : 0 ≤ amount := by
  obtain ⟨-, hlarge, rfl⟩ := of_blocking? hblocking
  exact div_nonneg (h.coordinate_weights_nonneg i) (Matrix.pivotTolerance_pos.trans hlarge).le

/-- The active set once weight has moved away from the configuration `i`, which has left it. -/
def withdrawn (o : Oracle α C) (s : ActiveSet α C) (coefficients : List α) (i : ℕ) (amount : α) :
    ActiveSet α C :=
  let moved := List.zipWith (fun w a => larger (w - amount * a) 0) s.weights coefficients
  remove o { s with weights := moved.set i 0 } i

theorem exchange_of_blocking {c : C} {coefficients : List α} {i : ℕ} {amount : α}
    (h : s.blocking? coefficients = some (i, amount)) :
    exchange o s c coefficients =
      match insert o (withdrawn o s coefficients i amount) c with
      | .inserted t => .exchanged (normalised { t with weights := t.weights.dropLast ++ [amount] })
      | .dependent _ => .refused (normalised (withdrawn o s coefficients i amount))
      | .noInverse => .noInverse := by
  rw [exchange, h]
  rfl

/-- The active set once a configuration has taken the place of the configuration `i`. -/
def replaced (o : Oracle α C) (s : ActiveSet α C) (c : C) (coefficients : List α) (i : ℕ)
    (amount : α) : ActiveSet α C :=
  let rest := withdrawn o s coefficients i amount
  ⟨rest.configurations ++ [c], rest.weights ++ [amount],
    Matrix.bordered rest.inverse (product o rest c) (schur o rest c)⟩

theorem exchange_eq_exchanged {c : C} {coefficients : List α} {i : ℕ} {amount : α}
    (h : s.blocking? coefficients = some (i, amount))
    (hinverse : (withdrawn o s coefficients i amount).inverse ≠ [])
    (hlarge : ¬ |schur o (withdrawn o s coefficients i amount) c| < Matrix.pivotTolerance) :
    exchange o s c coefficients =
      .exchanged (replaced o s c coefficients i amount).normalised := by
  rw [exchange_of_blocking h, insert_of_not_lt hinverse hlarge]
  simp only [List.dropLast_concat, replaced]

def enterSchurs (o : Oracle α C) (s : ActiveSet α C) (c : C) : List α :=
  schur o s c ::
    if |schur o s c| < Matrix.pivotTolerance then
      match s.blocking? (coefficients o s c) with
      | none => []
      | some (i, amount) => [schur o (withdrawn o s (coefficients o s c) i amount) c]
    else []

theorem schur_withdrawn_mem_enterSchurs {c : C} {i : ℕ} {amount : α}
    (hlt : |schur o s c| < Matrix.pivotTolerance)
    (h : s.blocking? (coefficients o s c) = some (i, amount)) :
    schur o (withdrawn o s (coefficients o s c) i amount) c ∈ enterSchurs o s c := by
  rw [enterSchurs, if_pos hlt, h]
  exact List.mem_cons_of_mem _ (List.mem_singleton_self _)

def IsZeroOrLarge (x : α) : Prop := x = 0 ∨ Matrix.pivotTolerance ≤ |x|

instance (x : α) : Decidable (IsZeroOrLarge x) := inferInstanceAs (Decidable (_ ∨ _))

theorem IsZeroOrLarge.eq_zero {x : α} (h : IsZeroOrLarge x) (hlt : |x| < Matrix.pivotTolerance) :
    x = 0 :=
  h.resolve_right (not_le.mpr hlt)

theorem isSound_moved (h : s.IsSound o IsConfiguration) {ys : List α}
    (hys : ys.length = s.configurations.length) (f : α → α → α) :
    IsSound o IsConfiguration
      { s with weights := List.zipWith (fun w y => larger (f w y) 0) s.weights ys } := by
  refine ⟨h.withWeights _, by simp [h.length_weights, hys], fun w hw => ?_⟩
  obtain ⟨j, hj, rfl⟩ := List.mem_iff_getElem.mp hw
  simp

theorem IsSound.set_zero (h : s.IsSound o IsConfiguration) (i : ℕ) :
    IsSound o IsConfiguration { s with weights := s.weights.set i 0 } := by
  refine ⟨h.withWeights _, (List.length_set).trans h.length_weights, fun w hw => ?_⟩
  rcases List.mem_or_eq_of_mem_set hw with hw | rfl
  · exact h.weights_nonneg w hw
  · exact le_rfl

section Withdrawn

variable {coefficients : List α} {i : ℕ} {amount : α}

theorem isSound_withdrawn (h : s.IsSound o IsConfiguration) (htwo : 2 ≤ s.configurations.length)
    (hlen : coefficients.length = s.configurations.length)
    (hblocking : s.blocking? coefficients = some (i, amount)) :
    (withdrawn o s coefficients i amount).IsSound o IsConfiguration :=
  ((isSound_moved h hlen fun w a => w - amount * a).set_zero i).remove
    (h.length_weights ▸ (of_blocking? hblocking).1) htwo

theorem isSound_replaced (ho : o.HasInnerProducts IsConfiguration) (h : s.IsSound o IsConfiguration)
    (htwo : 2 ≤ s.configurations.length) (hlen : coefficients.length = s.configurations.length)
    (hblocking : s.blocking? coefficients = some (i, amount)) {c : C} (hc : IsConfiguration c)
    (hne : schur o (withdrawn o s coefficients i amount) c ≠ 0) :
    (replaced o s c coefficients i amount).IsSound o IsConfiguration :=
  (isSound_withdrawn h htwo hlen hblocking).bordered ho hc hne (h.amount_nonneg hblocking)

/-- Either only the configuration has left, with its part of the weight, or a single one is left. -/
theorem withdrawn_cases (h : s.IsSound o IsConfiguration) (htwo : 2 ≤ s.configurations.length)
    (hlen : coefficients.length = s.configurations.length) (hsum : coefficients.sum = 1)
    (hblocking : s.blocking? coefficients = some (i, amount)) :
    ((withdrawn o s coefficients i amount).configurations = s.configurations.eraseIdx i ∧
        (s.weights.sum = 1 → 1 - amount ≤ (withdrawn o s coefficients i amount).weights.sum)) ∨
      ∃ c ∈ s.configurations.eraseIdx i, withdrawn o s coefficients i amount = singleton o c := by
  obtain ⟨hi, hlarge, rfl⟩ := of_blocking? hblocking
  have hik : i < s.configurations.length := h.length_weights ▸ hi
  have hmoved := (isSound_moved h hlen
    fun w a => w - coordinate s.weights i / coordinate coefficients i * a).set_zero i
  obtain ⟨_, ⟨hconf, hweights⟩ | hsingle⟩ :=
    hmoved.toHasInverse.remove_cases hmoved.length_weights hik htwo
  · refine Or.inl ⟨hconf, fun hone => ?_⟩
    have hne : coordinate coefficients i ≠ 0 := (Matrix.pivotTolerance_pos.trans hlarge).ne'
    rw [withdrawn, hweights, List.eraseIdx_set_eq]
    refine le_trans (le_of_eq ?_) (sum_sub_le_sum_eraseIdx (k := s.configurations.length)
      (f := fun j => coordinate s.weights j -
        coordinate s.weights i / coordinate coefficients i * coordinate coefficients j)
      (by simp [h.length_weights, hlen]) hik fun j hj => ?_)
    · rw [Finset.sum_sub_distrib, ← Finset.mul_sum, ← sum_eq_sum_coordinate h.length_weights.le,
        ← sum_eq_sum_coordinate hlen.le, hone, hsum, div_mul_cancel₀ _ hne]
      ring
    · rw [coordinate_zipWith (h.length_weights ▸ hj) (hlen ▸ hj), larger_eq_max]
      exact le_max_left _ _
  · exact Or.inr hsingle

end Withdrawn

/-- What an exchange keeps: it is never left without an inverse, and the weights keep the sum one
as long as the Schur complements are zero or not too small. -/
theorem exchange_cases (ho : o.HasInnerProducts IsConfiguration) (h : s.IsSound o IsConfiguration)
    {c : C} (hc : IsConfiguration c) (htwo : 2 ≤ s.configurations.length)
    (hlt : |schur o s c| < Matrix.pivotTolerance) :
    ∃ t, (exchange o s c (coefficients o s c) = .exchanged t ∨
        exchange o s c (coefficients o s c) = .refused t) ∧
      t.IsSound o IsConfiguration ∧
      ((∀ x ∈ enterSchurs o s c, IsZeroOrLarge x) → s.weights.sum = 1 → t.weights.sum = 1) := by
  have hlen := h.length_coefficients ho c
  have hsum := h.sum_coefficients ho c
  cases hblocking : s.blocking? (coefficients o s c) with
  | none =>
    refine ⟨s, Or.inr ?_, h, fun _ hone => hone⟩
    rw [exchange, hblocking]
  | some block =>
    obtain ⟨i, amount⟩ := block
    obtain ⟨hi, hlarge, -⟩ := of_blocking? hblocking
    let rest := withdrawn o s (coefficients o s c) i amount
    have hrest : rest.IsSound o IsConfiguration := isSound_withdrawn h htwo hlen hblocking
    have hcases := withdrawn_cases h htwo hlen hsum hblocking
    by_cases hlt' : |schur o rest c| < Matrix.pivotTolerance
    · -- The configuration depends on the others as well.
      have hexchange : exchange o s c (coefficients o s c) = .refused rest.normalised := by
        rw [exchange_of_blocking hblocking, insert_of_lt hrest.inverse_ne_nil hlt']
      refine ⟨rest.normalised, Or.inr hexchange, isSound_normalised hrest, fun hschurs _ => ?_⟩
      have hzero : schur o s c = 0 := (hschurs _ List.mem_cons_self).eq_zero hlt
      have hzero' : schur o rest c = 0 :=
        (hschurs _ (schur_withdrawn_mem_enterSchurs hlt hblocking)).eq_zero hlt'
      rcases hcases with ⟨hconf, _⟩ | ⟨d, _, hsingle⟩
      · exact absurd hzero' (h.schur_ne_zero_of_eraseIdx ho hc hrest.toHasInverse
          (h.length_weights ▸ hi) hconf (Matrix.pivotTolerance_pos.trans hlarge).ne' hzero)
      · refine sum_normalised ?_
        change 0 < (withdrawn o s (coefficients o s c) i amount).weights.sum
        rw [hsingle, sum_weights_singleton]
        exact one_pos
    · have hsound := isSound_replaced ho h htwo hlen hblocking hc
        (Matrix.ne_zero_of_le_abs (not_lt.mp hlt'))
      refine ⟨_, Or.inl (exchange_eq_exchanged hblocking hrest.inverse_ne_nil hlt'),
        isSound_normalised hsound, fun _ hone => ?_⟩
      refine sum_normalised (sum_pos_of_nonneg_concat (h.amount_nonneg hblocking) ?_)
      rcases hcases with ⟨_, hweights⟩ | ⟨d, _, hsingle⟩
      · exact Or.inl (hweights hone)
      · exact Or.inr (by rw [hsingle, sum_weights_singleton])

end ActiveSet
end MapInference
