import MapInference.Proofs.Projection.Threshold

/-!
# The polytope of a disjunction

The projection has three stages. Pooling the inputs with the output and clipping gives the nearest
point where no input exceeds the output. If its output does not exceed the sum of the inputs either,
it is the projection. Otherwise the segment to any point of the polytope crosses the face where both
are equal, and the nearest point of the face is the projection.
-/

namespace MapInference.Projection

open Scalar
variable {α : Type} [ExactScalar α]

/-- The points of the unit box with `n` inputs that do not exceed the output behind them. -/
def orderedBox (n : ℕ) : Set (ℕ → α) := {x | x ∈ unitBox (n + 1) ∧ ∀ i < n, x i ≤ x n}

/-- The points where the output does not exceed the sum of the inputs by more than the slack. -/
def disjunctionBox (n : ℕ) (slack : α) : Set (ℕ → α) :=
  {x | x ∈ orderedBox n ∧ x n ≤ ∑ i ∈ Finset.range n, x i + slack}

def disjunctionFacet (n : ℕ) : Set (ℕ → α) :=
  {x | x ∈ unitBox (n + 1) ∧ x n = ∑ i ∈ Finset.range n, x i}

section Coordinates

variable {inputs : List α} {output : α}

theorem coordinate_append_output : coordinate (inputs ++ [output]) inputs.length = output :=
  coordinate_append_right inputs [output] 0

theorem sum_inputs :
    ∑ i ∈ Finset.range inputs.length, coordinate (inputs ++ [output]) i = inputs.sum := by
  rw [sum_eq_sum_coordinate le_rfl]
  exact Finset.sum_congr rfl fun i hi => coordinate_append_left _ (Finset.mem_range.mp hi)

theorem append_output_mem_unitBox (hinputs : ∀ x ∈ inputs, 0 ≤ x ∧ x ≤ 1)
    (houtput : 0 ≤ output ∧ output ≤ 1) :
    coordinate (inputs ++ [output]) ∈ unitBox (inputs.length + 1) := by
  have hall : ∀ x ∈ inputs ++ [output], 0 ≤ x ∧ x ≤ 1 := by
    intro x hx
    rcases List.mem_append.mp hx with hx | hx
    · exact hinputs x hx
    · exact List.mem_singleton.mp hx ▸ houtput
  have hmem := coordinate_mem_unitBox hall
  rwa [List.length_append, List.length_singleton] at hmem

theorem approach_append_output {moved : List α} (hlen : moved.length = inputs.length) (z : α)
    (x : ℕ → α) :
    approach (inputs.length + 1) (coordinate (inputs ++ [output])) (coordinate (moved ++ [z])) x =
      approach inputs.length (coordinate inputs) (coordinate moved) x +
        (output - z) * (x inputs.length - z) := by
  rw [approach, Finset.sum_range_succ, coordinate_append_output, ← hlen, coordinate_append_output,
    hlen]
  congr 1
  refine Finset.sum_congr rfl fun i hi => ?_
  have hi := Finset.mem_range.mp hi
  rw [coordinate_append_left _ hi, coordinate_append_left _ (hlen ▸ hi)]

end Coordinates

section Pooled

variable {inputs : List α} {output pooled : α}

theorem isNearest_pooled (h : excess pooled inputs = pooled - output) :
    coordinate (inputs.map (fun x => clip (min x pooled)) ++ [clip pooled]) ∈
        orderedBox inputs.length ∧
      IsNearest (inputs.length + 1) (orderedBox inputs.length) (coordinate (inputs ++ [output]))
        (coordinate (inputs.map (fun x => clip (min x pooled)) ++ [clip pooled])) := by
  let lowered := inputs.map fun x => clip (min x pooled)
  have hlen : lowered.length = inputs.length := List.length_map ..
  constructor
  · refine ⟨?_, fun i hi => ?_⟩
    · rw [← hlen]
      refine append_output_mem_unitBox (fun y hy => ?_) ⟨clip_nonneg _, clip_le_one _⟩
      obtain ⟨x, _, rfl⟩ := List.mem_map.mp hy
      exact ⟨clip_nonneg _, clip_le_one _⟩
    · have houtput : coordinate (lowered ++ [clip pooled]) inputs.length = clip pooled :=
        hlen ▸ coordinate_append_output
      rw [houtput, coordinate_append_left _ (hlen.symm ▸ hi), coordinate_map_of_lt hi]
      exact clip_mono (min_le_right _ _)
  · rintro x ⟨hbox, hordered⟩
    have hinput (i : ℕ) (hi : i < inputs.length) :
        (coordinate inputs i - coordinate lowered i) * (x i - coordinate lowered i) ≤
          max (coordinate inputs i - pooled) 0 * (x inputs.length - clip pooled) := by
      have hunit := hbox.1 i
      rw [coordinate_map_of_lt hi]
      set a := coordinate inputs i
      rcases le_total a pooled with hle | hle
      · have hclip := sub_clip_mul_le a 0 hunit.1 hunit.2
        rw [sub_zero, zero_mul] at hclip
        rwa [min_eq_left hle, max_eq_right (sub_nonpos.mpr hle), zero_mul]
      · have hclip := sub_clip_mul_le a (a - pooled) hunit.1 hunit.2
        rw [sub_sub_cancel] at hclip
        rw [min_eq_right hle, max_eq_left (sub_nonneg.mpr hle)]
        exact hclip.trans (mul_le_mul_of_nonneg_left
          (sub_le_sub_right (hordered i hi) _) (sub_nonneg.mpr hle))
    have hinputs : approach inputs.length (coordinate inputs) (coordinate lowered) x ≤
        (pooled - output) * (x inputs.length - clip pooled) := by
      rw [← h, excess_eq_sum, Finset.sum_mul]
      exact Finset.sum_le_sum fun i hi => hinput i (Finset.mem_range.mp hi)
    have houtput := sub_clip_mul_le pooled 0 (hbox.1 inputs.length).1 (hbox.1 inputs.length).2
    rw [sub_zero, zero_mul] at houtput
    rw [approach_append_output hlen]
    linarith

end Pooled

section Face

variable {inputs : List α} {output shift z : α}

theorem isNearest_facet (hsum : (inputs.map fun x => clip (x - shift)).sum = z) (hz : z ≤ 1)
    (hside : ∀ y, 0 ≤ y → y ≤ 1 → (shift + output - z) * (y - z) ≤ 0) :
    coordinate (inputs.map (fun x => clip (x - shift)) ++ [z]) ∈ disjunctionFacet inputs.length ∧
      IsNearest (inputs.length + 1) (disjunctionFacet inputs.length)
        (coordinate (inputs ++ [output]))
        (coordinate (inputs.map (fun x => clip (x - shift)) ++ [z])) := by
  let moved := inputs.map fun x => clip (x - shift)
  have hlen : moved.length = inputs.length := List.length_map ..
  have hmoved : ∀ y ∈ moved, 0 ≤ y ∧ y ≤ 1 := by
    intro y hy
    obtain ⟨x, _, rfl⟩ := List.mem_map.mp hy
    exact ⟨clip_nonneg _, clip_le_one _⟩
  have hpos : 0 ≤ z := hsum ▸ List.sum_nonneg fun y hy => (hmoved y hy).1
  constructor
  · rw [← hlen]
    refine ⟨append_output_mem_unitBox hmoved ⟨hpos, hz⟩, ?_⟩
    rw [coordinate_append_output, sum_inputs]
    exact hsum.symm
  · rintro x ⟨hbox, hface⟩
    have hinputs : approach inputs.length (coordinate inputs) (coordinate moved) x ≤
        shift * (x inputs.length - z) := by
      rw [hface, ← hsum, sum_eq_sum_coordinate hlen.le]
      exact approach_le_of_shift (fun i hi => coordinate_map_of_lt hi) fun i _ => hbox.1 i
    have hunit := hbox.1 inputs.length
    rw [approach_append_output hlen]
    linarith [hside _ hunit.1 hunit.2]

theorem excess_faceShift (inputs : List α) (output : α) :
    excess (faceShift output 0 0 (-output) (descending inputs)) inputs =
      faceShift output 0 0 (-output) (descending inputs) + output := by
  have hmean : -output * ((0 : ℕ) + 1) = 0 - output := by simp
  rw [← excess_perm (descending_perm inputs), faceShift_eq_pooledValue,
    excess_pooledValue (pairwise_descending inputs) hmean]
  simp

theorem isNearest_disjunctionFace (inputs : List α) (output : α) :
    coordinate ((disjunctionFace inputs output).1 ++ [(disjunctionFace inputs output).2]) ∈
        disjunctionFacet inputs.length ∧
      IsNearest (inputs.length + 1) (disjunctionFacet inputs.length)
        (coordinate (inputs ++ [output]))
        (coordinate ((disjunctionFace inputs output).1 ++
          [(disjunctionFace inputs output).2])) := by
  have hexcess := excess_faceShift inputs output
  unfold disjunctionFace
  dsimp only
  set shift := faceShift output 0 0 (-output) (descending inputs)
  split_ifs with hle
  · have hmoved : (inputs.map fun x => larger (x - shift) 0) =
        inputs.map fun x => clip (x - shift) := by
      refine List.map_congr_left fun x hx => ?_
      have hone := (le_excess shift hx).trans (hexcess.trans_le hle)
      rw [larger_eq_max, clip_eq_max ((le_max_left _ _).trans hone)]
    have hsum : (inputs.map fun x => clip (x - shift)).sum = shift + output := by
      rw [← hmoved, ← hexcess, excess]
      simp only [larger_eq_max]
    rw [hmoved, total_eq_sum, hsum]
    exact isNearest_facet hsum hle fun y _ _ => by rw [sub_self, zero_mul]
  · -- Without inputs there is no excess, and the output is zero.
    have hne : inputs ≠ [] := by
      rintro rfl
      exact hle (hexcess.symm.trans_le zero_le_one)
    obtain ⟨threshold, hthreshold, hsimplex, hsum⟩ := exists_simplex_eq hne
    have hlt : shift < threshold := by
      by_contra! hge
      have hanti := excess_antitone inputs hge
      rw [hthreshold, hexcess] at hanti
      exact hle hanti
    rw [hsimplex] at hsum ⊢
    refine isNearest_facet hsum le_rfl fun y _ hy => ?_
    exact mul_nonpos_of_nonneg_of_nonpos (by linarith) (sub_nonpos.mpr hy)

end Face

theorem disjunctionFacet_subset (n : ℕ) :
    (disjunctionFacet n : Set (ℕ → α)) ⊆ disjunctionBox n 0 := by
  rintro x ⟨hbox, hface⟩
  refine ⟨⟨hbox, fun i hi => ?_⟩, by rw [add_zero, hface]⟩
  rw [hface]
  exact Finset.single_le_sum (fun j _ => (hbox.1 j).1) (Finset.mem_range.mpr hi)

/-- When the nearest point of the ordered box has an output above the sum of its inputs, the nearest
point of the face is nearest in the polytope: the segment to any of its points crosses the face. -/
theorem IsNearest.of_facet {n : ℕ} {target z q : ℕ → α} (hz : z ∈ orderedBox n)
    (hnearest : IsNearest (n + 1) (orderedBox n) target z)
    (habove : ∑ i ∈ Finset.range n, z i < z n) (hq : q ∈ disjunctionFacet n)
    (hface : IsNearest (n + 1) (disjunctionFacet n) target q) :
    IsNearest (n + 1) (disjunctionBox n 0) target q := by
  rintro x ⟨hx, hbelow⟩
  rw [add_zero] at hbelow
  let violation (y : ℕ → α) : α := y n - ∑ i ∈ Finset.range n, y i
  have hz_pos : 0 < violation z := sub_pos.mpr habove
  have hx_nonpos : violation x ≤ 0 := sub_nonpos.mpr hbelow
  let t := violation z / (violation z - violation x)
  have hdiff : 0 < violation z - violation x := by linarith
  have ht : 0 < t := div_pos hz_pos hdiff
  have ht' : t ≤ 1 := (div_le_one hdiff).mpr (by linarith)
  let crossing : ℕ → α := fun i => z i + t * (x i - z i)
  have hcrossing : crossing ∈ disjunctionFacet n := by
    have hsegment : crossing = (1 - t) • z + t • x := by
      funext i
      simp only [crossing, Pi.add_apply, Pi.smul_apply, smul_eq_mul]
      ring
    refine ⟨?_, ?_⟩
    · rw [hsegment]
      exact convex_unitBox hz.1 hx.1 (by linarith) ht.le (by ring)
    · have hlinear : violation crossing = violation z + t * (violation x - violation z) := by
        simp only [violation, crossing, Finset.sum_add_distrib, Finset.mul_sum, mul_sub,
          Finset.sum_sub_distrib]
        ring
      have hcancel : t * (violation z - violation x) = violation z :=
        div_mul_cancel₀ _ hdiff.ne'
      have hzero : violation crossing = 0 := by rw [hlinear]; linarith
      exact sub_eq_zero.mp hzero
  have hat := hface crossing hcrossing
  rw [approach_segment] at hat
  have hback : 0 ≤ approach (n + 1) target q z :=
    approach_nonneg (hnearest q (disjunctionFacet_subset n hq).1)
  have hmul : 0 ≤ (1 - t) * approach (n + 1) target q z :=
    mul_nonneg (by linarith) hback
  have hle : t * approach (n + 1) target q x ≤ 0 := by linarith
  exact nonpos_of_mul_nonpos_right hle ht

/-- The projection onto the polytope of a disjunction is nearest in it. It lies in the polytope up to
the slack. -/
theorem isNearest_disjunction (inputs : List α) (output : α) :
    coordinate ((disjunction inputs output).1 ++ [(disjunction inputs output).2]) ∈
        disjunctionBox inputs.length (tenthPower 12) ∧
      IsNearest (inputs.length + 1) (disjunctionBox inputs.length 0)
        (coordinate (inputs ++ [output]))
        (coordinate ((disjunction inputs output).1 ++ [(disjunction inputs output).2])) := by
  let pooled := pooledValue 0 output output (descending inputs)
  have hmean : output * ((0 : ℕ) + 1) = output := by simp
  have hexcess : excess pooled inputs = pooled - output := by
    rw [← excess_perm (descending_perm inputs),
      excess_pooledValue (pairwise_descending inputs) hmean]
    simp [pooled]
  obtain ⟨hmem, hnearest⟩ := isNearest_pooled hexcess
  have hslack : (0 : α) ≤ tenthPower 12 := by
    rw [tenthPower_eq]
    positivity
  set lowered := inputs.map fun x => clip (min x pooled) with hlowered
  have hlen : lowered.length = inputs.length := List.length_map ..
  have hsum : ∑ i ∈ Finset.range inputs.length, coordinate (lowered ++ [clip pooled]) i =
      lowered.sum := hlen ▸ sum_inputs
  have houtput : coordinate (lowered ++ [clip pooled]) inputs.length = clip pooled :=
    hlen ▸ coordinate_append_output
  have hdisjunction : disjunction inputs output =
      if clip pooled ≤ lowered.sum + tenthPower 12 then (lowered, clip pooled)
      else disjunctionFace inputs output := by
    simp only [disjunction, smaller_eq_min, total_eq_sum]
    rfl
  rw [hdisjunction]
  split_ifs with hle
  · refine ⟨⟨hmem, ?_⟩, hnearest.mono fun x hx => hx.1⟩
    rwa [houtput, hsum]
  · obtain ⟨hface, hface_nearest⟩ := isNearest_disjunctionFace inputs output
    obtain ⟨hordered, hbelow⟩ := disjunctionFacet_subset _ hface
    refine ⟨⟨hordered, hbelow.trans (add_le_add_right hslack _)⟩, ?_⟩
    refine IsNearest.of_facet hmem hnearest ?_ hface hface_nearest
    rw [houtput, hsum]
    linarith [not_le.mp hle]

/-- Inputs and an output in the unit interval where no input exceeds the output, and where the output
does not exceed the sum of the inputs by more than the slack. -/
structure InDisjunction (slack : α) (inputs : List α) (output : α) : Prop where
  input_nonneg : ∀ x ∈ inputs, 0 ≤ x
  input_le : ∀ x ∈ inputs, x ≤ output
  output_nonneg : 0 ≤ output
  output_le_one : output ≤ 1
  output_le_sum : output ≤ inputs.sum + slack

theorem append_output_mem_disjunctionBox_iff {slack : α} {inputs : List α} {output : α} :
    coordinate (inputs ++ [output]) ∈ disjunctionBox inputs.length slack ↔
      InDisjunction slack inputs output := by
  have hinput (i : ℕ) (hi : i < inputs.length) :
      coordinate (inputs ++ [output]) i = inputs[i] := by
    rw [coordinate_append_left _ hi, coordinate_of_getElem? (List.getElem?_eq_getElem hi)]
  constructor
  · rintro ⟨⟨hbox, hordered⟩, hbelow⟩
    have houtput := hbox.1 inputs.length
    rw [coordinate_append_output] at hordered hbelow houtput
    rw [sum_inputs] at hbelow
    refine ⟨fun x hx => ?_, fun x hx => ?_, houtput.1, houtput.2, hbelow⟩
    · obtain ⟨i, hi, rfl⟩ := List.mem_iff_getElem.mp hx
      exact hinput i hi ▸ (hbox.1 i).1
    · obtain ⟨i, hi, rfl⟩ := List.mem_iff_getElem.mp hx
      exact hinput i hi ▸ hordered i hi
  · intro h
    refine ⟨⟨append_output_mem_unitBox (fun x hx => ?_) ⟨h.output_nonneg, h.output_le_one⟩,
      fun i hi => ?_⟩, ?_⟩
    · exact ⟨h.input_nonneg x hx, (h.input_le x hx).trans h.output_le_one⟩
    · rw [hinput i hi, coordinate_append_output]
      exact h.input_le _ (List.getElem_mem hi)
    · rw [coordinate_append_output, sum_inputs]
      exact h.output_le_sum

/-- The projection onto the polytope of a disjunction of any number of inputs lies in the polytope,
up to an output that exceeds the sum of the inputs by at most the tolerance, and no direction from
it to a point of the polytope approaches the original point. -/
theorem disjunction_nearest (inputs : List α) (output : α) :
    ∃ x y, disjunction inputs output = (x, y) ∧ x.length = inputs.length ∧
      InDisjunction (1 / 10 ^ 12) x y ∧
      ∀ z w, z.length = inputs.length → InDisjunction 0 z w →
        dot (List.zipWith (· - ·) inputs x) (List.zipWith (· - ·) z x) +
          (output - y) * (w - y) ≤ 0 := by
  have hlen := length_disjunction inputs output
  obtain ⟨hmem, hnearest⟩ := isNearest_disjunction inputs output
  revert hlen hmem hnearest
  rcases disjunction inputs output with ⟨x, y⟩
  intro hlen hmem hnearest
  dsimp only at hlen hmem hnearest
  refine ⟨x, y, rfl, hlen, ?_, fun z w hz hzw => ?_⟩
  · rw [← hlen, tenthPower_eq] at hmem
    exact append_output_mem_disjunctionBox_iff.mp hmem
  · have happroach := hnearest _ (hz ▸ append_output_mem_disjunctionBox_iff.mpr hzw)
    have hw : coordinate (z ++ [w]) inputs.length = w := hz ▸ coordinate_append_output
    rw [approach_append_output hlen, hw] at happroach
    refine (add_le_add_left (le_of_eq ?_) _).trans happroach
    rw [dot_eq_sum (n := inputs.length) (by rw [List.length_zipWith, hlen, min_self]), approach]
    refine Finset.sum_congr rfl fun i hi => ?_
    have hi := Finset.mem_range.mp hi
    rw [coordinate_zipWith hi (hlen.symm ▸ hi), coordinate_zipWith (hz.symm ▸ hi) (hlen.symm ▸ hi),
      coordinate_append_left _ (hz.symm ▸ hi)]

theorem disjunction_nearest_face :
    let x : List ℚ := [11 / 30, 4 / 15]
    let y : ℚ := 19 / 30
    disjunction [1 / 10, 0] (9 / 10) = (x, y) ∧ InDisjunction (1 / 10 ^ 12) x y ∧
      InDisjunction 0 [1, 0] (1 : ℚ) ∧
      dot (List.zipWith (· - ·) [1 / 10, 0] x) (List.zipWith (· - ·) [1, 0] x) +
        (9 / 10 - y) * (1 - y) ≤ 0 := by
  intro x y
  have heq : disjunction [1 / 10, 0] (9 / 10) = (x, y) := by decide +kernel
  have hvertex : InDisjunction 0 [1, 0] (1 : ℚ) := by constructor <;> simp
  obtain ⟨x', y', heq', -, hmem, hnearest⟩ := disjunction_nearest [1 / 10, 0] (9 / 10 : ℚ)
  obtain ⟨rfl, rfl⟩ := Prod.mk.inj (heq'.symm.trans heq)
  exact ⟨heq, hmem, hvertex, hnearest [1, 0] 1 rfl hvertex⟩

/-- Without inputs, the polytope is a single point. -/
example : disjunction ([] : List ℚ) 3 = ([], 0) := by decide +kernel

end MapInference.Projection
