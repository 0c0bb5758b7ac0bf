import MapInference.Proofs.Logic
import MapInference.Proofs.Projection.Nearest

/-!
# The sweep over the breakpoints

The sum of the shifted and clipped coordinates is piecewise linear in the shift: it starts at the
number of coordinates, and bends at every breakpoint. The sweep follows it, with the bends that have
been passed made out as a line, until the line reaches the goal. What it finds is a shift at which
the sum is the goal, so that the projections onto the capped simplex and its two sides shift and
clip their target.
-/

namespace MapInference.Projection

open Scalar
variable {α : Type} [ExactScalar α]

namespace Breakpoint

def bend (b : Breakpoint α) : α := if b.leavesUpper then -1 else 1

def IsSound (b : Breakpoint α) : Prop :=
  b.position = if b.leavesUpper then b.coordinate - 1 else b.coordinate

end Breakpoint

def bends (bs : List (Breakpoint α)) (shift : α) : α :=
  (bs.map fun b => b.bend * max (shift - b.position) 0).sum

def passedBends (bs : List (Breakpoint α)) (shift : α) : α :=
  (bs.map fun b => b.bend * (shift - b.position)).sum

theorem bends_cons (b : Breakpoint α) (bs : List (Breakpoint α)) (shift : α) :
    bends (b :: bs) shift = b.bend * max (shift - b.position) 0 + bends bs shift :=
  List.sum_cons

theorem passedBends_cons (b : Breakpoint α) (bs : List (Breakpoint α)) (shift : α) :
    passedBends (b :: bs) shift = b.bend * (shift - b.position) + passedBends bs shift :=
  List.sum_cons

theorem bends_eq_zero {bs : List (Breakpoint α)} {shift : α} (h : ∀ b ∈ bs, shift ≤ b.position) :
    bends bs shift = 0 := by
  refine List.sum_eq_zero fun y hy => ?_
  obtain ⟨b, hb, rfl⟩ := List.mem_map.mp hy
  rw [max_eq_right (sub_nonpos.mpr (h b hb)), mul_zero]

section Breakpoints

variable (point : List α)

theorem breakpoints_perm :
    (breakpoints point).Perm (point.flatMap fun x => [⟨x - 1, x, true⟩, ⟨x, x, false⟩]) :=
  InsertionSort.sort_perm _ _

theorem pairwise_breakpoints :
    (breakpoints point).Pairwise fun b c => b.position ≤ c.position :=
  InsertionSort.pairwise_sort Breakpoint.position (fun b c => by simp) _

variable {point} in
theorem isSound_of_mem_breakpoints {b : Breakpoint α} (h : b ∈ breakpoints point) : b.IsSound := by
  obtain ⟨x, _, hb⟩ := List.mem_flatMap.mp ((breakpoints_perm point).mem_iff.mp h)
  rcases List.mem_cons.mp hb with rfl | hb
  · rfl
  · rw [List.mem_singleton.mp hb]
    rfl

theorem length_add_bends (shift : α) :
    point.length + bends (breakpoints point) shift =
      (point.map fun x => clip (x - shift)).sum := by
  rw [bends, ((breakpoints_perm point).map _).sum_eq]
  induction point with
  | nil => simp
  | cons x point ih =>
    have hclip : clip (x - shift) = 1 - max (shift - (x - 1)) 0 + max (shift - x) 0 := by
      rw [clip_eq]
      rcases le_total (x - shift) 0 with h | h
      · rw [min_eq_right (by linarith), max_eq_left h, max_eq_left (by linarith),
          max_eq_left (by linarith)]
        ring
      rcases le_total 1 (x - shift) with h' | h'
      · rw [min_eq_left h', max_eq_right zero_le_one, max_eq_right (by linarith),
          max_eq_right (by linarith)]
        ring
      · rw [min_eq_right h', max_eq_right h, max_eq_left (by linarith), max_eq_right (by linarith)]
        ring
    simp only [List.flatMap_cons, List.map_append, List.sum_append, List.map_cons, List.map_nil,
      List.sum_cons, List.sum_nil, List.length_cons, Breakpoint.bend, ← ih, hclip]
    push_cast
    ring

theorem length_add_passedBends (shift : α) :
    point.length + passedBends (breakpoints point) shift = 0 := by
  rw [passedBends, ((breakpoints_perm point).map _).sum_eq]
  induction point with
  | nil => simp
  | cons x point ih =>
    simp only [List.flatMap_cons, List.map_append, List.sum_append, List.map_cons, List.map_nil,
      List.sum_cons, List.sum_nil, List.length_cons, Breakpoint.bend] at ih ⊢
    push_cast
    linear_combination ih

end Breakpoints

namespace Sweep

variable {s : Sweep α} {goal low : α}

theorem sumAt_pass {b : Breakpoint α} (h : b.IsSound) (position : α) :
    (s.pass b).sumAt position = s.sumAt position + b.bend * (position - b.position) := by
  unfold pass sumAt Breakpoint.bend
  rw [h]
  split_ifs
  · ring
  · ring

theorem reach {position : α} (hlow : goal < s.sumAt low) (hle : low ≤ position)
    (hreached : s.sumAt position ≤ goal) :
    0 < s.interior ∧ s.sumAt ((s.saturated + s.interiorSum - goal) / s.interior) = goal ∧
      low ≤ (s.saturated + s.interiorSum - goal) / s.interior ∧
      (s.saturated + s.interiorSum - goal) / s.interior ≤ position := by
  unfold sumAt at *
  have hinterior : 0 < s.interior := by
    by_contra! hneg
    nlinarith
  have hcancel : s.interior * ((s.saturated + s.interiorSum - goal) / s.interior) =
      s.saturated + s.interiorSum - goal := mul_div_cancel₀ _ hinterior.ne'
  refine ⟨hinterior, by linarith, ?_, ?_⟩
  · rw [le_div_iff₀ hinterior]
    linarith
  · rw [div_le_iff₀ hinterior]
    linarith

/-- The invariant of the sweep: the line is above the goal at the last breakpoint, and all bends
together lead it to the goal or below. -/
theorem sumAt_shift_add_bends (s : Sweep α) (fallback : α) {bs : List (Breakpoint α)}
    (hsorted : bs.Pairwise fun b c => b.position ≤ c.position) (hsound : ∀ b ∈ bs, b.IsSound)
    (hfirst : ∀ b ∈ bs, low ≤ b.position) (hlow : goal < s.sumAt low)
    (hend : ∀ position, s.sumAt position + passedBends bs position ≤ goal) :
    low ≤ s.shift goal fallback bs ∧
      s.sumAt (s.shift goal fallback bs) + bends bs (s.shift goal fallback bs) = goal := by
  induction bs generalizing s low with
  | nil =>
    have hlast := hend low
    rw [passedBends, List.map_nil, List.sum_nil, add_zero] at hlast
    exact absurd hlow (not_lt.mpr hlast)
  | cons b bs ih =>
    obtain ⟨hb, hbs⟩ := List.pairwise_cons.mp hsorted
    have hposition := hfirst b List.mem_cons_self
    by_cases hreached : s.sumAt b.position ≤ goal
    · obtain ⟨hinterior, hgoal, hle, hbound⟩ := reach hlow hposition hreached
      rw [shift, if_pos hreached, if_pos hinterior]
      refine ⟨hle, ?_⟩
      rw [bends_eq_zero, add_zero, hgoal]
      intro c hc
      rcases List.mem_cons.mp hc with rfl | hc
      · exact hbound
      · exact hbound.trans (hb c hc)
    · have hb_sound := hsound b List.mem_cons_self
      rw [shift, if_neg hreached]
      obtain ⟨hle, hgoal⟩ := ih (s := s.pass b) hbs (fun c hc => hsound c (List.mem_cons_of_mem _ hc))
        hb
        (by rw [sumAt_pass hb_sound, sub_self, mul_zero, add_zero]; exact not_le.mp hreached)
        (fun position => by
          rw [sumAt_pass hb_sound, add_assoc, ← passedBends_cons]
          exact hend position)
      refine ⟨hposition.trans hle, ?_⟩
      rw [bends_cons, max_eq_left (sub_nonneg.mpr hle), ← add_assoc, ← sumAt_pass hb_sound]
      exact hgoal

end Sweep

theorem exists_sum_shift_eq {goal fallback : α} {point : List α} (hpos : 0 < goal)
    (hlt : goal < point.length) :
    (point.map fun x => clip
      (x - Sweep.shift goal fallback ⟨point.length, 0, 0⟩ (breakpoints point))).sum = goal := by
  let start : Sweep α := ⟨point.length, 0, 0⟩
  have hstart (position : α) : start.sumAt position = point.length := by
    simp [start, Sweep.sumAt]
  obtain ⟨low, hfirst⟩ : ∃ low, ∀ b ∈ breakpoints point, low ≤ b.position := by
    have hsorted := pairwise_breakpoints point
    cases hbs : breakpoints point with
    | nil => exact ⟨0, by simp⟩
    | cons b bs =>
      rw [hbs] at hsorted
      refine ⟨b.position, fun c hc => ?_⟩
      rcases List.mem_cons.mp hc with rfl | hc
      · exact le_rfl
      · exact (List.pairwise_cons.mp hsorted).1 c hc
  have hend (position : α) :
      start.sumAt position + passedBends (breakpoints point) position ≤ goal := by
    rw [hstart, length_add_passedBends]
    exact hpos.le
  have hlow : goal < start.sumAt low := by
    rw [hstart]
    exact hlt
  have hsweep := (start.sumAt_shift_add_bends fallback (pairwise_breakpoints point)
    (fun b hb => isSound_of_mem_breakpoints hb) hfirst hlow hend).2
  rwa [hstart, length_add_bends] at hsweep

theorem exists_cappedSimplex_eq {goal : α} {point : List α} (h₀ : 0 ≤ goal)
    (h₁ : goal ≤ point.length) :
    ∃ shift, cappedSimplex goal point = point.map (fun x => clip (x - shift)) ∧
      (cappedSimplex goal point).sum = goal := by
  unfold cappedSimplex
  rw [ofNat_eq_cast]
  split_ifs with hfull hempty
  · obtain ⟨low, hlow⟩ := point.toFinset.bddBelow
    refine ⟨low - 1, List.map_congr_left fun x hx => ?_, ?_⟩
    · have hx := hlow (List.mem_toFinset.mpr hx)
      exact (clip_of_one_le (by linarith)).symm
    · rw [List.map_const', List.sum_replicate, nsmul_eq_mul, mul_one]
      exact le_antisymm hfull h₁
  · obtain ⟨high, hhigh⟩ := point.toFinset.bddAbove
    refine ⟨high, List.map_congr_left fun x hx => ?_, ?_⟩
    · exact (clip_of_nonpos (sub_nonpos.mpr (hhigh (List.mem_toFinset.mpr hx)))).symm
    · rw [List.map_const', List.sum_replicate, smul_zero]
      exact le_antisymm h₀ hempty
  · exact ⟨_, rfl, exists_sum_shift_eq (not_le.mp hempty) (not_le.mp hfull)⟩

/-- The capped simplex is the part of the box where the coordinates have the given sum. -/
theorem isNearest_cappedSimplex {goal : α} {point : List α} (h₀ : 0 ≤ goal)
    (h₁ : goal ≤ point.length) :
    coordinate (cappedSimplex goal point) ∈ sumBox point.length goal goal ∧
      IsNearest point.length (sumBox point.length goal goal) (coordinate point)
        (coordinate (cappedSimplex goal point)) := by
  obtain ⟨shift, hshift, hsum⟩ := exists_cappedSimplex_eq h₀ h₁
  rw [hshift] at hsum ⊢
  refine isNearest_map_clip hsum ⟨le_rfl, le_rfl⟩ fun other hlower hupper => ?_
  rw [le_antisymm hupper hlower, sub_self, mul_zero]

theorem sum_map_clip_antitone (point : List α) {s t : α} (h : s ≤ t) :
    (point.map fun x => clip (x - t)).sum ≤ (point.map fun x => clip (x - s)).sum :=
  List.sum_le_sum fun _ _ => clip_mono (sub_le_sub_left h _)

theorem sum_map_clip_le (point : List α) (shift : α) :
    (point.map fun x => clip (x - shift)).sum ≤ point.length := by
  have hle := List.sum_le_card_nsmul (point.map fun x => clip (x - shift)) 1 (by simp [clip_le_one])
  simpa using hle

theorem sum_map_clip_nonneg (point : List α) (shift : α) :
    0 ≤ (point.map fun x => clip (x - shift)).sum :=
  List.sum_nonneg (by simp [clip_nonneg])

theorem box_eq_map_clip (point : List α) : box point = point.map fun x => clip (x - 0) := by
  simp [box]

theorem isNearest_budgetPolytope {budget : α} (h : 0 ≤ budget) (point : List α) :
    coordinate (budgetPolytope budget point) ∈ sumBox point.length 0 budget ∧
      IsNearest point.length (sumBox point.length 0 budget) (coordinate point)
        (coordinate (budgetPolytope budget point)) := by
  unfold budgetPolytope
  dsimp only
  rw [total_eq_sum, box_eq_map_clip]
  split_ifs with hle
  · exact isNearest_map_clip rfl ⟨sum_map_clip_nonneg _ _, hle⟩ (by simp)
  · have hlength := (not_le.mp hle).le.trans (sum_map_clip_le point 0)
    obtain ⟨shift, hshift, hsum⟩ := exists_cappedSimplex_eq h hlength
    rw [hshift] at hsum ⊢
    have hpos : 0 ≤ shift := by
      by_contra! hneg
      exact hle ((sum_map_clip_antitone point hneg.le).trans_eq hsum)
    refine isNearest_map_clip hsum ⟨h, le_rfl⟩ fun other _ hupper => ?_
    exact mul_nonpos_of_nonneg_of_nonpos hpos (sub_nonpos.mpr hupper)

theorem isNearest_coveringPolytope {point : List α} (h : point ≠ []) :
    coordinate (coveringPolytope point) ∈ sumBox point.length 1 (point.length : α) ∧
      IsNearest point.length (sumBox point.length 1 (point.length : α)) (coordinate point)
        (coordinate (coveringPolytope point)) := by
  have hone : (1 : α) ≤ point.length := by
    exact_mod_cast List.length_pos_iff.mpr h
  unfold coveringPolytope
  dsimp only
  rw [total_eq_sum, box_eq_map_clip]
  split_ifs with hle
  · exact isNearest_map_clip rfl ⟨hle, sum_map_clip_le _ _⟩ (by simp)
  · obtain ⟨shift, hshift, hsum⟩ := exists_cappedSimplex_eq zero_le_one hone
    rw [hshift] at hsum ⊢
    have hneg : shift ≤ 0 := by
      by_contra! hpos
      exact hle (hsum.symm.trans_le (sum_map_clip_antitone point hpos.le))
    refine isNearest_map_clip hsum ⟨le_rfl, hone⟩ fun other hlower _ => ?_
    exact mul_nonpos_of_nonpos_of_nonneg hneg (sub_nonneg.mpr hlower)

end MapInference.Projection
