import MapInference.Proofs.Oracle.Indicators
import MapInference.Oracle.Segmentation
import MapInference.Word

/-!
# The numbering of intervals

The intervals with a given start are numbered from the number of intervals with a smaller start on,
so that the intervals of a sequence have the numbers `0, 1, …` in the order of their starts and
ends. The order of disjoint intervals is that of their numbers. The intervals that start after the
first position are those with the last numbers, which number the transitions.
-/

namespace MapInference.Segmentation

def firstIndex (length start : ℕ) : ℕ := start * length - start * (start - 1) / 2

theorem intervalIndex_eq (length start stop : ℕ) :
    intervalIndex length start stop = firstIndex length start + (stop - start) := rfl

theorem two_mul_triangle (n : ℕ) : 2 * (n * (n - 1) / 2) = n * (n - 1) :=
  Nat.mul_div_cancel' (Nat.even_mul_pred_self n).two_dvd

theorem two_mul_firstIndex {length start : ℕ} (h : start ≤ length) :
    2 * firstIndex length start + start * (start - 1) = 2 * (start * length) := by
  have ht := two_mul_triangle start
  have hle : start * (start - 1) ≤ start * length := Nat.mul_le_mul_left _ (by omega)
  unfold firstIndex
  omega

@[simp] theorem firstIndex_zero (length : ℕ) : firstIndex length 0 = 0 := by simp [firstIndex]

theorem firstIndex_succ {length start : ℕ} (h : start < length) :
    firstIndex length (start + 1) = firstIndex length start + (length - start) := by
  have h₁ := two_mul_firstIndex h.le
  have h₂ := two_mul_firstIndex (show start + 1 ≤ length from h)
  have hs : (start + 1) * (start + 1 - 1) = start * (start - 1) + 2 * start := by
    cases start with
    | zero => rfl
    | succ n => simp only [Nat.add_sub_cancel]; ring
  have hm : (start + 1) * length = start * length + length := by ring
  rw [hs, hm] at h₂
  omega

theorem firstIndex_one {length : ℕ} (h : 0 < length) : firstIndex length 1 = length := by
  rw [firstIndex_succ h, firstIndex_zero, Nat.zero_add, Nat.sub_zero]

theorem firstIndex_length (length : ℕ) : firstIndex length length = numIntervals length := by
  have h₁ := two_mul_firstIndex (le_refl length)
  have h₂ : 2 * numIntervals length = length * (length + 1) :=
    Nat.mul_div_cancel' (Nat.even_mul_succ_self length).two_dvd
  have h₃ : length * (length + 1) + length * (length - 1) = 2 * (length * length) := by
    cases length with
    | zero => rfl
    | succ n => simp only [Nat.add_sub_cancel]; ring
  omega

theorem firstIndex_mono {length start start' : ℕ} (h : start ≤ start') (hl : start' ≤ length) :
    firstIndex length start ≤ firstIndex length start' := by
  induction start', h using Nat.le_induction with
  | base => exact le_rfl
  | succ n _ ih =>
    rw [firstIndex_succ (by omega)]
    exact (ih (by omega)).trans (Nat.le_add_right _ _)

theorem intervalIndex_lt_firstIndex_succ {length start stop : ℕ} (h : start ≤ stop)
    (hl : stop < length) : intervalIndex length start stop < firstIndex length (start + 1) := by
  rw [firstIndex_succ (by omega), intervalIndex_eq]
  omega

theorem intervalIndex_lt {length : ℕ} {first second : ℕ × ℕ} (hfirst : first.1 ≤ first.2)
    (hsecond : second.1 ≤ second.2) (hl : second.2 < length) (h : first.2 < second.1) :
    intervalIndex length first.1 first.2 < intervalIndex length second.1 second.2 :=
  calc
    _ < firstIndex length (first.1 + 1) := intervalIndex_lt_firstIndex_succ hfirst (by omega)
    _ ≤ firstIndex length second.1 := firstIndex_mono (by omega) (by omega)
    _ ≤ _ := Nat.le_add_right _ _

theorem intervalIndex_lt_numIntervals {length start stop : ℕ} (h : start ≤ stop)
    (hl : stop < length) : intervalIndex length start stop < numIntervals length := by
  rw [← firstIndex_length]
  exact (intervalIndex_lt_firstIndex_succ h hl).trans_le (firstIndex_mono (by omega) le_rfl)

/-- The intervals that start after the first position are numbered behind those that do not. -/
theorem length_le_intervalIndex {length start stop : ℕ} (h : 1 ≤ start) (hle : start ≤ stop)
    (hl : stop < length) : length ≤ intervalIndex length start stop := by
  calc length = firstIndex length 1 := (firstIndex_one (by omega)).symm
    _ ≤ firstIndex length start := firstIndex_mono h (by omega)
    _ ≤ _ := Nat.le_add_right _ _

theorem numIntervals_eq (length : ℕ) : numIntervals length = numTransitions length + length := by
  have h₁ : 2 * numIntervals length = length * (length + 1) :=
    Nat.mul_div_cancel' (Nat.even_mul_succ_self length).two_dvd
  have h₂ : 2 * numTransitions length = length * (length - 1) := two_mul_triangle length
  have h₃ : length * (length + 1) = length * (length - 1) + 2 * length := by
    cases length with
    | zero => rfl
    | succ n => simp only [Nat.add_sub_cancel]; ring
  omega

theorem mem_intervals {length : ℕ} {p : ℕ × ℕ} :
    p ∈ intervals length ↔ p.1 ≤ p.2 ∧ p.2 < length := by
  obtain ⟨start, stop⟩ := p
  simp only [intervals, List.mem_flatMap, List.mem_map, List.mem_filter, List.mem_range,
    Prod.mk.injEq, decide_eq_true_eq]
  constructor
  · rintro ⟨a, _, b, ⟨hb, hab⟩, rfl, rfl⟩
    exact ⟨hab, hb⟩
  · rintro ⟨h, hl⟩
    exact ⟨start, by omega, stop, ⟨hl, h⟩, rfl, rfl⟩

theorem filter_range_eq_map {length start : ℕ} (h : start ≤ length) :
    (List.range length).filter (fun stop => decide (start ≤ stop)) =
      (List.range (length - start)).map (start + ·) := by
  conv_lhs => rw [← Nat.add_sub_cancel' h, List.range_add]
  rw [List.filter_append, List.filter_eq_nil_iff.mpr (by simp), List.nil_append,
    List.filter_eq_self.mpr (by simp)]

theorem map_intervalIndex_intervals (length : ℕ) :
    (intervals length).map (fun p => intervalIndex length p.1 p.2) =
      List.range (numIntervals length) := by
  have hstarts (n : ℕ) (hn : n ≤ length) :
      ((List.range n).flatMap fun start =>
          ((List.range length).filter (fun stop => decide (start ≤ stop))).map
            fun stop => intervalIndex length start stop) =
        List.range (firstIndex length n) := by
    induction n with
    | zero => simp
    | succ n ih =>
      rw [List.range_succ, List.flatMap_append, ih (by omega), firstIndex_succ (by omega),
        List.range_add, List.flatMap_singleton, filter_range_eq_map (by omega), List.map_map]
      congr 1
      apply List.map_congr_left
      intro i _
      simp [intervalIndex_eq]
  rw [← firstIndex_length, ← hstarts length le_rfl]
  simp [intervals, List.map_flatMap, Function.comp_def]

theorem intervalIndex_inj {length : ℕ} {p q : ℕ × ℕ} (hp : p ∈ intervals length)
    (hq : q ∈ intervals length)
    (h : intervalIndex length p.1 p.2 = intervalIndex length q.1 q.2) : p = q :=
  (bijOn_of_map_eq_range (map_intervalIndex_intervals length)).injOn hp hq h

theorem eq_of_map_intervalIndex_eq {length : ℕ} {ps qs : List (ℕ × ℕ)}
    (hp : ∀ p ∈ ps, p ∈ intervals length) (hq : ∀ q ∈ qs, q ∈ intervals length)
    (h : trueVariables length ps = trueVariables length qs) : ps = qs := by
  have hl : ps.length = qs.length := by simpa [trueVariables] using congrArg List.length h
  refine List.ext_getElem hl (fun i h₁ h₂ => ?_)
  apply intervalIndex_inj (hp _ (List.getElem_mem h₁)) (hq _ (List.getElem_mem h₂))
  have hi := List.getElem_of_eq h (i := i) (by simpa [trueVariables] using h₁)
  simpa [trueVariables] using hi

/-- The intervals are listed by their starts, and those with the same start by their ends. -/
theorem pairwise_lex_intervals (length : ℕ) :
    (intervals length).Pairwise fun p q => p.1 < q.1 ∨ p.1 = q.1 ∧ p.2 < q.2 := by
  rw [intervals, List.pairwise_flatMap]
  constructor
  · intro start _
    rw [List.pairwise_map]
    exact (List.pairwise_lt_range.filter _).imp fun h => Or.inr ⟨rfl, h⟩
  · refine List.pairwise_lt_range.imp fun {start start'} h p hp q hq => Or.inl ?_
    obtain ⟨_, _, rfl⟩ := List.mem_map.mp hp
    obtain ⟨_, _, rfl⟩ := List.mem_map.mp hq
    exact h

theorem length_le_intervalIndex_iff {length : ℕ} {p : ℕ × ℕ} (h : p ∈ intervals length) :
    length ≤ intervalIndex length p.1 p.2 ↔ 1 ≤ p.1 := by
  obtain ⟨hle, hl⟩ := mem_intervals.mp h
  refine ⟨fun hindex => ?_, fun hstart => length_le_intervalIndex hstart hle hl⟩
  by_contra hstart
  rw [intervalIndex_eq, show p.1 = 0 by omega, firstIndex_zero] at hindex
  omega

theorem map_transitionIndex_intervals (length : ℕ) :
    ((intervals length).filter fun p => decide (1 ≤ p.1)).map
        (fun p => transitionIndex length p.1 p.2) = List.range (numTransitions length) := by
  have hfilter : (intervals length).filter (fun p => decide (1 ≤ p.1)) =
      (intervals length).filter fun p => decide (length ≤ intervalIndex length p.1 p.2) :=
    List.filter_congr fun p hp => decide_eq_decide.mpr (length_le_intervalIndex_iff hp).symm
  have hle : length ≤ numIntervals length := by
    rw [numIntervals_eq]
    exact Nat.le_add_left _ _
  calc _ = (((intervals length).map fun p => intervalIndex length p.1 p.2).filter
          fun i => decide (length ≤ i)).map (· - length) := by
        rw [hfilter, List.filter_map, List.map_map]
        rfl
    _ = List.range (numTransitions length) := by
        rw [map_intervalIndex_intervals, filter_range_eq_map hle, List.map_map, numIntervals_eq,
          Nat.add_sub_cancel]
        simp [Function.comp_def]

/-- A sequence of up to `2 ^ 32` positions has fewer intervals than there are machine words. -/
theorem numIntervals_lt_limit {length : ℕ} (h : length ≤ twoTo 32) :
    numIntervals length < Word.limit := by
  have hlimit : Word.limit = twoTo 32 * twoTo 32 := by decide
  have hmono : length * (length + 1) ≤ twoTo 32 * (twoTo 32 + 1) :=
    Nat.mul_le_mul h (Nat.succ_le_succ h)
  calc numIntervals length ≤ twoTo 32 * (twoTo 32 + 1) / 2 := Nat.div_le_div_right hmono
    _ < Word.limit := by decide

/-- For every number of positions, the pairs `start ≤ stop` are numbered without a gap in the order
of their starts and ends, and so are those with a start behind the first position as transitions. No
subtraction in the two formulas is cut off, and up to `2 ^ 32` positions no step leaves the machine
words. -/
theorem interval_numbering (length : ℕ) :
    (∀ start stop, (start, stop) ∈ intervals length ↔ start ≤ stop ∧ stop < length) ∧
      ((intervals length).Pairwise fun p q => p.1 < q.1 ∨ p.1 = q.1 ∧ p.2 < q.2) ∧
      (intervals length).map (fun p => intervalIndex length p.1 p.2) =
        List.range (length * (length + 1) / 2) ∧
      ((intervals length).filter fun p => decide (1 ≤ p.1)).map
          (fun p => transitionIndex length p.1 p.2) = List.range (length * (length - 1) / 2) ∧
      ∀ start stop, (start, stop) ∈ intervals length →
        start * (start - 1) / 2 ≤ start * length ∧ start ≤ stop ∧
          (1 ≤ start → length ≤ intervalIndex length start stop) ∧
          (length ≤ twoTo 32 → start * length < Word.limit ∧ start * (start - 1) < Word.limit ∧
            intervalIndex length start stop < Word.limit) := by
  refine ⟨fun start stop => mem_intervals, pairwise_lex_intervals length,
    map_intervalIndex_intervals length, map_transitionIndex_intervals length,
    fun start stop hmem => ?_⟩
  obtain ⟨hle, hl⟩ : start ≤ stop ∧ stop < length := mem_intervals.mp hmem
  have hsquare : start * (start - 1) ≤ start * length := Nat.mul_le_mul_left _ (by omega)
  refine ⟨(Nat.div_le_self _ 2).trans hsquare, hle, (length_le_intervalIndex_iff hmem).mpr,
    fun hlength => ?_⟩
  have hproduct : start * length < Word.limit := by
    calc start * length < length * length := Nat.mul_lt_mul_of_pos_right (by omega) (by omega)
      _ ≤ twoTo 32 * twoTo 32 := Nat.mul_le_mul hlength hlength
      _ = Word.limit := by decide
  exact ⟨hproduct, hsquare.trans_lt hproduct,
    (intervalIndex_lt_numIntervals hle hl).trans (numIntervals_lt_limit hlength)⟩

/-- The transitions of three positions lead into the intervals that start at the second and the
third. -/
example : ((intervals 3).filter fun p => decide (1 ≤ p.1)) = [(1, 1), (1, 2), (2, 2)] ∧
    transitionIndex 3 1 1 = 0 ∧ transitionIndex 3 1 2 = 1 ∧ transitionIndex 3 2 2 = 2 := by decide

end MapInference.Segmentation
