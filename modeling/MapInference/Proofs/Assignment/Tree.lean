import MapInference.Proofs.Assignment.Alternating
import MapInference.Proofs.Assignment.Matching
import MapInference.Oracle

/-!
# Augmenting along the tree

The rows of the tree are the new row and the rows of the visited columns. Every slack is the least
reduced cost of a column in these rows, and the column has been reached from the row that attains
it. Moving the potentials on the tree by the least slack keeps the matching tight and makes the pair
that attains the slack tight, so that the paths of the tree are made of tight pairs and assign the
new row. Row by row, this finds an assignment of least total cost.
-/

namespace MapInference.Assignment

open Scalar
variable {α : Type}

namespace Search

def InTree (newRow : ℕ) (s : Search α) (row : ℕ) : Prop :=
  row = newRow ∨ ∃ c, s.isVisited c ∧ s.matching.row? c = some row

def treeRows (newRow : ℕ) (s : Search α) : List ℕ :=
  newRow :: (List.range s.matching.rowOf.length).filterMap fun column =>
    if s.isVisited column then s.matching.row? column else none

theorem mem_treeRows {newRow row : ℕ} {s : Search α} :
    row ∈ s.treeRows newRow ↔ s.InTree newRow row := by
  simp only [treeRows, InTree, List.mem_cons, List.mem_filterMap, List.mem_range]
  refine or_congr Iff.rfl ⟨?_, ?_⟩
  · rintro ⟨c, _, hc⟩
    split_ifs at hc with hv
    exact ⟨c, hv, hc⟩
  · rintro ⟨c, hv, hc⟩
    exact ⟨c, Matching.lt_of_row? hc, by rw [if_pos hv, hc]⟩

theorem nodup_treeRows {numColumns r : ℕ} {s : Search α} (h : s.matching.IsPlaced numColumns r) :
    (s.treeRows r).Nodup := by
  refine List.nodup_cons.mpr ⟨?_, ?_⟩
  · intro hr
    obtain ⟨c, _, hc⟩ := List.mem_filterMap.mp hr
    split_ifs at hc with hv
    exact absurd (h.row_lt hc) (lt_irrefl r)
  · refine List.Nodup.filterMap ?_ List.nodup_range
    intro c d i hc hd
    rw [Option.mem_def] at hc hd
    split_ifs at hc with hvc
    split_ifs at hd with hvd
    exact h.row_inj hc hd

variable [ExactScalar α] {cost : ℕ → ℕ → α} {numRows numColumns r bounded : ℕ} {s : Search α}

/-- What the search keeps on its way to a free column. The slacks take the rows of the tree into
account, except for the row `unseen`. -/
structure IsTree (cost : ℕ → ℕ → α) (numRows numColumns r bounded : ℕ) (unseen : Option ℕ)
    (s : Search α) : Prop extends s.IsAlternating numColumns r where
  tight : s.matching.IsTight cost numRows numColumns r bounded
  bounded_eq {c : ℕ} : c < numColumns → s.isVisited c → bounded = r + 1
  slack_eq {c : ℕ} {x : α} : c < numColumns → s.isVisited c = false → s.slack? c = some x →
    x = s.matching.reduced cost (s.matching.rowAt r (s.origin? c)) c
  slack_le {c i : ℕ} : c < numColumns → s.isVisited c = false → s.InTree r i →
    unseen ≠ some i → ∃ x, s.slack? c = some x ∧ x ≤ s.matching.reduced cost i c
  origin_tight {c : ℕ} : c < numColumns → s.isVisited c →
    s.matching.reduced cost (s.matching.rowAt r (s.origin? c)) c = 0

theorem isTree_start {m : Matching α} (h : m.IsTight cost numRows numColumns r bounded) :
    (start m).IsTree cost numRows numColumns r bounded (some r) := by
  have hnone {c : ℕ} (hc : c < numColumns) : ¬ (start m).isVisited c = true := by
    simp [isVisited_start (h.length_rowOf ▸ hc : c < m.rowOf.length)]
  constructor
  case toIsAlternating => exact isAlternating_start h.toIsPlaced
  case tight => exact h
  case bounded_eq => exact fun hc hv => absurd hv (hnone hc)
  case slack_eq => simp [slack?_start]
  case slack_le =>
    intro c i hc _ hi hunseen
    rcases hi with rfl | ⟨d, hv, hd⟩
    · exact absurd rfl hunseen
    · exact absurd hv (hnone (h.length_rowOf ▸ Matching.lt_of_row? hd))
  case origin_tight => exact fun hc hv => absurd hv (hnone hc)

namespace IsTree

variable {unseen : Option ℕ}

theorem inTree_rowAt (h : s.IsTree cost numRows numColumns r bounded unseen) {origin : Option ℕ}
    (ho : ∀ d, origin = some d → d < numColumns ∧ s.isVisited d) :
    s.InTree r (s.matching.rowAt r origin) := by
  cases origin with
  | none => exact Or.inl rfl
  | some d =>
    obtain ⟨hd, hv⟩ := ho d rfl
    obtain ⟨i, hi⟩ := Option.ne_none_iff_exists'.mp (h.matched hd hv)
    rw [Matching.rowAt_some r hi]
    exact Or.inr ⟨d, hv, hi⟩

theorem row_lt_of_inTree (h : s.IsTree cost numRows numColumns r bounded unseen) (hr : r < numRows)
    {i : ℕ} (hi : s.InTree r i) : i < numRows := by
  rcases hi with rfl | ⟨c, _, hc⟩
  · exact hr
  · exact (h.placed.row_lt hc).trans hr

theorem relax
    (h : s.IsTree cost numRows numColumns r bounded (some (s.matching.rowAt r s.current))) :
    (s.relax cost r).IsTree cost numRows numColumns r bounded none := by
  have hslack {c : ℕ} (hc : c < numColumns) := slack?_relax cost r s (h.length_slack ▸ hc)
  have horigin {c : ℕ} (hc : c < numColumns) := origin?_relax cost r s (h.length_reachedFrom ▸ hc)
  constructor
  case toIsAlternating => exact h.toIsAlternating.relax
  case tight => exact h.tight
  case bounded_eq => exact h.bounded_eq
  case slack_eq =>
    intro c x hc hv hx
    rw [hslack hc] at hx
    rw [horigin hc]
    by_cases hi : s.improves cost r c = true
    · rw [if_pos hi] at hx ⊢
      rw [matching_relax, ← reducedCost_eq]
      exact (Option.some.inj hx).symm
    · rw [if_neg hi] at hx ⊢
      exact h.slack_eq hc hv hx
  case slack_le =>
    intro c i hc hv hi _
    have hlen : c < s.slack.length := h.length_slack ▸ hc
    obtain ⟨x, hx⟩ := exists_slack?_relax cost r s hlen hv (belowTop_eq_true _)
    obtain ⟨hcurrent, hold⟩ := slack?_relax_le cost r s hlen hv hx
    refine ⟨x, hx, ?_⟩
    rw [matching_relax]
    by_cases hi' : i = s.matching.rowAt r s.current
    · rwa [hi', ← reducedCost_eq]
    · obtain ⟨y, hy, hle⟩ := h.slack_le hc hv hi (by simpa using Ne.symm hi')
      exact (hold y hy).trans hle
  case origin_tight =>
    intro c hc hv
    rw [h.origin?_relax_of_isVisited hc hv]
    exact h.origin_tight hc hv

theorem coordinate_rowPotentials_shift (h : s.IsTree cost numRows numColumns r bounded unseen)
    {i : ℕ} (hi : i < numRows) (delta : α) :
    coordinate (s.shift r delta).matching.rowPotentials i =
      coordinate s.matching.rowPotentials i + if i ∈ s.treeRows r then delta else 0 :=
  coordinate_foldl_addAt (nodup_treeRows h.placed) (h.tight.length_rowPotentials ▸ hi) delta

theorem coordinate_columnPotentials_shift (h : s.IsTree cost numRows numColumns r bounded unseen)
    {c : ℕ} (hc : c < numColumns) (delta : α) :
    coordinate (s.shift r delta).matching.columnPotentials c =
      coordinate s.matching.columnPotentials c - if s.isVisited c then delta else 0 := by
  have hlen : c < s.matching.columnPotentials.length := h.tight.length_columnPotentials ▸ hc
  simp only [coordinate, Search.shift, List.getElem?_map, List.getElem?_zipIdx, Nat.zero_add,
    List.getElem?_eq_getElem hlen, Option.map_some, Option.getD_some]
  split_ifs <;> simp

theorem reduced_shift (h : s.IsTree cost numRows numColumns r bounded unseen) {i c : ℕ}
    (hi : i < numRows) (hc : c < numColumns) (delta : α) :
    (s.shift r delta).matching.reduced cost i c =
      s.matching.reduced cost i c - (if i ∈ s.treeRows r then delta else 0) +
        if s.isVisited c then delta else 0 := by
  rw [Matching.reduced, h.coordinate_rowPotentials_shift hi, h.coordinate_columnPotentials_shift hc,
    Matching.reduced]
  ring

theorem slack?_shift (h : s.IsTree cost numRows numColumns r bounded unseen) {c : ℕ}
    (hc : c < numColumns) (hv : s.isVisited c = false) (delta : α) :
    (s.shift r delta).slack? c = (s.slack? c).map (· - delta) := by
  have hlen : c < s.slack.length := h.length_slack ▸ hc
  simp only [slack?, Search.shift, List.getElem?_map, List.getElem?_zipIdx, Nat.zero_add,
    List.getElem?_eq_getElem hlen, Option.map_some, hv]
  rfl

theorem delta_nonneg (h : s.IsTree cost numRows numColumns r bounded none) {c d : ℕ} {delta : α}
    (hc : s.slack? c = some delta) (hv : s.isVisited c = false) (hd : d < numColumns)
    (hvd : s.isVisited d) : 0 ≤ delta := by
  have hlt := h.lt_of_isVisited_eq_false hv
  rw [h.slack_eq hlt hv hc]
  refine h.tight.reduced_nonneg ?_ hlt
  rw [h.bounded_eq hd hvd]
  rcases h.inTree_rowAt fun e he => h.origin_visited hlt he with hi | ⟨e, _, he⟩
  · rw [hi]
    exact Nat.lt_succ_self r
  · exact Nat.lt_succ_of_lt (h.placed.row_lt he)

theorem mem_treeRows_of_row? (h : s.IsTree cost numRows numColumns r bounded unseen) {i c : ℕ}
    (hi : s.matching.row? c = some i) : i ∈ s.treeRows r ↔ s.isVisited c := by
  rw [mem_treeRows]
  constructor
  · rintro (rfl | ⟨d, hvd, hd⟩)
    · exact absurd (h.placed.row_lt hi) (lt_irrefl i)
    · rwa [h.placed.row_inj hi hd]
  · exact fun hvc => Or.inr ⟨c, hvc, hi⟩

theorem reduced_shift_nonneg (h : s.IsTree cost numRows numColumns r bounded none)
    (hr : r < numRows) (hbounded : r ≤ bounded) {c : ℕ} {delta : α}
    (hnearest : s.nearest? = some (c, delta)) {i d : ℕ} (hi : i < r + 1) (hd : d < numColumns) :
    0 ≤ (s.shift r delta).matching.reduced cost i d := by
  obtain ⟨hc, hv⟩ := of_nearest? hnearest
  rw [h.reduced_shift (by omega) hd]
  cases hvd : s.isVisited d with
  | true =>
    have hb := h.tight.reduced_nonneg (h.bounded_eq hd hvd ▸ hi) hd
    have h0 := h.delta_nonneg hc hv hd hvd
    simp only [↓reduceIte]
    split_ifs <;> linarith
  | false =>
    by_cases htree : i ∈ s.treeRows r
    · obtain ⟨x, hx, hxle⟩ := h.slack_le hd hvd (mem_treeRows.mp htree) (by simp)
      have := nearest?_le hnearest hx hvd
      simp [htree]
      linarith
    · have hne : i ≠ r := fun hir => htree (mem_treeRows.mpr (Or.inl hir))
      have := h.tight.reduced_nonneg (i := i) (by omega) hd
      simpa [htree] using this

/-- Moving the potentials by the least slack keeps the matching tight, and bounds the new row. -/
theorem tight_shift (h : s.IsTree cost numRows numColumns r bounded none) (hr : r < numRows)
    (hbounded : r ≤ bounded) {c : ℕ} {delta : α} (hnearest : s.nearest? = some (c, delta)) :
    (s.shift r delta).matching.IsTight cost numRows numColumns r (r + 1) := by
  obtain ⟨hc, hv⟩ := of_nearest? hnearest
  have hcols {d : ℕ} (hd : d < numColumns) := h.coordinate_columnPotentials_shift hd delta
  constructor
  case toIsPlaced => exact (h.toIsAlternating.shift delta).placed
  case length_rowPotentials =>
    exact (Oracle.length_accumulateAt _ delta _).trans h.tight.length_rowPotentials
  case length_columnPotentials => simpa [Search.shift] using h.tight.length_columnPotentials
  case reduced_nonneg => exact h.reduced_shift_nonneg hr hbounded hnearest
  case reduced_eq_zero =>
    intro i d hi
    have hd : d < numColumns := h.placed.length_rowOf ▸ Matching.lt_of_row? hi
    have hir : i < r := h.placed.row_lt hi
    rw [h.reduced_shift (hir.trans hr) hd, h.tight.reduced_eq_zero hi]
    simp [h.mem_treeRows_of_row? hi]
  case column_nonpos =>
    intro d hd
    have hneg := h.tight.column_nonpos hd
    rw [hcols hd]
    split_ifs with hvd
    · have h0 := h.delta_nonneg hc hv hd hvd
      linarith
    · simpa using hneg
  case column_eq_zero =>
    intro d hd hnone
    have hvd : ¬ s.isVisited d := fun hvd => h.matched hd hvd hnone
    rw [hcols hd, if_neg hvd, sub_zero]
    exact h.tight.column_eq_zero hd hnone

theorem shift (h : s.IsTree cost numRows numColumns r bounded none) (hr : r < numRows)
    (hbounded : r ≤ bounded) {c : ℕ} {delta : α} (hnearest : s.nearest? = some (c, delta)) :
    (s.shift r delta).IsTree cost numRows numColumns r (r + 1) none := by
  have hreduced {d : ℕ} (hd : d < numColumns) :
      (s.shift r delta).matching.reduced cost (s.matching.rowAt r (s.origin? d)) d =
        s.matching.reduced cost (s.matching.rowAt r (s.origin? d)) d - delta +
          if s.isVisited d then delta else 0 := by
    have htree := h.inTree_rowAt fun e he => h.origin_visited hd he
    rw [h.reduced_shift (h.row_lt_of_inTree hr htree) hd, if_pos (mem_treeRows.mpr htree)]
  constructor
  case toIsAlternating => exact h.toIsAlternating.shift delta
  case tight => exact h.tight_shift hr hbounded hnearest
  case bounded_eq => exact fun _ _ => rfl
  case slack_eq =>
    intro d x hd hvd hx
    have hvd : s.isVisited d = false := hvd
    rw [h.slack?_shift hd hvd] at hx
    obtain ⟨y, hy, rfl⟩ := Option.map_eq_some_iff.mp hx
    have hred := hreduced hd
    rw [hvd, if_neg (by simp), add_zero] at hred
    exact (congrArg (· - delta) (h.slack_eq hd hvd hy)).trans hred.symm
  case slack_le =>
    intro d i hd hvd hi _
    have hvd : s.isVisited d = false := hvd
    have hi : s.InTree r i := hi
    obtain ⟨x, hx, hxle⟩ := h.slack_le hd hvd hi (by simp)
    refine ⟨x - delta, by rw [h.slack?_shift hd hvd, hx, Option.map_some], ?_⟩
    rw [h.reduced_shift (h.row_lt_of_inTree hr hi) hd, if_pos (mem_treeRows.mpr hi), hvd]
    simpa using hxle
  case origin_tight =>
    intro d hd hvd
    have hvd : s.isVisited d = true := hvd
    have hred := hreduced hd
    rw [if_pos hvd, sub_add_cancel, h.origin_tight hd hvd] at hred
    exact hred

/-- After a shift, the column that attained the least slack makes a tight pair with the row that it
has been reached from. -/
theorem reduced_shift_eq_zero (h : s.IsTree cost numRows numColumns r bounded none)
    (hr : r < numRows) (hbounded : r ≤ bounded) {c : ℕ} {delta : α}
    (hnearest : s.nearest? = some (c, delta)) :
    let t := s.shift r delta
    t.matching.reduced cost (t.matching.rowAt r (t.origin? c)) c = 0 := by
  intro t
  obtain ⟨hc, hv⟩ := of_nearest? hnearest
  have hlt := h.lt_of_isVisited_eq_false hv
  have hzero : t.slack? c = some 0 := by rw [h.slack?_shift hlt hv, hc, Option.map_some, sub_self]
  exact ((h.shift hr hbounded hnearest).slack_eq hlt hv hzero).symm

theorem advance
    (h : s.IsTree cost numRows numColumns r bounded (some (s.matching.rowAt r s.current)))
    (hr : r < numRows) (hbounded : r ≤ bounded) {c : ℕ} {delta : α}
    (hnearest : (s.relax cost r).nearest? = some (c, delta)) (hrow : s.matching.row? c ≠ none) :
    (s.advance cost r c delta).IsTree cost numRows numColumns r (r + 1)
      (some (s.matching.rowAt r (some c))) := by
  have hshifted := h.relax.shift hr hbounded hnearest
  have hzero := h.relax.reduced_shift_eq_zero hr hbounded hnearest
  let t := (s.relax cost r).shift r delta
  have hv : t.isVisited c = false := (of_nearest? hnearest).2
  have hvisit := hshifted.isVisited_visit (hshifted.lt_of_isVisited_eq_false hv)
  have hnew {d : ℕ} (hd : (t.visit c).isVisited d = false) : t.isVisited d = false := by
    rw [hvisit] at hd
    exact (Bool.or_eq_false_iff.mp hd).2
  have hcases {d : ℕ} (hd : (t.visit c).isVisited d) : d = c ∨ t.isVisited d := by
    rw [hvisit] at hd
    simpa using hd
  obtain ⟨i, hi⟩ := Option.ne_none_iff_exists'.mp hrow
  constructor
  case toIsAlternating => exact h.toIsAlternating.advance hnearest hrow
  case tight => exact hshifted.tight
  case bounded_eq => exact fun _ _ => rfl
  case slack_eq => exact fun hd hvd hx => hshifted.slack_eq hd (hnew hvd) hx
  case slack_le =>
    intro d j hd hvd hj hunseen
    refine hshifted.slack_le hd (hnew hvd) ?_ (by simp)
    rcases hj with hj | ⟨e, hve, he⟩
    · exact Or.inl hj
    · rcases hcases hve with rfl | hve
      · rw [Matching.rowAt_some r hi] at hunseen
        exact absurd (hi.symm.trans he) hunseen
      · exact Or.inr ⟨e, hve, he⟩
  case origin_tight =>
    intro d hd hvd
    rcases hcases hvd with rfl | hvd
    · exact hzero
    · exact hshifted.origin_tight hd hvd

end IsTree
end Search

variable [ExactScalar α] {cost : ℕ → ℕ → α} {numRows numColumns r : ℕ} {m : Matching α}

theorem isTight_addRow (h : m.IsTight cost numRows numColumns r r) (hr : r < numRows)
    (hcols : r < numColumns) :
    (addRow cost m r).IsTight cost numRows numColumns (r + 1) (r + 1) := by
  have hcount : (Search.start m).visited.count false < m.rowOf.length + 1 := by
    simp [Search.start]
  let P (t : Search α) : Prop := ∃ bounded, r ≤ bounded ∧
    t.IsTree cost numRows numColumns r bounded (some (t.matching.rowAt r t.current))
  have hstart : P (Search.start m) := ⟨r, le_rfl, Search.isTree_start h⟩
  have halternating : ∀ t, P t → t.IsAlternating numColumns r := by
    rintro t ⟨_, _, ht⟩
    exact ht.toIsAlternating
  have hreaches : ∀ t, P t → ∃ c delta, (t.relax cost r).nearest? = some (c, delta) := by
    rintro t ⟨_, _, ht⟩
    obtain ⟨free, hlt, hv⟩ := ht.exists_unvisited hcols
    obtain ⟨x, hx, _⟩ := ht.relax.slack_le hlt hv (Or.inl rfl) (by simp)
    exact Search.exists_nearest? hx hv (belowTop_eq_true x)
  have hadvance : ∀ t c delta, P t → (t.relax cost r).nearest? = some (c, delta) →
      t.matching.row? c ≠ none → P (t.advance cost r c delta) := by
    rintro t c delta ⟨_, hbounded, ht⟩ hnearest hrow
    exact ⟨r + 1, Nat.le_succ r, ht.advance hr hbounded hnearest hrow⟩
  obtain ⟨t, c, delta, ⟨bounded, hbounded, ht⟩, hnearest, hfree, hgrow⟩ :=
    Search.exists_grow_eq halternating hreaches hadvance hstart hcount
  have hshifted := ht.relax.shift hr hbounded hnearest
  obtain ⟨path, hpath, hall, hlength, hlt, hplaced⟩ :=
    ht.toIsAlternating.exists_augment hnearest hfree
  rw [addRow, hgrow, h.length_rowOf]
  refine hshifted.tight.augment hpath hlength hlt ?_ hplaced
  intro d hd
  rcases List.mem_cons.mp hd with rfl | hd
  · exact ht.relax.reduced_shift_eq_zero hr hbounded hnearest
  · exact hshifted.origin_tight (hall d hd).1 (hall d hd).2

theorem isTight_placed (cost : ℕ → ℕ → α) (hcols : numRows ≤ numColumns) (hr : r ≤ numRows) :
    (placed cost numRows numColumns r).IsTight cost numRows numColumns r r := by
  induction r with
  | zero => exact Matching.isTight_empty numRows numColumns
  | succ r ih =>
    rw [placed_succ]
    exact isTight_addRow (ih (by omega)) (by omega) (by omega)

/-- The columns of the rows are different, and no other choice of different columns costs less. -/
theorem exists_solve (cost : ℕ → ℕ → α) (h : numRows ≤ numColumns) :
    ∃ column : ℕ → ℕ, solve cost numRows numColumns = (List.range numRows).map column ∧
      (∀ i < numRows, column i < numColumns) ∧ Set.InjOn column (Finset.range numRows) ∧
      ∀ other : ℕ → ℕ, (∀ i < numRows, other i < numColumns) →
        Set.InjOn other (Finset.range numRows) →
        ∑ i ∈ Finset.range numRows, cost i (column i) ≤
          ∑ i ∈ Finset.range numRows, cost i (other i) := by
  have htight := isTight_placed cost h le_rfl
  obtain ⟨column, hcolumns, hrow, hlt, hinj⟩ := htight.exists_columns
  exact ⟨column, hcolumns, hlt, hinj, fun other hother hinj =>
    htight.sum_cost_le hrow hother hinj⟩

end MapInference.Assignment
