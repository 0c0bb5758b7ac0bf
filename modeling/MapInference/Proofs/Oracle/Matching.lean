import MapInference.Proofs.Assignment.Tree
import MapInference.Proofs.Oracle.Indicators
import MapInference.Oracle.Matching

/-!
# The laws of bipartite matchings

The configurations are the matchings of all elements of the smaller side. A matching that assigns
rows to columns, or columns to rows, has the greatest score when the assignment has the least cost
for the negated scores.
-/

namespace MapInference.Matching

open Scalar

structure IsMatching (numRows numColumns : ℕ) (columns : List (Option ℕ)) : Prop where
  length_eq : columns.length = numRows
  column_lt {c : ℕ} : some c ∈ columns → c < numColumns
  nodup : (columns.filterMap id).Nodup
  length_matched : (columns.filterMap id).length = min numRows numColumns

theorem nodup_matched_iff {columns : List (Option ℕ)} :
    (columns.filterMap id).Nodup ↔
      ∀ i j c : ℕ, columns[i]? = some (some c) → columns[j]? = some (some c) → i = j := by
  rw [List.Nodup, List.pairwise_filterMap, List.pairwise_iff_getElem]
  constructor
  · intro h i j c hi hj
    obtain ⟨hil, hi⟩ := List.getElem?_eq_some_iff.mp hi
    obtain ⟨hjl, hj⟩ := List.getElem?_eq_some_iff.mp hj
    rcases lt_trichotomy i j with hij | hij | hij
    · exact absurd rfl (h i j hil hjl hij c hi c hj)
    · exact hij
    · exact absurd rfl (h j i hjl hil hij c hj c hi)
  · rintro h i j hil hjl hij c hi d hj rfl
    have hi : columns[i] = some c := hi
    have hj : columns[j] = some c := hj
    exact hij.ne (h i j c (by rw [List.getElem?_eq_getElem hil, hi])
      (by rw [List.getElem?_eq_getElem hjl, hj]))

theorem trueVariables_cons (numColumns : ℕ) (column : Option ℕ) (columns : List (Option ℕ)) :
    trueVariables numColumns (column :: columns) =
      column.toList ++ (trueVariables numColumns columns).map (· + numColumns) := by
  have hshift : (columns.zipIdx 1).filterMap (fun entry =>
        entry.1.map (pairIndex numColumns entry.2)) =
      (trueVariables numColumns columns).map (· + numColumns) := by
    rw [trueVariables, List.zipIdx_succ, List.filterMap_map, List.map_filterMap]
    congr 1
    funext entry
    obtain ⟨column, row⟩ := entry
    cases column with
    | none => rfl
    | some c =>
      simp only [Function.comp_apply, Option.map_some, pairIndex, Nat.succ_mul]
      congr 1
      omega
  rw [trueVariables, List.zipIdx_cons, Nat.zero_add, List.filterMap_cons, ← hshift]
  cases column with
  | none => rfl
  | some c => simp [pairIndex]

theorem trueVariables_lt {numColumns : ℕ} {columns : List (Option ℕ)}
    (h : ∀ c, some c ∈ columns → c < numColumns) :
    ∀ i ∈ trueVariables numColumns columns, i < columns.length * numColumns := by
  induction columns with
  | nil => simp [trueVariables]
  | cons column columns ih =>
    intro i hi
    rw [trueVariables_cons] at hi
    rw [List.length_cons, Nat.succ_mul]
    rcases List.mem_append.mp hi with hi | hi
    · have := h i (Option.mem_toList.mp hi ▸ List.mem_cons_self)
      omega
    · obtain ⟨j, hj, rfl⟩ := List.mem_map.mp hi
      have := ih (fun c hc => h c (List.mem_cons_of_mem _ hc)) j hj
      omega

theorem pairwise_trueVariables {numColumns : ℕ} {columns : List (Option ℕ)}
    (h : ∀ c, some c ∈ columns → c < numColumns) :
    (trueVariables numColumns columns).Pairwise (· < ·) := by
  induction columns with
  | nil => simp [trueVariables]
  | cons column columns ih =>
    have hrest := ih fun c hc => h c (List.mem_cons_of_mem _ hc)
    have hmap := hrest.map (· + numColumns) fun a b hab => Nat.add_lt_add_right hab numColumns
    rw [trueVariables_cons]
    cases column with
    | none => simpa using hmap
    | some c =>
      refine List.pairwise_cons.mpr ⟨?_, hmap⟩
      intro i hi
      obtain ⟨j, _, rfl⟩ := List.mem_map.mp hi
      have := h c List.mem_cons_self
      omega

theorem rowColumn?_eq_some_iff {values : List Bool} {column : Option ℕ} :
    rowColumn? values = some column ↔ Oracle.trueIndices values = column.toList := by
  unfold rowColumn?
  split
  · next h => cases column <;> simp [h]
  · next c h => cases column <;> simp [h]
  · next hnil hone =>
    cases column with
    | none => simpa using hnil
    | some c => simpa using hone c

theorem rowColumns?_eq_some_iff {numColumns numRows : ℕ} {values : List Bool}
    {columns : List (Option ℕ)} (h : values.length = numRows * numColumns) :
    rowColumns? numColumns numRows values = some columns ↔
      columns.length = numRows ∧ (∀ c, some c ∈ columns → c < numColumns) ∧
        trueVariables numColumns columns = Oracle.trueIndices values := by
  induction numRows generalizing values columns with
  | zero =>
    have hv : values = [] := List.length_eq_zero_iff.mp (by simpa using h)
    cases columns with
    | nil => simp [rowColumns?, trueVariables, hv, Oracle.trueIndices]
    | cons column columns => simp [rowColumns?]
  | succ numRows ih =>
    rw [Nat.succ_mul] at h
    have hle : numColumns ≤ values.length := by omega
    have hrest : (values.drop numColumns).length = numRows * numColumns := by
      rw [List.length_drop, h, Nat.add_sub_cancel]
    cases columns with
    | nil => simp [rowColumns?, Option.bind_eq_some_iff]
    | cons column columns =>
      have hof : rowColumns? numColumns (numRows + 1) values = some (column :: columns) ↔
          rowColumn? (values.take numColumns) = some column ∧
            rowColumns? numColumns numRows (values.drop numColumns) = some columns := by
        simp [rowColumns?, Option.bind_eq_some_iff]
      have hblocks (hlt : ∀ c ∈ column.toList, c < numColumns) :
          column.toList ++ (trueVariables numColumns columns).map (· + numColumns) =
              Oracle.trueIndices values ↔
            column.toList = Oracle.trueIndices (values.take numColumns) ∧
              trueVariables numColumns columns = Oracle.trueIndices (values.drop numColumns) :=
        Oracle.append_eq_trueIndices_iff hle hlt
      rw [hof, rowColumn?_eq_some_iff, ih hrest, trueVariables_cons]
      constructor
      · rintro ⟨htrue, hlen, hlt, hi⟩
        have hcolumn : ∀ c ∈ column.toList, c < numColumns := fun c hc =>
          Oracle.lt_of_mem_trueIndices_take (htrue ▸ hc)
        refine ⟨by simpa using hlen, ?_, (hblocks hcolumn).mpr ⟨htrue.symm, hi⟩⟩
        intro c hc
        rcases List.mem_cons.mp hc with rfl | hc
        · exact hcolumn c (by simp)
        · exact hlt c hc
      · rintro ⟨hlen, hlt, hi⟩
        have hcolumn : ∀ c ∈ column.toList, c < numColumns := by
          intro c hc
          exact hlt c (Option.mem_toList.mp hc ▸ List.mem_cons_self)
        obtain ⟨htrue, hi⟩ := (hblocks hcolumn).mp hi
        exact ⟨htrue.symm, by simpa using hlen, fun c hc => hlt c (List.mem_cons_of_mem _ hc), hi⟩

theorem ofAssignment?_eq_some_iff {numRows numColumns : ℕ} {values : List Bool}
    {columns : List (Option ℕ)} (h : values.length = numRows * numColumns) :
    ofAssignment? numRows numColumns values = some columns ↔
      IsMatching numRows numColumns columns ∧
        trueVariables numColumns columns = Oracle.trueIndices values := by
  have hof : ofAssignment? numRows numColumns values = some columns ↔
      rowColumns? numColumns numRows values = some columns ∧ (columns.filterMap id).Nodup ∧
        (columns.filterMap id).length = min numRows numColumns := by
    simp only [ofAssignment?, Option.bind_eq_bind, Option.bind_eq_some_iff]
    constructor
    · rintro ⟨found, hfound, hif⟩
      split_ifs at hif with hm
      exact Option.some.inj hif ▸ ⟨hfound, hm⟩
    · rintro ⟨hfound, hm⟩
      exact ⟨columns, hfound, if_pos hm⟩
  rw [hof, rowColumns?_eq_some_iff h]
  constructor
  · rintro ⟨⟨hlen, hlt, htrue⟩, hnodup, hcount⟩
    exact ⟨⟨hlen, fun hc => hlt _ hc, hnodup, hcount⟩, htrue⟩
  · rintro ⟨hm, htrue⟩
    exact ⟨⟨hm.length_eq, fun _ hc => hm.column_lt hc, htrue⟩, hm.nodup, hm.length_matched⟩

variable {α : Type} [ExactScalar α] {numRows numColumns : ℕ} {scores : List α}
  {columns : List (Option ℕ)}

def rowScore (numColumns : ℕ) (scores : List α) (columns : List (Option ℕ)) (row : ℕ) : α :=
  (columns[row]?.join.map fun c => coordinate scores (pairIndex numColumns row c)).getD 0

theorem rowScore_of_eq_some {i c : ℕ} (h : columns[i]? = some (some c)) :
    rowScore numColumns scores columns i = coordinate scores (pairIndex numColumns i c) := by
  simp [rowScore, h]

theorem rowScore_of_unmatched {i : ℕ} (h : ∀ c, columns[i]? ≠ some (some c)) :
    rowScore numColumns scores columns i = 0 := by
  unfold rowScore
  cases hi : columns[i]? with
  | none => rfl
  | some column =>
    cases column with
    | none => rfl
    | some c => exact absurd hi (h c)

theorem score_eq_sum (numColumns : ℕ) (scores : List α) (columns : List (Option ℕ)) :
    score numColumns scores columns =
      ∑ i ∈ Finset.range columns.length, rowScore numColumns scores columns i := by
  induction columns using List.reverseRecOn with
  | nil => simp [score, trueVariables]
  | append_singleton columns column ih =>
    have hscore : score numColumns scores (columns ++ [column]) =
        score numColumns scores columns +
          (column.map fun c => coordinate scores (pairIndex numColumns columns.length c)).getD 0 := by
      rw [score, trueVariables, List.zipIdx_append, List.filterMap_append, Oracle.scoreAt_append]
      cases column <;> simp [score, trueVariables]
    have hlast : rowScore numColumns scores (columns ++ [column]) columns.length =
        (column.map fun c => coordinate scores (pairIndex numColumns columns.length c)).getD 0 := by
      simp [rowScore]
    rw [hscore, ih, List.length_append, List.length_singleton, Finset.sum_range_succ, hlast]
    congr 1
    refine Finset.sum_congr rfl fun i hi => ?_
    rw [rowScore, rowScore, List.getElem?_append_left (Finset.mem_range.mp hi)]

/-- With at most as many rows as columns, a matching is a choice of different columns. -/
theorem isMatching_iff_of_le (h : numRows ≤ numColumns) :
    IsMatching numRows numColumns columns ↔
      ∃ column : ℕ → ℕ, columns = (List.range numRows).map (fun i => some (column i)) ∧
        (∀ i < numRows, column i < numColumns) ∧ Set.InjOn column (Finset.range numRows) := by
  have hid (column : ℕ → ℕ) : ((List.range numRows).map fun i => some (column i)).filterMap id =
      (List.range numRows).map column := by
    simp [List.filterMap_map]
  constructor
  · intro hm
    have hlen : (columns.filterMap id).length = columns.length := by
      rw [hm.length_matched, hm.length_eq, min_eq_left h]
    have hget (i : ℕ) (hi : i < numRows) :
        columns[i]? = some (some (columns[i]?.join.getD 0)) := by
      have hlt : i < columns.length := hm.length_eq ▸ hi
      have hsome := List.filterMap_length_eq_length.mp hlen columns[i] (List.getElem_mem hlt)
      obtain ⟨c, hc⟩ := Option.isSome_iff_exists.mp hsome
      have hc : columns[i] = some c := hc
      rw [List.getElem?_eq_getElem hlt, hc]
      rfl
    refine ⟨fun i => columns[i]?.join.getD 0, ?_, ?_, ?_⟩
    · exact eq_map_range hm.length_eq hget
    · exact fun i hi => hm.column_lt (List.mem_of_getElem? (hget i hi))
    · intro i hi j hj hij
      have hi := hget i (Finset.mem_range.mp hi)
      have hj := hget j (Finset.mem_range.mp hj)
      have hij : columns[i]?.join.getD 0 = columns[j]?.join.getD 0 := hij
      rw [hij] at hi
      exact nodup_matched_iff.mp hm.nodup i j _ hi hj
  · rintro ⟨column, rfl, hlt, hinj⟩
    constructor
    case length_eq => simp
    case column_lt =>
      intro c hc
      obtain ⟨i, hi, hic⟩ := List.mem_map.mp hc
      exact Option.some.inj hic ▸ hlt i (List.mem_range.mp hi)
    case nodup =>
      rw [hid]
      refine List.Nodup.map_on ?_ List.nodup_range
      intro i hi j hj hij
      exact hinj (by simpa using hi) (by simpa using hj) hij
    case length_matched => simp [min_eq_left h]

theorem score_map_range (numColumns : ℕ) (scores : List α) (column : ℕ → ℕ) :
    score numColumns scores ((List.range numRows).map fun i => some (column i)) =
      ∑ i ∈ Finset.range numRows, coordinate scores (pairIndex numColumns i (column i)) := by
  rw [score_eq_sum, List.length_map, List.length_range]
  refine Finset.sum_congr rfl fun i hi => rowScore_of_eq_some ?_
  rw [List.getElem?_map, List.getElem?_range (Finset.mem_range.mp hi), Option.map_some]

structure Inverts (numRows numColumns : ℕ) (columns : List (Option ℕ)) (row : ℕ → ℕ) : Prop where
  length_eq : columns.length = numRows
  getElem?_eq {c : ℕ} : c < numColumns → columns[row c]? = some (some c)
  column_lt {i c : ℕ} : columns[i]? = some (some c) → c < numColumns
  row_eq {i c : ℕ} : columns[i]? = some (some c) → row c = i

namespace Inverts

variable {row : ℕ → ℕ}

theorem row_lt (h : Inverts numRows numColumns columns row) {c : ℕ} (hc : c < numColumns) :
    row c < numRows := by
  obtain ⟨hlt, _⟩ := List.getElem?_eq_some_iff.mp (h.getElem?_eq hc)
  exact h.length_eq ▸ hlt

theorem injOn (h : Inverts numRows numColumns columns row) :
    Set.InjOn row (Finset.range numColumns) := by
  intro c hc d hd hcd
  have hget := h.getElem?_eq (Finset.mem_range.mp hc)
  rw [hcd, h.getElem?_eq (Finset.mem_range.mp hd)] at hget
  exact (Option.some.inj (Option.some.inj hget)).symm

theorem score_eq_sum (h : Inverts numRows numColumns columns row) (scores : List α) :
    score numColumns scores columns =
      ∑ c ∈ Finset.range numColumns, coordinate scores (pairIndex numColumns (row c) c) := by
  have hsub : (Finset.range numColumns).image row ⊆ Finset.range numRows := by
    intro i hi
    obtain ⟨c, hc, rfl⟩ := Finset.mem_image.mp hi
    exact Finset.mem_range.mpr (h.row_lt (Finset.mem_range.mp hc))
  rw [Matching.score_eq_sum, h.length_eq, ← Finset.sum_subset hsub, Finset.sum_image h.injOn]
  · exact Finset.sum_congr rfl fun c hc =>
      rowScore_of_eq_some (h.getElem?_eq (Finset.mem_range.mp hc))
  · intro i _ hi
    apply rowScore_of_unmatched
    intro c hc
    exact hi (Finset.mem_image.mpr ⟨c, Finset.mem_range.mpr (h.column_lt hc), h.row_eq hc⟩)

theorem isMatching (h : Inverts numRows numColumns columns row) (hle : numColumns ≤ numRows) :
    IsMatching numRows numColumns columns := by
  have hnodup : (columns.filterMap id).Nodup := by
    rw [nodup_matched_iff]
    intro i j c hi hj
    rw [← h.row_eq hi, ← h.row_eq hj]
  have hperm : (columns.filterMap id).Perm (List.range numColumns) := by
    refine (List.perm_ext_iff_of_nodup hnodup List.nodup_range).mpr fun c => ?_
    rw [List.mem_range, List.mem_filterMap]
    constructor
    · rintro ⟨column, hmem, hc⟩
      have hc : column = some c := hc
      obtain ⟨i, hi⟩ := List.mem_iff_getElem?.mp (hc ▸ hmem)
      exact h.column_lt hi
    · exact fun hc => ⟨some c, List.mem_of_getElem? (h.getElem?_eq hc), rfl⟩
  constructor
  case length_eq => exact h.length_eq
  case column_lt =>
    intro c hc
    obtain ⟨i, hi⟩ := List.mem_iff_getElem?.mp hc
    exact h.column_lt hi
  case nodup => exact hnodup
  case length_matched => rw [hperm.length_eq, List.length_range, min_eq_right hle]

end Inverts

theorem IsMatching.exists_inverts (hm : IsMatching numRows numColumns columns)
    (h : numColumns ≤ numRows) : ∃ row : ℕ → ℕ, Inverts numRows numColumns columns row := by
  have hmem (c : ℕ) : ∃ i : ℕ, c < numColumns → columns[i]? = some (some c) := by
    by_cases hc : c < numColumns
    swap
    · exact ⟨0, fun hlt => absurd hlt hc⟩
    have hsub : columns.filterMap id ⊆ List.range numColumns := by
      intro d hd
      obtain ⟨column, hcolumn, hd⟩ := List.mem_filterMap.mp hd
      have hd : column = some d := hd
      exact List.mem_range.mpr (hm.column_lt (hd ▸ hcolumn))
    -- As many different columns as there are leave none out.
    have hperm : (columns.filterMap id).Perm (List.range numColumns) := by
      refine (hm.nodup.subperm hsub).perm_of_length_le ?_
      rw [hm.length_matched, List.length_range, min_eq_right h]
    obtain ⟨column, hcolumn, hd⟩ :=
      List.mem_filterMap.mp (hperm.mem_iff.mpr (List.mem_range.mpr hc))
    have hd : column = some c := hd
    obtain ⟨i, hi⟩ := List.mem_iff_getElem?.mp (hd ▸ hcolumn)
    exact ⟨i, fun _ => hi⟩
  choose row hrow using hmem
  have hcolumn {i c : ℕ} (hi : columns[i]? = some (some c)) : c < numColumns :=
    hm.column_lt (List.mem_of_getElem? hi)
  exact ⟨row, hm.length_eq, hrow _, hcolumn,
    fun hi => nodup_matched_iff.mp hm.nodup _ _ _ (hrow _ (hcolumn hi)) hi⟩

theorem ofRows_concat (numRows : ℕ) (rows : List ℕ) (row : ℕ) :
    ofRows numRows (rows ++ [row]) = (ofRows numRows rows).set row (some rows.length) := by
  simp [ofRows, List.zipIdx_append]

@[simp] theorem length_ofRows (numRows : ℕ) (rows : List ℕ) :
    (ofRows numRows rows).length = numRows := by
  induction rows using List.reverseRecOn with
  | nil => simp [ofRows]
  | append_singleton rows row ih => rw [ofRows_concat, List.length_set, ih]

theorem ofRows_eq_some_iff {rows : List ℕ} (hn : rows.Nodup) (hlt : ∀ row ∈ rows, row < numRows)
    {i c : ℕ} : (ofRows numRows rows)[i]? = some (some c) ↔ rows[c]? = some i := by
  induction rows using List.reverseRecOn generalizing i c with
  | nil => by_cases hi : i < numRows <;> simp [ofRows, hi]
  | append_singleton rows row ih =>
    have hn' : rows.Nodup := hn.sublist (List.sublist_append_left _ _)
    have hrow : row ∉ rows := fun hmem =>
      (List.nodup_append.mp hn).2.2 row hmem row (List.mem_singleton_self row) rfl
    have hlast : row < (ofRows numRows rows).length := by
      simpa using hlt row (by simp)
    have ih := ih hn' (fun r hr => hlt r (List.mem_append_left _ hr)) (i := i) (c := c)
    rw [ofRows_concat]
    by_cases hi : row = i
    · subst hi
      rw [List.getElem?_set_self hlast, Option.some.injEq, Option.some.injEq]
      rcases lt_trichotomy c rows.length with hc | rfl | hc
      · rw [List.getElem?_append_left hc]
        refine ⟨fun h => absurd h.symm hc.ne, fun h => absurd (List.mem_of_getElem? h) hrow⟩
      · simp
      · rw [List.getElem?_eq_none (by simpa using hc)]
        simpa using hc.ne
    · rw [List.getElem?_set_ne hi, ih]
      rcases lt_trichotomy c rows.length with hc | rfl | hc
      · rw [List.getElem?_append_left hc]
      · simpa using hi
      · rw [List.getElem?_eq_none hc.le, List.getElem?_eq_none (by simpa using hc)]

theorem inverts_ofRows {row : ℕ → ℕ} (hlt : ∀ c < numColumns, row c < numRows)
    (hinj : Set.InjOn row (Finset.range numColumns)) :
    Inverts numRows numColumns (ofRows numRows ((List.range numColumns).map row)) row := by
  have hnodup : ((List.range numColumns).map row).Nodup := by
    refine List.Nodup.map_on ?_ List.nodup_range
    intro c hc d hd hcd
    exact hinj (by simpa using hc) (by simpa using hd) hcd
  have hrows : ∀ i ∈ (List.range numColumns).map row, i < numRows := by
    intro i hi
    obtain ⟨c, hc, rfl⟩ := List.mem_map.mp hi
    exact hlt c (List.mem_range.mp hc)
  have hget {i c : ℕ} : (ofRows numRows ((List.range numColumns).map row))[i]? = some (some c) ↔
      c < numColumns ∧ row c = i := by
    rw [ofRows_eq_some_iff hnodup hrows, List.getElem?_map]
    by_cases hc : c < numColumns
    · simp [hc]
    · simp [hc]
  exact ⟨length_ofRows _ _, fun hc => hget.mpr ⟨hc, rfl⟩, fun hi => (hget.mp hi).1,
    fun hi => (hget.mp hi).2⟩

section Best

variable {β : Type} [Scalar β] {scores : List β}

theorem bestColumns_of_le (h : numRows ≤ numColumns) {column : ℕ → ℕ}
    (hsolve : Assignment.solve (fun row column => -coordinate scores (pairIndex numColumns row column))
      numRows numColumns = (List.range numRows).map column) :
    bestColumns numRows numColumns scores = (List.range numRows).map fun i => some (column i) := by
  rw [bestColumns, if_pos h, hsolve, List.map_map]
  rfl

theorem bestColumns_of_lt (h : numColumns < numRows) {row : ℕ → ℕ}
    (hsolve : Assignment.solve (fun column row => -coordinate scores (pairIndex numColumns row column))
      numColumns numRows = (List.range numColumns).map row) :
    bestColumns numRows numColumns scores =
      ofRows numRows ((List.range numColumns).map row) := by
  rw [bestColumns, if_neg (not_le.mpr h), hsolve]

/-- The assignment of the smaller side finds a nearest column in every step: the costs that it
compares are numbers, and not all of them are plus infinity. -/
def ComparesScores (numRows numColumns : ℕ) (scores : List β) : Prop :=
  if numRows ≤ numColumns then
    Assignment.ComparesCosts
      (fun row column => -coordinate scores (pairIndex numColumns row column)) numRows numColumns
  else
    Assignment.ComparesCosts
      (fun column row => -coordinate scores (pairIndex numColumns row column)) numColumns numRows

theorem comparesScores_of_belowTop (hbelow : ∀ x : β, belowTop x = true) (numRows numColumns : ℕ)
    (scores : List β) : ComparesScores numRows numColumns scores := by
  unfold ComparesScores
  split_ifs with h
  · exact Assignment.comparesCosts_of_belowTop hbelow h
  · exact Assignment.comparesCosts_of_belowTop hbelow (not_le.mp h).le

theorem isMatching_bestColumns (h : ComparesScores numRows numColumns scores) :
    IsMatching numRows numColumns (bestColumns numRows numColumns scores) := by
  unfold ComparesScores at h
  split_ifs at h with hle
  · obtain ⟨column, hsolve, hlt, hinj⟩ := Assignment.exists_solve_of_comparesCosts h
    rw [bestColumns_of_le hle hsolve]
    exact (isMatching_iff_of_le hle).mpr ⟨column, rfl, hlt, hinj⟩
  · obtain ⟨row, hsolve, hlt, hinj⟩ := Assignment.exists_solve_of_comparesCosts h
    rw [bestColumns_of_lt (not_le.mp hle) hsolve]
    exact (inverts_ofRows hlt hinj).isMatching (not_le.mp hle).le

end Best

theorem score_le_bestColumns (scores : List α) (hm : IsMatching numRows numColumns columns) :
    score numColumns scores columns ≤
      score numColumns scores (bestColumns numRows numColumns scores) := by
  rcases le_or_gt numRows numColumns with h | h
  · obtain ⟨column, hsolve, -, -, hmin⟩ := Assignment.exists_solve
      (fun row column => -coordinate scores (pairIndex numColumns row column)) h
    obtain ⟨other, rfl, hother, hinj⟩ := (isMatching_iff_of_le h).mp hm
    rw [bestColumns_of_le h hsolve, score_map_range, score_map_range]
    have hcost := hmin other hother hinj
    rw [Finset.sum_neg_distrib, Finset.sum_neg_distrib] at hcost
    exact neg_le_neg_iff.mp hcost
  · obtain ⟨row, hsolve, hlt, hinj, hmin⟩ := Assignment.exists_solve
      (fun column row => -coordinate scores (pairIndex numColumns row column)) h.le
    obtain ⟨other, hother⟩ := hm.exists_inverts h.le
    rw [bestColumns_of_lt h hsolve, hother.score_eq_sum, (inverts_ofRows hlt hinj).score_eq_sum]
    have hcost := hmin other (fun _ hc => hother.row_lt hc) hother.injOn
    rw [Finset.sum_neg_distrib, Finset.sum_neg_distrib] at hcost
    exact neg_le_neg_iff.mp hcost

theorem exists_best (numRows numColumns : ℕ) (scores : List α) :
    IsMatching numRows numColumns (bestColumns numRows numColumns scores) ∧
      ∀ others, IsMatching numRows numColumns others →
        score numColumns scores others ≤
          score numColumns scores (bestColumns numRows numColumns scores) :=
  ⟨isMatching_bestColumns (comparesScores_of_belowTop belowTop_eq_true numRows numColumns scores),
    fun _ hothers => score_le_bestColumns scores hothers⟩

theorem lawful (numRows numColumns : ℕ) :
    (oracle numRows numColumns : Oracle α (List (Option ℕ))).Lawful
      (IsMatching numRows numColumns) where
  pairwise_trueVariables hm := pairwise_trueVariables fun _ hc => hm.column_lt hc
  trueVariables_lt hm i hi :=
    hm.length_eq ▸ trueVariables_lt (fun _ hc => hm.column_lt hc) i hi
  ofAssignment?_eq_some_iff hv := ofAssignment?_eq_some_iff hv
  score_eq _ := by simp [oracle, score, Oracle.scoreAt_zeros]
  score_zeros _ := by simp [oracle, score, Oracle.scoreAt_zeros]
  isConfiguration_maximize _ _ := (exists_best numRows numColumns _).1
  maximize_value _ _ := rfl
  score_le _ _ hm := (exists_best numRows numColumns _).2 _ hm

theorem count_zipWith_eq_countP {numColumns : ℕ} {first second : List (Option ℕ)}
    (hfirst : ∀ c, some c ∈ first → c < numColumns)
    (hsecond : ∀ c, some c ∈ second → c < numColumns) :
    (List.zipWith (fun c d => c.isSome && c == d) first second).count true =
      (trueVariables numColumns first).countP (· ∈ trueVariables numColumns second) := by
  induction first generalizing second with
  | nil => rfl
  | cons c first ih =>
    cases second with
    | nil => simp [trueVariables]
    | cons d second =>
      have hc (i : ℕ) (hi : i ∈ c.toList) : i < numColumns :=
        hfirst i (Option.mem_toList.mp hi ▸ List.mem_cons_self)
      have hd (i : ℕ) (hi : i ∈ d.toList) : i < numColumns :=
        hsecond i (Option.mem_toList.mp hi ▸ List.mem_cons_self)
      have hrest := ih (fun c hc => hfirst c (List.mem_cons_of_mem _ hc))
        (fun c hc => hsecond c (List.mem_cons_of_mem _ hc))
      rw [trueVariables_cons, trueVariables_cons, Oracle.countP_mem_append_map_add hc hd,
        List.zipWith_cons_cons, List.count_cons, hrest, Nat.add_comm]
      congr 1
      cases c <;> cases d <;> simp

theorem hasTrueIndices (numRows numColumns : ℕ) :
    (oracle numRows numColumns : Oracle α (List (Option ℕ))).HasTrueIndices
      (IsMatching numRows numColumns) fun _ => [] where
  toLawful := lawful numRows numColumns
  accumulate_eq _ _ _ := rfl
  nodup_trueAdditionals _ := List.nodup_nil
  trueAdditionals_lt _ _ hi := absurd hi List.not_mem_nil
  score_zeros_eq _ := by simp [oracle, score, Oracle.scoreAt_zeros]
  common_eq hc hd :=
    count_zipWith_eq_countP (fun _ hmem => hc.column_lt hmem) fun _ hmem => hd.column_lt hmem

end MapInference.Matching
