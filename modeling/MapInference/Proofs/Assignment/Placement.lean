import MapInference.Proofs.Exact
import MapInference.Assignment

/-!
# Placements of rows

Whatever the costs are, a search leaves the rows that it has placed in columns of their own. A path
leads from a free column back to the new row through columns that have a row; moving the rows along
it places the new row and keeps all others.
-/

namespace MapInference.Assignment.Matching

variable {α : Type}

def row? (m : Matching α) (column : ℕ) : Option ℕ := m.rowOf[column]?.join

theorem lt_of_row? {m : Matching α} {column row : ℕ} (h : m.row? column = some row) :
    column < m.rowOf.length := by
  by_contra hge
  simp [row?, List.getElem?_eq_none (not_lt.mp hge)] at h

theorem rowAt_some {m : Matching α} {column row : ℕ} (newRow : ℕ) (h : m.row? column = some row) :
    m.rowAt newRow (some column) = row := by
  unfold row? at h
  simp [rowAt, h]

theorem row?_set {m : Matching α} {c : ℕ} (hc : c < m.rowOf.length) (row d : ℕ) :
    row? { m with rowOf := m.rowOf.set c (some row) } d = if d = c then some row else m.row? d := by
  by_cases hd : d = c
  · simp [row?, hd, hc]
  · simp [row?, hd, List.getElem?_set_ne (Ne.symm hd)]

theorem injOn_of_row? {m : Matching α} {n : ℕ} {column : ℕ → ℕ}
    (hcolumn : ∀ i < n, m.row? (column i) = some i) : Set.InjOn column (Finset.range n) := by
  intro i hi j hj hij
  have hi' := hcolumn i (Finset.mem_range.mp hi)
  rw [hij, hcolumn j (Finset.mem_range.mp hj)] at hi'
  exact (Option.some.inj hi').symm

structure IsPlaced (numColumns r : ℕ) (m : Matching α) : Prop where
  length_rowOf : m.rowOf.length = numColumns
  row_lt {c i : ℕ} : m.row? c = some i → i < r
  row_inj {c d i : ℕ} : m.row? c = some i → m.row? d = some i → c = d
  exists_column {i : ℕ} : i < r → ∃ c, m.row? c = some i

variable {numColumns r : ℕ} {m : Matching α}

theorem row?_empty [Scalar α] (numRows numColumns c : ℕ) :
    (empty numRows numColumns : Matching α).row? c = none := by
  by_cases hc : c < numColumns <;> simp [row?, empty, hc]

theorem isPlaced_empty [Scalar α] (numRows numColumns : ℕ) :
    IsPlaced numColumns 0 (empty numRows numColumns : Matching α) where
  length_rowOf := by simp [empty]
  row_lt := by simp [row?_empty]
  row_inj := by simp [row?_empty]
  exists_column := by simp

theorem IsPlaced.exists_free (h : m.IsPlaced numColumns r) (hr : r < numColumns) :
    ∃ c < numColumns, m.row? c = none := by
  by_contra hall
  push Not at hall
  have hrow : ∀ c ∈ Finset.range numColumns, (m.row? c).getD 0 ∈ Finset.range r := by
    intro c hc
    obtain ⟨i, hi⟩ := Option.ne_none_iff_exists'.mp (hall c (Finset.mem_range.mp hc))
    simpa [hi] using h.row_lt hi
  obtain ⟨c, hc, d, hd, hne, heq⟩ :=
    Finset.exists_ne_map_eq_of_card_lt_of_maps_to (by simpa using hr) hrow
  obtain ⟨i, hi⟩ := Option.ne_none_iff_exists'.mp (hall c (Finset.mem_range.mp hc))
  obtain ⟨j, hj⟩ := Option.ne_none_iff_exists'.mp (hall d (Finset.mem_range.mp hd))
  have hij : i = j := by simpa [hi, hj] using heq
  exact hne (h.row_inj hi (hij ▸ hj))

/-- The columns on the way back from a column to the new row. -/
inductive IsPath (reachedFrom : List (Option ℕ)) : Option ℕ → List ℕ → Prop
  | start : IsPath reachedFrom none []
  | step {c : ℕ} {path : List ℕ} (fresh : c ∉ path)
      (tail : IsPath reachedFrom reachedFrom[c]?.join path) :
      IsPath reachedFrom (some c) (c :: path)

namespace IsPath

variable {reachedFrom reachedFrom' : List (Option ℕ)} {current : Option ℕ} {path : List ℕ}

theorem nodup (h : IsPath reachedFrom current path) : path.Nodup := by
  induction h with
  | start => exact List.nodup_nil
  | step fresh _ ih => exact List.nodup_cons.mpr ⟨fresh, ih⟩

theorem congr (h : IsPath reachedFrom current path)
    (hsame : ∀ c ∈ path, reachedFrom'[c]?.join = reachedFrom[c]?.join) :
    IsPath reachedFrom' current path := by
  induction h with
  | start => exact .start
  | step fresh _ ih =>
    refine .step fresh ?_
    rw [hsame _ List.mem_cons_self]
    exact ih fun d hd => hsame d (List.mem_cons_of_mem _ hd)

/-- The columns of a path are reached from those that follow, the last one from the new row. -/
theorem map_origin {c : ℕ} (h : IsPath reachedFrom (some c) (c :: path)) :
    (c :: path).map (fun d => reachedFrom[d]?.join) = path.map some ++ [none] := by
  induction path generalizing c with
  | nil =>
    cases h with
    | step _ tail =>
      generalize horigin : reachedFrom[c]?.join = origin at tail
      cases tail
      simp [horigin]
  | cons d path ih =>
    cases h with
    | step _ tail =>
      generalize horigin : reachedFrom[c]?.join = origin at tail
      cases tail with
      | step fresh tail => rw [List.map_cons, horigin, ih (.step fresh tail)]; rfl

/-- A column of a path is reached from the new row or from another column of the path. -/
theorem origin_mem {c d e : ℕ} (h : IsPath reachedFrom (some c) (c :: path)) (hd : d ∈ c :: path)
    (he : reachedFrom[d]?.join = some e) : e ∈ path := by
  have hmem : some e ∈ (c :: path).map fun d => reachedFrom[d]?.join :=
    List.mem_map.mpr ⟨d, hd, he⟩
  rw [h.map_origin] at hmem
  simpa using hmem

theorem eq_of_origin_eq {c d e : ℕ} (h : IsPath reachedFrom (some c) (c :: path))
    (hd : d ∈ c :: path) (he : e ∈ c :: path)
    (heq : reachedFrom[d]?.join = reachedFrom[e]?.join) : d = e := by
  have hnodup : ((c :: path).map fun d => reachedFrom[d]?.join).Nodup := by
    obtain ⟨_, hpath⟩ := List.nodup_cons.mp h.nodup
    rw [h.map_origin]
    simpa [List.nodup_append] using hpath.map (Option.some_injective ℕ)
  exact List.inj_on_of_nodup_map hnodup hd he heq

theorem exists_origin {c : ℕ} (h : IsPath reachedFrom (some c) (c :: path)) {origin : Option ℕ}
    (ho : origin ∈ path.map some ++ [none]) :
    ∃ d ∈ c :: path, reachedFrom[d]?.join = origin := by
  rw [← h.map_origin] at ho
  exact List.mem_map.mp ho

end IsPath

section Augment

variable (newRow : ℕ) (reachedFrom : List (Option ℕ))

theorem rowPotentials_augment (m : Matching α) (limit : ℕ) (column : Option ℕ) :
    (m.augment newRow reachedFrom limit column).rowPotentials = m.rowPotentials := by
  induction limit generalizing m column with
  | zero => rfl
  | succ limit ih =>
    cases column with
    | none => rfl
    | some c => exact ih _ _

theorem columnPotentials_augment (m : Matching α) (limit : ℕ) (column : Option ℕ) :
    (m.augment newRow reachedFrom limit column).columnPotentials = m.columnPotentials := by
  induction limit generalizing m column with
  | zero => rfl
  | succ limit ih =>
    cases column with
    | none => rfl
    | some c => exact ih _ _

theorem length_rowOf_augment (m : Matching α) (limit : ℕ) (column : Option ℕ) :
    (m.augment newRow reachedFrom limit column).rowOf.length = m.rowOf.length := by
  induction limit generalizing m column with
  | zero => rfl
  | succ limit ih =>
    cases column with
    | none => rfl
    | some c => exact (ih _ _).trans List.length_set

/-- Every column of the path gets the row of the column that it has been reached from. -/
theorem row?_augment {m : Matching α} {current : Option ℕ} {path : List ℕ} {limit : ℕ}
    (h : IsPath reachedFrom current path) (hlimit : path.length ≤ limit)
    (hlt : ∀ d ∈ path, d < m.rowOf.length) (e : ℕ) :
    (m.augment newRow reachedFrom limit current).row? e =
      if e ∈ path then some (m.rowAt newRow reachedFrom[e]?.join) else m.row? e := by
  induction h generalizing m limit with
  | start => cases limit <;> rfl
  | @step c path fresh tail ih =>
    obtain ⟨limit, rfl⟩ : ∃ n, limit = n + 1 := ⟨limit - 1, by simp at hlimit; omega⟩
    let moved : Matching α :=
      { m with rowOf := m.rowOf.set c (some (m.rowAt newRow reachedFrom[c]?.join)) }
    have hset := row?_set (hlt c List.mem_cons_self) (m.rowAt newRow reachedFrom[c]?.join)
    have hmoved : ∀ d ∈ path, d < moved.rowOf.length := fun d hd => by
      simpa [moved] using hlt d (List.mem_cons_of_mem _ hd)
    refine (ih (m := moved) (by simpa using hlimit) hmoved).trans ?_
    by_cases he : e ∈ path
    · -- The column before `e` is not `c`, so that its row has not moved yet.
      have hec : e ≠ c := fun hec => fresh (hec ▸ he)
      rw [if_pos he, if_pos (List.mem_cons_of_mem _ he)]
      cases horigin : reachedFrom[e]?.join with
      | none => rfl
      | some d =>
        have hdc : d ≠ c :=
          fun hdc => fresh (hdc ▸ (IsPath.step fresh tail).origin_mem (List.mem_cons_of_mem _ he)
            horigin)
        have hd : moved.row? d = m.row? d := (hset d).trans (if_neg hdc)
        exact congrArg (fun row? : Option ℕ => some (row?.getD newRow)) hd
    · rw [if_neg he, hset]
      by_cases hec : e = c
      · rw [if_pos hec, if_pos (hec ▸ List.mem_cons_self), hec]
      · rw [if_neg hec, if_neg (by simp [hec, he])]

end Augment

theorem IsPlaced.augment {reachedFrom : List (Option ℕ)} {c limit : ℕ} {path : List ℕ}
    (h : m.IsPlaced numColumns r) (hpath : IsPath reachedFrom (some c) (c :: path))
    (hlimit : (c :: path).length ≤ limit) (hlt : ∀ d ∈ c :: path, d < numColumns)
    (hfree : m.row? c = none) (hrow : ∀ d ∈ path, m.row? d ≠ none) :
    (m.augment r reachedFrom limit (some c)).IsPlaced numColumns (r + 1) := by
  have haugment := row?_augment r reachedFrom hpath hlimit (h.length_rowOf ▸ hlt)
  -- On the path a column gets the new row, or the row of another column of the path.
  have hcases {d i : ℕ} (hd : d ∈ c :: path) (hi : m.rowAt r reachedFrom[d]?.join = i) :
      reachedFrom[d]?.join = none ∧ i = r ∨
        ∃ e ∈ path, reachedFrom[d]?.join = some e ∧ m.row? e = some i := by
    cases horigin : reachedFrom[d]?.join with
    | none => exact Or.inl ⟨rfl, by rw [← hi, horigin]; rfl⟩
    | some e =>
      have he := hpath.origin_mem hd horigin
      obtain ⟨j, hj⟩ := Option.ne_none_iff_exists'.mp (hrow e he)
      rw [horigin, rowAt_some r hj] at hi
      exact Or.inr ⟨e, he, rfl, hi ▸ hj⟩
  constructor
  case length_rowOf => exact (length_rowOf_augment _ _ _ _ _).trans h.length_rowOf
  case row_lt =>
    intro d i hi
    rw [haugment] at hi
    split_ifs at hi with hd
    · rcases hcases hd (Option.some.inj hi) with ⟨-, rfl⟩ | ⟨e, -, -, he⟩
      · exact Nat.lt_succ_self i
      · exact Nat.lt_succ_of_lt (h.row_lt he)
    · exact Nat.lt_succ_of_lt (h.row_lt hi)
  case row_inj =>
    -- A row off the path is neither new nor one of the rows that move.
    have hoff {d e i : ℕ} (hd : d ∈ c :: path) (hi : m.rowAt r reachedFrom[d]?.join = i)
        (he : e ∉ c :: path) : m.row? e ≠ some i := by
      intro hei
      rcases hcases hd hi with ⟨-, rfl⟩ | ⟨f, hf, -, hfi⟩
      · exact absurd (h.row_lt hei) (lt_irrefl i)
      · exact he (h.row_inj hei hfi ▸ List.mem_cons_of_mem _ hf)
    intro d e i hdi hei
    rw [haugment] at hdi hei
    split_ifs at hdi hei with hd he he
    · refine hpath.eq_of_origin_eq hd he ?_
      rcases hcases hd (Option.some.inj hdi) with ⟨hdo, rfl⟩ | ⟨f, -, hdo, hf⟩
      · rcases hcases he (Option.some.inj hei) with ⟨heo, -⟩ | ⟨g, -, -, hg⟩
        · rw [hdo, heo]
        · exact absurd (h.row_lt hg) (lt_irrefl _)
      · rcases hcases he (Option.some.inj hei) with ⟨-, rfl⟩ | ⟨g, -, heo, hg⟩
        · exact absurd (h.row_lt hf) (lt_irrefl _)
        · rw [hdo, heo, h.row_inj hf hg]
    · exact absurd hei (hoff hd (Option.some.inj hdi) he)
    · exact absurd hdi (hoff he (Option.some.inj hei) hd)
    · exact h.row_inj hdi hei
  case exists_column =>
    intro i hi
    -- The column that is reached from the place where the row was, if that is on the path.
    have hmoved {origin : Option ℕ} (ho : origin ∈ path.map some ++ [none])
        (hrow : m.rowAt r origin = i) :
        ∃ d, (m.augment r reachedFrom limit (some c)).row? d = some i := by
      obtain ⟨d, hd, rfl⟩ := hpath.exists_origin ho
      exact ⟨d, by rw [haugment, if_pos hd, hrow]⟩
    rcases Nat.lt_succ_iff_lt_or_eq.mp hi with hi | rfl
    · obtain ⟨d, hd⟩ := h.exists_column hi
      by_cases hmem : d ∈ path
      · exact hmoved (by simp [hmem]) (rowAt_some r hd)
      · have hdc : d ≠ c := by
          rintro rfl
          rw [hfree] at hd
          cases hd
        exact ⟨d, by rw [haugment, if_neg (by simp [hdc, hmem]), hd]⟩
    · exact hmoved (show none ∈ path.map some ++ [none] by simp) rfl

theorem IsPlaced.row?_columns {numRows : ℕ} (h : m.IsPlaced numColumns numRows) {i : ℕ}
    (hi : i < numRows) :
    ∃ c, (m.columns numRows)[i]? = some c ∧ m.row? c = some i := by
  obtain ⟨c, hc⟩ := h.exists_column hi
  let assigned : List (Option ℕ × ℕ) := m.rowOf.zipIdx.filter fun entry => entry.1 == some i
  have hmem : (some i, c) ∈ assigned := by
    rw [List.mem_filter, List.mk_mem_zipIdx_iff_getElem?]
    exact ⟨Option.join_eq_some_iff.mp hc, by simp⟩
  obtain ⟨last, hlast⟩ : ∃ last, assigned.getLast? = some last := by
    refine Option.ne_none_iff_exists'.mp ?_
    rw [ne_eq, List.getLast?_eq_none_iff]
    exact List.ne_nil_of_mem hmem
  have hcolumn : (m.columns numRows)[i]? = some last.2 := by
    rw [Matching.columns, List.getElem?_map, List.getElem?_range hi, Option.map_some]
    exact congrArg (fun entry => some ((entry.map Prod.snd).getD 0)) hlast
  refine ⟨last.2, hcolumn, ?_⟩
  obtain ⟨hzip, heq⟩ := List.mem_filter.mp (List.mem_of_getLast? hlast)
  have hget := List.mk_mem_zipIdx_iff_getElem?.mp hzip
  have hrow : last.1 = some i := by simpa using heq
  rw [row?, hget, hrow]
  rfl

theorem IsPlaced.exists_columns {numRows : ℕ} (h : m.IsPlaced numColumns numRows) :
    ∃ column : ℕ → ℕ, m.columns numRows = (List.range numRows).map column ∧
      (∀ i < numRows, m.row? (column i) = some i) ∧ (∀ i < numRows, column i < numColumns) ∧
      Set.InjOn column (Finset.range numRows) := by
  let columns := m.columns numRows
  have hcolumn (i : ℕ) (hi : i < numRows) : columns[i]? = some (columns[i]?.getD 0) ∧
      m.row? (columns[i]?.getD 0) = some i := by
    obtain ⟨c, hc, hrow⟩ := h.row?_columns hi
    have hget : columns[i]? = some c := hc
    rw [hget]
    exact ⟨rfl, hrow⟩
  have hlength : columns.length = numRows := by simp [columns, Matching.columns]
  exact ⟨fun i => columns[i]?.getD 0, eq_map_range hlength fun i hi => (hcolumn i hi).1,
    fun i hi => (hcolumn i hi).2,
    fun i hi => h.length_rowOf ▸ lt_of_row? (hcolumn i hi).2,
    injOn_of_row? fun i hi => (hcolumn i hi).2⟩

end MapInference.Assignment.Matching
