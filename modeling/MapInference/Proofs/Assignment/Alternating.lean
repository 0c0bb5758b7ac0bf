import MapInference.Proofs.Assignment.Search

/-!
# Trees of alternating paths

The visited columns have rows, and a path of visited columns leads from each of them back to the new
row. This takes no laws of arithmetic: only the nearest column has to be found, which it is while
the slack of an unvisited column compares as less than plus infinity. The tree then grows until it
meets a free column, and all rows are placed, one after the other.
-/

namespace MapInference.Assignment

open Scalar
variable {α : Type}

namespace Search

variable {numColumns r : ℕ} {s : Search α}

structure IsAlternating (numColumns r : ℕ) (s : Search α) : Prop where
  placed : s.matching.IsPlaced numColumns r
  length_slack : s.slack.length = numColumns
  length_reachedFrom : s.reachedFrom.length = numColumns
  length_visited : s.visited.length = numColumns
  current_visited {c : ℕ} : s.current = some c → c < numColumns ∧ s.isVisited c
  matched {c : ℕ} : c < numColumns → s.isVisited c → s.matching.row? c ≠ none
  origin_visited {c d : ℕ} : c < numColumns → s.origin? c = some d →
    d < numColumns ∧ s.isVisited d
  path {c : ℕ} : c < numColumns → s.isVisited c →
    ∃ path, Matching.IsPath s.reachedFrom (some c) path ∧
      ∀ d ∈ path, d < numColumns ∧ s.isVisited d

theorem isVisited_start {m : Matching α} {c : ℕ} (hc : c < m.rowOf.length) :
    (start m).isVisited c = false := by
  simp [start, isVisited, hc]

theorem slack?_start (m : Matching α) (c : ℕ) : (start m).slack? c = none := by
  by_cases hc : c < m.rowOf.length <;> simp [start, slack?, hc]

theorem origin?_start (m : Matching α) (c : ℕ) : (start m).origin? c = none := by
  by_cases hc : c < m.rowOf.length <;> simp [start, origin?, hc]

theorem isAlternating_start {m : Matching α} (h : m.IsPlaced numColumns r) :
    (start m).IsAlternating numColumns r := by
  have hnone {c : ℕ} (hc : c < numColumns) : ¬ (start m).isVisited c = true := by
    simp [isVisited_start (h.length_rowOf ▸ hc : c < m.rowOf.length)]
  constructor
  case placed => exact h
  case length_slack => simp [start, h.length_rowOf]
  case length_reachedFrom => simp [start, h.length_rowOf]
  case length_visited => simp [start, h.length_rowOf]
  case current_visited => simp [start]
  case matched => exact fun hc hv => absurd hv (hnone hc)
  case origin_visited => simp [origin?_start]
  case path => exact fun hc hv => absurd hv (hnone hc)

namespace IsAlternating

theorem lt_of_isVisited_eq_false (h : s.IsAlternating numColumns r) {c : ℕ}
    (hv : s.isVisited c = false) : c < numColumns := by
  by_contra hc
  simp [isVisited, List.getElem?_eq_none (h.length_visited ▸ not_lt.mp hc)] at hv

theorem exists_unvisited (h : s.IsAlternating numColumns r) (hr : r < numColumns) :
    ∃ c < numColumns, s.isVisited c = false := by
  obtain ⟨c, hc, hrow⟩ := h.placed.exists_free hr
  exact ⟨c, hc, Bool.eq_false_iff.mpr fun hv => h.matched hc hv hrow⟩

theorem exists_path (h : s.IsAlternating numColumns r) {c : ℕ} (hv : s.isVisited c = false) :
    ∃ path, Matching.IsPath s.reachedFrom (some c) (c :: path) ∧
      ∀ d ∈ path, d < numColumns ∧ s.isVisited d := by
  have htail : ∃ path, Matching.IsPath s.reachedFrom s.reachedFrom[c]?.join path ∧
      ∀ d ∈ path, d < numColumns ∧ s.isVisited d := by
    cases ho : s.reachedFrom[c]?.join with
    | none => exact ⟨[], .start, by simp⟩
    | some d =>
      obtain ⟨hd, hvd⟩ := h.origin_visited (h.lt_of_isVisited_eq_false hv) ho
      exact h.path hd hvd
  obtain ⟨path, hpath, hall⟩ := htail
  refine ⟨path, .step (fun hmem => ?_) hpath, hall⟩
  have hvc := (hall c hmem).2
  rw [hv] at hvc
  cases hvc

theorem isVisited_visit (h : s.IsAlternating numColumns r) {c : ℕ} (hc : c < numColumns) (d : ℕ) :
    (s.visit c).isVisited d = (decide (d = c) || s.isVisited d) := by
  have hlen : c < s.visited.length := h.length_visited ▸ hc
  by_cases hd : d = c
  · simp [isVisited, Search.visit, hd, hlen]
  · simp [isVisited, Search.visit, hd, List.getElem?_set_ne (Ne.symm hd)]

theorem visit (h : s.IsAlternating numColumns r) {c : ℕ} (hv : s.isVisited c = false)
    (hrow : s.matching.row? c ≠ none) : (s.visit c).IsAlternating numColumns r := by
  have hlt := h.lt_of_isVisited_eq_false hv
  have hvisit := h.isVisited_visit hlt
  have hold {d : ℕ} (hd : s.isVisited d) : (s.visit c).isVisited d := by simp [hvisit, hd]
  have hcases {d : ℕ} (hd : (s.visit c).isVisited d) : d = c ∨ s.isVisited d := by
    simpa [hvisit] using hd
  constructor
  case placed => exact h.placed
  case length_slack => exact h.length_slack
  case length_reachedFrom => exact h.length_reachedFrom
  case length_visited => simpa [Search.visit] using h.length_visited
  case current_visited =>
    intro d hd
    have hdc : c = d := Option.some.inj hd
    subst hdc
    exact ⟨hlt, by simp [hvisit]⟩
  case matched =>
    intro d hd hvd
    rcases hcases hvd with rfl | hvd
    · exact hrow
    · exact h.matched hd hvd
  case origin_visited =>
    intro d e hd he
    obtain ⟨hlt, hve⟩ := h.origin_visited hd he
    exact ⟨hlt, hold hve⟩
  case path =>
    intro d hd hvd
    rcases hcases hvd with rfl | hvd
    · obtain ⟨path, hpath, hall⟩ := h.exists_path hv
      refine ⟨d :: path, hpath, ?_⟩
      intro e he
      rcases List.mem_cons.mp he with rfl | he
      · exact ⟨hlt, by simp [hvisit]⟩
      · exact ⟨(hall e he).1, hold (hall e he).2⟩
    · obtain ⟨path, hpath, hall⟩ := h.path hd hvd
      exact ⟨path, hpath, fun e he => ⟨(hall e he).1, hold (hall e he).2⟩⟩

theorem count_visit (h : s.IsAlternating numColumns r) {c : ℕ} (hv : s.isVisited c = false) :
    (s.visit c).visited.count false + 1 = s.visited.count false := by
  have hlt : c < s.visited.length := h.length_visited ▸ h.lt_of_isVisited_eq_false hv
  have hc : s.visited[c]? = some false := by simpa [isVisited, hlt] using hv
  exact count_set_add_one hc (Bool.false_ne_true ∘ Eq.symm)

end IsAlternating

variable [Scalar α] {cost : ℕ → ℕ → α}

namespace IsAlternating

theorem origin?_relax_of_isVisited (h : s.IsAlternating numColumns r) {c : ℕ} (hc : c < numColumns)
    (hv : s.isVisited c) : (s.relax cost r).origin? c = s.origin? c := by
  rw [origin?_relax cost r s (h.length_reachedFrom ▸ hc), if_neg]
  simp [improves, hv]

theorem relax (h : s.IsAlternating numColumns r) : (s.relax cost r).IsAlternating numColumns r := by
  constructor
  case placed => exact h.placed
  case length_slack => simpa [Search.relax] using h.length_slack
  case length_reachedFrom => simpa [Search.relax] using h.length_reachedFrom
  case length_visited => exact h.length_visited
  case current_visited => exact h.current_visited
  case matched => exact h.matched
  case origin_visited =>
    intro c d hc hd
    rw [origin?_relax cost r s (h.length_reachedFrom ▸ hc)] at hd
    split_ifs at hd with hi
    · exact h.current_visited hd
    · exact h.origin_visited hc hd
  case path =>
    intro c hc hv
    obtain ⟨path, hpath, hall⟩ := h.path hc hv
    exact ⟨path, hpath.congr fun d hd => h.origin?_relax_of_isVisited (hall d hd).1 (hall d hd).2,
      hall⟩

theorem shift (h : s.IsAlternating numColumns r) (delta : α) :
    (s.shift r delta).IsAlternating numColumns r where
  placed := ⟨h.placed.length_rowOf, h.placed.row_lt, h.placed.row_inj, h.placed.exists_column⟩
  length_slack := by simpa [Search.shift] using h.length_slack
  length_reachedFrom := h.length_reachedFrom
  length_visited := h.length_visited
  current_visited := h.current_visited
  matched := h.matched
  origin_visited := h.origin_visited
  path := h.path

end IsAlternating

/-- The next state of a search whose nearest column has a row. -/
def advance (cost : ℕ → ℕ → α) (newRow : ℕ) (s : Search α) (column : ℕ) (delta : α) : Search α :=
  ((s.relax cost newRow).shift newRow delta).visit column

theorem IsAlternating.advance (h : s.IsAlternating numColumns r) {c : ℕ} {delta : α}
    (hnearest : (s.relax cost r).nearest? = some (c, delta)) (hrow : s.matching.row? c ≠ none) :
    (s.advance cost r c delta).IsAlternating numColumns r :=
  (h.relax.shift delta).visit (of_nearest? hnearest).2 hrow

/-- A search ends at a free column, nearest in a state that has every property which holds at the
start, is kept by visiting a nearest column, and entails that there is one. -/
theorem exists_grow_eq {P : Search α → Prop} (halternating : ∀ t, P t → t.IsAlternating numColumns r)
    (hnearest : ∀ t, P t → ∃ c delta, (t.relax cost r).nearest? = some (c, delta))
    (hadvance : ∀ t c delta, P t → (t.relax cost r).nearest? = some (c, delta) →
      t.matching.row? c ≠ none → P (t.advance cost r c delta))
    (h : P s) {limit : ℕ} (hlimit : s.visited.count false < limit) :
    ∃ t c delta, P t ∧ (t.relax cost r).nearest? = some (c, delta) ∧ t.matching.row? c = none ∧
      s.grow cost r limit = { (t.relax cost r).shift r delta with current := some c } := by
  induction limit generalizing s with
  | zero => exact absurd hlimit (Nat.not_lt_zero _)
  | succ limit ih =>
    obtain ⟨c, delta, hfound⟩ := hnearest s h
    cases hrow : s.matching.row? c with
    | none =>
      refine ⟨s, c, delta, h, hfound, hrow, ?_⟩
      simp only [grow, hfound]
      exact if_pos (Option.isNone_iff_eq_none.mpr hrow)
    | some i =>
      have hmatched : s.matching.row? c ≠ none := by simp [hrow]
      have hgrow : s.grow cost r (limit + 1) = (s.advance cost r c delta).grow cost r limit := by
        simp only [grow, hfound]
        exact if_neg (mt Option.isNone_iff_eq_none.mp hmatched)
      have hcount : (s.advance cost r c delta).visited.count false + 1 = s.visited.count false :=
        ((halternating s h).relax.shift delta).count_visit (of_nearest? hfound).2
      rw [hgrow]
      exact ih (hadvance s c delta h hfound hmatched) (by omega)

/-- The states in which a search looks for the nearest column. -/
inductive Meets (cost : ℕ → ℕ → α) (newRow : ℕ) (s : Search α) : Search α → Prop
  | start : Meets cost newRow s s
  | advance {t : Search α} {c : ℕ} {delta : α} : Meets cost newRow s t →
    (t.relax cost newRow).nearest? = some (c, delta) → t.matching.row? c ≠ none →
    Meets cost newRow s (t.advance cost newRow c delta)

theorem IsAlternating.of_meets (h : s.IsAlternating numColumns r) {t : Search α}
    (hmeets : Meets cost r s t) : t.IsAlternating numColumns r := by
  induction hmeets with
  | start => exact h
  | advance _ hnearest hrow ih => exact ih.advance hnearest hrow

end Search

variable [Scalar α] {cost : ℕ → ℕ → α} {numRows numColumns r : ℕ} {m : Matching α}

/-- The search for a row finds a nearest column whenever it looks for one: some unvisited column has
a slack that compares as less than plus infinity. -/
def ComparesRow (cost : ℕ → ℕ → α) (m : Matching α) (row : ℕ) : Prop :=
  ∀ s, Search.Meets cost row (Search.start m) s →
    ∃ c x, s.isVisited c = false ∧ (s.relax cost row).slack? c = some x ∧ belowTop x = true

def placed (cost : ℕ → ℕ → α) (numRows numColumns r : ℕ) : Matching α :=
  (List.range r).foldl (addRow cost) (Matching.empty numRows numColumns)

theorem placed_succ (cost : ℕ → ℕ → α) (numRows numColumns r : ℕ) :
    placed cost numRows numColumns (r + 1) = addRow cost (placed cost numRows numColumns r) r := by
  rw [placed, List.range_succ, List.foldl_concat, placed]

def ComparesCosts (cost : ℕ → ℕ → α) (numRows numColumns : ℕ) : Prop :=
  ∀ r < numRows, ComparesRow cost (placed cost numRows numColumns r) r

theorem Search.IsAlternating.exists_augment {s : Search α} (h : s.IsAlternating numColumns r)
    {c : ℕ} {delta : α} (hnearest : (s.relax cost r).nearest? = some (c, delta))
    (hfree : s.matching.row? c = none) :
    let t := (s.relax cost r).shift r delta
    ∃ path, Matching.IsPath t.reachedFrom (some c) (c :: path) ∧
      (∀ d ∈ path, d < numColumns ∧ t.isVisited d) ∧
      (c :: path).length ≤ numColumns + 1 ∧ (∀ d ∈ c :: path, d < numColumns) ∧
      (t.matching.augment r t.reachedFrom (numColumns + 1) (some c)).IsPlaced numColumns (r + 1) := by
  intro t
  have ht : t.IsAlternating numColumns r := h.relax.shift delta
  have hv : t.isVisited c = false := (Search.of_nearest? hnearest).2
  obtain ⟨path, hpath, hall⟩ := ht.exists_path hv
  have hlt : ∀ d ∈ c :: path, d < numColumns :=
    List.forall_mem_cons.mpr ⟨ht.lt_of_isVisited_eq_false hv, fun d hd => (hall d hd).1⟩
  have hlength : (c :: path).length ≤ numColumns + 1 :=
    (length_le_of_nodup hpath.nodup hlt).trans numColumns.le_succ
  exact ⟨path, hpath, hall, hlength, hlt,
    ht.placed.augment hpath hlength hlt hfree fun d hd => ht.matched (hall d hd).1 (hall d hd).2⟩

theorem isPlaced_addRow (h : m.IsPlaced numColumns r) (hcompares : ComparesRow cost m r) :
    (addRow cost m r).IsPlaced numColumns (r + 1) := by
  have hstart := Search.isAlternating_start h
  have hcount : (Search.start m).visited.count false < m.rowOf.length + 1 := by
    simp [Search.start]
  obtain ⟨t, c, delta, ht, hnearest, hfree, hgrow⟩ :=
    Search.exists_grow_eq (P := Search.Meets cost r (Search.start m))
      (fun t ht => hstart.of_meets ht)
      (fun t ht => by
        obtain ⟨c, x, hv, hx, hbelow⟩ := hcompares t ht
        exact Search.exists_nearest? hx hv hbelow)
      (fun t c delta ht hnearest hrow => ht.advance hnearest hrow) .start hcount
  obtain ⟨_, _, _, _, _, hplaced⟩ := (hstart.of_meets ht).exists_augment hnearest hfree
  rw [addRow, hgrow, h.length_rowOf]
  exact hplaced

theorem isPlaced_placed (h : ComparesCosts cost numRows numColumns) (hr : r ≤ numRows) :
    (placed cost numRows numColumns r).IsPlaced numColumns r := by
  induction r with
  | zero => exact Matching.isPlaced_empty numRows numColumns
  | succ r ih =>
    rw [placed_succ]
    exact isPlaced_addRow (ih (by omega)) (h r (by omega))

/-- Where all scalars are below plus infinity, every search for a row finds nearest columns. -/
theorem comparesRow_of_belowTop (hbelow : ∀ x : α, belowTop x = true)
    (h : m.IsPlaced numColumns r) (hr : r < numColumns) : ComparesRow cost m r := by
  intro s hs
  have halternating := (Search.isAlternating_start h).of_meets hs
  obtain ⟨c, hc, hv⟩ := halternating.exists_unvisited hr
  obtain ⟨x, hx⟩ := Search.exists_slack?_relax cost r s (halternating.length_slack ▸ hc) hv
    (hbelow _)
  exact ⟨c, x, hv, hx, hbelow x⟩

theorem comparesCosts_of_belowTop (hbelow : ∀ x : α, belowTop x = true)
    (hle : numRows ≤ numColumns) : ComparesCosts cost numRows numColumns := by
  have hplaced (r : ℕ) (hr : r ≤ numRows) :
      (placed cost numRows numColumns r).IsPlaced numColumns r := by
    induction r with
    | zero => exact Matching.isPlaced_empty numRows numColumns
    | succ r ih =>
      have ih := ih (by omega)
      rw [placed_succ]
      exact isPlaced_addRow ih (comparesRow_of_belowTop hbelow ih (by omega))
  exact fun r hr => comparesRow_of_belowTop hbelow (hplaced r hr.le) (by omega)

/-- The columns of the rows are different when their searches find nearest columns. -/
theorem exists_solve_of_comparesCosts (h : ComparesCosts cost numRows numColumns) :
    ∃ column : ℕ → ℕ, solve cost numRows numColumns = (List.range numRows).map column ∧
      (∀ i < numRows, column i < numColumns) ∧ Set.InjOn column (Finset.range numRows) := by
  obtain ⟨column, hcolumns, -, hlt, hinj⟩ := (isPlaced_placed h le_rfl).exists_columns
  exact ⟨column, hcolumns, hlt, hinj⟩

end MapInference.Assignment
