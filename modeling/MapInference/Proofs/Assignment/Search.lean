import MapInference.Proofs.Assignment.Placement

/-!
# Searches for a new row

A search relaxes the slacks of the unvisited columns and visits the nearest one, which has a slack
below plus infinity. In exact arithmetic this is the least slack, and after relaxing, the slack of a
column is at most its reduced cost in the row of the column visited last.
-/

namespace MapInference.Assignment

open Scalar
variable {α : Type}

def Matching.reduced [Scalar α] (cost : ℕ → ℕ → α) (m : Matching α) (row column : ℕ) : α :=
  cost row column - coordinate m.rowPotentials row - coordinate m.columnPotentials column

namespace Search

/-- The least reduced cost at which a column has been reached. -/
def slack? (s : Search α) (column : ℕ) : Option α := s.slack[column]?.join

theorem mem_zipIdx_slack {s : Search α} {c : ℕ} {x : α} :
    (some x, c) ∈ s.slack.zipIdx ↔ s.slack? c = some x := by
  rw [List.mk_mem_zipIdx_iff_getElem?, slack?, Option.join_eq_some_iff]

def origin? (s : Search α) (column : ℕ) : Option ℕ := s.reachedFrom[column]?.join

section

variable [Scalar α]

section Relax

variable (cost : ℕ → ℕ → α) (newRow : ℕ) (s : Search α)

theorem slack?_relax {c : ℕ} (hc : c < s.slack.length) :
    (s.relax cost newRow).slack? c =
      if s.improves cost newRow c then some (s.reducedCost cost newRow c) else s.slack? c := by
  simp only [slack?, relax, List.getElem?_map, List.getElem?_zipIdx, Nat.zero_add,
    List.getElem?_eq_getElem hc, Option.map_some]
  split_ifs <;> rfl

theorem origin?_relax {c : ℕ} (hc : c < s.reachedFrom.length) :
    (s.relax cost newRow).origin? c =
      if s.improves cost newRow c then s.current else s.origin? c := by
  simp only [origin?, relax, List.getElem?_map, List.getElem?_zipIdx, Nat.zero_add,
    List.getElem?_eq_getElem hc, Option.map_some]
  split_ifs <;> rfl

@[simp] theorem matching_relax : (s.relax cost newRow).matching = s.matching := rfl

theorem reducedCost_eq (c : ℕ) :
    s.reducedCost cost newRow c =
      Matching.reduced cost s.matching (s.matching.rowAt newRow s.current) c := rfl

theorem exists_slack?_relax {c : ℕ} (hc : c < s.slack.length) (hv : s.isVisited c = false)
    (hbelow : belowTop (s.reducedCost cost newRow c) = true) :
    ∃ x, (s.relax cost newRow).slack? c = some x := by
  rw [slack?_relax cost newRow s hc]
  cases hs : s.slack? c with
  | none =>
    have hnone : s.slack[c]?.join = none := hs
    have himproves : s.improves cost newRow c = true := by
      simp [improves, hv, hnone, Extended.undercuts, hbelow]
    exact ⟨_, if_pos himproves⟩
  | some y =>
    by_cases himproves : s.improves cost newRow c = true
    · exact ⟨_, if_pos himproves⟩
    · exact ⟨y, if_neg himproves⟩

end Relax

def nearer (s : Search α) (best : Option (ℕ × α)) (entry : Option α × ℕ) : Option (ℕ × α) :=
  match entry with
  | (some x, column) =>
    if !s.isVisited column && Extended.undercuts x (best.map (·.2)) then some (column, x) else best
  | (none, _) => best

theorem nearest?_eq_foldl (s : Search α) : s.nearest? = s.slack.zipIdx.foldl s.nearer none := by
  unfold nearest?
  congr
  funext best entry
  obtain ⟨slack, column⟩ := entry
  cases slack <;> rfl

theorem nearer_eq_or (s : Search α) (best : Option (ℕ × α)) (entry : Option α × ℕ) :
    s.nearer best entry = best ∨ ∃ x, entry.1 = some x ∧ s.isVisited entry.2 = false ∧
      Extended.undercuts x (best.map (·.2)) = true ∧ s.nearer best entry = some (entry.2, x) := by
  obtain ⟨slack, column⟩ := entry
  cases slack with
  | none => exact Or.inl rfl
  | some x =>
    by_cases hnearer : (!s.isVisited column && Extended.undercuts x (best.map (·.2))) = true
    · obtain ⟨hv, hx⟩ := Bool.and_eq_true_iff.mp hnearer
      exact Or.inr ⟨x, rfl, by simpa using hv, hx, if_pos hnearer⟩
    · exact Or.inl (if_neg hnearer)

theorem foldl_nearer_mem (s : Search α) {entries : List (Option α × ℕ)} {best : Option (ℕ × α)}
    {d : ℕ} {y : α} (h : entries.foldl s.nearer best = some (d, y)) :
    best = some (d, y) ∨ (some y, d) ∈ entries ∧ s.isVisited d = false := by
  induction entries generalizing best with
  | nil => exact Or.inl h
  | cons entry entries ih =>
    rcases ih h with hbest | ⟨hmem, hv⟩
    · rcases s.nearer_eq_or best entry with hsame | ⟨x, hx, hv, -, hnext⟩
      · exact Or.inl (hsame ▸ hbest)
      · obtain ⟨rfl, rfl⟩ := Prod.mk.inj (Option.some.inj (hnext.symm.trans hbest))
        exact Or.inr ⟨hx ▸ List.mem_cons_self, hv⟩
    · exact Or.inr ⟨List.mem_cons_of_mem _ hmem, hv⟩

theorem isSome_foldl_nearer (s : Search α) {entries : List (Option α × ℕ)}
    {best : Option (ℕ × α)} (h : best.isSome ∨ ∃ c x, (some x, c) ∈ entries ∧
      s.isVisited c = false ∧ belowTop x = true) : (entries.foldl s.nearer best).isSome := by
  induction entries generalizing best with
  | nil => exact h.resolve_right fun ⟨_, _, hmem, _⟩ => absurd hmem List.not_mem_nil
  | cons entry entries ih =>
    -- A column is kept unless a nearer one takes its place.
    have hkeep (hbest : best.isSome) : (s.nearer best entry).isSome := by
      rcases s.nearer_eq_or best entry with hsame | ⟨x, -, -, -, hnext⟩
      · rwa [hsame]
      · rw [hnext, Option.isSome_some]
    refine ih ?_
    rcases h with hbest | ⟨c, x, hmem, hv, hbelow⟩
    · exact Or.inl (hkeep hbest)
    rcases List.mem_cons.mp hmem with rfl | hmem
    · cases best with
      | none => exact Or.inl (by simp [nearer, hv, Extended.undercuts, hbelow])
      | some b => exact Or.inl (hkeep rfl)
    · exact Or.inr ⟨c, x, hmem, hv, hbelow⟩

theorem of_nearest? {s : Search α} {c : ℕ} {x : α} (h : s.nearest? = some (c, x)) :
    s.slack? c = some x ∧ s.isVisited c = false := by
  rw [nearest?_eq_foldl] at h
  obtain ⟨hmem, hv⟩ := (s.foldl_nearer_mem h).resolve_left (by simp)
  exact ⟨mem_zipIdx_slack.mp hmem, hv⟩

/-- There is a nearest column when an unvisited one has a slack below plus infinity. -/
theorem exists_nearest? {s : Search α} {c : ℕ} {x : α} (hc : s.slack? c = some x)
    (hv : s.isVisited c = false) (hbelow : belowTop x = true) :
    ∃ d y, s.nearest? = some (d, y) := by
  rw [nearest?_eq_foldl]
  obtain ⟨⟨d, y⟩, hd⟩ := Option.isSome_iff_exists.mp
    (s.isSome_foldl_nearer (Or.inr ⟨c, x, mem_zipIdx_slack.mpr hc, hv, hbelow⟩))
  exact ⟨d, y, hd⟩

end

variable [ExactScalar α]

/-- The slack of an unvisited column drops to its reduced cost in the current row. -/
theorem slack?_relax_le (cost : ℕ → ℕ → α) (newRow : ℕ) (s : Search α) {c : ℕ} {x : α}
    (hc : c < s.slack.length) (hv : s.isVisited c = false)
    (hx : (s.relax cost newRow).slack? c = some x) :
    x ≤ s.reducedCost cost newRow c ∧ ∀ y, s.slack? c = some y → x ≤ y := by
  rw [slack?_relax cost newRow s hc] at hx
  split_ifs at hx with himproves
  · obtain rfl := Option.some.inj hx
    refine ⟨le_rfl, fun y hy => ?_⟩
    have hsome : s.slack[c]?.join = some y := hy
    have hlt : s.reducedCost cost newRow c < y := by
      simpa [improves, hv, hsome, Extended.undercuts] using himproves
    exact hlt.le
  · have hsome : s.slack[c]?.join = some x := hx
    have hle : x ≤ s.reducedCost cost newRow c := by
      simpa [improves, hv, hsome, Extended.undercuts] using himproves
    exact ⟨hle, fun y hy => (Option.some.inj (hx.symm.trans hy)).le⟩

/-- The nearest column so far or the next one is at least as near as either of them. -/
theorem exists_nearer_le (s : Search α) {best : Option (ℕ × α)} {entry : Option α × ℕ} {e : ℕ}
    {z : α} (h : best = some (e, z) ∨ entry = (some z, e) ∧ s.isVisited e = false) :
    ∃ d y, s.nearer best entry = some (d, y) ∧ y ≤ z := by
  rcases s.nearer_eq_or best entry with hsame | ⟨x, hx, -, hless, hnext⟩
  · rcases h with hbest | ⟨rfl, hv⟩
    · exact ⟨e, z, hsame.trans hbest, le_rfl⟩
    · cases best with
      | none =>
        rw [nearer, Option.map_none, Extended.undercuts, belowTop_eq_true, hv] at hsame
        cases hsame
      | some b =>
        refine ⟨b.1, b.2, hsame, ?_⟩
        by_contra hlt
        have htaken : s.nearer (some b) (some z, e) = some (e, z) := by
          simp [nearer, hv, Extended.undercuts, not_le.mp hlt]
        obtain rfl := Option.some.inj (htaken.symm.trans hsame)
        exact hlt le_rfl
  · refine ⟨_, x, hnext, ?_⟩
    rcases h with rfl | ⟨rfl, -⟩
    · have hlt : x < z := by simpa [Extended.undercuts] using hless
      exact hlt.le
    · exact (Option.some.inj hx).ge

theorem foldl_nearer_le (s : Search α) {entries : List (Option α × ℕ)} {best : Option (ℕ × α)}
    {d e : ℕ} {y z : α} (h : entries.foldl s.nearer best = some (d, y))
    (he : best = some (e, z) ∨ (some z, e) ∈ entries ∧ s.isVisited e = false) : y ≤ z := by
  induction entries generalizing best e z with
  | nil =>
    have hbest := he.resolve_right fun ⟨hmem, _⟩ => absurd hmem List.not_mem_nil
    exact (Prod.mk.inj (Option.some.inj (h.symm.trans hbest))).2.le
  | cons entry entries ih =>
    have hfirst (he : best = some (e, z) ∨ entry = (some z, e) ∧ s.isVisited e = false) :
        y ≤ z := by
      obtain ⟨f, w, hnext, hle⟩ := s.exists_nearer_le he
      exact (ih h (Or.inl hnext)).trans hle
    rcases he with hbest | ⟨hmem, hv⟩
    · exact hfirst (Or.inl hbest)
    · rcases List.mem_cons.mp hmem with hentry | hmem
      · exact hfirst (Or.inr ⟨hentry.symm, hv⟩)
      · exact ih h (Or.inr ⟨hmem, hv⟩)

theorem nearest?_le {s : Search α} {c : ℕ} {x : α} (h : s.nearest? = some (c, x)) {e : ℕ} {z : α}
    (he : s.slack? e = some z) (hv : s.isVisited e = false) : x ≤ z := by
  rw [nearest?_eq_foldl] at h
  exact s.foldl_nearer_le h (Or.inr ⟨mem_zipIdx_slack.mpr he, hv⟩)

end Search
end MapInference.Assignment
