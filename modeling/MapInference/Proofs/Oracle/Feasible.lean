import MapInference.Proofs.Oracle.Dense
import MapInference.Proofs.Oracle.Knapsack
import MapInference.Proofs.Oracle.Matching
import MapInference.Proofs.Oracle.Segmentation

/-!
# Feasible assignments

Which assignments of 0/1 values belong to a configuration, said of the values themselves: one true
state for every variable, a total cost within the capacity, a matching that leaves no element of the
smaller side out, or intervals of which no two meet. The oracles read the configuration of an
assignment off block by block, by its true indices or by comparing neighbours only; each finds one
exactly for the feasible assignments.
-/

namespace MapInference

namespace Dense

/-- Exactly one state of every variable is true; the states of a variable are numbered from the
number of all states before it on. -/
def HasOneState (sizes : List ℕ) (values : List Bool) : Prop :=
  ∀ k size : ℕ, sizes[k]? = some size →
    ∃! state, state < size ∧ values[(sizes.take k).sum + state]? = some true

theorem isSome_onlyTrue?_iff {values : List Bool} :
    (onlyTrue? values).isSome ↔ ∃! i : ℕ, values[i]? = some true := by
  rw [Option.isSome_iff_exists]
  refine exists_congr fun i => ?_
  rw [onlyTrue?_eq_some_iff]
  constructor
  · intro h
    have hmem (j : ℕ) : values[j]? = some true ↔ j = i := by
      rw [← Oracle.mem_trueIndices, h, List.mem_singleton]
    exact ⟨(hmem i).mpr rfl, fun j hj => (hmem j).mp hj⟩
  · rintro ⟨hi, hunique⟩
    refine (Oracle.pairwise_trueIndices _).eq_of_mem_iff (List.pairwise_singleton _ _) fun j => ?_
    rw [Oracle.mem_trueIndices, List.mem_singleton]
    exact ⟨hunique j, fun h => h ▸ hi⟩

theorem hasOneState_cons_iff {size : ℕ} {sizes : List ℕ} {values : List Bool} :
    HasOneState (size :: sizes) values ↔
      (∃! state : ℕ, (values.take size)[state]? = some true) ∧
        HasOneState sizes (values.drop size) := by
  have hfirst : (∃! state : ℕ, (values.take size)[state]? = some true) ↔
      ∃! state, state < size ∧ values[state]? = some true := by
    refine existsUnique_congr fun state => ?_
    rw [List.getElem?_take]
    split_ifs with hlt <;> simp [hlt]
  rw [hfirst]
  simp only [HasOneState, List.getElem?_drop, ← Nat.add_assoc]
  constructor
  · exact fun h => ⟨by simpa using h 0 size rfl, fun k n hk => by simpa using h (k + 1) n hk⟩
  · rintro ⟨hzero, hsucc⟩ k n hk
    cases k with
    | zero =>
      obtain rfl : size = n := Option.some.inj hk
      simpa using hzero
    | succ k => simpa using hsucc k n hk

theorem isSome_ofAssignment?_iff (sizes : List ℕ) (values : List Bool) :
    (ofAssignment? sizes values).isSome ↔ HasOneState sizes values := by
  induction sizes generalizing values with
  | nil => simp [ofAssignment?, HasOneState]
  | cons size sizes ih =>
    rw [hasOneState_cons_iff, ← isSome_onlyTrue?_iff, ← ih]
    cases hstate : onlyTrue? (values.take size) <;>
      cases hstates : ofAssignment? sizes (values.drop size) <;>
      simp [ofAssignment?, hstate, hstates]

end Dense

namespace Knapsack

def selectedCost (costs : List ℕ) (values : List Bool) : ℕ :=
  (List.zipWith (fun cost value => if value then cost else 0) costs values).sum

theorem cost_append (costs items items' : List ℕ) :
    cost costs (items ++ items') = cost costs items + cost costs items' := by
  simp only [cost, List.map_append, ← List.sum_eq_foldr, List.sum_append]

theorem cost_map_succ (c : ℕ) (costs items : List ℕ) :
    cost (c :: costs) (items.map (· + 1)) = cost costs items := by
  simp only [cost, List.map_map]
  rfl

theorem cost_trueIndices {costs : List ℕ} {values : List Bool}
    (h : values.length = costs.length) :
    cost costs (Oracle.trueIndices values) = selectedCost costs values := by
  induction costs generalizing values with
  | nil =>
    rw [List.length_eq_zero_iff.mp h]
    rfl
  | cons c costs ih =>
    cases values with
    | nil => simp at h
    | cons value values =>
      rw [Oracle.trueIndices_cons, cost_append, cost_map_succ, ih (by simpa using h)]
      cases value <;> simp [selectedCost]

theorem overflows_iff {costs : List ℕ} {values : List Bool} (h : values.length = costs.length) :
    overflows costs values = true ↔ Word.limit ≤ selectedCost costs values := by
  rw [overflows, Word.checked, cost_trueIndices h]
  split_ifs with hlt
  · simpa using hlt
  · simpa using hlt

theorem isSome_ofAssignment?_iff {costs : List ℕ} (capacity : ℕ) {values : List Bool}
    (h : values.length = costs.length) :
    (ofAssignment? costs capacity values).isSome ↔ selectedCost costs values ≤ capacity := by
  rw [← cost_trueIndices h]
  unfold ofAssignment?
  dsimp only
  split_ifs with hc <;> simp [hc]

end Knapsack

namespace Matching

variable {numRows numColumns : ℕ} {values : List Bool} {columns : List (Option ℕ)}

def Matches (numRows numColumns : ℕ) (values : List Bool) (row column : ℕ) : Prop :=
  row < numRows ∧ column < numColumns ∧ values[pairIndex numColumns row column]? = some true

/-- No two pairs of an assignment share a row or a column, and no element of the smaller side is
left out. -/
structure IsSaturating (numRows numColumns : ℕ) (values : List Bool) : Prop where
  column_eq {row c d : ℕ} : Matches numRows numColumns values row c →
    Matches numRows numColumns values row d → c = d
  row_eq {r s column : ℕ} : Matches numRows numColumns values r column →
    Matches numRows numColumns values s column → r = s
  exists_column {row : ℕ} : numRows ≤ numColumns → row < numRows →
    ∃ column, Matches numRows numColumns values row column
  exists_row {column : ℕ} : numColumns ≤ numRows → column < numColumns →
    ∃ row, Matches numRows numColumns values row column

theorem pairIndex_inj {r s c d : ℕ} (hc : c < numColumns) (hd : d < numColumns)
    (h : pairIndex numColumns r c = pairIndex numColumns s d) : r = s ∧ c = d := by
  have hpos : 0 < numColumns := by omega
  have hdiv := congrArg (· / numColumns) h
  have hmod := congrArg (· % numColumns) h
  simp only [pairIndex, Nat.add_comm (_ * numColumns), Nat.add_mul_div_right _ _ hpos,
    Nat.div_eq_of_lt hc, Nat.div_eq_of_lt hd, Nat.add_mul_mod_self_right, Nat.mod_eq_of_lt hc,
    Nat.mod_eq_of_lt hd, Nat.zero_add] at hdiv hmod
  exact ⟨hdiv, hmod⟩

theorem mem_trueVariables {i : ℕ} :
    i ∈ trueVariables numColumns columns ↔
      ∃ r c, columns[r]? = some (some c) ∧ pairIndex numColumns r c = i := by
  simp only [trueVariables, List.mem_filterMap, Option.map_eq_some_iff, Prod.exists,
    List.mem_zipIdx_iff_getElem?]
  constructor
  · rintro ⟨column, r, hr, c, rfl, hi⟩
    exact ⟨r, c, hr, hi⟩
  · rintro ⟨r, c, hr, hi⟩
    exact ⟨some c, r, hr, c, rfl, hi⟩

theorem matches_iff_of_trueVariables_eq (hm : IsMatching numRows numColumns columns)
    (htrue : trueVariables numColumns columns = Oracle.trueIndices values) {r c : ℕ} :
    Matches numRows numColumns values r c ↔ columns[r]? = some (some c) := by
  rw [Matches, ← Oracle.mem_trueIndices, ← htrue, mem_trueVariables]
  constructor
  · rintro ⟨_, hc, s, d, hd, hi⟩
    obtain ⟨rfl, rfl⟩ := pairIndex_inj (hm.column_lt (List.mem_of_getElem? hd)) hc hi
    exact hd
  · intro hr
    obtain ⟨hlt, _⟩ := List.getElem?_eq_some_iff.mp hr
    exact ⟨hm.length_eq ▸ hlt, hm.column_lt (List.mem_of_getElem? hr), r, c, hr, rfl⟩

theorem isSaturating_of_trueVariables_eq (hm : IsMatching numRows numColumns columns)
    (htrue : trueVariables numColumns columns = Oracle.trueIndices values) :
    IsSaturating numRows numColumns values := by
  constructor <;> simp only [matches_iff_of_trueVariables_eq hm htrue]
  case column_eq =>
    intro row c d hc hd
    exact Option.some.inj (Option.some.inj (hc.symm.trans hd))
  case row_eq => exact fun hr hs => nodup_matched_iff.mp hm.nodup _ _ _ hr hs
  case exists_column =>
    intro row hle hrow
    obtain ⟨column, rfl, _, _⟩ := (isMatching_iff_of_le hle).mp hm
    exact ⟨column row, by simp [hrow]⟩
  case exists_row =>
    intro column hle hcolumn
    obtain ⟨row, hrow⟩ := hm.exists_inverts hle
    exact ⟨row column, hrow.getElem?_eq hcolumn⟩

theorem IsSaturating.exists_columns (h : IsSaturating numRows numColumns values) :
    ∃ columns : List (Option ℕ), columns.length = numRows ∧
      ∀ r c, columns[r]? = some (some c) ↔ Matches numRows numColumns values r c := by
  classical
  let column (r : ℕ) : Option ℕ :=
    if hr : ∃ c, Matches numRows numColumns values r c then some hr.choose else none
  have hcolumn (r c : ℕ) : column r = some c ↔ Matches numRows numColumns values r c := by
    dsimp only [column]
    split_ifs with hr
    · rw [Option.some.injEq]
      exact ⟨fun hc => hc ▸ hr.choose_spec, fun hc => h.column_eq hr.choose_spec hc⟩
    · exact ⟨nofun, fun hc => absurd ⟨c, hc⟩ hr⟩
  refine ⟨(List.range numRows).map column, by simp, fun r c => ?_⟩
  rw [← hcolumn]
  rcases Nat.lt_or_ge r numRows with hr | hr
  · simp [hr]
  · have hnone : ¬ column r = some c := fun hc => absurd ((hcolumn r c).mp hc).1 (by omega)
    simp [hr, hnone]

theorem IsSaturating.isMatching (h : IsSaturating numRows numColumns values)
    (hlen : columns.length = numRows)
    (hiff : ∀ r c, columns[r]? = some (some c) ↔ Matches numRows numColumns values r c) :
    IsMatching numRows numColumns columns := by
  rcases Nat.le_total numRows numColumns with hle | hle
  · have hget (r : ℕ) : ∃ c, r < numRows → columns[r]? = some (some c) := by
      by_cases hr : r < numRows
      · obtain ⟨c, hc⟩ := h.exists_column hle hr
        exact ⟨c, fun _ => (hiff r c).mpr hc⟩
      · exact ⟨0, fun hlt => absurd hlt hr⟩
    choose column hcolumn using hget
    refine (isMatching_iff_of_le hle).mpr ⟨column, eq_map_range hlen hcolumn, ?_, ?_⟩
    · exact fun i hi => ((hiff i _).mp (hcolumn i hi)).2.1
    · intro i hi j hj hij
      have hi := (hiff i _).mp (hcolumn i (Finset.mem_range.mp hi))
      have hj := (hiff j _).mp (hcolumn j (Finset.mem_range.mp hj))
      exact h.row_eq hi (hij ▸ hj)
  · have hget (c : ℕ) : ∃ r, c < numColumns → Matches numRows numColumns values r c := by
      by_cases hc : c < numColumns
      · obtain ⟨r, hr⟩ := h.exists_row hle hc
        exact ⟨r, fun _ => hr⟩
      · exact ⟨0, fun hlt => absurd hlt hc⟩
    choose row hrow using hget
    have hinverts : Inverts numRows numColumns columns row :=
      ⟨hlen, fun hc => (hiff _ _).mpr (hrow _ hc), fun hi => ((hiff _ _).mp hi).2.1,
        fun hi => h.row_eq (hrow _ ((hiff _ _).mp hi).2.1) ((hiff _ _).mp hi)⟩
    exact hinverts.isMatching hle

theorem isSome_ofAssignment?_iff (hv : values.length = numRows * numColumns) :
    (ofAssignment? numRows numColumns values).isSome ↔
      IsSaturating numRows numColumns values := by
  simp only [Option.isSome_iff_exists, ofAssignment?_eq_some_iff hv]
  constructor
  · rintro ⟨columns, hm, htrue⟩
    exact isSaturating_of_trueVariables_eq hm htrue
  · intro h
    obtain ⟨columns, hlen, hiff⟩ := h.exists_columns
    have hm := h.isMatching hlen hiff
    have hpairwise := pairwise_trueVariables fun _ hc => hm.column_lt hc
    refine ⟨columns, hm, hpairwise.eq_of_mem_iff (Oracle.pairwise_trueIndices _) fun i => ?_⟩
    simp only [mem_trueVariables, hiff, Oracle.mem_trueIndices]
    constructor
    · rintro ⟨r, c, hrc, rfl⟩
      exact hrc.2.2
    · intro hi
      have hlt : i < numRows * numColumns := hv ▸ (List.getElem?_eq_some_iff.mp hi).1
      have hpos : 0 < numColumns := Nat.pos_of_mul_pos_left (Nat.zero_lt_of_lt hlt)
      have hindex : pairIndex numColumns (i / numColumns) (i % numColumns) = i :=
        Nat.div_add_mod' i numColumns
      refine ⟨i / numColumns, i % numColumns, ⟨?_, Nat.mod_lt _ hpos, ?_⟩, hindex⟩
      · exact (Nat.div_lt_iff_lt_mul hpos).mpr hlt
      · rwa [hindex]

end Matching

namespace Segmentation

variable {length : ℕ} {values : List Bool}

def Holds (length : ℕ) (values : List Bool) (p : ℕ × ℕ) : Prop :=
  p.1 ≤ p.2 ∧ p.2 < length ∧ values[intervalIndex length p.1 p.2]? = some true

/-- No two intervals of an assignment have a position in common. -/
def AreDisjoint (length : ℕ) (values : List Bool) : Prop :=
  ∀ p q, Holds length values p → Holds length values q → p ≠ q → p.2 < q.1 ∨ q.2 < p.1

theorem pairwise_intervals (length : ℕ) :
    (intervals length).Pairwise fun p q =>
      intervalIndex length p.1 p.2 < intervalIndex length q.1 q.2 := by
  have hrange := List.pairwise_lt_range (n := numIntervals length)
  rw [← map_intervalIndex_intervals] at hrange
  exact List.pairwise_map.mp hrange

theorem lt_of_intervalIndex_lt {p q : ℕ × ℕ} (hp : p.1 ≤ p.2) (hlt : p.2 < length)
    (hq : q.1 ≤ q.2) (h : intervalIndex length p.1 p.2 < intervalIndex length q.1 q.2)
    (hdisjoint : p.2 < q.1 ∨ q.2 < p.1) : p.2 < q.1 :=
  hdisjoint.resolve_right fun hbehind => absurd (intervalIndex_lt hq hp hlt hbehind) h.asymm

theorem isSome_ofAssignment?_iff (length : ℕ) (values : List Bool) :
    (ofAssignment? length values).isSome ↔ AreDisjoint length values := by
  have hmem (p : ℕ × ℕ) : p ∈ chosen length values ↔ Holds length values p := mem_chosen
  simp only [Option.isSome_iff_exists, ofAssignment?_eq_some_iff_chosen, exists_and_left,
    exists_eq', and_true]
  constructor
  · intro h p q hp hq hne
    have hpairwise : (chosen length values).Pairwise fun p q => p.2 < q.1 ∨ q.2 < p.1 :=
      h.pairwise.imp Or.inl
    have : Std.Symm fun p q : ℕ × ℕ => p.2 < q.1 ∨ q.2 < p.1 := ⟨fun _ _ => Or.symm⟩
    exact hpairwise.forall ((hmem p).mpr hp) ((hmem q).mpr hq) hne
  · intro h
    refine ⟨fun hp => ⟨((hmem _).mp hp).1, ((hmem _).mp hp).2.1⟩, ?_⟩
    have hchosen := (pairwise_intervals length).sublist (List.filter_sublist (l := intervals length)
      (p := fun p => values[intervalIndex length p.1 p.2]?.getD false))
    refine hchosen.imp_of_mem fun {p q} hp hq hlt => ?_
    have hp := (hmem p).mp hp
    have hq := (hmem q).mp hq
    have hne : p ≠ q := fun heq => hlt.ne (by rw [heq])
    exact lt_of_intervalIndex_lt hp.1 hp.2.1 hq.1 hlt (h p q hp hq hne)

end Segmentation
end MapInference
