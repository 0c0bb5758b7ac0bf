import MapInference.Proofs.Oracle.Matching

/-!
# Best assignments

An assignment of every element of the smaller side to an element of its own on the larger side is an
embedding of the indices. Of these, the assignment of rows to columns finds one with the least total
cost, and the oracle of matchings one with the greatest total score, whichever side is the smaller
one.
-/

namespace MapInference.Matching

open Scalar

variable {m n : ℕ}

def numberOf (e : Fin m ↪ Fin n) (i : ℕ) : ℕ := if h : i < m then e ⟨i, h⟩ else 0

@[simp] theorem numberOf_val (e : Fin m ↪ Fin n) (i : Fin m) : numberOf e i = e i := by
  simp [numberOf]

theorem numberOf_lt (e : Fin m ↪ Fin n) : ∀ i < m, numberOf e i < n := fun i hi => by
  simp [numberOf, hi]

theorem injOn_numberOf (e : Fin m ↪ Fin n) : Set.InjOn (numberOf e) (Finset.range m) := by
  intro i hi j hj hij
  have hi := Finset.mem_range.mp hi
  have hj := Finset.mem_range.mp hj
  have heq : e ⟨i, hi⟩ = e ⟨j, hj⟩ := Fin.ext (by simpa [numberOf, hi, hj] using hij)
  exact congrArg Fin.val (e.injective heq)

def embedding {f : ℕ → ℕ} (hlt : ∀ i < m, f i < n) (hinj : Set.InjOn f (Finset.range m)) :
    Fin m ↪ Fin n where
  toFun i := ⟨f i, hlt i i.isLt⟩
  inj' i j hij :=
    Fin.ext (hinj (by simp) (by simp) (congrArg Fin.val hij))

theorem map_range_eq_ofFn {β : Type} (f : ℕ → β) (m : ℕ) :
    (List.range m).map f = List.ofFn fun i : Fin m => f i := by
  refine List.ext_getElem (by simp) fun i _ _ => by simp

variable {α : Type} [ExactScalar α] {numRows numColumns : ℕ}

theorem sum_numberOf (e : Fin m ↪ Fin n) (f : ℕ → ℕ → α) :
    ∑ i ∈ Finset.range m, f i (numberOf e i) = ∑ i : Fin m, f i (e i) := by
  rw [Finset.sum_range]
  simp

def totalCost (cost : ℕ → ℕ → α) (column : Fin numRows ↪ Fin numColumns) : α :=
  ∑ row : Fin numRows, cost row (column row)

/-- The total score of the pairs of a row and its column. -/
def scoreOfColumns (scores : List α) (column : Fin numRows ↪ Fin numColumns) : α :=
  ∑ row : Fin numRows, coordinate scores (pairIndex numColumns row (column row))

/-- The total score of the pairs of a column and its row. -/
def scoreOfRows (scores : List α) (row : Fin numColumns ↪ Fin numRows) : α :=
  ∑ column : Fin numColumns, coordinate scores (pairIndex numColumns (row column) column)

/-- The rows have different columns, and no other choice of different columns costs less. -/
theorem exists_embedding_solve (cost : ℕ → ℕ → α) (h : numRows ≤ numColumns) :
    ∃ column : Fin numRows ↪ Fin numColumns,
      Assignment.solve cost numRows numColumns = List.ofFn (fun row => (column row : ℕ)) ∧
      ∀ other : Fin numRows ↪ Fin numColumns, totalCost cost column ≤ totalCost cost other := by
  obtain ⟨column, hsolve, hlt, hinj, hmin⟩ := Assignment.exists_solve cost h
  refine ⟨embedding hlt hinj, hsolve.trans (map_range_eq_ofFn column numRows), fun other => ?_⟩
  have hle := hmin (numberOf other) (numberOf_lt other) (injOn_numberOf other)
  rw [sum_numberOf other cost, Finset.sum_range] at hle
  exact hle

theorem exists_embedding_of_le (h : numRows ≤ numColumns) (scores : List α) :
    ∃ column : Fin numRows ↪ Fin numColumns,
      bestColumns numRows numColumns scores = List.ofFn (fun row => some (column row : ℕ)) ∧
      score numColumns scores (bestColumns numRows numColumns scores) =
        scoreOfColumns scores column ∧
      ∀ other : Fin numRows ↪ Fin numColumns,
        scoreOfColumns scores other ≤ scoreOfColumns scores column := by
  obtain ⟨hm, hmax⟩ := exists_best numRows numColumns scores
  obtain ⟨column, hbest, hlt, hinj⟩ := (isMatching_iff_of_le h).mp hm
  have hscore : score numColumns scores (bestColumns numRows numColumns scores) =
      scoreOfColumns scores (embedding hlt hinj) := by
    rw [hbest, score_map_range, Finset.sum_range]
    rfl
  refine ⟨embedding hlt hinj, hbest.trans (map_range_eq_ofFn _ numRows), hscore, fun other => ?_⟩
  have hle := hmax _ ((isMatching_iff_of_le h).mpr
    ⟨numberOf other, rfl, numberOf_lt other, injOn_numberOf other⟩)
  rwa [hscore, score_map_range,
    sum_numberOf other fun row c => coordinate scores (pairIndex numColumns row c)] at hle

/-- With at least as many rows as columns, every column has a row of its own, and the other rows
have no column. -/
theorem exists_embedding_of_ge (h : numColumns ≤ numRows) (scores : List α) :
    ∃ row : Fin numColumns ↪ Fin numRows,
      (bestColumns numRows numColumns scores).length = numRows ∧
      (∀ r c : ℕ, (bestColumns numRows numColumns scores)[r]? = some (some c) ↔
        ∃ column : Fin numColumns, (column : ℕ) = c ∧ (row column : ℕ) = r) ∧
      score numColumns scores (bestColumns numRows numColumns scores) = scoreOfRows scores row ∧
      ∀ other : Fin numColumns ↪ Fin numRows,
        scoreOfRows scores other ≤ scoreOfRows scores row := by
  obtain ⟨hm, hmax⟩ := exists_best numRows numColumns scores
  obtain ⟨row, hrow⟩ := hm.exists_inverts h
  let best := embedding (fun _ hc => hrow.row_lt hc) hrow.injOn
  have hscore : score numColumns scores (bestColumns numRows numColumns scores) =
      scoreOfRows scores best := by
    rw [hrow.score_eq_sum, Finset.sum_range]
    rfl
  refine ⟨best, hm.length_eq, fun r c => ⟨?_, ?_⟩, hscore, fun other => ?_⟩
  · exact fun hr => ⟨⟨c, hrow.column_lt hr⟩, rfl, hrow.row_eq hr⟩
  · rintro ⟨column, rfl, rfl⟩
    exact hrow.getElem?_eq column.isLt
  · have hother := inverts_ofRows (numberOf_lt other) (injOn_numberOf other)
    have hle := hmax _ (hother.isMatching h)
    rwa [hscore, hother.score_eq_sum,
      sum_numberOf other fun c r => coordinate scores (pairIndex numColumns r c)] at hle

/-- A matching that is found leaves no element of the smaller side out and has the greatest score,
which is its value; the assignment of rows to columns has the least cost. -/
theorem assignment_optimal (numRows numColumns : ℕ) (cost : ℕ → ℕ → α)
    (scores additional : List α) :
    let answer := (oracle numRows numColumns : Oracle α _).maximize scores additional
    answer.2 = (oracle numRows numColumns).score scores additional answer.1 ∧
      (numRows ≤ numColumns → ∃ column : Fin numRows ↪ Fin numColumns,
        answer.1 = List.ofFn (fun row => some (column row : ℕ)) ∧
        answer.2 = scoreOfColumns scores column ∧
        ∀ other : Fin numRows ↪ Fin numColumns, scoreOfColumns scores other ≤ answer.2) ∧
      (numColumns ≤ numRows → ∃ row : Fin numColumns ↪ Fin numRows,
        answer.1.length = numRows ∧
        (∀ r c : ℕ, answer.1[r]? = some (some c) ↔
          ∃ column : Fin numColumns, (column : ℕ) = c ∧ (row column : ℕ) = r) ∧
        answer.2 = scoreOfRows scores row ∧
        ∀ other : Fin numColumns ↪ Fin numRows, scoreOfRows scores other ≤ answer.2) ∧
      (numRows ≤ numColumns → ∃ column : Fin numRows ↪ Fin numColumns,
        Assignment.solve cost numRows numColumns = List.ofFn (fun row => (column row : ℕ)) ∧
        ∀ other : Fin numRows ↪ Fin numColumns, totalCost cost column ≤ totalCost cost other) := by
  intro answer
  refine ⟨rfl, fun h => ?_, fun h => ?_, fun h => exists_embedding_solve cost h⟩
  · obtain ⟨column, hbest, hscore, hmax⟩ := exists_embedding_of_le h scores
    exact ⟨column, hbest, hscore, fun other => (hmax other).trans_eq hscore.symm⟩
  · obtain ⟨row, hlen, hbest, hscore, hmax⟩ := exists_embedding_of_ge h scores
    exact ⟨row, hlen, hbest, hscore, fun other => (hmax other).trans_eq hscore.symm⟩

theorem assignment_optimal_twoRows :
    2 ≤ 2 ∧ (oracle 2 2 : Oracle ℚ _).maximize [3, 5, 4, 1] [] = ([some 1, some 0], 9) ∧
      (∀ other : Fin 2 ↪ Fin 2, scoreOfColumns [3, 5, 4, 1] other ≤ (9 : ℚ)) ∧
      (∀ other : Fin 2 ↪ Fin 2, scoreOfRows [3, 5, 4, 1] other ≤ (9 : ℚ)) ∧
      ∃ column : Fin 2 ↪ Fin 2, Assignment.solve (fun row c => (row + 2 * c : ℚ)) 2 2 =
        List.ofFn fun row => (column row : ℕ) := by
  have hanswer :
      (oracle 2 2 : Oracle ℚ _).maximize [3, 5, 4, 1] [] = ([some 1, some 0], 9) := by
    decide +kernel
  obtain ⟨_, hrows, hcolumns, hsolve⟩ :=
    assignment_optimal 2 2 (fun row c => (row + 2 * c : ℚ)) [3, 5, 4, 1] []
  rw [hanswer] at hrows hcolumns
  obtain ⟨_, _, _, hrows⟩ := hrows le_rfl
  obtain ⟨_, _, _, _, hcolumns⟩ := hcolumns le_rfl
  obtain ⟨column, hsolve, _⟩ := hsolve le_rfl
  exact ⟨le_rfl, hanswer, hrows, hcolumns, column, hsolve⟩

end MapInference.Matching
