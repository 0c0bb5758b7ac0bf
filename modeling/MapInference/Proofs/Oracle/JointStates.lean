import MapInference.Proofs.Oracle.Dense

/-!
# The numbering of joint states

The joint states are listed as the cartesian product of the states of the variables, with the last
variable changing fastest, and their numbers are their places in this list. Of several joint states
with the greatest score, the one with the smallest number is found. The states of the variables, one
variable after the other, are numbered in the same way, so that every binary variable is one state
of one variable.
-/

namespace MapInference.Dense

variable {α : Type} [ExactScalar α]

theorem flatMap_range_blocks (m n : ℕ) :
    ((List.range m).flatMap fun i => (List.range n).map (i * n + ·)) = List.range (m * n) := by
  induction m with
  | zero => simp
  | succ m ih =>
    rw [List.range_succ, List.flatMap_append, ih, List.flatMap_singleton, Nat.succ_mul,
      List.range_add]

theorem map_jointIndex_jointStates (sizes : List ℕ) :
    (jointStates sizes).map (jointIndex sizes) = List.range (numJointStates sizes) := by
  induction sizes with
  | nil => rfl
  | cons size sizes ih =>
    -- The joint states with one and the same first state have consecutive numbers.
    have hblock (state : ℕ) :
        ((jointStates sizes).map (state :: ·)).map (jointIndex (size :: sizes)) =
          (List.range (numJointStates sizes)).map (state * numJointStates sizes + ·) := by
      rw [← ih, List.map_map, List.map_map]
      exact List.map_congr_left fun states hs => jointIndex_cons (mem_jointStates.mp hs)
    rw [jointStates, List.map_flatMap]
    simp only [hblock]
    exact flatMap_range_blocks size (numJointStates sizes)

/-- The joint states are listed by their first states, and those with the same first state by the
other ones. -/
theorem pairwise_lex_jointStates (sizes : List ℕ) :
    (jointStates sizes).Pairwise (List.Lex (· < ·)) := by
  induction sizes with
  | nil => exact List.pairwise_singleton _ _
  | cons size sizes ih =>
    rw [jointStates, List.pairwise_flatMap]
    constructor
    · intro state _
      exact ih.map _ fun _ _ h => List.Lex.cons h
    · refine List.pairwise_lt_range.imp fun {state state'} h states hs states' hs' => ?_
      obtain ⟨rest, _, rfl⟩ := List.mem_map.mp hs
      obtain ⟨rest', _, rfl⟩ := List.mem_map.mp hs'
      exact List.Lex.rel h

/-- The list of joint states is the only one that holds each of them in lexicographic order. -/
theorem eq_jointStates_iff {sizes : List ℕ} {tuples : List (List ℕ)} :
    tuples = jointStates sizes ↔
      (∀ states, states ∈ tuples ↔ IsJointState sizes states) ∧
        tuples.Pairwise (List.Lex (· < ·)) := by
  constructor
  · rintro rfl
    exact ⟨fun _ => mem_jointStates, pairwise_lex_jointStates sizes⟩
  · rintro ⟨hmem, hlex⟩
    exact hlex.eq_of_mem_iff (pairwise_lex_jointStates sizes)
      fun states => (hmem states).trans mem_jointStates.symm

theorem bijOn_jointIndex (sizes : List ℕ) :
    Set.BijOn (jointIndex sizes) {states | IsJointState sizes states}
      (Set.Iio (numJointStates sizes)) := by
  have hbij := bijOn_of_map_eq_range (map_jointIndex_jointStates sizes)
  simpa only [mem_jointStates] using hbij

/-- The binary variable for a state of the variable at `i`, behind all states of the variables
before it. -/
def stateIndex (sizes : List ℕ) (i state : ℕ) : ℕ := (sizes.take i).sum + state

def variableStates : List ℕ → List (ℕ × ℕ)
  | [] => []
  | size :: sizes =>
    (List.range size).map (fun state => (0, state)) ++
      (variableStates sizes).map fun p => (p.1 + 1, p.2)

theorem stateIndex_zero (sizes : List ℕ) (state : ℕ) : stateIndex sizes 0 state = state := by
  simp [stateIndex]

theorem stateIndex_succ (size : ℕ) (sizes : List ℕ) (i state : ℕ) :
    stateIndex (size :: sizes) (i + 1) state = size + stateIndex sizes i state := by
  simp [stateIndex, Nat.add_assoc]

theorem mem_variableStates {sizes : List ℕ} {p : ℕ × ℕ} :
    p ∈ variableStates sizes ↔ ∃ size, sizes[p.1]? = some size ∧ p.2 < size := by
  induction sizes generalizing p with
  | nil => simp [variableStates]
  | cons size sizes ih =>
    obtain ⟨i, state⟩ := p
    cases i with
    | zero => simp [variableStates]
    | succ i => simpa [variableStates] using ih (p := (i, state))

theorem map_stateIndex_variableStates (sizes : List ℕ) :
    (variableStates sizes).map (fun p => stateIndex sizes p.1 p.2) =
      List.range (numStates sizes) := by
  induction sizes with
  | nil => rfl
  | cons size sizes ih =>
    have hnumber : numStates (size :: sizes) = size + numStates sizes := rfl
    rw [variableStates, List.map_append, List.map_map, List.map_map, hnumber, List.range_add, ← ih,
      List.map_map]
    simp [Function.comp_def, stateIndex_zero, stateIndex_succ]

theorem bijOn_stateIndex (sizes : List ℕ) :
    Set.BijOn (fun p : ℕ × ℕ => stateIndex sizes p.1 p.2)
      {p | ∃ size, sizes[p.1]? = some size ∧ p.2 < size} (Set.Iio (numStates sizes)) := by
  have hbij := bijOn_of_map_eq_range (map_stateIndex_variableStates sizes)
  simpa only [mem_variableStates] using hbij

theorem stateIndices_eq_mapIdx {sizes states : List ℕ} (h : IsJointState sizes states)
    (offset : ℕ) :
    stateIndices offset sizes states =
      states.mapIdx fun i state => offset + stateIndex sizes i state := by
  induction h generalizing offset with
  | nil => rfl
  | @cons state size states sizes _ _ ih =>
    rw [stateIndices, ih (offset + size), List.mapIdx_cons, stateIndex_zero]
    simp only [stateIndex_succ, Nat.add_assoc]

/-- The joint states are the cartesian product of the states of the variables in the order in which
the last variable changes fastest, they are numbered without a gap in this order, and of those with
the greatest score the first one is found. The states of all variables are numbered without a gap as
well, and the true variables of a joint state are the numbers of its states. -/
theorem joint_numbering {sizes : List ℕ} (h : ∀ size ∈ sizes, 0 < size) :
    (∀ tuples : List (List ℕ), tuples = jointStates sizes ↔
        (∀ states, states ∈ tuples ↔ IsJointState sizes states) ∧
          tuples.Pairwise (List.Lex (· < ·))) ∧
      Set.BijOn (jointIndex sizes) {states | IsJointState sizes states}
        (Set.Iio (numJointStates sizes)) ∧
      (jointStates sizes).map (jointIndex sizes) = List.range (numJointStates sizes) ∧
      (∀ scores additional : List α, ∃ states,
        (oracle sizes).maximize scores additional =
            (states, score sizes scores additional states) ∧
          Extremum.IsFirstBest (score sizes scores additional) (jointStates sizes) states) ∧
      (∀ states, IsJointState sizes states →
        stateIndices 0 sizes states = states.mapIdx (stateIndex sizes)) ∧
      Set.BijOn (fun p : ℕ × ℕ => stateIndex sizes p.1 p.2)
        {p | ∃ size, sizes[p.1]? = some size ∧ p.2 < size} (Set.Iio (numStates sizes)) := by
  refine ⟨fun _ => eq_jointStates_iff, bijOn_jointIndex sizes, map_jointIndex_jointStates sizes,
    isFirstBest_maximize h, fun states hs => ?_, bijOn_stateIndex sizes⟩
  simpa only [Nat.zero_add] using stateIndices_eq_mapIdx hs 0

/-- Two variables with different numbers of states; the joint states with the numbers 3 and 5 are
equally good. -/
theorem joint_numbering_unequalSizes :
    (∀ size ∈ [2, 3], 0 < size) ∧
      (jointStates [2, 3]).map (jointIndex [2, 3]) = List.range 6 ∧ jointIndex [2, 3] [1, 0] = 3 ∧
      (oracle [2, 3] : Oracle ℚ (List ℕ)).maximize [0, 1, 2, 0, 1] [0, 0, 0, 0, 0, 1] =
        ([1, 0], 3) ∧
      score [2, 3] ([0, 1, 2, 0, 1] : List ℚ) [0, 0, 0, 0, 0, 1] [1, 2] = 3 ∧
      Extremum.IsFirstBest (score [2, 3] ([0, 1, 2, 0, 1] : List ℚ) [0, 0, 0, 0, 0, 1])
        (jointStates [2, 3]) [1, 0] ∧
      stateIndices 0 [2, 3] [1, 2] = [1, 2].mapIdx (stateIndex [2, 3]) ∧
      Set.BijOn (fun p : ℕ × ℕ => stateIndex [2, 3] p.1 p.2)
        {p | ∃ size, [2, 3][p.1]? = some size ∧ p.2 < size} (Set.Iio 5) := by
  have hpos : ∀ size ∈ [2, 3], 0 < size := by decide
  obtain ⟨_, _, hnumbers, hbest, htrue, hstates⟩ := joint_numbering (α := ℚ) hpos
  have hanswer : (oracle [2, 3] : Oracle ℚ (List ℕ)).maximize [0, 1, 2, 0, 1] [0, 0, 0, 0, 0, 1] =
      ([1, 0], 3) := by
    decide +kernel
  obtain ⟨states, hfound, hfirst⟩ := hbest [0, 1, 2, 0, 1] [0, 0, 0, 0, 0, 1]
  obtain ⟨rfl, -⟩ := Prod.mk.inj (hfound.symm.trans hanswer)
  have hjoint : IsJointState [2, 3] [1, 2] := mem_jointStates.mp (by decide)
  exact ⟨hpos, hnumbers, by decide, hanswer, by decide +kernel, hfirst, htrue _ hjoint, hstates⟩

end MapInference.Dense
