import MapInference.Proofs.Extremum
import MapInference.Proofs.Oracle.Indicators
import MapInference.Oracle.Dense

/-!
# The laws of joint states

The configurations are the joint states of variables with at least one state each; the blocks of
states of the variables partition the binary variables.
-/

namespace MapInference

namespace Dense

open Scalar
variable {α : Type} [ExactScalar α]

def IsJointState (sizes states : List ℕ) : Prop :=
  List.Forall₂ (fun state size => state < size) states sizes

theorem mem_jointStates {sizes states : List ℕ} :
    states ∈ jointStates sizes ↔ IsJointState sizes states := by
  induction sizes generalizing states with
  | nil => simp [jointStates, IsJointState]
  | cons size sizes ih =>
    cases states with
    | nil => simp [jointStates, IsJointState]
    | cons state states => simp [jointStates, IsJointState, ih]

theorem stateIndices_eq_map (offset : ℕ) (sizes states : List ℕ) :
    stateIndices offset sizes states = (stateIndices 0 sizes states).map (· + offset) := by
  induction sizes generalizing offset states with
  | nil => simp [stateIndices]
  | cons size sizes ih =>
    cases states with
    | nil => simp [stateIndices]
    | cons state states =>
      simp only [stateIndices, List.map_cons]
      rw [ih (offset + size), ih (0 + size)]
      simp [Function.comp_def, Nat.add_comm, Nat.add_left_comm]

theorem stateIndices_cons (size state : ℕ) (sizes states : List ℕ) :
    stateIndices 0 (size :: sizes) (state :: states) =
      [state] ++ (stateIndices 0 sizes states).map (· + size) := by
  rw [← stateIndices_eq_map]
  simp [stateIndices]

theorem stateIndices_lt {sizes states : List ℕ} (h : IsJointState sizes states) :
    ∀ i ∈ stateIndices 0 sizes states, i < numStates sizes := by
  induction h with
  | nil => simp [stateIndices]
  | @cons state size states sizes hlt _ ih =>
    intro i hi
    rw [stateIndices_cons] at hi
    simp only [numStates, List.foldr_cons] at ih ⊢
    rcases List.mem_append.mp hi with hi | hi
    · have := List.mem_singleton.mp hi
      omega
    · obtain ⟨j, hj, rfl⟩ := List.mem_map.mp hi
      have := ih j hj
      omega

theorem pairwise_stateIndices {sizes states : List ℕ} (h : IsJointState sizes states) :
    (stateIndices 0 sizes states).Pairwise (· < ·) := by
  induction h with
  | nil => simp [stateIndices]
  | @cons state size states sizes hlt _ ih =>
    rw [stateIndices_cons, List.singleton_append]
    refine List.pairwise_cons.mpr ⟨?_, ih.map _ (fun _ _ hab => Nat.add_lt_add_right hab _)⟩
    intro i hi
    obtain ⟨j, _, rfl⟩ := List.mem_map.mp hi
    omega

theorem onlyTrue?_eq_some_iff {values : List Bool} {i : ℕ} :
    onlyTrue? values = some i ↔ Oracle.trueIndices values = [i] := by
  unfold onlyTrue?
  split
  · next j h => simp [h]
  · next h => simpa using h i

theorem ofAssignment?_eq_some_iff {sizes : List ℕ} {values : List Bool} {states : List ℕ}
    (h : values.length = numStates sizes) :
    ofAssignment? sizes values = some states ↔
      IsJointState sizes states ∧ stateIndices 0 sizes states = Oracle.trueIndices values := by
  induction sizes generalizing values states with
  | nil =>
    have hv : values = [] := List.length_eq_zero_iff.mp h
    cases states with
    | nil => simp [ofAssignment?, IsJointState, stateIndices, hv, Oracle.trueIndices]
    | cons state states => simp [ofAssignment?, IsJointState]
  | cons size sizes ih =>
    simp only [numStates, List.foldr_cons] at h
    have hle : size ≤ values.length := by omega
    have hrest : (values.drop size).length = numStates sizes := by
      rw [List.length_drop, h, Nat.add_sub_cancel_left]
      rfl
    cases states with
    | nil => simp [ofAssignment?, IsJointState, Option.bind_eq_some_iff]
    | cons state states =>
      have hof : ofAssignment? (size :: sizes) values = some (state :: states) ↔
          onlyTrue? (values.take size) = some state ∧
            ofAssignment? sizes (values.drop size) = some states := by
        simp [ofAssignment?, Option.bind_eq_some_iff]
      have hblocks (hlt : state < size) :
          [state] ++ (stateIndices 0 sizes states).map (· + size) = Oracle.trueIndices values ↔
            [state] = Oracle.trueIndices (values.take size) ∧
              stateIndices 0 sizes states = Oracle.trueIndices (values.drop size) :=
        Oracle.append_eq_trueIndices_iff hle (by simpa using hlt)
      rw [hof, onlyTrue?_eq_some_iff, ih hrest, stateIndices_cons]
      constructor
      · rintro ⟨htrue, hstates, hi⟩
        have hmem : state ∈ Oracle.trueIndices (values.take size) := by simp [htrue]
        have hlt : state < size := Oracle.lt_of_mem_trueIndices_take hmem
        exact ⟨List.Forall₂.cons hlt hstates, (hblocks hlt).mpr ⟨htrue.symm, hi⟩⟩
      · rintro ⟨hstates, hi⟩
        obtain ⟨hlt, hstates⟩ := List.forall₂_cons.mp hstates
        obtain ⟨htrue, hi⟩ := (hblocks hlt).mp hi
        exact ⟨htrue.symm, hstates, hi⟩

theorem isJointState_zeros {sizes : List ℕ} (h : ∀ size ∈ sizes, 0 < size) :
    IsJointState sizes (sizes.map fun _ => 0) := by
  induction sizes with
  | nil => exact List.Forall₂.nil
  | cons size sizes ih =>
    exact List.Forall₂.cons (h size List.mem_cons_self)
      (ih fun s hs => h s (List.mem_cons_of_mem _ hs))

theorem isJointState_maximize {β : Type} [Scalar β] {sizes : List ℕ}
    (h : ∀ size ∈ sizes, 0 < size) (scores additional : List β) :
    IsJointState sizes ((oracle sizes).maximize scores additional).1 := by
  change IsJointState sizes ((Extremum.firstBest? (score sizes scores additional)
    (jointStates sizes)).getD (sizes.map fun _ => 0, lowest)).1
  cases hbest : Extremum.firstBest? (score sizes scores additional) (jointStates sizes) with
  | none => exact isJointState_zeros h
  | some best => exact mem_jointStates.mp (Extremum.mem_of_firstBest? hbest)

theorem jointStates_ne_nil {sizes : List ℕ} (h : ∀ size ∈ sizes, 0 < size) :
    jointStates sizes ≠ [] :=
  List.ne_nil_of_mem (mem_jointStates.mpr (isJointState_zeros h))

theorem isFirstBest_maximize {sizes : List ℕ} (h : ∀ size ∈ sizes, 0 < size)
    (scores additional : List α) :
    ∃ states, (oracle sizes).maximize scores additional =
        (states, score sizes scores additional states) ∧
      Extremum.IsFirstBest (score sizes scores additional) (jointStates sizes) states := by
  obtain ⟨states, hbest, hfirst⟩ :=
    Extremum.exists_isFirstBest (score sizes scores additional) (jointStates_ne_nil h)
  exact ⟨states, by simp [oracle, hbest], hfirst⟩

theorem exists_maximize {sizes : List ℕ} (h : ∀ size ∈ sizes, 0 < size)
    (scores additional : List α) :
    ∃ states, IsJointState sizes states ∧
      (oracle sizes).maximize scores additional =
        (states, score sizes scores additional states) ∧
      ∀ states', IsJointState sizes states' →
        score sizes scores additional states' ≤ score sizes scores additional states := by
  obtain ⟨states, hm, hfirst⟩ := isFirstBest_maximize h scores additional
  exact ⟨states, mem_jointStates.mp hfirst.mem, hm,
    fun states' hs => hfirst.le states' (mem_jointStates.mpr hs)⟩

theorem lawful {sizes : List ℕ} (h : ∀ size ∈ sizes, 0 < size) :
    (oracle sizes : Oracle α (List ℕ)).Lawful (IsJointState sizes) where
  pairwise_trueVariables hc := pairwise_stateIndices hc
  trueVariables_lt hc := stateIndices_lt hc
  ofAssignment?_eq_some_iff hv := ofAssignment?_eq_some_iff hv
  score_eq _ := by simp [oracle, score, Oracle.scoreAt_zeros]
  score_zeros _ := by simp [oracle, score, Oracle.scoreAt_zeros]
  isConfiguration_maximize _ _ := isJointState_maximize h _ _
  maximize_value {scores additional} _ _ := by
    obtain ⟨states, _, hm, _⟩ := exists_maximize h scores additional
    rw [hm]
    rfl
  score_le {scores additional c} _ _ hc := by
    obtain ⟨states, _, hm, hmax⟩ := exists_maximize h scores additional
    rw [hm]
    exact hmax c hc

theorem foldl_digits {sizes states : List ℕ} (h : IsJointState sizes states) (index : ℕ) :
    (List.zipWith Prod.mk states sizes).foldl (fun index digit => index * digit.2 + digit.1) index =
      index * numJointStates sizes + jointIndex sizes states := by
  induction h generalizing index with
  | nil => simp [numJointStates, jointIndex]
  | @cons state size states sizes _ _ ih =>
    have hindex : jointIndex (size :: sizes) (state :: states) =
        (0 * size + state) * numJointStates sizes + jointIndex sizes states := ih (0 * size + state)
    have hnumber : numJointStates (size :: sizes) = size * numJointStates sizes := rfl
    rw [List.zipWith_cons_cons, List.foldl_cons, ih, hindex, hnumber]
    ring

theorem jointIndex_cons {size state : ℕ} {sizes states : List ℕ} (h : IsJointState sizes states) :
    jointIndex (size :: sizes) (state :: states) =
      state * numJointStates sizes + jointIndex sizes states := by
  have hindex : jointIndex (size :: sizes) (state :: states) =
      (0 * size + state) * numJointStates sizes + jointIndex sizes states :=
    foldl_digits h (0 * size + state)
  rwa [Nat.zero_mul, Nat.zero_add] at hindex

theorem jointIndex_lt {sizes states : List ℕ} (h : IsJointState sizes states) :
    jointIndex sizes states < numJointStates sizes := by
  induction h with
  | nil => exact Nat.one_pos
  | @cons state size states sizes hlt hrest ih =>
    calc jointIndex (size :: sizes) (state :: states)
        = state * numJointStates sizes + jointIndex sizes states := jointIndex_cons hrest
      _ < state * numJointStates sizes + numJointStates sizes := Nat.add_lt_add_left ih _
      _ = (state + 1) * numJointStates sizes := (Nat.succ_mul _ _).symm
      _ ≤ size * numJointStates sizes := Nat.mul_le_mul_right _ hlt

theorem count_zipWith_eq_countP {sizes first second : List ℕ} (hfirst : IsJointState sizes first)
    (hsecond : IsJointState sizes second) :
    (List.zipWith (· == ·) first second).count true =
      (stateIndices 0 sizes first).countP (· ∈ stateIndices 0 sizes second) := by
  induction hfirst generalizing second with
  | nil => simp [stateIndices]
  | @cons state size first sizes hlt _ ih =>
    obtain ⟨state', second, hlt', hrest, rfl⟩ := List.forall₂_cons_left_iff.mp hsecond.flip
    have hlow (s : ℕ) (hs : s < size) (i : ℕ) (hi : i ∈ [s]) : i < size :=
      List.mem_singleton.mp hi ▸ hs
    rw [stateIndices_cons, stateIndices_cons,
      Oracle.countP_mem_append_map_add (hlow _ hlt) (hlow _ hlt'), List.zipWith_cons_cons,
      List.count_cons, ih hrest.flip, Nat.add_comm]
    congr 1
    simp [List.countP_cons]

theorem hasTrueIndices {sizes : List ℕ} (h : ∀ size ∈ sizes, 0 < size) :
    (oracle sizes : Oracle α (List ℕ)).HasTrueIndices (IsJointState sizes)
      fun states => [jointIndex sizes states] where
  toLawful := lawful h
  accumulate_eq _ _ _ := rfl
  nodup_trueAdditionals _ := List.nodup_singleton _
  trueAdditionals_lt hc i hi := List.mem_singleton.mp hi ▸ jointIndex_lt hc
  score_zeros_eq _ := by simp [oracle, score, Oracle.scoreAt_zeros]
  common_eq hc hd := count_zipWith_eq_countP hc hd

end Dense
end MapInference
