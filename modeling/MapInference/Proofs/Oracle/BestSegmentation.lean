import MapInference.Proofs.Oracle.Feasible

/-!
# Best segmentations

A set of intervals of which no two have a position in common is the set of the segments of a
segmentation, which lists them in ascending order. Its score counts, besides the intervals, a
transition for every one that starts right behind another. The oracle finds a set with the greatest
score, and following the notes of its table back from the whole sequence ends at the empty prefix.
-/

namespace MapInference.Segmentation

open Scalar

variable {length : ℕ}

def ofSet (length : ℕ) (S : Finset (ℕ × ℕ)) : List (ℕ × ℕ) :=
  (intervals length).filter (· ∈ S)

theorem mem_ofSet {S : Finset (ℕ × ℕ)} {p : ℕ × ℕ} :
    p ∈ ofSet length S ↔ (p.1 ≤ p.2 ∧ p.2 < length) ∧ p ∈ S := by
  simp [ofSet, List.mem_filter, mem_intervals]

theorem toFinset_ofSet {S : Finset (ℕ × ℕ)} (h : ∀ p ∈ S, p.1 ≤ p.2 ∧ p.2 < length) :
    (ofSet length S).toFinset = S := by
  ext p
  rw [List.mem_toFinset, mem_ofSet]
  exact ⟨And.right, fun hp => ⟨h p hp, hp⟩⟩

theorem lt_or_lt_of_disjoint {p q : ℕ × ℕ} (hp : p.1 ≤ p.2) (hq : q.1 ≤ q.2)
    (h : Disjoint (Finset.Icc p.1 p.2) (Finset.Icc q.1 q.2)) : p.2 < q.1 ∨ q.2 < p.1 := by
  by_contra hmeet
  push Not at hmeet
  have hfirst : max p.1 q.1 ∈ Finset.Icc p.1 p.2 :=
    Finset.mem_Icc.mpr ⟨le_max_left _ _, max_le hp hmeet.1⟩
  have hsecond : max p.1 q.1 ∈ Finset.Icc q.1 q.2 :=
    Finset.mem_Icc.mpr ⟨le_max_right _ _, max_le hmeet.2 hq⟩
  exact Finset.disjoint_left.mp h hfirst hsecond

theorem isSegmentation_ofSet {S : Finset (ℕ × ℕ)}
    (h : (S : Set (ℕ × ℕ)).PairwiseDisjoint fun p => Finset.Icc p.1 p.2) :
    IsSegmentation length (ofSet length S) := by
  refine ⟨fun hp => (mem_ofSet.mp hp).1, ?_⟩
  have hpairwise := (pairwise_intervals length).sublist
    (List.filter_sublist (l := intervals length) (p := (· ∈ S)))
  refine hpairwise.imp_of_mem fun {p q} hp hq hindex => ?_
  obtain ⟨⟨hple, hplt⟩, hpS⟩ := mem_ofSet.mp hp
  obtain ⟨⟨hqle, _⟩, hqS⟩ := mem_ofSet.mp hq
  have hne : p ≠ q := fun heq => hindex.ne (by rw [heq])
  exact lt_of_intervalIndex_lt hple hplt hqle hindex
    (lt_or_lt_of_disjoint hple hqle (h hpS hqS hne))

variable {α : Type} [ExactScalar α] {scores additional : List α}

def scoreIn (length : ℕ) (scores additional : List α) (S : Finset (ℕ × ℕ)) (p : ℕ × ℕ) : α :=
  coordinate scores (intervalIndex length p.1 p.2) +
    if ∃ q ∈ S, q.2 + 1 = p.1 then coordinate additional (transitionIndex length p.1 p.2) else 0

def scoreOfSet (length : ℕ) (scores additional : List α) (S : Finset (ℕ × ℕ)) : α :=
  ∑ p ∈ S, scoreIn length scores additional S p

/-- The segment of a prefix that ends right in front of a position is its last one. -/
theorem follows_lastStop?_iff {start : ℕ} {rest : List (ℕ × ℕ)} (h : IsPrefix start rest) :
    follows (lastStop? rest) start = true ↔ ∃ q ∈ rest, q.2 + 1 = start := by
  cases rest with
  | nil => simp [follows, lastStop?]
  | cons r rest =>
    have hr := h.mem List.mem_cons_self
    have hearlier (q : ℕ × ℕ) (hq : q ∈ rest) : q.2 < r.1 :=
      (List.pairwise_cons.mp h.pairwise).1 q hq
    simp only [follows, lastStop?, List.head?_cons, Option.map_some, Bool.and_eq_true,
      decide_eq_true_eq, beq_iff_eq, Option.some.injEq, List.mem_cons, exists_eq_or_imp]
    constructor
    · exact fun hlast => Or.inl (by omega)
    · rintro (hlast | ⟨q, hq, hlast⟩)
      · omega
      · have := hearlier q hq
        omega

/-- A segment behind all others adds the same as in the score of the list, and the others add what
they did without it. -/
theorem reversedScore_eq_scoreOfSet {n : ℕ} {segments : List (ℕ × ℕ)} (h : IsPrefix n segments) :
    reversedScore length scores additional segments =
      scoreOfSet length scores additional segments.toFinset := by
  induction segments generalizing n with
  | nil => rfl
  | cons p rest ih =>
    obtain ⟨hlast, hpairwise⟩ := List.pairwise_cons.mp h.pairwise
    have hp := h.mem List.mem_cons_self
    have hrest : IsPrefix p.1 rest :=
      ⟨fun hq => ⟨(h.mem (List.mem_cons_of_mem _ hq)).1, hlast _ hq⟩, hpairwise⟩
    have hnot : p ∉ rest.toFinset := fun hmem =>
      absurd (hlast p (List.mem_toFinset.mp hmem)) (not_lt.mpr hp.1)
    have hnew : scoreIn length scores additional (insert p rest.toFinset) p =
        segmentScore length scores additional (lastStop? rest) p := by
      have hself : p.2 + 1 ≠ p.1 := by omega
      simp only [scoreIn, segmentScore, follows_lastStop?_iff hrest, Finset.mem_insert,
        exists_eq_or_imp, hself, false_or, List.mem_toFinset]
    have hold (q : ℕ × ℕ) (hq : q ∈ rest.toFinset) :
        scoreIn length scores additional (insert p rest.toFinset) q =
          scoreIn length scores additional rest.toFinset q := by
      have hq := List.mem_toFinset.mp hq
      have hlater : p.2 + 1 ≠ q.1 := by
        have := hrest.mem hq
        omega
      simp only [scoreIn, Finset.mem_insert, exists_eq_or_imp, hlater, false_or]
    rw [reversedScore, ih hrest, List.toFinset_cons, scoreOfSet, scoreOfSet,
      Finset.sum_insert hnot, hnew, Finset.sum_congr rfl hold, add_comm]

theorem score_eq_scoreOfSet {segments : List (ℕ × ℕ)} (h : IsSegmentation length segments) :
    score length scores additional segments =
      scoreOfSet length scores additional segments.toFinset := by
  rw [score_eq_reversedScore, reversedScore_eq_scoreOfSet (isPrefix_reverse_iff.mpr h),
    List.toFinset_reverse]

/-- The segments that are found are disjoint intervals in ascending order, their score is the value,
and no set of disjoint intervals has a larger one. They are read off the notes on the way from the
whole sequence back to the empty prefix. -/
theorem segmentation_optimal (length : ℕ) (scores additional : List α) :
    let o : Oracle α (List (ℕ × ℕ)) := oracle length
    let answer := o.maximize scores additional
    let rows := table length scores additional length
    IsSegmentation length answer.1 ∧
      answer.2 = o.score scores additional answer.1 ∧
      answer.2 = scoreOfSet length scores additional answer.1.toFinset ∧
      (∀ S : Finset (ℕ × ℕ), (∀ p ∈ S, p.1 ≤ p.2 ∧ p.2 < length) →
        (S : Set (ℕ × ℕ)).PairwiseDisjoint (fun p => Finset.Icc p.1 p.2) →
          scoreOfSet length scores additional S ≤ answer.2) ∧
      ∃ closed, IsWalk rows 0 length closed (walk rows length length closed) ∧
        answer.1 = ((walk rows length length closed).filterMap Origin.segment?).reverse := by
  intro o answer rows
  obtain ⟨segments, hanswer, hvalid, hmax⟩ := exists_maximize length scores additional
  obtain ⟨closed, e, he, hwalk, _⟩ := exists_maximize_eq length scores additional
  have hsegments : answer.1 = segments := congrArg Prod.fst hanswer
  have hvalue : answer.2 = score length scores additional segments := congrArg Prod.snd hanswer
  rw [hsegments, hvalue]
  refine ⟨hvalid, rfl, score_eq_scoreOfSet hvalid, fun S hS hdisjoint => ?_, closed, ?_, ?_⟩
  · have hset : IsSegmentation length (ofSet length S) := isSegmentation_ofSet hdisjoint
    rw [← toFinset_ofSet hS, ← score_eq_scoreOfSet hset]
    exact hmax _ hset
  · exact isWalk_walk (isTable_table length) he le_rfl
  · exact hsegments.symm.trans (congrArg Prod.fst hwalk)

theorem segmentation_optimal_threePositions :
    (oracle 3 : Oracle ℚ _).maximize [1, 3, 3, 1, 1, 2] [-1, 0, 1] = ([(0, 1), (2, 2)], 6) ∧
      ((({(0, 0), (1, 1), (2, 2)} : Finset (ℕ × ℕ)) : Set (ℕ × ℕ)).PairwiseDisjoint
        fun p => Finset.Icc p.1 p.2) ∧
      scoreOfSet 3 ([1, 3, 3, 1, 1, 2] : List ℚ) [-1, 0, 1] {(0, 0), (1, 1), (2, 2)} ≤ 6 ∧
      ∃ closed, IsWalk (table 3 ([1, 3, 3, 1, 1, 2] : List ℚ) [-1, 0, 1] 3) 0 3 closed
        (walk (table 3 ([1, 3, 3, 1, 1, 2] : List ℚ) [-1, 0, 1] 3) 3 3 closed) := by
  have hanswer : (oracle 3 : Oracle ℚ _).maximize [1, 3, 3, 1, 1, 2] [-1, 0, 1] =
      ([(0, 1), (2, 2)], 6) := by
    decide +kernel
  have hpairs : ∀ p ∈ ({(0, 0), (1, 1), (2, 2)} : Finset (ℕ × ℕ)),
      ∀ q ∈ ({(0, 0), (1, 1), (2, 2)} : Finset (ℕ × ℕ)),
        p ≠ q → Disjoint (Finset.Icc p.1 p.2) (Finset.Icc q.1 q.2) := by
    decide
  have hdisjoint : (({(0, 0), (1, 1), (2, 2)} : Finset (ℕ × ℕ)) : Set (ℕ × ℕ)).PairwiseDisjoint
      fun p => Finset.Icc p.1 p.2 := fun p hp q hq hne => hpairs p hp q hq hne
  obtain ⟨_, _, _, hmax, closed, hwalk, _⟩ :=
    segmentation_optimal 3 ([1, 3, 3, 1, 1, 2] : List ℚ) [-1, 0, 1]
  rw [hanswer] at hmax
  exact ⟨hanswer, hdisjoint, hmax _ (by decide) hdisjoint, closed, hwalk⟩

end MapInference.Segmentation
