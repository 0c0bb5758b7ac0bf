import MapInference.Proofs.Oracle.Indicators
import MapInference.Oracle.Knapsack

/-!
# The laws of knapsacks

After `k` items, the table holds the best score of a selection from the first `k` items for every
capacity, and reading its notes from the last item on finds such a selection. One more item keeps
this, since a selection either leaves the item out or consists of the item and a selection for the
capacity that is left. That the notes lead to a selection within the capacity does not depend on the
arithmetic of the scores.
-/

namespace MapInference.Knapsack

open Scalar

@[simp] theorem cost_nil (costs : List ℕ) : cost costs [] = 0 := rfl

@[simp] theorem cost_cons (costs : List ℕ) (i : ℕ) (items : List ℕ) :
    cost costs (i :: items) = costs[i]?.getD 0 + cost costs items := rfl

theorem cost_reverse (costs items : List ℕ) : cost costs items.reverse = cost costs items := by
  simp only [cost, List.map_reverse, ← List.sum_eq_foldr, List.sum_reverse]

structure IsPart (costs : List ℕ) (k capacity : ℕ) (items : List ℕ) : Prop where
  descending : items.Pairwise (· > ·)
  lt : ∀ i ∈ items, i < k
  cost_le : cost costs items ≤ capacity

theorem isPart_nil (costs : List ℕ) (k capacity : ℕ) : IsPart costs k capacity [] :=
  ⟨List.Pairwise.nil, by simp, Nat.zero_le _⟩

theorem IsPart.mono {costs items : List ℕ} {k k' capacity : ℕ}
    (h : IsPart costs k capacity items) (hk : k ≤ k') : IsPart costs k' capacity items :=
  ⟨h.descending, fun i hi => (h.lt i hi).trans_le hk, h.cost_le⟩

theorem IsPart.cons {costs items : List ℕ} {k capacity cost : ℕ} (hc : costs[k]? = some cost)
    (hle : cost ≤ capacity) (h : IsPart costs k (capacity - cost) items) :
    IsPart costs (k + 1) capacity (k :: items) := by
  refine ⟨List.pairwise_cons.mpr ⟨h.lt, h.descending⟩, ?_, ?_⟩
  · intro i hi
    rcases List.mem_cons.mp hi with rfl | hi
    · exact Nat.lt_succ_self _
    · exact Nat.lt_succ_of_lt (h.lt i hi)
  · have := h.cost_le
    simp only [cost_cons, hc, Option.getD_some]
    omega

/-- A selection from one more item leaves the item out or consists of it and a smaller one. -/
theorem IsPart.succ_cases {costs items : List ℕ} {k capacity cost : ℕ}
    (hc : costs[k]? = some cost) (h : IsPart costs (k + 1) capacity items) :
    IsPart costs k capacity items ∨
      ∃ rest, items = k :: rest ∧ cost ≤ capacity ∧ IsPart costs k (capacity - cost) rest := by
  cases items with
  | nil => exact Or.inl (isPart_nil _ _ _)
  | cons i rest =>
    obtain ⟨hi, hrest⟩ := List.pairwise_cons.mp h.descending
    have hik : i < k + 1 := h.lt i List.mem_cons_self
    have hcost := h.cost_le
    rcases Nat.lt_succ_iff_lt_or_eq.mp hik with hlt | rfl
    · refine Or.inl ⟨h.descending, ?_, hcost⟩
      intro j hj
      rcases List.mem_cons.mp hj with rfl | hj
      · exact hlt
      · exact (hi j hj).trans hlt
    · simp only [cost_cons, hc, Option.getD_some] at hcost
      exact Or.inr ⟨rest, rfl, by omega, hrest, hi, by omega⟩

section Tables

variable {α : Type} [Scalar α]

namespace Table

/-- What is chosen for a capacity when an item is added: the item is out of the question, or is
compared with doing without it. -/
theorem choices_cases {best : List α} {cost c : ℕ} {score : α} {entry : α × Bool}
    (h : (choices best cost score)[c]? = some entry) :
    ∃ current, best[c]? = some current ∧
      ((score ≤ 0 ∨ c < cost) ∧ entry = (current, false) ∨
        cost ≤ c ∧ ∃ smaller, best[c - cost]? = some smaller ∧
          entry = choose score smaller current) := by
  unfold choices at h
  split_ifs at h with hs
  · obtain ⟨current, hcurrent, rfl⟩ := Option.map_eq_some_iff.mp (List.getElem?_map ▸ h)
    exact ⟨current, hcurrent, Or.inl ⟨Or.inl hs, rfl⟩⟩
  · by_cases hc : c < cost
    · have hl : c < ((best.take cost).map fun current => (current, false)).length := by
        by_contra hge
        simp only [List.length_map, List.length_take] at hge
        rw [List.getElem?_append_right (by simp; omega)] at h
        have := (List.getElem?_eq_some_iff.mp h).1
        simp only [List.length_zipWith, List.length_drop] at this
        omega
      rw [List.getElem?_append_left hl, List.getElem?_map, List.getElem?_take_of_lt hc] at h
      obtain ⟨current, hcurrent, rfl⟩ := Option.map_eq_some_iff.mp h
      exact ⟨current, hcurrent, Or.inl ⟨Or.inr hc, rfl⟩⟩
    · have hc : cost ≤ c := not_lt.mp hc
      rw [List.getElem?_append_right (by simp; omega), List.getElem?_zipWith_eq_some] at h
      obtain ⟨smaller, current, hsmall, hcurrent, rfl⟩ := h
      have hl : ((best.take cost).map fun current => (current, false)).length = cost := by
        have := (List.getElem?_eq_some_iff.mp hcurrent).1
        simp only [List.length_map, List.length_take, List.length_drop] at this ⊢
        omega
      rw [hl] at hsmall hcurrent
      rw [List.getElem?_drop, Nat.add_sub_cancel' hc] at hcurrent
      exact ⟨current, hcurrent, Or.inr ⟨hc, smaller, hsmall, rfl⟩⟩

theorem length_taken_ofItems (capacity : ℕ) (items : List (ℕ × α)) :
    (ofItems capacity items).taken.length = items.length := by
  induction items using List.reverseRecOn with
  | nil => rfl
  | append_singleton items item ih => simp [ofItems_concat, ih]

/-- How the best score and the selection for a capacity arise when an item is added: the selection
stays as it is, and the item could not improve on it, or the item is put in front of the selection
for what it leaves of the capacity. -/
theorem add_cases {costs : List ℕ} {t : Table α} {item : ℕ × α} {c : ℕ} {s : α}
    (hcost : costs[t.taken.length]? = some item.1) (h : (t.add item).best[c]? = some s) :
    (t.best[c]? = some s ∧ backtrack costs c (t.add item).taken = backtrack costs c t.taken ∧
        (item.2 ≤ 0 ∨ c < item.1 ∨
          ∃ smaller, t.best[c - item.1]? = some smaller ∧ ¬ s < smaller + item.2)) ∨
      item.1 ≤ c ∧ ∃ smaller current, t.best[c - item.1]? = some smaller ∧
        t.best[c]? = some current ∧ current < smaller + item.2 ∧ s = smaller + item.2 ∧
        backtrack costs c (t.add item).taken =
          (t.taken.length, c) :: backtrack costs (c - item.1) t.taken := by
  obtain ⟨⟨_, flag⟩, hentry, rfl⟩ :=
    Option.map_eq_some_iff.mp ((List.getElem?_map (f := Prod.fst)).symm.trans h)
  have hrow : ((choices t.best item.1 item.2).map (·.2))[c]? = some flag := by
    rw [List.getElem?_map, hentry, Option.map_some]
  have hwalk : backtrack costs c (t.add item).taken =
      if flag then (t.taken.length, c) :: backtrack costs (c - item.1) t.taken
      else backtrack costs c t.taken := by
    rw [taken_add, backtrack, hrow, hcost]
    rfl
  obtain ⟨current, hcurrent, ⟨hout, heq⟩ | ⟨hle, smaller, hsmall, heq⟩⟩ := choices_cases hentry
  · obtain ⟨rfl, rfl⟩ := Prod.mk.inj heq
    exact Or.inl ⟨hcurrent, hwalk, hout.imp_right Or.inl⟩
  · unfold choose at heq
    split_ifs at heq with hlt
    · obtain ⟨rfl, rfl⟩ := Prod.mk.inj heq
      exact Or.inr ⟨hle, smaller, current, hsmall, hcurrent, hlt, rfl, hwalk⟩
    · obtain ⟨rfl, rfl⟩ := Prod.mk.inj heq
      exact Or.inl ⟨hcurrent, hwalk, Or.inr (Or.inr ⟨smaller, hsmall, hlt⟩)⟩

/-- The notes of a table lead to selections from its items within the capacities, and no item that
they take costs more than what remains. -/
structure HoldsParts (costs : List ℕ) (t : Table α) : Prop where
  isPart {c : ℕ} : c < t.best.length → IsPart costs t.taken.length c (t.selection costs c)
  cost_le {c : ℕ} {p : ℕ × ℕ} : c < t.best.length → p ∈ backtrack costs c t.taken →
    ∃ cost, costs[p.1]? = some cost ∧ cost ≤ p.2

theorem holdsParts_start (costs : List ℕ) (capacity : ℕ) :
    (start capacity : Table α).HoldsParts costs :=
  ⟨fun _ => isPart_nil _ _ _, fun _ hp => absurd hp List.not_mem_nil⟩

theorem HoldsParts.add {costs : List ℕ} {t : Table α} {item : ℕ × α} (h : t.HoldsParts costs)
    (hcost : costs[t.taken.length]? = some item.1) : (t.add item).HoldsParts costs := by
  have hlen : (t.add item).taken.length = t.taken.length + 1 := rfl
  have hentry {c : ℕ} (hc : c < (t.add item).best.length) :
      (t.add item).best[c]? = some (t.add item).best[c] := List.getElem?_eq_getElem hc
  constructor
  · intro c hc
    have hc' : c < t.best.length := by simpa using hc
    rw [hlen, selection]
    rcases add_cases hcost (hentry hc) with ⟨_, hwalk, _⟩ | ⟨hle, _, _, _, _, _, _, hwalk⟩
    · rw [hwalk]
      exact (h.isPart hc').mono (Nat.le_succ _)
    · rw [hwalk, List.map_cons]
      exact (h.isPart ((Nat.sub_le _ _).trans_lt hc')).cons hcost hle
  · intro c p hc hp
    have hc' : c < t.best.length := by simpa using hc
    rcases add_cases hcost (hentry hc) with ⟨_, hwalk, _⟩ | ⟨hle, _, _, _, _, _, _, hwalk⟩
    · exact h.cost_le hc' (hwalk ▸ hp)
    · rcases List.mem_cons.mp (hwalk ▸ hp) with rfl | hp
      · exact ⟨item.1, hcost, hle⟩
      · exact h.cost_le ((Nat.sub_le _ _).trans_lt hc') hp

theorem holdsParts_ofItems {costs : List ℕ} (capacity : ℕ) {items : List (ℕ × α)}
    (h : ∀ (k : ℕ) (p : ℕ × α), items[k]? = some p → costs[k]? = some p.1) :
    (ofItems capacity items).HoldsParts costs := by
  induction items using List.reverseRecOn with
  | nil => exact holdsParts_start costs capacity
  | append_singleton items item ih =>
    rw [ofItems_concat]
    refine (ih fun k p hk => h k p ?_).add ?_
    · rwa [List.getElem?_append_left (List.getElem?_eq_some_iff.mp hk).1]
    · rw [length_taken_ofItems]
      exact h items.length item (by simp)

end Table

omit [Scalar α] in
theorem of_getElem?_zipWith {costs : List ℕ} {scores : List α} {k : ℕ} {p : ℕ × α}
    (h : (List.zipWith Prod.mk costs scores)[k]? = some p) :
    costs[k]? = some p.1 ∧ scores[k]? = some p.2 := by
  obtain ⟨cost, score, hcost, hscore, rfl⟩ := List.getElem?_zipWith_eq_some.mp h
  exact ⟨hcost, hscore⟩

structure IsSelection (costs : List ℕ) (capacity : ℕ) (items : List ℕ) : Prop where
  ascending : items.Pairwise (· < ·)
  lt : ∀ i ∈ items, i < costs.length
  cost_le : cost costs items ≤ capacity

theorem isPart_reverse_iff {costs items : List ℕ} {capacity : ℕ} :
    IsPart costs costs.length capacity items.reverse ↔ IsSelection costs capacity items := by
  constructor
  · intro h
    refine ⟨?_, fun i hi => h.lt i (List.mem_reverse.mpr hi), ?_⟩
    · exact List.pairwise_reverse.mp h.descending
    · rw [← cost_reverse]
      exact h.cost_le
  · intro h
    refine ⟨List.pairwise_reverse.mpr h.ascending, fun i hi => h.lt i (List.mem_reverse.mp hi), ?_⟩
    rw [cost_reverse]
    exact h.cost_le

theorem holdsParts_table (costs : List ℕ) (capacity : ℕ) (scores : List α) :
    (table costs capacity scores).HoldsParts costs :=
  Table.holdsParts_ofItems capacity fun _ _ h => (of_getElem?_zipWith h).1

theorem lt_length_best_table (costs : List ℕ) (capacity : ℕ) (scores : List α) :
    capacity < (table costs capacity scores).best.length := by
  simp [table]

theorem length_taken_table (costs : List ℕ) (capacity : ℕ) (scores : List α) :
    (table costs capacity scores).taken.length = min costs.length scores.length := by
  rw [table, Table.length_taken_ofItems, List.length_zipWith]

theorem isSelection_maximize (costs : List ℕ) (capacity : ℕ) (scores : List α) :
    IsSelection costs capacity (maximize costs capacity scores).1 := by
  have hpart : IsPart costs (min costs.length scores.length) capacity
      ((table costs capacity scores).selection costs capacity) := by
    rw [← length_taken_table costs capacity scores]
    exact (holdsParts_table costs capacity scores).isPart
      (lt_length_best_table costs capacity scores)
  rw [maximize, ← isPart_reverse_iff, List.reverse_reverse]
  exact hpart.mono (Nat.min_le_left _ _)

/-- What remains when an item is taken is the capacity less the cost of the items taken before it,
as long as no item costs more than what remains. -/
theorem remaining_add_cost {costs : List ℕ} {rows : List (List Bool)} {c : ℕ}
    (hle : ∀ p ∈ backtrack costs c rows, ∃ cost, costs[p.1]? = some cost ∧ cost ≤ p.2)
    {front rest : List (ℕ × ℕ)} {p : ℕ × ℕ} (h : backtrack costs c rows = front ++ p :: rest) :
    p.2 + cost costs (front.map (·.1)) = c := by
  induction rows generalizing c front with
  | nil => exact absurd h (by simp [backtrack])
  | cons row rows ih =>
    rw [backtrack] at h hle
    split_ifs at h hle
    · cases front with
      | nil =>
        obtain ⟨rfl, _⟩ := List.cons.inj h
        exact Nat.add_zero c
      | cons q front =>
        obtain ⟨rfl, htail⟩ := List.cons.inj h
        obtain ⟨cost, hcost, hfits⟩ := hle _ List.mem_cons_self
        have hrest := ih (fun p hp => hle p (List.mem_cons_of_mem _ hp)) htail
        simp only [hcost, Option.getD_some] at hrest hfits
        rw [List.map_cons, cost_cons, hcost, Option.getD_some]
        omega
    · exact ih hle h

theorem cost_le_of_mem_backtrack {costs : List ℕ} {capacity : ℕ} {scores : List α} {p : ℕ × ℕ}
    (h : p ∈ backtrack costs capacity (table costs capacity scores).taken) :
    ∃ cost, costs[p.1]? = some cost ∧ cost ≤ p.2 :=
  (holdsParts_table costs capacity scores).cost_le (lt_length_best_table costs capacity scores) h

end Tables

variable {α : Type} [ExactScalar α]

namespace Table

/-- For every capacity a table holds the score of its selection, and no selection from its items is
better. -/
structure IsBest (costs : List ℕ) (scores : List α) (t : Table α) : Prop where
  score_eq {c : ℕ} {s : α} : t.best[c]? = some s →
    s = Oracle.scoreAt (t.selection costs c) scores
  score_le {c : ℕ} {s : α} {items : List ℕ} : t.best[c]? = some s →
    IsPart costs t.taken.length c items → Oracle.scoreAt items scores ≤ s

theorem isBest_start (costs : List ℕ) (scores : List α) (capacity : ℕ) :
    (start capacity).IsBest costs scores := by
  have hzero {c : ℕ} {s : α} (h : (start capacity : Table α).best[c]? = some s) : s = 0 :=
    List.eq_of_mem_replicate (List.mem_of_getElem? h)
  refine ⟨fun h => ?_, fun h hp => ?_⟩
  · simp [hzero h, selection, backtrack, start]
  · rename_i items
    cases items with
    | nil => simp [hzero h]
    | cons i items => exact absurd (hp.lt i List.mem_cons_self) (Nat.not_lt_zero i)

theorem IsBest.add {costs : List ℕ} {scores : List α} {t : Table α} {item : ℕ × α}
    (h : t.IsBest costs scores) (hcost : costs[t.taken.length]? = some item.1)
    (hscore : scores[t.taken.length]? = some item.2) : (t.add item).IsBest costs scores := by
  have hitem : coordinate scores t.taken.length = item.2 := by simp [coordinate, hscore]
  constructor
  · intro c s hs
    rw [selection]
    rcases add_cases hcost hs with ⟨hcur, hwalk, _⟩ | ⟨_, smaller, _, hsmall, _, _, rfl, hwalk⟩
    · rw [hwalk]
      exact h.score_eq hcur
    · rw [hwalk, List.map_cons, Oracle.scoreAt_cons, hitem, h.score_eq hsmall, add_comm, selection]
  · intro c s items hs hp
    have hp : IsPart costs (t.taken.length + 1) c items := hp
    rcases add_cases hcost hs with
      ⟨hcur, _, hout⟩ | ⟨_, smaller, current, hsmall, hcur, hlt, rfl, _⟩
    · rcases hp.succ_cases hcost with hp | ⟨rest, rfl, hle, hrest⟩
      · exact h.score_le hcur hp
      rw [Oracle.scoreAt_cons, hitem]
      rcases hout with hneg | hlarge | ⟨smaller, hsmall, hnot⟩
      -- An item that is worth nothing can as well be left out.
      · have hpart : IsPart costs t.taken.length c rest :=
          ⟨hrest.descending, hrest.lt, hrest.cost_le.trans (Nat.sub_le _ _)⟩
        have := h.score_le hcur hpart
        linarith
      · omega
      · have := h.score_le hsmall hrest
        linarith [not_lt.mp hnot]
    · rcases hp.succ_cases hcost with hp | ⟨rest, rfl, _, hrest⟩
      · exact (h.score_le hcur hp).trans hlt.le
      · have := h.score_le hsmall hrest
        rw [Oracle.scoreAt_cons, hitem]
        linarith

theorem isBest_ofItems {costs : List ℕ} {scores : List α} (capacity : ℕ) {items : List (ℕ × α)}
    (h : ∀ (k : ℕ) (p : ℕ × α), items[k]? = some p →
      costs[k]? = some p.1 ∧ scores[k]? = some p.2) :
    (ofItems capacity items).IsBest costs scores := by
  induction items using List.reverseRecOn with
  | nil => exact isBest_start costs scores capacity
  | append_singleton items item ih =>
    have hlast : (items ++ [item])[items.length]? = some item := by simp
    rw [ofItems_concat]
    refine (ih fun k p hk => h k p ?_).add ?_ ?_
    · rwa [List.getElem?_append_left (List.getElem?_eq_some_iff.mp hk).1]
    · rw [length_taken_ofItems]
      exact (h _ _ hlast).1
    · rw [length_taken_ofItems]
      exact (h _ _ hlast).2

end Table

theorem exists_maximize {costs : List ℕ} {scores : List α} (hl : scores.length = costs.length)
    (capacity : ℕ) :
    ∃ items, maximize costs capacity scores = (items, Oracle.scoreAt items scores) ∧
      IsSelection costs capacity items ∧
      ∀ items', IsSelection costs capacity items' →
        Oracle.scoreAt items' scores ≤ Oracle.scoreAt items scores := by
  let t := table costs capacity scores
  have hbest : t.IsBest costs scores :=
    Table.isBest_ofItems capacity fun _ _ h => of_getElem?_zipWith h
  have hentry : t.best[capacity]? = some (coordinate t.best capacity) :=
    getElem?_eq_some_coordinate (lt_length_best_table costs capacity scores)
  have hscore : coordinate t.best capacity =
      Oracle.scoreAt (t.selection costs capacity).reverse scores := by
    rw [Oracle.scoreAt_reverse]
    exact hbest.score_eq hentry
  have hlen : t.taken.length = costs.length := by
    rw [length_taken_table, hl, Nat.min_self]
  refine ⟨(t.selection costs capacity).reverse, by rw [maximize, ← hscore],
    isSelection_maximize costs capacity scores, ?_⟩
  intro items' h'
  rw [← hscore, ← Oracle.scoreAt_reverse]
  refine hbest.score_le hentry ?_
  rw [hlen]
  exact isPart_reverse_iff.mpr h'

theorem ofAssignment?_eq_some_iff {costs : List ℕ} {capacity : ℕ} {values : List Bool}
    {items : List ℕ} (h : values.length = costs.length) :
    ofAssignment? costs capacity values = some items ↔
      IsSelection costs capacity items ∧ items = Oracle.trueIndices values := by
  unfold ofAssignment?
  constructor
  · intro ho
    dsimp only at ho
    split_ifs at ho with hc
    obtain rfl := Option.some.inj ho
    refine ⟨⟨Oracle.pairwise_trueIndices _, ?_, hc⟩, rfl⟩
    intro i hi
    rw [Oracle.mem_trueIndices] at hi
    exact h ▸ (List.getElem?_eq_some_iff.mp hi).1
  · rintro ⟨hs, rfl⟩
    exact if_pos hs.cost_le

theorem overflows_of_ofAssignment? {costs : List ℕ} {capacity : ℕ} {values : List Bool}
    {items : List ℕ} (h : ofAssignment? costs capacity values = some items)
    (hcapacity : capacity < Word.limit) : overflows costs values = false := by
  unfold ofAssignment? at h
  dsimp only at h
  split_ifs at h with hcost
  rw [overflows, Word.checked, if_pos (hcost.trans_lt hcapacity), Option.isNone_some]

theorem lawful (costs : List ℕ) (capacity : ℕ) :
    (oracle costs capacity : Oracle α (List ℕ)).Lawful (IsSelection costs capacity) where
  pairwise_trueVariables hc := hc.ascending
  trueVariables_lt hc := hc.lt
  ofAssignment?_eq_some_iff hv := ofAssignment?_eq_some_iff hv
  score_eq _ := by simp [oracle, Oracle.scoreAt_zeros]
  score_zeros _ := by simp [oracle, Oracle.scoreAt_zeros]
  isConfiguration_maximize _ _ := isSelection_maximize costs capacity _
  maximize_value {scores additional} hs _ := by
    obtain ⟨items, hm, _⟩ := exists_maximize hs capacity
    change (maximize costs capacity scores).2 =
      Oracle.scoreAt (maximize costs capacity scores).1 scores
    rw [hm]
  score_le {scores additional c} hs _ hc := by
    obtain ⟨items, hm, _, hmax⟩ := exists_maximize hs capacity
    change Oracle.scoreAt c scores ≤ (maximize costs capacity scores).2
    rw [hm]
    exact hmax c hc

theorem hasTrueIndices (costs : List ℕ) (capacity : ℕ) :
    (oracle costs capacity : Oracle α (List ℕ)).HasTrueIndices (IsSelection costs capacity)
      fun _ => [] where
  toLawful := lawful costs capacity
  accumulate_eq _ _ _ := rfl
  nodup_trueAdditionals _ := List.nodup_nil
  trueAdditionals_lt _ _ hi := absurd hi List.not_mem_nil
  score_zeros_eq _ := by simp [oracle, Oracle.scoreAt_zeros]
  common_eq hc hd := Oracle.countCommon_eq_countP hc.ascending hd.ascending

/-- The selection that is found is within the capacity, its score is the value, and no selection
within the capacity has a larger one. When an item is taken, its cost is at most what the items
taken before it leave of the capacity. -/
theorem selection_optimal {costs : List ℕ} {scores : List α} (hl : scores.length = costs.length)
    (capacity : ℕ) (additional : List α) :
    let o : Oracle α (List ℕ) := oracle costs capacity
    let answer := o.maximize scores additional
    let taken := backtrack costs capacity (table costs capacity scores).taken
    IsSelection costs capacity answer.1 ∧
      answer.2 = o.score scores additional answer.1 ∧
      (∀ items, IsSelection costs capacity items → o.score scores additional items ≤ answer.2) ∧
      answer.1 = (taken.map (·.1)).reverse ∧
      ∀ front p rest, taken = front ++ p :: rest →
        p.2 + cost costs (front.map (·.1)) = capacity ∧
          ∃ cost, costs[p.1]? = some cost ∧ cost ≤ p.2 := by
  intro o answer taken
  obtain ⟨items, hanswer, hselection, hmax⟩ := exists_maximize hl capacity
  have hfits (p : ℕ × ℕ) (hp : p ∈ taken) : ∃ cost, costs[p.1]? = some cost ∧ cost ≤ p.2 :=
    cost_le_of_mem_backtrack hp
  refine ⟨isSelection_maximize costs capacity scores, ?_, ?_, rfl, ?_⟩
  · change (maximize costs capacity scores).2 =
      Oracle.scoreAt (maximize costs capacity scores).1 scores
    rw [hanswer]
  · intro items' h'
    change Oracle.scoreAt items' scores ≤ (maximize costs capacity scores).2
    rw [hanswer]
    exact hmax items' h'
  · intro front p rest hsplit
    have hp : p ∈ taken := hsplit ▸ List.mem_append_right front List.mem_cons_self
    exact ⟨remaining_add_cost hfits hsplit, hfits p hp⟩

theorem selection_optimal_freeItem :
    ([3, 4, 4, 5] : List ℚ).length = [2, 3, 0, 4].length ∧
      (oracle [2, 3, 0, 4] 5 : Oracle ℚ _).maximize [3, 4, 4, 5] [] = ([0, 1, 2], 11) ∧
      (∀ items, IsSelection [2, 3, 0, 4] 5 items →
        Oracle.scoreAt items ([3, 4, 4, 5] : List ℚ) ≤ 11) ∧
      2 + cost [2, 3, 0, 4] [2, 1] = 5 ∧ ∃ cost, [2, 3, 0, 4][0]? = some cost ∧ cost ≤ 2 := by
  have hanswer :
      (oracle [2, 3, 0, 4] 5 : Oracle ℚ _).maximize [3, 4, 4, 5] [] = ([0, 1, 2], 11) := by
    decide +kernel
  have htaken : backtrack [2, 3, 0, 4] 5 (table [2, 3, 0, 4] 5 ([3, 4, 4, 5] : List ℚ)).taken =
      [(2, 5), (1, 5)] ++ (0, 2) :: [] := by
    decide +kernel
  have hlength : ([3, 4, 4, 5] : List ℚ).length = [2, 3, 0, 4].length := rfl
  obtain ⟨_, _, hmax, _, hfits⟩ := selection_optimal hlength 5 []
  rw [hanswer] at hmax
  obtain ⟨hremaining, hcost⟩ := hfits _ _ _ htaken
  exact ⟨hlength, hanswer, hmax, hremaining, hcost⟩

end MapInference.Knapsack
