import MapInference.Proofs.Factor

/-!
# True additional variables

What makes an additional variable true, in terms of the values of a factor's literals: both literals
of a pair are true, all states of a joint state are true, or a segment directly follows another one.
The evaluation of a factor adds up the scores of its true additional variables and returns their
indicator.
-/

namespace MapInference

open Scalar

namespace Dense

theorem length_stateIndices {sizes states : List ℕ} (h : IsJointState sizes states) :
    (stateIndices 0 sizes states).length = sizes.length := by
  induction h with
  | nil => rfl
  | cons _ _ ih =>
    rw [stateIndices_cons, List.length_append, List.length_map, ih, List.length_singleton,
      List.length_cons, Nat.add_comm]

/-- A joint state whose states are all among those of another one has the same ones. -/
theorem stateIndices_eq_of_subset {sizes states states' : List ℕ} (h : IsJointState sizes states)
    (h' : IsJointState sizes states')
    (hsubset : stateIndices 0 sizes states' ⊆ stateIndices 0 sizes states) :
    stateIndices 0 sizes states' = stateIndices 0 sizes states := by
  have hnodup : (stateIndices 0 sizes states').Nodup := (pairwise_stateIndices h').imp ne_of_lt
  have hperm : (stateIndices 0 sizes states').Perm (stateIndices 0 sizes states) :=
    (hnodup.subperm hsubset).perm_of_length_le (by
      rw [length_stateIndices h, length_stateIndices h'])
  exact (pairwise_stateIndices h').eq_of_mem_iff (pairwise_stateIndices h) fun _ => hperm.mem_iff

theorem eq_jointIndex_iff {sizes states : List ℕ} {values : List Bool}
    (h : IsJointState sizes states)
    (htrue : stateIndices 0 sizes states = Oracle.trueIndices values)
    (hinj : ∀ states', IsJointState sizes states' →
      stateIndices 0 sizes states' = stateIndices 0 sizes states → states' = states) {j : ℕ} :
    j = jointIndex sizes states ↔ ∃ states', IsJointState sizes states' ∧
      jointIndex sizes states' = j ∧
      ∀ i ∈ stateIndices 0 sizes states', values[i]? = some true := by
  constructor
  · rintro rfl
    refine ⟨states, h, rfl, fun i hi => ?_⟩
    rwa [htrue, Oracle.mem_trueIndices] at hi
  · rintro ⟨states', h', rfl, hall⟩
    have heq := stateIndices_eq_of_subset h h' fun i hi => by
      rw [htrue, Oracle.mem_trueIndices]
      exact hall i hi
    rw [hinj states' h' heq]

end Dense

namespace Segmentation

theorem mem_transitions_iff {previous : Option ℕ} {segments : List (ℕ × ℕ)}
    (hpairwise : segments.Pairwise fun first second => first.2 < second.1)
    (hle : ∀ p ∈ segments, p.1 ≤ p.2) (hprevious : ∀ e ∈ previous, ∀ p ∈ segments, e < p.1)
    {p : ℕ × ℕ} :
    (p, true) ∈ transitions previous segments ↔
      p ∈ segments ∧ 1 ≤ p.1 ∧ (previous = some (p.1 - 1) ∨ ∃ q ∈ segments, q.2 = p.1 - 1) := by
  induction segments generalizing previous with
  | nil => simp [transitions]
  | cons q rest ih =>
    obtain ⟨hq, hrest⟩ := List.pairwise_cons.mp hpairwise
    have hqle := hle q List.mem_cons_self
    have hends : ∀ e ∈ some q.2, ∀ p ∈ rest, e < p.1 :=
      fun e he p hp => Option.some.inj he ▸ hq p hp
    have ih := ih hrest (fun p hp => hle p (List.mem_cons_of_mem _ hp)) hends
    have hfollows : follows previous q.1 = true ↔ 1 ≤ q.1 ∧ previous = some (q.1 - 1) := by
      simp [follows]
    rw [transitions, List.mem_cons, ih, Prod.mk.injEq, eq_comm (a := true), hfollows]
    constructor
    · rintro (⟨rfl, hone, hprev⟩ | ⟨hp, hone, hq' | ⟨r, hr, hr'⟩⟩)
      · exact ⟨List.mem_cons_self, hone, Or.inl hprev⟩
      · exact ⟨List.mem_cons_of_mem _ hp, hone, Or.inr ⟨q, List.mem_cons_self, Option.some.inj hq'⟩⟩
      · exact ⟨List.mem_cons_of_mem _ hp, hone, Or.inr ⟨r, List.mem_cons_of_mem _ hr, hr'⟩⟩
    · rintro ⟨hp, hone, hends⟩
      rcases List.mem_cons.mp hp with rfl | hp
      · -- No segment behind this one ends before it.
        refine Or.inl ⟨rfl, hone, hends.resolve_right ?_⟩
        rintro ⟨r, hr, hr'⟩
        rcases List.mem_cons.mp hr with rfl | hr
        · omega
        · have := hq r hr
          have := hle r (List.mem_cons_of_mem _ hr)
          omega
      · have hlt := hq p hp
        refine Or.inr ⟨hp, hone, ?_⟩
        rcases hends with hprev | ⟨r, hr, hr'⟩
        · have := hprevious _ hprev q List.mem_cons_self
          omega
        · rcases List.mem_cons.mp hr with rfl | hr
          · exact Or.inl (congrArg some hr')
          · exact Or.inr ⟨r, hr, hr'⟩

theorem mem_trueAdditionals {length : ℕ} {segments : List (ℕ × ℕ)} {j : ℕ} :
    j ∈ trueAdditionals length segments ↔
      ∃ p, (p, true) ∈ transitions none segments ∧ transitionIndex length p.1 p.2 = j := by
  simp only [trueAdditionals, List.mem_filterMap]
  constructor
  · rintro ⟨⟨p, follows⟩, hmem, hj⟩
    dsimp only at hj
    split_ifs at hj with hfollows
    exact ⟨p, hfollows ▸ hmem, Option.some.inj hj⟩
  · rintro ⟨p, hmem, rfl⟩
    exact ⟨(p, true), hmem, rfl⟩

theorem mem_iff_getElem?_eq_some {length : ℕ} {values : List Bool} {segments : List (ℕ × ℕ)}
    (h : IsSegmentation length segments)
    (htrue : trueVariables length segments = Oracle.trueIndices values) {p : ℕ × ℕ}
    (hp : p.1 ≤ p.2) (hlt : p.2 < length) :
    p ∈ segments ↔ values[intervalIndex length p.1 p.2]? = some true := by
  rw [← Oracle.mem_trueIndices, ← htrue, trueVariables, List.mem_map]
  constructor
  · exact fun hmem => ⟨p, hmem, rfl⟩
  · rintro ⟨q, hq, hindex⟩
    exact intervalIndex_inj (mem_intervals.mpr (h.mem hq)) (mem_intervals.mpr ⟨hp, hlt⟩) hindex ▸ hq

/-- The true additional variables are those of true intervals right behind other true ones. -/
theorem mem_trueAdditionals_iff {length : ℕ} {values : List Bool} {segments : List (ℕ × ℕ)}
    (h : IsSegmentation length segments)
    (htrue : trueVariables length segments = Oracle.trueIndices values) {j : ℕ} :
    j ∈ trueAdditionals length segments ↔ ∃ start stop, 1 ≤ start ∧ start ≤ stop ∧ stop < length ∧
      transitionIndex length start stop = j ∧
      values[intervalIndex length start stop]? = some true ∧
      ∃ previous ≤ start - 1, values[intervalIndex length previous (start - 1)]? = some true := by
  have hmem {p : ℕ × ℕ} (hp : p.1 ≤ p.2) (hlt : p.2 < length) :=
    mem_iff_getElem?_eq_some h htrue hp hlt
  have hnone : ∀ e ∈ (none : Option ℕ), ∀ p ∈ segments, e < p.1 := by simp
  rw [mem_trueAdditionals]
  simp only [mem_transitions_iff h.pairwise (fun p hp => (h.mem hp).1) hnone, reduceCtorEq,
    false_or]
  constructor
  · rintro ⟨⟨start, stop⟩, ⟨hp, hone, ⟨previous, stop'⟩, hq, hstop⟩, rfl⟩
    obtain ⟨hle, hlt⟩ := h.mem hp
    obtain rfl : stop' = start - 1 := hstop
    obtain ⟨hle', hlt'⟩ := h.mem hq
    exact ⟨start, stop, hone, hle, hlt, rfl, (hmem hle hlt).mp hp, previous, hle',
      (hmem hle' hlt').mp hq⟩
  · rintro ⟨start, stop, hone, hle, hlt, rfl, htrue, previous, hle', htrue'⟩
    exact ⟨(start, stop), ⟨(hmem hle hlt).mpr htrue, hone, (previous, start - 1),
      (hmem (p := (previous, start - 1)) hle' (by dsimp only; omega)).mpr htrue', rfl⟩, rfl⟩

end Segmentation

namespace FactorKind

def IsTrueAdditional : FactorKind → List Bool → ℕ → Prop
  | logic _, _, _ | budget _, _, _ | knapsack _ _, _, _ | matching _ _, _, _ => False
  | pair, values, j => j = 0 ∧ values = [true, true]
  | dense sizes, values, j => ∃ states, Dense.IsJointState sizes states ∧
      Dense.jointIndex sizes states = j ∧
      ∀ i ∈ Dense.stateIndices 0 sizes states, values[i]? = some true
  | segmentation length, values, j => ∃ start stop, 1 ≤ start ∧ start ≤ stop ∧ stop < length ∧
      Segmentation.transitionIndex length start stop = j ∧
      values[Segmentation.intervalIndex length start stop]? = some true ∧
      ∃ previous ≤ start - 1,
        values[Segmentation.intervalIndex length previous (start - 1)]? = some true

variable {α : Type} [ExactScalar α]

theorem mem_trueAdditionals_iff {k : FactorKind} {n m : ℕ} (h : k.Fits n m)
    {o : Oracle α k.Configuration} (ho : k.localProblem α = .oracle o) {values : List Bool}
    (hv : values.length = n) {c : k.Configuration} (hof : o.ofAssignment? values = some c) {j : ℕ} :
    j ∈ k.trueAdditionals c ↔ k.IsTrueAdditional values j := by
  obtain ⟨hlaws, hn, _⟩ := k.hasTrueIndices h ho
  obtain ⟨hc, htrue⟩ := (hlaws.ofAssignment?_eq_some_iff (hv.trans hn.symm)).mp hof
  cases k with
  | logic c => cases ho
  | budget b => cases ho
  | knapsack costs capacity => exact iff_of_false List.not_mem_nil id
  | matching numRows numColumns => exact iff_of_false List.not_mem_nil id
  | pair =>
    cases ho
    obtain ⟨first, second, rfl⟩ := List.length_eq_two.mp (hv.trans h.1)
    obtain rfl : (first, second) = c := Option.some.inj hof
    change j ∈ Pair.trueAdditionals (first, second) ↔ j = 0 ∧ [first, second] = [true, true]
    cases first <;> cases second <;> simp [Pair.trueAdditionals]
  | dense sizes =>
    cases ho
    exact List.mem_singleton.trans (Dense.eq_jointIndex_iff hc htrue fun states hstates heq =>
      hlaws.eq_of_trueVariables_eq hstates hc heq)
  | segmentation length =>
    cases ho
    exact Segmentation.mem_trueAdditionals_iff hc htrue

open scoped Classical in
theorem evaluate_spec {k : FactorKind} {n m : ℕ} (h : k.Fits n m) {values : List Bool}
    (hv : values.length = n) {additional : List α} (ha : additional.length = m) {v : α × List α}
    (hval : (k.localProblem α).evaluate values additional = some v) :
    v.1 = (∑ j ∈ Finset.range m,
        if k.IsTrueAdditional values j then coordinate additional j else 0) ∧
      v.2 = (List.range m).map fun j => if k.IsTrueAdditional values j then 1 else 0 := by
  cases hlocal : k.localProblem α with
  | closedForm form =>
    have hfalse (j : ℕ) : ¬ k.IsTrueAdditional values j := by
      cases k <;> first | exact id | cases hlocal
    rw [hlocal, LocalProblem.evaluate] at hval
    split_ifs at hval
    rw [← Option.some.inj hval]
    simp [hfalse, zeros, ha, List.map_const']
  | oracle o =>
    obtain ⟨hlaws, hn, hm⟩ := k.hasTrueIndices h hlocal
    rw [hlocal] at hval
    obtain ⟨c, hof, rfl⟩ := Option.map_eq_some_iff.mp hval
    have hc : k.IsConfiguration c := ((hlaws.ofAssignment?_eq_some_iff (hv.trans hn.symm)).mp hof).1
    have hmem (j : ℕ) : j ∈ k.trueAdditionals c ↔ k.IsTrueAdditional values j :=
      mem_trueAdditionals_iff h hlocal hv hof
    have hcoordinate (j : ℕ) (hj : j < m) :
        coordinate (Oracle.indicatorAt m (k.trueAdditionals c) : List α) j =
          if k.IsTrueAdditional values j then 1 else 0 := by
      rw [Oracle.coordinate_indicatorAt (hlaws.nodup_trueAdditionals hc) hj]
      simp only [hmem]
    dsimp only
    constructor
    · have hlt : ∀ j ∈ k.trueAdditionals c, j < m := hm ▸ hlaws.trueAdditionals_lt hc
      rw [hlaws.score_zeros_eq hc, Oracle.scoreAt_eq_dot (hlaws.nodup_trueAdditionals hc) hlt,
        dot_eq_sum (Oracle.length_indicatorAt m _).le]
      refine Finset.sum_congr rfl fun j hj => ?_
      rw [hcoordinate j (Finset.mem_range.mp hj), ite_mul, one_mul, zero_mul]
    · rw [hlaws.indicator_eq, hm]
      refine eq_map_range (Oracle.length_indicatorAt _ _) fun j hj => ?_
      rw [getElem?_eq_some_coordinate (by rwa [Oracle.length_indicatorAt]), hcoordinate j hj]

end FactorKind
end MapInference
