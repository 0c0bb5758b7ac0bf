import MapInference.Proofs.Factor.Additionals
import MapInference.Proofs.Problem

/-!
# Polytopes of factors

The polytope of a factor is the convex hull of the assignments of its literals that it has a value
for, each with its additional variables. The best score of the factor is the greatest value of a
linear function on the polytope. A point of the polytope that is closest to a target, with a linear
reward, maximizes the linear function whose coefficients are the distances to the target.
-/

namespace MapInference

open Scalar
variable {α : Type} [ExactScalar α]

/-- Values of the literals of a factor and of its additional variables, zero where it has none. -/
abbrev Marginals (α : Type) : Type := (ℕ → α) × (ℕ → α)

namespace Marginals

def ofLists (point additionals : List α) : Marginals α := (coordinate point, coordinate additionals)

/-- The value of a linear function with the given coefficients. -/
def score (scores additional : List α) (x : Marginals α) : α :=
  ∑ i ∈ Finset.range scores.length, coordinate scores i * x.1 i +
    ∑ j ∈ Finset.range additional.length, coordinate additional j * x.2 j

/-- The reward of the additional variables, less half the squared distance to a target. -/
def proximalValue (target additional : List α) (x : Marginals α) : α :=
  ∑ j ∈ Finset.range additional.length, coordinate additional j * x.2 j -
    half * ∑ i ∈ Finset.range target.length, (x.1 i - coordinate target i) ^ 2

theorem score_ofLists (scores additional point additionals : List α) :
    score scores additional (ofLists point additionals) =
      dot scores point + dot additional additionals := by
  rw [dot_eq_sum le_rfl, dot_eq_sum le_rfl]
  rfl

theorem isLinearMap_score (scores additional : List α) :
    IsLinearMap α (score scores additional) where
  map_add x y := by
    simp only [score, Prod.fst_add, Prod.snd_add, Pi.add_apply, mul_add, Finset.sum_add_distrib]
    ring
  map_smul t x := by
    simp only [score, Prod.smul_fst, Prod.smul_snd, Pi.smul_apply, smul_eq_mul, mul_left_comm _ t,
      ← Finset.mul_sum, mul_add]

theorem convex_score_le (scores additional : List α) (bound : α) :
    Convex α {x | score scores additional x ≤ bound} :=
  convex_halfSpace_le (isLinearMap_score scores additional) bound

theorem proximalValue_add_smul {target gradient additional : List α} {x : Marginals α}
    (hlen : gradient.length = target.length)
    (hgradient : ∀ i < target.length, coordinate gradient i = coordinate target i - x.1 i)
    (d : Marginals α) (t : α) :
    proximalValue target additional (x + t • d) =
      proximalValue target additional x + t * score gradient additional d -
        t ^ 2 * (∑ i ∈ Finset.range target.length, d.1 i ^ 2) / 2 := by
  have hsquare : ∑ i ∈ Finset.range target.length, (x.1 i + t * d.1 i - coordinate target i) ^ 2 =
      ∑ i ∈ Finset.range target.length, (x.1 i - coordinate target i) ^ 2 -
        2 * t * ∑ i ∈ Finset.range target.length, coordinate gradient i * d.1 i +
        t ^ 2 * ∑ i ∈ Finset.range target.length, d.1 i ^ 2 := by
    rw [Finset.mul_sum, Finset.mul_sum, ← Finset.sum_sub_distrib, ← Finset.sum_add_distrib]
    refine Finset.sum_congr rfl fun i hi => ?_
    rw [hgradient i (Finset.mem_range.mp hi)]
    ring
  have hreward : ∑ j ∈ Finset.range additional.length,
        coordinate additional j * (x.2 j + t * d.2 j) =
      ∑ j ∈ Finset.range additional.length, coordinate additional j * x.2 j +
        t * ∑ j ∈ Finset.range additional.length, coordinate additional j * d.2 j := by
    rw [Finset.mul_sum, ← Finset.sum_add_distrib]
    exact Finset.sum_congr rfl fun j _ => by ring
  change ∑ j ∈ Finset.range additional.length, coordinate additional j * (x.2 j + t * d.2 j) -
    half * ∑ i ∈ Finset.range target.length, (x.1 i + t * d.1 i - coordinate target i) ^ 2 = _
  rw [hsquare, hreward, proximalValue, score, hlen, half_eq]
  ring

/-- The condition of first order. A solution of the proximal problem over a convex set is best for
its own gradient. -/
theorem isMaxOn_score {K : Set (Marginals α)} (hK : Convex α K)
    {target gradient additional : List α}
    {x : Marginals α} (hx : x ∈ K) (hmax : IsMaxOn (proximalValue target additional) K x)
    (hlen : gradient.length = target.length)
    (hgradient : ∀ i < target.length, coordinate gradient i = coordinate target i - x.1 i) :
    IsMaxOn (score gradient additional) K x := by
  intro z hz
  let d := z - x
  let distance := ∑ i ∈ Finset.range target.length, d.1 i ^ 2
  have hdistance : 0 ≤ distance := Finset.sum_nonneg fun i _ => sq_nonneg _
  -- Moving towards `z` does not pay, however small the step is.
  have hstep (t : α) (hpos : 0 < t) (hone : t ≤ 1) :
      score gradient additional d ≤ t * distance / 2 := by
    have hmem : x + t • d ∈ K := hK.add_smul_sub_mem hx hz ⟨hpos.le, hone⟩
    have hle : proximalValue target additional (x + t • d) ≤ proximalValue target additional x :=
      hmax hmem
    rw [proximalValue_add_smul hlen hgradient] at hle
    have hmul : t * score gradient additional d ≤ t * (t * distance / 2) := by
      have hsq : t * (t * distance / 2) = t ^ 2 * distance / 2 := by ring
      rw [hsq]
      linarith
    exact le_of_mul_le_mul_left hmul hpos
  have hnonpos : score gradient additional d ≤ 0 := by
    by_contra! hgain
    have hfull := hstep 1 one_pos le_rfl
    have hlt : score gradient additional d < distance := by linarith
    have hpos : 0 < distance := hgain.trans hlt
    have hhalf := hstep (score gradient additional d / distance) (div_pos hgain hpos)
      ((div_le_one hpos).mpr hlt.le)
    rw [div_mul_cancel₀ _ hpos.ne'] at hhalf
    linarith
  have hdiff : score gradient additional d =
      score gradient additional z - score gradient additional x :=
    (isLinearMap_score gradient additional).map_sub z x
  change score gradient additional z ≤ score gradient additional x
  linarith

end Marginals

namespace Complement

theorem point_point {marks : List Bool} {xs : List α} (h : marks.length = xs.length) :
    point marks (point marks xs) = xs := by
  apply List.ext_getElem (by simp [h])
  intro i h₁ h₂
  simp only [point, List.getElem_zipWith]
  split_ifs
  · exact sub_sub_cancel 1 _
  · rfl

theorem constant_add_dot {marks : List Bool} {xs ys : List α} (hm : marks.length = xs.length)
    (hy : ys.length = xs.length) :
    constant marks xs + dot (scores marks xs) (point marks ys) = dot xs ys := by
  rw [constant_eq_gain, dot, dot, total_eq_sum, total_eq_sum]
  induction xs generalizing marks ys with
  | nil => simp [scores]
  | cons x xs ih =>
    cases marks with
    | nil => simp at hm
    | cons mark marks =>
      cases ys with
      | nil => simp at hy
      | cons y ys =>
        have hi := ih (by simpa using hm : marks.length = _) (by simpa using hy : ys.length = _)
        simp only [scores, point, List.zipWith_cons_cons, gain_cons, List.sum_cons] at hi ⊢
        rw [← hi]
        cases mark
        · simp only [Bool.false_eq_true, ↓reduceIte]
          ring
        · simp only [↓reduceIte]
          ring

theorem point_map_ofBool (marks values : List Bool) :
    point marks (values.map ofBool : List α) = (assignment marks values).map ofBool := by
  simp only [point, assignment, List.zipWith_map_right, List.map_zipWith]
  congr 1
  funext mark value
  cases mark <;> cases value <;> simp [ofBool]

theorem coordinate_scores_sub {marks : List Bool} {xs ys zs : List α} {i : ℕ}
    (hm : i < marks.length) (hx : i < xs.length) (hy : i < ys.length) (hz : i < zs.length)
    (h : coordinate xs i = coordinate ys i - coordinate zs i) :
    coordinate (scores marks xs) i =
      coordinate (point marks ys) i - coordinate (point marks zs) i := by
  simp only [coordinate, List.getElem?_eq_getElem, hx, hy, hz, Option.getD_some] at h
  simp only [coordinate, scores, point, List.getElem?_zipWith, List.getElem?_eq_getElem, hm, hx, hy,
    hz, Option.getD_some]
  split_ifs
  · rw [h]
    ring
  · exact h

end Complement

namespace Factor

/-- The convex hull of the assignments of the literals that the factor has a value for. -/
def polytope (f : Factor α) : Set (Marginals α) :=
  convexHull α {x | ∃ values v, values.length = f.literals.length ∧
    f.localProblem.evaluate values f.additional = some v ∧
    x = Marginals.ofLists (values.map ofBool) v.2}

def literalMarginals (f : Factor α) (marginals : List α) : List α :=
  Complement.point f.marks (f.indices.map (coordinate marginals))

variable {f : Factor α}

/-- The score of an assignment is its gain with the score of its additional variables. -/
theorem score_ofLists_evaluate (h : f.kind.Fits f.literals.length f.numAdditionals)
    {scores : List α} {values : List Bool} (hv : values.length = f.literals.length)
    {v : α × List α} (hval : f.localProblem.evaluate values f.additional = some v) :
    Marginals.score scores f.additional (Marginals.ofLists (values.map ofBool) v.2) =
      gain scores values + v.1 := by
  obtain ⟨hscore, hindicator⟩ := FactorKind.evaluate_spec h hv rfl hval
  have hvalue (i : ℕ) : coordinate (values.map ofBool : List α) i =
      if values[i]?.getD false then 1 else 0 := by
    cases hi : values[i]? <;> simp [coordinate, hi, ofBool]
  rw [gain_eq_sum, hscore, Marginals.score, Marginals.ofLists, hindicator]
  congr 1
  · refine Finset.sum_congr rfl fun i _ => ?_
    dsimp only
    rw [hvalue, mul_ite, mul_one, mul_zero]
  · refine Finset.sum_congr rfl fun j hj => ?_
    dsimp only
    rw [coordinate_map (List.getElem?_range (Finset.mem_range.mp hj)), mul_ite, mul_one, mul_zero]

theorem dot_evaluate (h : f.kind.Fits f.literals.length f.numAdditionals) {values : List Bool}
    (hv : values.length = f.literals.length) {v : α × List α}
    (hval : f.localProblem.evaluate values f.additional = some v) : dot f.additional v.2 = v.1 := by
  have hscore : Marginals.score [] f.additional (Marginals.ofLists (values.map ofBool) v.2) =
      gain [] values + v.1 := score_ofLists_evaluate h hv hval
  rw [Marginals.score_ofLists, gain_nil] at hscore
  simpa [dot] using hscore

theorem isGreatest_score (h : f.kind.Fits f.literals.length f.numAdditionals) {scores : List α}
    (hs : scores.length = f.literals.length) :
    IsGreatest (Marginals.score scores f.additional '' f.polytope)
      (f.localProblem.best scores f.additional) := by
  have hbest : IsBest (fun values => (f.localProblem.evaluate values f.additional).map (·.1)) scores
      (f.localProblem.best scores f.additional) := f.kind.isBest (hs ▸ h)
  constructor
  · obtain ⟨values, u, hlen, hu, hgain⟩ := hbest.1
    obtain ⟨v, hv, rfl⟩ := Option.map_eq_some_iff.mp hu
    rw [hs] at hlen
    refine ⟨_, subset_convexHull α _ ⟨values, v, hlen, hv, rfl⟩, ?_⟩
    rw [score_ofLists_evaluate h hlen hv, hgain]
  · rintro _ ⟨x, hx, rfl⟩
    refine convexHull_min (fun z hz => ?_) (Marginals.convex_score_le scores f.additional _) hx
    obtain ⟨values, v, hlen, hv, rfl⟩ := hz
    change Marginals.score scores f.additional _ ≤ _
    rw [score_ofLists_evaluate h hlen hv]
    exact hbest.2 ⟨values, v.1, hlen.trans hs.symm, by simp [hv], rfl⟩

theorem constant_add_score (f : Factor α) {scores : List α} (hs : scores.length = f.literals.length)
    (marginals additionals : List α) :
    Complement.constant f.marks scores + Marginals.score (Complement.scores f.marks scores)
        f.additional (Marginals.ofLists (f.literalMarginals marginals) additionals) =
      dot scores (f.indices.map (coordinate marginals)) + dot f.additional additionals := by
  rw [Marginals.score_ofLists, ← add_assoc, literalMarginals,
    Complement.constant_add_dot (by rw [length_marks, hs])
      (by rw [List.length_map, length_indices, hs])]

theorem dot_add_dot_le_best (h : f.kind.Fits f.literals.length f.numAdditionals) {scores : List α}
    (hs : scores.length = f.literals.length) {marginals additionals : List α}
    (hmem : Marginals.ofLists (f.literalMarginals marginals) additionals ∈ f.polytope) :
    dot scores (f.indices.map (coordinate marginals)) + dot f.additional additionals ≤
      f.best scores := by
  have hlen : (Complement.scores f.marks scores).length = f.literals.length := by simp [hs]
  rw [← constant_add_score f hs, best]
  exact add_le_add_right ((isGreatest_score h hlen).2 ⟨_, hmem, rfl⟩) _

theorem best_eq_dot_add_dot (h : f.kind.Fits f.literals.length f.numAdditionals) {scores : List α}
    (hs : scores.length = f.literals.length) {marginals additionals : List α}
    (hmem : Marginals.ofLists (f.literalMarginals marginals) additionals ∈ f.polytope)
    (hmax : IsMaxOn (Marginals.score (Complement.scores f.marks scores) f.additional) f.polytope
      (Marginals.ofLists (f.literalMarginals marginals) additionals)) :
    f.best scores =
      dot scores (f.indices.map (coordinate marginals)) + dot f.additional additionals := by
  have hlen : (Complement.scores f.marks scores).length = f.literals.length := by simp [hs]
  obtain ⟨x, hx, hbest⟩ := (isGreatest_score h hlen).1
  refine le_antisymm ?_ (dot_add_dot_le_best h hs hmem)
  rw [← constant_add_score f hs, best, ← hbest]
  exact add_le_add_right (hmax hx) _

theorem mem_unit_of_mem_polytope {x : Marginals α} (hx : x ∈ f.polytope) (i : ℕ) :
    0 ≤ x.1 i ∧ x.1 i ≤ 1 := by
  have hconvex : Convex α {x : Marginals α | 0 ≤ x.1 i ∧ x.1 i ≤ 1} := by
    have hlinear : IsLinearMap α fun x : Marginals α => x.1 i := ⟨fun _ _ => rfl, fun _ _ => rfl⟩
    exact (convex_halfSpace_ge hlinear 0).inter (convex_halfSpace_le hlinear 1)
  refine convexHull_min (fun z hz => ?_) hconvex hx
  obtain ⟨values, v, _, _, rfl⟩ := hz
  change 0 ≤ coordinate (values.map ofBool) i ∧ coordinate (values.map ofBool) i ≤ (1 : α)
  cases hi : values[i]? with
  | none => simp [coordinate, hi]
  | some value => cases value <;> simp [coordinate, hi, ofBool]

theorem coordinate_mem_unit {marginals additionals : List α}
    (hmem : Marginals.ofLists (f.literalMarginals marginals) additionals ∈ f.polytope) {i : ℕ}
    (hi : i ∈ f.indices) : 0 ≤ coordinate marginals i ∧ coordinate marginals i ≤ 1 := by
  obtain ⟨l, hl, rfl⟩ := List.mem_map.mp hi
  obtain ⟨k, hk⟩ := List.mem_iff_getElem?.mp hl
  have hliteral : coordinate (f.literalMarginals marginals) k =
      if l.negated then 1 - coordinate marginals l.atom.id else coordinate marginals l.atom.id := by
    simp [literalMarginals, Complement.point, marks, indices, coordinate, hk]
  have hunit := mem_unit_of_mem_polytope hmem k
  change 0 ≤ coordinate _ k ∧ coordinate _ k ≤ 1 at hunit
  rw [hliteral] at hunit
  split_ifs at hunit
  · exact ⟨by linarith [hunit.2], by linarith [hunit.1]⟩
  · exact hunit

end Factor
end MapInference
