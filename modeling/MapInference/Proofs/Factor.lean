import MapInference.Proofs.Logic
import MapInference.Proofs.Oracle.Dense
import MapInference.Proofs.Oracle.Knapsack
import MapInference.Proofs.Oracle.Matching
import MapInference.Proofs.Oracle.Pair
import MapInference.Proofs.Oracle.Segmentation
import MapInference.Factor

/-!
# Best scores of factors

Every kind of factor, on literals and additional variables of the right numbers, finds the greatest
gain of the assignments that it has a value for. The test of a partial assignment follows from this:
a factor that has a value for some assignment admits every partial assignment that agrees with it.
-/

namespace MapInference

open Scalar

namespace FactorKind

/-- Whether a kind of factor applies to `n` literals and `m` additional variables. -/
def Fits : FactorKind → (n m : ℕ) → Prop
  | logic c, n, m => ∃ op : LogicOperator, c = .ofOperator op n ∧ op.minimumArity ≤ n ∧ m = 0
  | budget _, _, m => m = 0
  | pair, n, m => n = 2 ∧ m = 1
  | dense sizes, n, m =>
    n = Dense.numStates sizes ∧ m = Dense.numJointStates sizes ∧ ∀ size ∈ sizes, 0 < size
  | knapsack costs _, n, m => n = costs.length ∧ m = 0
  | matching numRows numColumns, n, m => n = numRows * numColumns ∧ m = 0
  | segmentation length, n, m =>
    n = Segmentation.numIntervals length ∧ m = Segmentation.numTransitions length

end FactorKind

def Agrees (fixed : List (Option Bool)) (values : List Bool) : Prop :=
  ∀ (i : ℕ) (b : Bool), fixed[i]? = some (some b) → values[i]? = some b

def disagreements (fixed : List (Option Bool)) (values : List Bool) : ℕ :=
  (List.zipWith (fun fixed value => fixed == some !value) fixed values).count true

@[simp] theorem disagreements_cons (o : Option Bool) (fixed : List (Option Bool)) (value : Bool)
    (values : List Bool) :
    disagreements (o :: fixed) (value :: values) =
      disagreements fixed values + if o = some !value then 1 else 0 := by
  simp [disagreements, List.count_cons]

theorem agrees_cons_iff {o : Option Bool} {fixed : List (Option Bool)} {value : Bool}
    {values : List Bool} :
    Agrees (o :: fixed) (value :: values) ↔ o ≠ some !value ∧ Agrees fixed values := by
  constructor
  · refine fun h => ⟨?_, fun i b hi => h (i + 1) b hi⟩
    rintro rfl
    exact absurd (h 0 (!value) rfl) (by simp)
  · rintro ⟨hhead, htail⟩ i b hi
    cases i with
    | zero =>
      obtain rfl : o = some b := Option.some.inj hi
      cases value <;> cases b <;> simp_all
    | succ i => exact htail i b hi

theorem disagreements_eq_zero_iff {fixed : List (Option Bool)} {values : List Bool}
    (h : values.length = fixed.length) : disagreements fixed values = 0 ↔ Agrees fixed values := by
  induction fixed generalizing values with
  | nil =>
    obtain rfl := List.length_eq_zero_iff.mp h
    simp [disagreements, Agrees]
  | cons o fixed ih =>
    cases values with
    | nil => simp at h
    | cons value values =>
      rw [agrees_cons_iff, ← ih (by simpa using h), disagreements_cons]
      split_ifs with ho <;> simp [ho]

variable {α : Type}

namespace Factor

/-- A factor on different variables among `n` whose kind fits its sizes. -/
structure WellFormed (n : ℕ) (f : Factor α) : Prop where
  fits : f.kind.Fits f.literals.length f.numAdditionals
  nodup : f.indices.Nodup
  index_lt : ∀ i ∈ f.indices, i < n

theorem WellFormed.mono {n m : ℕ} {f : Factor α} (h : f.WellFormed n) (hnm : n ≤ m) :
    f.WellFormed m :=
  ⟨h.fits, h.nodup, fun i hi => (h.index_lt i hi).trans_le hnm⟩

def literalValues (f : Factor α) (values : List Bool) : List Bool :=
  Complement.assignment f.marks (f.restrict values)

theorem literalValues_eq_map (f : Factor α) (values : List Bool) :
    f.literalValues values = f.literals.map fun l => l.holds (values[l.atom.id]?.getD false) := by
  simp [literalValues, Complement.assignment, marks, restrict, indices, List.zipWith_map_left,
    List.zipWith_map_right, Literal.holds]

@[simp] theorem length_fixedLiterals (f : Factor α) (fixed : List (Option Bool)) :
    (f.fixedLiterals fixed).length = f.literals.length :=
  List.length_map _

theorem getElem?_fixedLiterals {f : Factor α} {fixed : List (Option Bool)} {k : ℕ} {b : Bool} :
    (f.fixedLiterals fixed)[k]? = some (some b) ↔ ∃ l value, f.literals[k]? = some l ∧
      fixed[l.atom.id]? = some (some value) ∧ l.holds value = b := by
  simp [fixedLiterals, List.getElem?_map, Option.map_eq_some_iff, Option.join_eq_some_iff]

/-- An assignment of the factor's variables agrees with a partial assignment of all variables. -/
def AgreesWith (f : Factor α) (fixed : List (Option Bool)) (values : List Bool) : Prop :=
  ∀ (k i : ℕ) (b : Bool), f.indices[k]? = some i → fixed[i]? = some (some b) → values[k]? = some b

theorem agrees_assignment_iff {f : Factor α} {fixed : List (Option Bool)} {values : List Bool} :
    Agrees (f.fixedLiterals fixed) (Complement.assignment f.marks values) ↔
      f.AgreesWith fixed values := by
  have hvalue {k : ℕ} {l : Literal} (hl : f.literals[k]? = some l) (b : Bool) :
      (Complement.assignment f.marks values)[k]? = some (l.holds b) ↔ values[k]? = some b := by
    have hmark : f.marks[k]? = some l.negated := by simp [marks, hl]
    rw [Complement.assignment, List.getElem?_zipWith, hmark]
    cases values[k]? <;> simp [Literal.holds]
  constructor
  · intro h k i b hi hb
    obtain ⟨l, hl, rfl⟩ := Option.map_eq_some_iff.mp (List.getElem?_map ▸ hi)
    exact (hvalue hl b).mp (h k _ (getElem?_fixedLiterals.mpr ⟨l, b, hl, hb, rfl⟩))
  · intro h k b hk
    obtain ⟨l, value, hl, hb, rfl⟩ := getElem?_fixedLiterals.mp hk
    exact (hvalue hl value).mpr (h k _ value (by simp [indices, hl]) hb)

end Factor

variable [ExactScalar α]

namespace FactorKind

theorem isBest (k : FactorKind) {scores additional : List α}
    (h : k.Fits scores.length additional.length) :
    IsBest (fun values => ((k.localProblem α).evaluate values additional).map (·.1)) scores
      ((k.localProblem α).best scores additional) := by
  -- A closed form gives every assignment that meets the constraint the value zero.
  have hclosed (holds : List Bool → Bool) :
      (fun values => (if holds values then some ((0 : α), (zeros additional.length : List α))
        else none).map (·.1)) = constrained holds := by
    funext values
    unfold constrained
    split_ifs <;> rfl
  cases k with
  | logic c =>
    obtain ⟨op, rfl, harity, _⟩ := h
    have hflips : (LogicConstraint.ofOperator op scores.length).flipped.length = scores.length :=
      op.length_flips _
    have hbest := (LogicConstraint.ofOperator op scores.length).isBest hflips
      (op.leastArity_condition_le.trans harity)
    simpa only [localProblem, LocalProblem.evaluate, LocalProblem.best, hclosed] using hbest
  | budget b =>
    have hbest := b.isBest scores
    simpa only [localProblem, LocalProblem.evaluate, LocalProblem.best, hclosed] using hbest
  | pair => exact Pair.lawful.isBest h.1 h.2
  | dense sizes => exact (Dense.lawful h.2.2).isBest h.1 h.2.1
  | knapsack costs capacity => exact (Knapsack.lawful costs capacity).isBest h.1 h.2
  | matching numRows numColumns => exact (Matching.lawful numRows numColumns).isBest h.1 h.2
  | segmentation length => exact (Segmentation.lawful length).isBest h.1 h.2

theorem evaluate_zeros (k : FactorKind) {n m : ℕ} (h : k.Fits n m) {values : List Bool}
    (hv : values.length = n) {additional : List α} {v : α × List α}
    (hval : (k.localProblem α).evaluate values additional = some v) :
    ((k.localProblem α).evaluate values (zeros m)).map (·.1) = some 0 := by
  have hclosed (form : ClosedForm α)
      (hval : (LocalProblem.closedForm form : LocalProblem α k.Configuration).evaluate values
        additional = some v) :
      ((LocalProblem.closedForm form : LocalProblem α k.Configuration).evaluate values
        (zeros m)).map (·.1) = some 0 := by
    simp only [LocalProblem.evaluate] at hval ⊢
    split_ifs at hval ⊢ with hh
    rfl
  cases k with
  | logic c => exact hclosed _ hval
  | budget b => exact hclosed _ hval
  | pair =>
    obtain ⟨rfl, rfl⟩ := h
    exact Pair.lawful.evaluate_zeros hv hval
  | dense sizes =>
    obtain ⟨rfl, rfl, hpos⟩ := h
    exact (Dense.lawful hpos).evaluate_zeros hv hval
  | knapsack costs capacity =>
    obtain ⟨rfl, rfl⟩ := h
    exact (Knapsack.lawful costs capacity).evaluate_zeros hv hval
  | matching numRows numColumns =>
    obtain ⟨rfl, rfl⟩ := h
    exact (Matching.lawful numRows numColumns).evaluate_zeros hv hval
  | segmentation length =>
    obtain ⟨rfl, rfl⟩ := h
    exact (Segmentation.lawful length).evaluate_zeros hv hval

theorem isSome_evaluate (k : FactorKind) (values : List Bool) (additional additional' : List α) :
    ((k.localProblem α).evaluate values additional).isSome =
      ((k.localProblem α).evaluate values additional').isSome := by
  cases k.localProblem α with
  | closedForm form =>
    unfold LocalProblem.evaluate
    dsimp only
    split_ifs <;> rfl
  | oracle o => simp [LocalProblem.evaluate, Oracle.evaluate]

/-- Without scores for the additional variables the best score is the greatest gain of an assignment
that has a value. -/
theorem isGreatest_best_zeros (k : FactorKind) {n m : ℕ} (h : k.Fits n m) {scores : List α}
    (hs : scores.length = n) (additional : List α) :
    IsGreatest {s | ∃ values, values.length = n ∧
        ((k.localProblem α).evaluate values additional).isSome ∧ s = gain scores values}
      ((k.localProblem α).best scores (zeros m)) := by
  have hbest : IsBest _ scores ((k.localProblem α).best scores (zeros m)) :=
    k.isBest (by rwa [hs, length_zeros])
  have hzero {values : List Bool} (hv : values.length = n)
      (hsome : ((k.localProblem α).evaluate values additional).isSome) :
      ((k.localProblem α).evaluate values (zeros m)).map (·.1) = some 0 := by
    obtain ⟨v, hval⟩ := Option.isSome_iff_exists.mp hsome
    exact k.evaluate_zeros h hv hval
  constructor
  · obtain ⟨values, v, hv, hval, hgain⟩ := hbest.1
    obtain ⟨u, hu, rfl⟩ := Option.map_eq_some_iff.mp hval
    have hsome : ((k.localProblem α).evaluate values additional).isSome := by
      rw [k.isSome_evaluate values additional (zeros m), hu, Option.isSome_some]
    have hu₁ : u.1 = 0 := Option.some.inj (hval.symm.trans (hzero (hv.trans hs) hsome))
    exact ⟨values, hv.trans hs, hsome, by rw [← hgain, hu₁, add_zero]⟩
  · rintro s ⟨values, hv, hsome, rfl⟩
    exact hbest.2 ⟨values, 0, hv.trans hs.symm, hzero hv hsome, add_zero _⟩

def IsConfiguration : (k : FactorKind) → k.Configuration → Prop
  | logic _ | budget _ => fun _ => False
  | pair => fun _ => True
  | dense sizes => Dense.IsJointState sizes
  | knapsack costs capacity => Knapsack.IsSelection costs capacity
  | matching numRows numColumns => Matching.IsMatching numRows numColumns
  | segmentation length => Segmentation.IsSegmentation length

def trueAdditionals : (k : FactorKind) → k.Configuration → List ℕ
  | logic _ | budget _ | knapsack _ _ | matching _ _ => fun _ => []
  | pair => Pair.trueAdditionals
  | dense sizes => fun states => [Dense.jointIndex sizes states]
  | segmentation length => Segmentation.trueAdditionals length

/-- The oracle of a kind of factor, on literals and additional variables of the right numbers. -/
theorem hasTrueIndices {k : FactorKind} {n m : ℕ} (h : k.Fits n m)
    {o : Oracle α k.Configuration} (ho : k.localProblem α = .oracle o) :
    o.HasTrueIndices k.IsConfiguration k.trueAdditionals ∧
      o.numVariables = n ∧ o.numAdditionals = m := by
  cases k with
  | logic c => cases ho
  | budget b => cases ho
  | pair =>
    cases ho
    exact ⟨Pair.hasTrueIndices, h.1.symm, h.2.symm⟩
  | dense sizes =>
    cases ho
    exact ⟨Dense.hasTrueIndices h.2.2, h.1.symm, h.2.1.symm⟩
  | knapsack costs capacity =>
    cases ho
    exact ⟨Knapsack.hasTrueIndices costs capacity, h.1.symm, h.2.symm⟩
  | matching numRows numColumns =>
    cases ho
    exact ⟨Matching.hasTrueIndices numRows numColumns, h.1.symm, h.2.symm⟩
  | segmentation length =>
    cases ho
    exact ⟨Segmentation.hasTrueIndices length, h.1.symm, h.2.symm⟩

end FactorKind

namespace Factor

variable {f : Factor α}

theorem isBest (h : f.kind.Fits f.literals.length f.numAdditionals) {scores : List α}
    (hs : scores.length = f.literals.length) :
    IsBest (fun values => (f.evaluate values).map (·.1)) scores (f.best scores) := by
  have hm : f.marks.length = scores.length := by rw [length_marks, hs]
  refine Complement.isBest hm (f.kind.isBest ?_)
  rw [Complement.length_scores, hm, min_self, hs]
  exact h

theorem gain_add_le_best (h : f.kind.Fits f.literals.length f.numAdditionals) {scores : List α}
    (hs : scores.length = f.literals.length) {values : List Bool}
    (hv : values.length = f.literals.length) {v : α × List α} (hval : f.evaluate values = some v) :
    gain scores values + v.1 ≤ f.best scores :=
  (isBest h hs).2 ⟨values, v.1, hv.trans hs.symm, by simp [hval], rfl⟩

/-- Every value that disagrees with a partial assignment costs one of the gain that there is for
meeting all of its true values. -/
theorem gain_fixedScore {fixed : List (Option Bool)} {values : List Bool}
    (h : values.length = fixed.length) :
    gain (fixed.map fixedScore) values + (disagreements fixed values : α) =
      (fixed.count (some true) : ℕ) := by
  induction fixed generalizing values with
  | nil =>
    obtain rfl := List.length_eq_zero_iff.mp h
    simp [disagreements]
  | cons o fixed ih =>
    cases values with
    | nil => simp at h
    | cons value values =>
      have hrest := ih (by simpa using h)
      rw [List.map_cons, gain_cons, disagreements_cons, List.count_cons]
      rcases o with _ | _ | _ <;> cases value <;> simp [fixedScore] <;> linarith

/-- A factor admits a partial assignment if and only if it has a value for some truth values of the
literals that agree with it. -/
theorem admits_iff (h : f.kind.Fits f.literals.length f.numAdditionals)
    (fixed : List (Option Bool)) :
    f.admits fixed ↔ ∃ truths, truths.length = f.literals.length ∧
      Agrees (f.fixedLiterals fixed) truths ∧
      (f.localProblem.evaluate truths f.additional).isSome := by
  let literals := f.fixedLiterals fixed
  have hlen : literals.length = f.literals.length := f.length_fixedLiterals fixed
  have hbest : IsGreatest _ (f.localProblem.best (literals.map fixedScore)
      (zeros f.numAdditionals)) :=
    f.kind.isGreatest_best_zeros h (by rw [List.length_map, hlen]) f.additional
  unfold admits
  dsimp only
  split_ifs with hnone
  · obtain ⟨⟨truths, hl, hsome, _⟩, _⟩ := hbest
    refine iff_of_true rfl ⟨truths, hl, fun i b hi => ?_, hsome⟩
    have hfree := List.all_eq_true.mp hnone _ (List.mem_of_getElem? hi)
    exact absurd hfree (by simp)
  rw [decide_eq_true_eq, ofNat_eq_cast, half_eq]
  -- A single disagreement costs one, and the threshold allows for a half only.
  constructor
  · intro hlt
    obtain ⟨truths, hl, hsome, hscore⟩ := hbest.1
    have hgain := gain_fixedScore (α := α) (hl.trans hlen.symm)
    have hfew : (disagreements literals truths : α) < 1 := by linarith
    have hzero : disagreements literals truths = 0 := Nat.lt_one_iff.mp (by exact_mod_cast hfew)
    exact ⟨truths, hl, (disagreements_eq_zero_iff (hl.trans hlen.symm)).mp hzero, hsome⟩
  · rintro ⟨truths, hl, hagree, hsome⟩
    have hle := hbest.2 ⟨truths, hl, hsome, rfl⟩
    have hgain := gain_fixedScore (α := α) (hl.trans hlen.symm)
    rw [(disagreements_eq_zero_iff (hl.trans hlen.symm)).mpr hagree, Nat.cast_zero] at hgain
    linarith

/-- A factor that has a value for an assignment admits every partial assignment that agrees. -/
theorem admits_of_agrees (h : f.kind.Fits f.literals.length f.numAdditionals)
    {fixed : List (Option Bool)} {values : List Bool} (hagree : Agrees fixed values)
    {v : α × List α} (hval : f.evaluate (f.restrict values) = some v) : f.admits fixed := by
  refine (admits_iff h fixed).mpr ⟨f.literalValues values, ?_, fun k b hk => ?_, ?_⟩
  · simp [literalValues_eq_map]
  · obtain ⟨l, value, hl, hvalue, rfl⟩ := getElem?_fixedLiterals.mp hk
    rw [literalValues_eq_map, List.getElem?_map, hl, Option.map_some, hagree _ _ hvalue,
      Option.getD_some]
  · exact Option.isSome_iff_exists.mpr ⟨v, hval⟩

end Factor
end MapInference
