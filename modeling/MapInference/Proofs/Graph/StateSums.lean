import MapInference.Proofs.Graph.Objective
import MapInference.Proofs.Relaxation.Ranges

/-!
# Sums of state marginals

A dense factor and a factor that groups states have values only for assignments with exactly one
true state of each of their variables, so that the posteriors of the states sum to one on their
hulls, wherever the iterations stop. All states of a variable occur in the same of these factors;
where no other factor is over them, the averages of their posteriors sum to one too.
-/

namespace MapInference

open Scalar
variable {α : Type} [ExactScalar α]

namespace Factor

variable {f : Factor α} {n : ℕ}

omit [ExactScalar α] in
def extend (f : Factor α) (n : ℕ) (values : List Bool) : List Bool :=
  (List.range n).map fun i => values[f.indices.idxOf i]?.getD false

omit [ExactScalar α] in
theorem getElem?_extend {values : List Bool} {i : ℕ} (hi : i < n) :
    (f.extend n values)[i]? = some (values[f.indices.idxOf i]?.getD false) := by
  rw [extend, List.getElem?_map, List.getElem?_range hi, Option.map_some]

omit [ExactScalar α] in
theorem restrict_extend (h : f.WellFormed n) {values : List Bool}
    (hlen : values.length = f.literals.length) : f.restrict (f.extend n values) = values := by
  apply List.ext_getElem (by rw [length_restrict, hlen])
  intro k hk hk'
  have hindex : k < f.indices.length := by rwa [length_indices, ← hlen]
  have hlt : f.indices[k] < n := h.index_lt _ (List.getElem_mem hindex)
  simp only [restrict, List.getElem_map, getElem?_extend hlt, h.nodup.idxOf_getElem k hindex,
    Option.getD_some, List.getElem?_eq_getElem hk']

/-- The literals of a point in the polytope, complemented back, are in the hull of the assignments
that the factor has a value for. -/
theorem map_mem_convexHull_feasiblePoints {x : Marginals α} (hx : x ∈ f.polytope) :
    Complement.map f.marks x.1 ∈ convexHull α f.feasiblePoints := by
  let holds (values : List Bool) : Bool := (f.localProblem.evaluate values f.additional).isSome
  let truths : Set (ℕ → α) := Projection.satisfying f.literals.length holds
  have hfeasible : f.feasiblePoints = {x | Complement.map f.marks x ∈ truths} :=
    Projection.satisfying_assignment f.length_marks holds
  have hconvex : Convex α (Set.preimage Prod.fst (convexHull α truths) : Set (Marginals α)) :=
    (convex_convexHull α truths).linear_preimage (LinearMap.fst α (ℕ → α) (ℕ → α))
  have hmem : x.1 ∈ convexHull α truths := by
    refine convexHull_min ?_ hconvex hx
    rintro _ ⟨values, v, hlen, hval, rfl⟩
    exact subset_convexHull α _ ⟨values, hlen, by simp [holds, hval], rfl⟩
  rw [hfeasible, Projection.convexHull_complement]
  change Complement.map f.marks (Complement.map f.marks x.1) ∈ convexHull α truths
  rwa [Complement.map_map]

/-- Where every assignment that the factor has a value for makes exactly one state of a variable
true, the states sum to one on the hull. -/
theorem sum_states_eq_one (h : f.WellFormed n) {m : MultiVariable}
    (hstates : ∀ state < m.numStates, m.firstState.id + state ∈ f.indices)
    (hone : ∀ values v, f.evaluate (f.restrict values) = some v → m.HasOneState values)
    {x : ℕ → α} (hx : x ∈ convexHull α f.feasiblePoints) :
    ∑ state ∈ Finset.range m.numStates, x (f.indices.idxOf (m.firstState.id + state)) = 1 := by
  have hlinear : IsLinearMap α fun x : ℕ → α =>
      ∑ state ∈ Finset.range m.numStates, x (f.indices.idxOf (m.firstState.id + state)) := by
    constructor
    · intro x y
      exact Finset.sum_add_distrib
    · intro t x
      exact (Finset.mul_sum _ _ _).symm
  refine convexHull_min ?_ (convex_hyperplane hlinear 1) hx
  rintro _ ⟨values, hlen, hsome, rfl⟩
  obtain ⟨v, hv⟩ := Option.isSome_iff_exists.mp hsome
  obtain ⟨chosen, ⟨hlt, htrue⟩, hunique⟩ :=
    hone (f.extend n values) v (by rwa [restrict_extend h hlen])
  have hvalue (state : ℕ) (hstate : state < m.numStates) :
      (Projection.ofValues values (f.indices.idxOf (m.firstState.id + state)) : α) =
        if state = chosen then 1 else 0 := by
    have hget : (f.extend n values)[m.firstState.id + state]? =
        some (values[f.indices.idxOf (m.firstState.id + state)]?.getD false) :=
      getElem?_extend (h.index_lt _ (hstates state hstate))
    rw [Projection.ofValues_eq_ite]
    by_cases hcase : state = chosen
    · rw [hcase] at hget ⊢
      rw [if_pos rfl, if_pos (Option.some.inj (hget.symm.trans htrue))]
    · rw [if_neg hcase, if_neg]
      intro hother
      exact hcase (hunique state ⟨hstate, by rw [hget, hother]⟩)
  change ∑ state ∈ Finset.range m.numStates, _ = 1
  rw [Finset.sum_congr rfl fun state hstate => hvalue state (Finset.mem_range.mp hstate),
    Finset.sum_ite_eq', if_pos (Finset.mem_range.mpr hlt)]

end Factor

namespace Worker

variable {workers : List (Worker α)} {quantity : Worker α → List α}

theorem map_filter_zip {keys : List ℕ} (hnodup : keys.Nodup) {xs : List α}
    (hlen : xs.length = keys.length) (i : ℕ) :
    ((keys.zip xs).filter fun o => o.1 == i).map (·.2) =
      if i ∈ keys then [coordinate xs (keys.idxOf i)] else [] := by
  induction keys generalizing xs with
  | nil => rfl
  | cons j keys ih =>
    obtain ⟨x, xs, rfl⟩ := List.exists_cons_of_length_eq_add_one hlen
    obtain ⟨hj, hnodup⟩ := List.nodup_cons.mp hnodup
    have hrest := ih hnodup (by simpa using hlen)
    by_cases hi : j = i
    · subst hi
      rw [if_neg hj] at hrest
      simp [hrest]
    · rw [List.zip_cons_cons, List.filter_cons_of_neg (by simpa using hi), hrest,
        List.idxOf_cons_ne _ hi, coordinate_cons_succ]
      simp [Ne.symm hi]

theorem valuesAt_singleton {w : Worker α} (hnodup : w.factor.indices.Nodup)
    (hlen : (quantity w).length = w.factor.literals.length) (i : ℕ) :
    valuesAt [w] quantity i =
      if i ∈ w.factor.indices then [coordinate (quantity w) (w.factor.indices.idxOf i)]
      else [] := by
  rw [← map_filter_zip hnodup (by rw [hlen, Factor.length_indices])]
  exact List.flatMap_singleton _ _

structure SumTo (workers : List (Worker α)) (quantity : Worker α → List α) (first count : ℕ)
    (degree : ℕ) : Prop where
  length_eq : ∀ k < count, (valuesAt workers quantity (first + k)).length = degree
  sum_eq : ∑ k ∈ Finset.range count, (valuesAt workers quantity (first + k)).sum = degree

theorem exists_sumTo {first count : ℕ}
    (h : ∀ w ∈ workers, ∃ degree, SumTo [w] quantity first count degree) :
    ∃ degree, SumTo workers quantity first count degree := by
  induction workers with
  | nil => exact ⟨0, fun _ _ => rfl, by simp [valuesAt]⟩
  | cons w workers ih =>
    obtain ⟨d, hlen, hsum⟩ := h w List.mem_cons_self
    obtain ⟨d', hlen', hsum'⟩ := ih fun u hu => h u (List.mem_cons_of_mem _ hu)
    have happend (i : ℕ) : valuesAt (w :: workers) quantity i =
        valuesAt [w] quantity i ++ valuesAt workers quantity i := by
      simp [valuesAt]
    refine ⟨d + d', fun k hk => ?_, ?_⟩
    · rw [happend, List.length_append, hlen k hk, hlen' k hk]
    · simp only [happend, List.sum_append]
      rw [Finset.sum_add_distrib, hsum, hsum', Nat.cast_add]

theorem exists_sumTo_singleton {w : Worker α} (hnodup : w.factor.indices.Nodup)
    (hlen : (quantity w).length = w.factor.literals.length) {first count : ℕ}
    (h : (∀ k < count, first + k ∉ w.factor.indices) ∨
      (∀ k < count, first + k ∈ w.factor.indices) ∧
        ∑ k ∈ Finset.range count,
          coordinate (quantity w) (w.factor.indices.idxOf (first + k)) = 1) :
    ∃ degree, SumTo [w] quantity first count degree := by
  rcases h with hnone | ⟨hall, hsum⟩
  · refine ⟨0, fun k hk => ?_, ?_⟩
    · rw [valuesAt_singleton hnodup hlen, if_neg (hnone k hk), List.length_nil]
    · rw [Nat.cast_zero]
      refine Finset.sum_eq_zero fun k hk => ?_
      rw [valuesAt_singleton hnodup hlen, if_neg (hnone k (Finset.mem_range.mp hk)), List.sum_nil]
  · refine ⟨1, fun k hk => ?_, ?_⟩
    · rw [valuesAt_singleton hnodup hlen, if_pos (hall k hk), List.length_singleton]
    · rw [Nat.cast_one, ← hsum]
      refine Finset.sum_congr rfl fun k hk => ?_
      rw [valuesAt_singleton hnodup hlen, if_pos (hall k (Finset.mem_range.mp hk)),
        List.sum_singleton]

open ActiveSet (IsZeroOrLarge)

/-- The posteriors of a dense factor or of one that makes exactly one literal true lie in the hull
of the assignments that the factor has a value for. -/
theorem HasDistribution.posteriors_mem_convexHull {w : Worker α} (h : w.HasDistribution)
    (hfits : w.factor.kind.Fits w.factor.literals.length w.factor.numAdditionals)
    (haligned : w.IsAligned)
    (hkind : (∃ sizes, w.factor.kind = .dense sizes) ∨ w.factor.IsLogic .xor)
    (consensus logPotentials : List α) (degrees : List ℕ) (stepSize : α) (limit : ℕ)
    (hschurs : ∀ x ∈ w.projectSchurs consensus logPotentials degrees stepSize limit,
      IsZeroOrLarge x) :
    coordinate (w.project consensus logPotentials degrees stepSize limit).posteriors ∈
      convexHull α w.factor.feasiblePoints := by
  rcases hkind with ⟨sizes, hdense⟩ | hlogic
  · obtain ⟨o, ho⟩ : ∃ o, w.factor.localProblem = .oracle o := by
      unfold Factor.localProblem
      rw [hdense]
      exact ⟨_, rfl⟩
    have hmem := Factor.map_mem_convexHull_feasiblePoints
      (h.project_of_oracle consensus logPotentials degrees stepSize limit hfits haligned ho
        hschurs).2
    have hmarks : w.factor.marks.length =
        (w.project consensus logPotentials degrees stepSize limit).posteriors.length := by
      rw [length_posteriors_project haligned, Factor.length_marks]
    rwa [Marginals.ofLists, Complement.coordinate_point hmarks, Complement.map_map] at hmem
  · have hmem :=
      (isProjection_logic consensus logPotentials degrees stepSize limit hlogic haligned).mem
    have hcondition : LogicOperator.xor.condition ≠ .lastIsDisjunction := by decide
    rw [TruthCondition.slackHull_eq hcondition _ _ 0, ← Factor.convexHull_feasiblePoints hlogic]
      at hmem
    exact hmem

end Worker

namespace Relaxation

theorem IsConserved.sum_eq_one {p : Problem α} {fixed : List (Option Bool)}
    {workers : List (Worker α)} {consensus : List α} (h : IsConserved p fixed workers consensus)
    {first count : ℕ} (hpos : 0 < count) (hlt : first + count ≤ p.numVariables)
    (hfree : ∀ i : ℕ, fixed[i]?.join = none)
    (hoccurs : ∀ k < count, ∃ f ∈ p.factors, first + k ∈ f.indices)
    (hworkers : ∀ w ∈ workers, ∃ degree, Worker.SumTo [w] Worker.posteriors first count degree) :
    ∑ k ∈ Finset.range count, coordinate consensus (first + k) = 1 := by
  obtain ⟨degree, hlen, hsum⟩ := Worker.exists_sumTo hworkers
  have hvalue (k : ℕ) (hk : k < count) : coordinate consensus (first + k) =
      (Worker.valuesAt workers Worker.posteriors (first + k)).sum / (degree : α) := by
    rw [coordinate_of_getElem? (h.consensus_eq (by omega) (hfree _) (hoccurs k hk)), hlen k hk]
  have hdegree : (degree : α) ≠ 0 := by
    have hcount : degree = ((workers.map (·.factor)).flatMap Factor.indices).count (first + 0) := by
      rw [← hlen 0 hpos, Worker.length_valuesAt fun w hw => h.length_posteriors hw]
    rw [hcount, h.factors_eq, Nat.cast_ne_zero]
    exact (List.count_pos_iff.mpr (List.mem_flatMap.mpr (hoccurs 0 hpos))).ne'
  rw [Finset.sum_congr rfl fun k hk => hvalue k (Finset.mem_range.mp hk), ← Finset.sum_div, hsum,
    div_self hdegree]

end Relaxation

def Factor.IsOver (f : Factor α) (m : MultiVariable) : Prop :=
  ∃ v ∈ m.states, v.id ∈ f.indices

instance (f : Factor α) (m : MultiVariable) : Decidable (f.IsOver m) :=
  inferInstanceAs (Decidable (∃ v ∈ m.states, v.id ∈ f.indices))

theorem Solution.exists_stateMarginals {s : Solution α} {m : MultiVariable}
    (h : m.firstState.id + m.numStates ≤ s.marginals.length) :
    ∃ xs, s.stateMarginals m = .ok xs ∧ xs.length = m.numStates ∧
      xs.sum = ∑ state ∈ Finset.range m.numStates,
        coordinate s.marginals (m.firstState.id + state) := by
  let xs := (s.marginals.take (m.firstState.id + m.numStates)).drop m.firstState.id
  have hlen : xs.length = m.numStates := by
    rw [List.length_drop, List.length_take, min_eq_left h]
    exact Nat.add_sub_cancel_left _ _
  refine ⟨xs, if_pos ⟨Nat.le_add_right _ _, h⟩, hlen, ?_⟩
  rw [sum_eq_sum_coordinate hlen.le]
  refine Finset.sum_congr rfl fun state hstate => ?_
  have hlt := Nat.add_lt_add_left (Finset.mem_range.mp hstate) m.firstState.id
  rw [coordinate, List.getElem?_drop, List.getElem?_take_of_lt hlt]
  rfl

namespace FactorGraph

variable {σ : Type} {g : FactorGraph α} {m : MultiVariable}

/-- The Schur complements that the root relaxation of a solve meets. -/
def rootSchurs (g : FactorGraph α) (options : Options α) : List α :=
  let r : Restriction α :=
    { problem := g.sealed.problem, fixed := List.replicate g.sealed.numBinary none }
  (Relaxation.State.start r options).runSchurs r options options.maxIterations

omit [ExactScalar α] in
theorem mem_indices_of_literals {f : Factor α}
    (h : ∀ v ∈ m.states, v.literal ∈ f.literals) :
    ∀ state < m.numStates, m.firstState.id + state ∈ f.indices := by
  intro state hstate
  have hmem : (⟨m.firstState.id + state⟩ : BinaryVariable) ∈ m.states :=
    MultiVariable.mem_states.mpr ⟨Nat.le_add_right _ _, Nat.add_lt_add_left hstate _⟩
  exact List.mem_map.mpr ⟨_, h _ hmem, rfl⟩

omit [ExactScalar α] in
theorem IsLaidOut.exists_denseShape (h : g.IsLaidOut) (hm : m ∈ g.multiVariables) {f : Factor α}
    (hf : f ∈ g.problem.factors) (hover : f.IsOver m) {sizes : List ℕ}
    (hkind : f.kind = .dense sizes) : ∃ vars, m ∈ vars ∧ f.shape = denseShape vars := by
  have hshape : f.shape ∈ g.shapes := by
    obtain ⟨w, hw, rfl⟩ := List.mem_map.mp hf
    exact List.mem_map_of_mem hw
  obtain ⟨vars, hvars, hcovered⟩ := h.dense _ hshape sizes hkind
  obtain ⟨v, hv, hindex⟩ := hover
  obtain ⟨l, hl, hid⟩ := List.mem_map.mp hindex
  rw [show f.literals = _ from congrArg Prod.fst hvars] at hl
  obtain ⟨m', hm', hl⟩ := List.mem_flatMap.mp hl
  obtain ⟨v', hv', rfl⟩ := List.mem_map.mp hl
  have hsame : v' = v := congrArg BinaryVariable.mk hid
  have hmulti := h.mem_multiVariables m' (hcovered m' hm')
  exact ⟨vars, h.eq_of_mem_states hm hmulti hv (hsame ▸ hv') ▸ hm', hvars⟩

omit [ExactScalar α] in
theorem IsGrouped.exists_grouping (h : g.IsGrouped) (hm : m ∈ g.multiVariables) :
    ∃ f ∈ g.sealed.problem.factors, ∀ v ∈ m.states, v.literal ∈ f.literals := by
  have hfactor {shape : List Literal × FactorKind} (hshape : shape ∈ g.sealed.shapes) :
      ∃ f ∈ g.sealed.problem.factors, f.literals = shape.1 := by
    obtain ⟨w, hw, rfl⟩ := List.mem_map.mp hshape
    exact ⟨w.factor, List.mem_map_of_mem hw, rfl⟩
  rcases h.exists_shape hm with ⟨vars, hvars, hshape⟩ | hshape
  · obtain ⟨f, hf, hliterals⟩ := hfactor hshape
    refine ⟨f, hf, fun v hv => ?_⟩
    rw [hliterals]
    exact List.mem_flatMap.mpr ⟨m, hvars, List.mem_map_of_mem hv⟩
  · obtain ⟨f, hf, hliterals⟩ := hfactor hshape
    refine ⟨f, hf, fun v hv => ?_⟩
    rw [hliterals]
    exact List.mem_map_of_mem hv

/-- A factor that groups the states of a variable, in either way, has all of them, and a value only
where exactly one of them is true. -/
theorem IsLaidOut.groups_states (h : g.IsLaidOut) (hm : m ∈ g.multiVariables) {f : Factor α}
    (hf : f ∈ g.problem.factors) (hover : f.IsOver m)
    (hgroups : (∃ sizes, f.kind = .dense sizes) ∨ f = exactlyOneState m) :
    (∀ state < m.numStates, m.firstState.id + state ∈ f.indices) ∧
      (∀ values v, f.evaluate (f.restrict values) = some v → m.HasOneState values) ∧
      ((∃ sizes, f.kind = .dense sizes) ∨ f.IsLogic .xor) := by
  rcases hgroups with ⟨sizes, hkind⟩ | rfl
  · obtain ⟨vars, hvars, hshape⟩ := h.exists_denseShape hm hf hover hkind
    refine ⟨mem_indices_of_literals fun v hv => ?_,
      fun values v hval => Factor.hasOneState_of_denseShape hshape hval m hvars,
      Or.inl ⟨sizes, hkind⟩⟩
    rw [show f.literals = _ from congrArg Prod.fst hshape]
    exact List.mem_flatMap.mpr ⟨m, hvars, List.mem_map_of_mem hv⟩
  · have hlength : (exactlyOneState m : Factor α).literals.length = m.numStates := by
      simp [exactlyOneState]
    refine ⟨mem_indices_of_literals fun v hv => List.mem_map_of_mem hv,
      fun values v hval => Factor.hasOneState_of_exactlyOneShape rfl hval, Or.inr ⟨?_, ?_⟩⟩
    · rw [hlength]
      rfl
    · rw [hlength]
      exact (h.hasStates m hm).1

theorem sum_consensus_eq_one (h : g.Reachable) {options : Options α}
    (hrounds : 1 ≤ options.maxIterations) (hm : m ∈ g.multiVariables)
    (hgroups : ∀ f ∈ g.sealed.problem.factors, f.IsOver m →
      (∃ sizes, f.kind = .dense sizes) ∨ f = exactlyOneState m)
    (hschurs : ∀ x ∈ g.rootSchurs options, ActiveSet.IsZeroOrLarge x) :
    ∑ state ∈ Finset.range m.numStates,
      coordinate (g.begin options).root.consensus (m.firstState.id + state) = 1 := by
  let r : Restriction α :=
    { problem := g.sealed.problem, fixed := List.replicate g.sealed.numBinary none }
  have hwf := h.isConsistent.sealed.wellFormed_problem
  have hlaid : g.sealed.IsLaidOut := h.isLaidOut.sealed h.isGrouped
  obtain ⟨hpos, hle⟩ := h.isConsistent.hasStates m hm
  obtain ⟨grouping, hgrouping, hliterals⟩ := h.isGrouped.exists_grouping hm
  obtain ⟨t, ht, hrun⟩ := Relaxation.State.exists_mem_rounds r options
    (Relaxation.State.start r options) hrounds
  obtain ⟨hreached, hdistribution, hmet⟩ :=
    Relaxation.State.hasDistribution_rounds (r := r) rfl hwf hschurs t ht
  obtain ⟨hshaped, hbalanced⟩ := hreached.isShaped_isBalanced rfl
  have hround : Relaxation.IsConserved r.problem r.fixed (t.round r options).workers
      (t.round r options).consensus := Relaxation.State.isConserved_round hshaped hbalanced rfl
  have hconsensus : (g.begin options).root.consensus = (t.round r options).consensus := by
    rw [← (t.advance_spec r options).2.1, ← hrun]
    rfl
  rw [hconsensus]
  refine hround.sum_eq_one hpos hle (fun i => ?_) (fun state hstate => ?_) fun w hw => ?_
  · rw [List.getElem?_replicate]
    split_ifs <;> rfl
  · exact ⟨grouping, hgrouping, mem_indices_of_literals hliterals state hstate⟩
  · obtain ⟨u, hu, rfl, hfits, haligned, hschurs⟩ :=
      Relaxation.State.exists_projected hshaped hwf hmet hw
    have hfactor : u.factor ∈ g.sealed.problem.factors :=
      hshaped.factors_eq ▸ List.mem_map_of_mem hu
    refine Worker.exists_sumTo_singleton ?_ (hround.length_posteriors hw) ?_
    · exact (hwf _ hfactor).nodup
    by_cases hover : u.factor.IsOver m
    · obtain ⟨hstates, hone, hkind⟩ :=
        hlaid.groups_states hm hfactor hover (hgroups _ hfactor hover)
      exact Or.inr ⟨hstates, Factor.sum_states_eq_one (hwf _ hfactor) hstates hone
        ((hdistribution u hu).posteriors_mem_convexHull hfits haligned hkind _ _ _ _ _ hschurs)⟩
    · refine Or.inl fun state hstate hindex => hover ⟨⟨m.firstState.id + state⟩, ?_, hindex⟩
      exact MultiVariable.mem_states.mpr
        ⟨Nat.le_add_right _ _, Nat.add_lt_add_left hstate _⟩

/-- The marginals of the states of a multi-state variable that only dense factors are over, or only
the factor that the seal has added for it, sum to one in every fractional solution, however early
the rounds have ended. -/
theorem sum_stateMarginals_solve (h : g.Reachable) {options : Options α}
    (hrounds : 1 ≤ options.maxIterations) (monitor : Monitor σ) (s : σ)
    (hm : m ∈ g.multiVariables)
    (hfactors : (∀ f ∈ g.sealed.problem.factors, f.IsOver m → ∃ sizes, f.kind = .dense sizes) ∨
      ∀ f ∈ g.sealed.problem.factors, f.IsOver m → f = exactlyOneState m)
    (hschurs : ∀ x ∈ g.rootSchurs options, x = 0 ∨ 1 / 10 ^ 12 ≤ |x|)
    (hstatus : (g.solve options monitor s).1.solution.status = .fractional) :
    ∃ xs, (g.solve options monitor s).1.solution.stateMarginals m = .ok xs ∧
      xs.length = m.numStates ∧ xs.sum = 1 := by
  rw [← Matrix.pivotTolerance_eq] at hschurs
  have hsum := sum_consensus_eq_one h hrounds hm (fun f hf hover =>
    hfactors.imp (fun hdense => hdense f hf hover) fun hown => hown f hf hover) hschurs
  obtain ⟨statistics, status, bound, hsolution⟩ := exists_relaxedSolution g options monitor s
    (by rw [hstatus]; exact nofun) (by rw [hstatus]; exact nofun)
  have hmarginals : (g.solve options monitor s).1.solution.marginals =
      (g.begin options).root.consensus := by
    rw [hsolution]
    rfl
  have hle : m.firstState.id + m.numStates ≤
      (g.solve options monitor s).1.solution.marginals.length := by
    rw [hmarginals, (isSound_begin h.isConsistent options).length_consensus]
    exact (h.isConsistent.hasStates m hm).2
  obtain ⟨xs, hxs, hlen, hxsum⟩ := Solution.exists_stateMarginals hle
  rw [hmarginals, hsum] at hxsum
  exact ⟨xs, hxs, hlen, hxsum⟩

def differing (m m' : MultiVariable) : Factor ℚ :=
  ⟨(m.states ++ m'.states).map BinaryVariable.literal, [0, 3, 3, 0], .dense [2, 2]⟩

/-- Three variables of two states, each two of which are to differ, and one of three states. -/
def triangle : FactorGraph ℚ :=
  { (empty : FactorGraph ℚ) with
    logPotentials := ⟨[1, 0, 0, 0, 0, 0, 0, 1 / 4, 0]⟩
    multiVariables := [⟨0, ⟨0⟩, 2⟩, ⟨1, ⟨2⟩, 2⟩, ⟨2, ⟨4⟩, 2⟩, ⟨3, ⟨6⟩, 3⟩]
    coveredByDense :=
      [⟨0, ⟨0⟩, 2⟩, ⟨1, ⟨2⟩, 2⟩, ⟨1, ⟨2⟩, 2⟩, ⟨2, ⟨4⟩, 2⟩, ⟨2, ⟨4⟩, 2⟩, ⟨0, ⟨0⟩, 2⟩]
    factors := ⟨[⟨differing ⟨0, ⟨0⟩, 2⟩ ⟨1, ⟨2⟩, 2⟩, {}⟩, ⟨differing ⟨1, ⟨2⟩, 2⟩ ⟨2, ⟨4⟩, 2⟩, {}⟩,
      ⟨differing ⟨2, ⟨4⟩, 2⟩ ⟨0, ⟨0⟩, 2⟩, {}⟩]⟩
    numDeclared := 3 }

theorem reachable_triangle : triangle.Reachable := by
  have hempty : (FactorGraph.empty : FactorGraph ℚ).Reachable := .empty
  have hfirst := @Reachable.addMulti _ _ _ _ 2 _ hempty (by decide) rfl
  have hsecond := @Reachable.addMulti _ _ _ _ 2 _ hfirst (by decide) rfl
  have hthird := @Reachable.addMulti _ _ _ _ 2 _ hsecond (by decide) rfl
  have hfourth := @Reachable.addMulti _ _ _ _ 3 _ hthird (by decide) rfl
  have hset := @Reachable.setLogPotential _ _ _ _ ⟨0⟩ (1 : ℚ) hfourth rfl
  have hset' := @Reachable.setLogPotential _ _ _ _ ⟨7⟩ (1 / 4 : ℚ) hset rfl
  have hdense := @Reachable.declare _ _ _ _ (.dense [⟨0, ⟨0⟩, 2⟩, ⟨1, ⟨2⟩, 2⟩] [0, 3, 3, 0]) _
    hset' rfl
  have hdense' := @Reachable.declare _ _ _ _ (.dense [⟨1, ⟨2⟩, 2⟩, ⟨2, ⟨4⟩, 2⟩] [0, 3, 3, 0]) _
    hdense rfl
  exact @Reachable.declare _ _ _ _ (.dense [⟨2, ⟨4⟩, 2⟩, ⟨0, ⟨0⟩, 2⟩] [0, 3, 3, 0]) _ hdense' rfl

/-- The first variable is in two dense factors, the last one only in the factor of its own. -/
theorem sum_stateMarginals_solve_triangle :
    let options : Options ℚ := { Options.standard with stepSize := 1, maxIterations := 3 }
    let solution := (triangle.solve options (Condition.monitor 0) .indefinite).1.solution
    1 ≤ options.maxIterations ∧ triangle.rootSchurs options = [4, 4, 4] ∧
      solution.status = .fractional ∧
      solution.marginals =
        [11 / 16, 5 / 16, 13 / 32, 19 / 32, 13 / 32, 19 / 32, 1 / 12, 5 / 6, 1 / 12] ∧
      (∃ xs, solution.stateMarginals ⟨0, ⟨0⟩, 2⟩ = .ok xs ∧ xs.length = 2 ∧ xs.sum = 1) ∧
      ∃ xs, solution.stateMarginals ⟨3, ⟨6⟩, 3⟩ = .ok xs ∧ xs.length = 3 ∧ xs.sum = 1 := by
  intro options solution
  have hrounds : 1 ≤ options.maxIterations := by decide
  have hmet : triangle.rootSchurs options = [4, 4, 4] := by decide +kernel
  have hschurs : ∀ x ∈ triangle.rootSchurs options, x = 0 ∨ 1 / 10 ^ 12 ≤ |x| := by
    rw [hmet]
    norm_num
  have hstatus : solution.status = .fractional := by decide +kernel
  have hcases {f : Factor ℚ} (hf : f ∈ triangle.sealed.problem.factors) :
      f = differing ⟨0, ⟨0⟩, 2⟩ ⟨1, ⟨2⟩, 2⟩ ∨ f = differing ⟨1, ⟨2⟩, 2⟩ ⟨2, ⟨4⟩, 2⟩ ∨
        f = differing ⟨2, ⟨4⟩, 2⟩ ⟨0, ⟨0⟩, 2⟩ ∨ f = exactlyOneState ⟨3, ⟨6⟩, 3⟩ := by
    change f ∈ [_, _, _, _] at hf
    simpa using hf
  refine ⟨hrounds, hmet, hstatus, by decide +kernel, ?_, ?_⟩
  · refine sum_stateMarginals_solve reachable_triangle hrounds (Condition.monitor 0) .indefinite
      (by decide) (Or.inl fun f hf hover => ?_) hschurs hstatus
    rcases hcases hf with rfl | rfl | rfl | rfl
    · exact ⟨_, rfl⟩
    · exact ⟨_, rfl⟩
    · exact ⟨_, rfl⟩
    · exact absurd hover (by decide)
  · refine sum_stateMarginals_solve reachable_triangle hrounds (Condition.monitor 0) .indefinite
      (by decide) (Or.inr fun f hf hover => ?_) hschurs hstatus
    rcases hcases hf with rfl | rfl | rfl | rfl
    · exact absurd hover (by decide)
    · exact absurd hover (by decide)
    · exact absurd hover (by decide)
    · rfl

end FactorGraph
end MapInference
