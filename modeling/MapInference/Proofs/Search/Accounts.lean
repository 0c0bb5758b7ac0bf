import MapInference.Proofs.Relaxation.Rounds
import MapInference.Proofs.Search.Nodes
import MapInference.Proofs.Search.Workers

/-!
# Accounting for assignments

Throughout the search, every feasible assignment agrees with an open node, whose bound covers its
value, or the incumbent is as good up to a tolerance. A node leaves the frontier for its children,
for an incumbent that its bound cannot improve on, or because no feasible assignment agrees with it.
-/

namespace MapInference

open Scalar
variable {α : Type} [ExactScalar α]

namespace Search

/-- How much better than the incumbent an assignment of value `v` may be when the search ends. -/
def tolerance (v : α) : α := 2 / 10 ^ 6 * max 1 |v|

theorem tolerance_nonneg (v : α) : 0 ≤ tolerance v := by
  unfold tolerance
  positivity

theorem mul_max_le_tolerance {ε v b : α} (hε : ε ≤ 1 / 10 ^ 6)
    (h : |b - v| ≤ ε * max |b| 1) : ε * max |b| 1 ≤ tolerance v := by
  have hmax : max |b| 1 ≤ 2 * max 1 |v| := by
    have hone : (1 : α) ≤ max 1 |v| := le_max_left _ _
    have hv : |v| ≤ max 1 |v| := le_max_right _ _
    have hb : |b| - |v| ≤ ε * max |b| 1 := (abs_sub_abs_le_abs_sub b v).trans h
    have hhalf : ε * max |b| 1 ≤ 1 / 2 * max |b| 1 := by
      refine mul_le_mul_of_nonneg_right (hε.trans ?_) (by positivity)
      norm_num
    rcases le_total |b| 1 with h1 | h1
    · rw [max_eq_right h1]
      linarith
    · rw [max_eq_left h1] at hhalf hb ⊢
      linarith
  calc ε * max |b| 1 ≤ 1 / 10 ^ 6 * (2 * max 1 |v|) :=
        mul_le_mul hε hmax (by positivity) (by positivity)
    _ = tolerance v := by
        unfold tolerance
        ring

/-- Between an incumbent and a bound that certifies an assignment which is no better, there is no
more than the tolerance. -/
theorem le_add_tolerance_of_certified {v value best b : α} (hv : v ≤ b) (hvalue : value ≤ best)
    (hb : b - value ≤ 1 / 10 ^ 6 * max |b| 1) : v ≤ best + tolerance v := by
  rcases le_or_gt v best with h | h
  · exact h.trans (le_add_of_nonneg_right (tolerance_nonneg v))
  · have hnear : |b - v| ≤ 1 / 10 ^ 6 * max |b| 1 := by
      rw [abs_of_nonneg (sub_nonneg.mpr hv)]
      linarith
    have := mul_max_le_tolerance le_rfl hnear
    linarith

theorem le_add_tolerance_of_pruned {v best : α}
    (h : v ≤ best + 1 / 10 ^ 9 * max |best| 1) : v ≤ best + tolerance v := by
  rcases le_or_gt v best with hle | hlt
  · exact hle.trans (le_add_of_nonneg_right (tolerance_nonneg v))
  · have hnear : |best - v| ≤ 1 / 10 ^ 9 * max |best| 1 := by
      rw [abs_sub_comm, abs_of_pos (sub_pos.mpr hlt)]
      linarith
    have hε : (1 / 10 ^ 9 : α) ≤ 1 / 10 ^ 6 := by
      apply one_div_le_one_div_of_le <;> norm_num
    have := mul_max_le_tolerance hε hnear
    linarith

variable {σ : Type} {p : Problem α} {s : State α σ}

/-- An assignment of value `v` agrees with an open node or is not much better than the incumbent. -/
def Accounted (frontier : List (Node α)) (incumbent : Option (Integral α)) (values : List Bool)
    (v : α) : Prop :=
  (∃ node ∈ frontier, Agrees node.fixed values ∧ node.bound.Covers v) ∨
    ∃ a, incumbent = some a ∧ v ≤ a.value + tolerance v

structure IsSound (p : Problem α) (s : State α σ) : Prop where
  factors_eq : s.workers.map (·.factor) = p.factors
  length_fixed : ∀ node ∈ s.frontier, node.fixed.length = p.numVariables
  incumbent_eq {a : Integral α} : s.incumbent = some a →
    a.assignment.length = p.numVariables ∧ p.value? a.assignment = some a.value
  accounted {values : List Bool} {v : α} : values.length = p.numVariables →
    p.value? values = some v → Accounted s.frontier s.incumbent values v

theorem Accounted.mono {frontier frontier' : List (Node α)}
    {incumbent incumbent' : Option (Integral α)} {values : List Bool} {v : α}
    (h : Accounted frontier incumbent values v) (hsub : frontier ⊆ frontier')
    (hbetter : ∀ a, incumbent = some a → ∃ b, incumbent' = some b ∧ a.value ≤ b.value) :
    Accounted frontier' incumbent' values v := by
  rcases h with ⟨node, hnode, hagree, hcovers⟩ | ⟨a, ha, hle⟩
  · exact Or.inl ⟨node, hsub hnode, hagree, hcovers⟩
  · obtain ⟨b, hb, hab⟩ := hbetter a ha
    exact Or.inr ⟨b, hb, by linarith⟩

theorem exists_incumbent_offer (s : State α σ) (a : Integral α) :
    ∃ b, (s.offer? (some a)).incumbent = some b ∧ a.value ≤ b.value := by
  simp only [State.offer?, State.offer]
  split_ifs with h
  · exact ⟨a, rfl, le_rfl⟩
  · cases hs : s.incumbent with
    | none => simp [improves, hs] at h
    | some b => exact ⟨b, rfl, by simpa [improves, hs] using h⟩

theorem exists_incumbent_offer? (s : State α σ) (a? : Option (Integral α)) {b : Integral α}
    (h : s.incumbent = some b) :
    ∃ c, (s.offer? a?).incumbent = some c ∧ b.value ≤ c.value := by
  cases a? with
  | none => exact ⟨b, h, le_rfl⟩
  | some a =>
    simp only [State.offer?, State.offer]
    split_ifs with himproves
    · have hlt : b.value < a.value := by simpa [improves, h] using himproves
      exact ⟨a, rfl, hlt.le⟩
    · exact ⟨b, h, le_rfl⟩

/-- A step keeps the invariant when it accounts for the assignments of the node that it treats. -/
theorem IsSound.replace {t : State α σ} {node : Node α} {rest : List (Node α)}
    (h : IsSound p s) (children : List (Node α)) (hs : s.frontier = node :: rest)
    (hfactors : t.workers.map (·.factor) = p.factors) (ht : t.frontier = children ++ rest)
    (hlength : ∀ child ∈ children, child.fixed.length = p.numVariables)
    (hincumbent : ∀ a, t.incumbent = some a →
      a.assignment.length = p.numVariables ∧ p.value? a.assignment = some a.value)
    (hbetter : ∀ a, s.incumbent = some a → ∃ b, t.incumbent = some b ∧ a.value ≤ b.value)
    (haccounted : ∀ values v, values.length = p.numVariables → p.value? values = some v →
      Agrees node.fixed values → node.bound.Covers v →
      Accounted children t.incumbent values v) : IsSound p t := by
  constructor
  case factors_eq => exact hfactors
  case length_fixed =>
    intro child hchild
    rw [ht] at hchild
    rcases List.mem_append.mp hchild with hchild | hchild
    · exact hlength child hchild
    · exact h.length_fixed child (hs ▸ List.mem_cons_of_mem _ hchild)
  case incumbent_eq => exact hincumbent _
  case accounted =>
    intro values v hlen hv
    rw [ht]
    rcases h.accounted hlen hv with ⟨other, hother, hagree, hcovers⟩ | ⟨a, ha, hle⟩
    · rw [hs] at hother
      rcases List.mem_cons.mp hother with rfl | hother
      · exact (haccounted values v hlen hv hagree hcovers).mono
          (List.subset_append_left children rest) fun a ha => ⟨a, ha, le_rfl⟩
      · exact Or.inl ⟨other, List.mem_append_right _ hother, hagree, hcovers⟩
    · obtain ⟨b, hb, hab⟩ := hbetter a ha
      exact Or.inr ⟨b, hb, by linarith⟩

/-- What the bound of a node covers is not much better than an incumbent that the bound cannot
improve on. -/
theorem accounted_of_cannotImprove {frontier : List (Node α)} {incumbent : Option (Integral α)}
    {bound : Extended α} (h : cannotImprove bound incumbent) {values : List Bool} {v : α}
    (hv : bound.Covers v) : Accounted frontier incumbent values v := by
  cases incumbent with
  | none => simp [cannotImprove] at h
  | some a =>
    refine Or.inr ⟨a, rfl, le_add_tolerance_of_pruned ?_⟩
    have hle := hv.le_of_atMost h
    simpa [pruningTolerance, tenthPower_eq] using hle

theorem accounted_of_certified {fixed : List (Option Bool)} {x : Relaxation α}
    (hx : x.IsSound p fixed) (hcertified : x.certified) {frontier : List (Node α)}
    {incumbent : Option (Integral α)}
    (hbetter : ∀ a, x.integral = some a → ∃ b, incumbent = some b ∧ a.value ≤ b.value)
    {values : List Bool} {v : α} (hagree : Agrees fixed values) (hv : p.value? values = some v) :
    Accounted frontier incumbent values v := by
  obtain ⟨a, b, ha, hb, hgap⟩ := hx.certified hcertified
  obtain ⟨best, hbest, hle⟩ := hbetter a ha
  have hcovers := hx.covers hagree hv
  rw [hb, Extended.covers_value] at hcovers
  refine Or.inr ⟨best, hbest, le_add_tolerance_of_certified hcovers hle ?_⟩
  simpa [Relaxation.gapTolerance, tenthPower_eq] using hgap

section Step

variable (monitor : Monitor σ) (options : Options α) {node : Node α} {rest : List (Node α)}

theorem integral_eq_of_isSound {fixed : List (Option Bool)} {x : Relaxation α}
    (hx : x.IsSound p fixed) {a : Integral α} (ha : x.integral = some a) :
    a.assignment.length = p.numVariables ∧ p.value? a.assignment = some a.value := by
  obtain ⟨hassignment, hvalue⟩ := Problem.integral?_assignment (hx.integral_eq ha).1
  refine ⟨?_, hassignment ▸ hvalue⟩
  rw [hassignment, Relaxation.rounded, List.length_map, hx.length_consensus]

theorem IsSound.explore (hwf : ∀ f ∈ p.factors, f.WellFormed p.numVariables) (h : IsSound p s)
    (hs : s.frontier = node :: rest) (hopen : 0 < numOpen node.fixed) (m : σ) :
    IsSound p ({ s with monitorState := m, frontier := rest }.explore monitor p options node) := by
  let u : State α σ := { s with monitorState := m, frontier := rest }
  let x := Relaxation.solve p node.fixed options
  let bound := Extended.min x.bound node.bound
  let t := (u.record monitor x).offer? x.integral
  have hfixed : node.fixed.length = p.numVariables :=
    h.length_fixed node (hs ▸ List.mem_cons_self)
  have hx : x.IsSound p node.fixed := Relaxation.isSound_solve hwf hfixed options
  have hworkers : t.workers.map (·.factor) = p.factors := by
    rw [workers_offer?]
    exact hx.factors_eq
  have hfrontier : t.frontier = rest := frontier_offer? _ _
  have hincumbent : ∀ a, t.incumbent = some a →
      a.assignment.length = p.numVariables ∧ p.value? a.assignment = some a.value := by
    intro a ha
    rcases incumbent_offer?_eq _ ha with ha | ha
    · exact integral_eq_of_isSound hx ha
    · exact h.incumbent_eq ha
  have hbetter : ∀ a, s.incumbent = some a → ∃ b, t.incumbent = some b ∧ a.value ≤ b.value :=
    fun a ha => exists_incumbent_offer? (u.record monitor x) x.integral ha
  have hoffered : ∀ a, x.integral = some a → ∃ b, t.incumbent = some b ∧ a.value ≤ b.value := by
    intro a ha
    simp only [t, ha]
    exact exists_incumbent_offer _ a
  have hcovers {values : List Bool} {v : α} (hagree : Agrees node.fixed values)
      (hv : p.value? values = some v) (hnode : node.bound.Covers v) : bound.Covers v :=
    Extended.covers_min.mpr ⟨hx.covers hagree hv, hnode⟩
  change IsSound p (if x.certified || cannotImprove bound t.incumbent then t.prune
    else { t with frontier := split options x.consensus node.fixed bound ++ t.frontier })
  split_ifs with hdone
  · refine h.replace [] hs hworkers hfrontier (by simp) hincumbent hbetter ?_
    intro values v _ hv hagree hnode
    rcases Bool.or_eq_true_iff.mp hdone with hcertified | hcannot
    · exact accounted_of_certified hx hcertified hoffered hagree hv
    · exact accounted_of_cannotImprove hcannot (hcovers hagree hv hnode)
  · refine h.replace (split options x.consensus node.fixed bound) hs hworkers
      (congrArg _ hfrontier) ?_ hincumbent hbetter ?_
    · intro child hchild
      rw [length_fixed_of_mem_split hchild, hfixed]
    · intro values v hlen hv hagree hnode
      obtain ⟨child, hchild, hchildAgrees, hbound⟩ :=
        exists_mem_split options x.consensus bound hagree (hlen.trans hfixed.symm) hopen
      exact Or.inl ⟨child, hchild, hchildAgrees, hbound ▸ hcovers hagree hv hnode⟩

/-- Treating a node keeps the invariant. The cases are the reasons for which a node is discarded,
and its exploration. -/
theorem IsSound.process (hwf : ∀ f ∈ p.factors, f.WellFormed p.numVariables) (h : IsSound p s)
    (hs : s.frontier = node :: rest) (m : σ) :
    IsSound p ({ s with monitorState := m, frontier := rest }.process monitor p options node) := by
  have hself : ∀ a, s.incumbent = some a → ∃ b, s.incumbent = some b ∧ a.value ≤ b.value :=
    fun a ha => ⟨a, ha, le_rfl⟩
  unfold State.process
  split_ifs with hcannot hadmits hall
  · refine h.replace [] hs h.factors_eq rfl (by simp) (fun _ => h.incumbent_eq)
      hself ?_
    intro values v _ _ _ hnode
    exact accounted_of_cannotImprove hcannot hnode
  · refine h.replace [] hs h.factors_eq rfl (by simp) (fun _ => h.incumbent_eq)
      hself ?_
    -- Every factor admits what a feasible assignment agrees with.
    intro values v _ hv hagree _
    have hadmitted : (p.factors.all fun f => f.admits node.fixed) = true :=
      Problem.admits_of_value? hwf hagree hv
    simp [hadmitted] at hadmits
  · have hfixed : node.fixed.length = p.numVariables :=
      h.length_fixed node (hs ▸ List.mem_cons_self)
    refine h.replace [] hs ?_ (frontier_offer? _ _) (by simp) ?_ ?_ ?_
    · rw [workers_offer?]
      exact h.factors_eq
    · intro a ha
      rcases incumbent_offer?_eq _ ha with ha | ha
      · obtain ⟨hassignment, hvalue⟩ := Problem.integral?_assignment ha
        exact ⟨by rw [hassignment, List.length_map, hfixed], hassignment ▸ hvalue⟩
      · exact h.incumbent_eq ha
    · exact fun a ha => exists_incumbent_offer? _ _ ha
    · intro values v hlen hv hagree _
      have hvalues := hagree.eq_map_getD (hlen.trans hfixed.symm) hall
      have hintegral : p.integral? (node.fixed.map fun value => value.getD false) =
          some ⟨values, v⟩ := by
        rw [hvalues, Problem.integral?, hv, Option.map_some]
      rw [hintegral]
      obtain ⟨b, hb, hle⟩ := exists_incumbent_offer
        ({ s with monitorState := m, frontier := rest } : State α σ) ⟨values, v⟩
      exact Or.inr ⟨b, hb, hle.trans (le_add_of_nonneg_right (tolerance_nonneg v))⟩
  · exact h.explore monitor options hwf hs (numOpen_pos_of_not_all hall) m

theorem IsSound.step (hwf : ∀ f ∈ p.factors, f.WellFormed p.numVariables) (h : IsSound p s) :
    IsSound p (s.step monitor p options) := by
  unfold State.step
  split
  · exact h
  · next node rest hs =>
    dsimp only
    split_ifs
    · exact ⟨h.factors_eq, h.length_fixed, h.incumbent_eq, h.accounted⟩
    · have hnoted : IsSound p (s.noteTables p node) :=
        ⟨h.factors_eq, h.length_fixed, h.incumbent_eq, h.accounted⟩
      exact hnoted.process monitor options hwf hs _

theorem IsSound.run (hwf : ∀ f ∈ p.factors, f.WellFormed p.numVariables) (h : IsSound p s)
    (limit : ℕ) : IsSound p (s.run monitor p options limit) :=
  run_induction (fun _ hs => hs.step monitor options hwf) h limit

end Step

end Search
end MapInference
