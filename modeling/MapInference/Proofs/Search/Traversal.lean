import MapInference.Proofs.Search.Nodes
import MapInference.Proofs.Search.Workers

/-!
# The traversal of the search tree

The search visits no assignment twice and comes to its end, whatever its relaxations return: a node
that is neither complete nor discarded is split on a variable that it leaves open, no assignment
agrees with two open nodes, and the tree has `2 ^ (n + 1) - 2` nodes below its root at most.
-/

namespace MapInference

open Scalar

theorem Agrees.of_set {fixed : List (Option Bool)} {values : List Bool} {i : ℕ} {b : Bool}
    (hopen : fixed[i]? = some none) (h : Agrees (fixed.set i (some b)) values) :
    Agrees fixed values := by
  intro j c hc
  have hne : i ≠ j := by
    rintro rfl
    rw [hopen] at hc
    cases hc
  exact h j c (by rw [List.getElem?_set_ne hne, hc])

theorem Agrees.eq_of_set {fixed : List (Option Bool)} {values : List Bool} {i : ℕ} {b : Bool}
    (hopen : fixed[i]? = some none) (h : Agrees (fixed.set i (some b)) values) :
    values[i]? = some b := by
  obtain ⟨hi, _⟩ := List.getElem?_eq_some_iff.mp hopen
  exact h i b (List.getElem?_set_self hi)

namespace Search

section Nodes

variable {α : Type}

/-- No assignment agrees with both nodes. -/
def Apart (a b : Node α) : Prop := ∀ values, ¬ (Agrees a.fixed values ∧ Agrees b.fixed values)

/-- Every assignment that agrees with one of the nodes agrees with one of the others. -/
def IsBelow (nodes others : List (Node α)) : Prop :=
  ∀ node ∈ nodes, ∃ other ∈ others, ∀ values, Agrees node.fixed values → Agrees other.fixed values

/-- The children of a node on a variable that it leaves open. -/
def IsSplit (fixed : List (Option Bool)) (nodes : List (Node α)) : Prop :=
  ∃ i b bound, fixed[i]? = some none ∧
    nodes = [⟨fixed.set i (some b), bound⟩, ⟨fixed.set i (some !b), bound⟩]

theorem IsBelow.of_subset {nodes others : List (Node α)} (h : nodes ⊆ others) :
    IsBelow nodes others :=
  fun node hnode => ⟨node, h hnode, fun _ => id⟩

theorem IsSplit.agrees {fixed : List (Option Bool)} {children : List (Node α)}
    (h : IsSplit fixed children) {child : Node α} (hchild : child ∈ children) {values : List Bool}
    (hagree : Agrees child.fixed values) : Agrees fixed values := by
  obtain ⟨i, b, bound, hopen, rfl⟩ := h
  simp only [List.mem_cons, List.not_mem_nil, or_false] at hchild
  rcases hchild with rfl | rfl
  · exact hagree.of_set hopen
  · exact hagree.of_set hopen

theorem IsSplit.length_eq {fixed : List (Option Bool)} {children : List (Node α)}
    (h : IsSplit fixed children) {child : Node α} (hchild : child ∈ children) :
    child.fixed.length = fixed.length := by
  obtain ⟨i, b, bound, _, rfl⟩ := h
  simp only [List.mem_cons, List.not_mem_nil, or_false] at hchild
  rcases hchild with rfl | rfl <;> exact List.length_set

theorem IsSplit.pairwise {fixed : List (Option Bool)} {children : List (Node α)}
    (h : IsSplit fixed children) : children.Pairwise Apart := by
  obtain ⟨i, b, bound, hopen, rfl⟩ := h
  refine List.pairwise_pair.mpr fun values hboth => ?_
  have hb := hboth.1.eq_of_set hopen
  rw [hboth.2.eq_of_set hopen] at hb
  cases b <;> cases hb

end Nodes

variable {α σ : Type} [Scalar α]

theorem isSplit_split (options : Options α) (consensus : List α) {fixed : List (Option Bool)}
    (bound : Extended α) (hopen : 0 < numOpen fixed) :
    IsSplit fixed (split options consensus fixed bound) := by
  obtain ⟨i, hi⟩ := exists_branchingVariable? options consensus hopen
  refine ⟨i, decide (half ≤ coordinate consensus i), bound, isOpen_of_branchingVariable? hi, ?_⟩
  rw [split, hi]
  rfl

namespace State

def exploreWith (x : Relaxation α) (s : State α σ) (monitor : Monitor σ) (options : Options α)
    (node : Node α) : State α σ :=
  let bound := Extended.min x.bound node.bound
  let t := (s.record monitor x).offer? x.integral
  if x.certified || cannotImprove bound t.incumbent then t.prune
  else { t with frontier := split options x.consensus node.fixed bound ++ t.frontier }

def processWith (x : Relaxation α) (s : State α σ) (monitor : Monitor σ) (p : Problem α)
    (options : Options α) (node : Node α) : State α σ :=
  if cannotImprove node.bound s.incumbent then s.prune
  else if !p.factors.all fun f => f.admits node.fixed then s.prune
  else if node.fixed.all Option.isSome then
    s.offer? (p.integral? (node.fixed.map fun value => value.getD false))
  else s.exploreWith x monitor options node

def stepWith (x : Relaxation α) (s : State α σ) (monitor : Monitor σ) (p : Problem α)
    (options : Options α) : State α σ :=
  match s.frontier with
  | [] => s
  | node :: rest =>
    let (stop, monitorState) := monitor.shouldStop s.monitorState
    if stop then { s with monitorState, stopped := true }
    else
      ({ s with monitorState, frontier := rest }.noteTables p node).processWith x monitor p options
        node

def nextRelaxation (s : State α σ) (p : Problem α) (options : Options α) : Relaxation α :=
  Relaxation.solve p ((s.frontier.head?.map (·.fixed)).getD []) options

theorem step_eq_stepWith (s : State α σ) (monitor : Monitor σ) (p : Problem α)
    (options : Options α) :
    s.step monitor p options = s.stepWith (s.nextRelaxation p options) monitor p options := by
  unfold step stepWith nextRelaxation
  cases s.frontier <;> rfl

end State

/-- The state of a search after it has taken `k` nodes, or at its end. The relaxation of the root
has returned `root`, and that of the node which is taken after `k` others returns `xs k`, if it is
solved. -/
def stage (monitor : Monitor σ) (p : Problem α) (options : Options α) (m : σ)
    (root : Relaxation α) (xs : ℕ → Relaxation α) : ℕ → State α σ
  | 0 => State.start p options root m
  | k + 1 =>
    let s := stage monitor p options m root xs k
    if s.isFinished then s else s.stepWith (xs k) monitor p options

def relaxationAt (monitor : Monitor σ) (p : Problem α) (options : Options α) (m : σ)
    (root : Relaxation α) (k : ℕ) : Relaxation α :=
  ((State.start p options root m).run monitor p options k).nextRelaxation p options

/-- Why a node is discarded, either before its relaxation is solved or after it has returned `x`,
when `incumbent` is the best assignment. -/
def IsDiscarded (p : Problem α) (x : Relaxation α) (node : Node α)
    (before incumbent : Option (Integral α)) : Prop :=
  cannotImprove node.bound before = true ∨
    (p.factors.all fun f => f.admits node.fixed) = false ∨
    x.certified = true ∨ cannotImprove (Extended.min x.bound node.bound) incumbent = true

/-- What becomes of a node that is taken from the open ones, of which `rest` are left. -/
inductive Treatment (monitor : Monitor σ) (p : Problem α) (x : Relaxation α) (node : Node α)
    (rest : List (Node α)) (s t : State α σ) : Prop
  /-- The monitor ends the search, and the node stays open. -/
  | stopped (shouldStop : (monitor.shouldStop s.monitorState).1 = true)
      (stopped_eq : t.stopped = true) (frontier_eq : t.frontier = node :: rest)
  | discarded (continues : t.stopped = false) (frontier_eq : t.frontier = rest)
      (pruned_eq : t.statistics.pruned = s.statistics.pruned + 1)
      (reason : IsDiscarded p x node s.incumbent t.incumbent)
  | complete (continues : t.stopped = false) (frontier_eq : t.frontier = rest)
      (pruned_eq : t.statistics.pruned = s.statistics.pruned)
      (isComplete : node.fixed.all Option.isSome = true)
  | branched {children : List (Node α)} (continues : t.stopped = false)
      (frontier_eq : t.frontier = children ++ rest)
      (pruned_eq : t.statistics.pruned = s.statistics.pruned)
      (isSplit : IsSplit node.fixed children)

theorem pruned_offer? (s : State α σ) (a? : Option (Integral α)) :
    (s.offer? a?).statistics.pruned = s.statistics.pruned := by
  cases a? with
  | none => rfl
  | some a =>
    simp only [State.offer?, State.offer]
    split_ifs <;> rfl

section Treatment

variable {monitor : Monitor σ} {p : Problem α} {options : Options α} {s t : State α σ}
  {x : Relaxation α} {node : Node α} {rest : List (Node α)}

theorem treatment_exploreWith (hs : s.stopped = false) (hopen : 0 < numOpen node.fixed) (m : σ)
    (emptied : Bool) : Treatment monitor p x node rest s
      ({ s with monitorState := m, frontier := rest, emptied }.exploreWith x monitor options
        node) := by
  let u : State α σ := { s with monitorState := m, frontier := rest, emptied }
  let t := (u.record monitor x).offer? x.integral
  have hstopped : t.stopped = false := (stopped_offer? _ _).trans hs
  have hfrontier : t.frontier = rest := frontier_offer? _ _
  have hpruned : t.statistics.pruned = s.statistics.pruned := pruned_offer? _ _
  unfold State.exploreWith
  dsimp only
  split_ifs with hdone
  · refine .discarded hstopped hfrontier (congrArg (· + 1) hpruned) ?_
    exact Or.inr (Or.inr (Bool.or_eq_true_iff.mp hdone))
  · exact .branched hstopped (congrArg (_ ++ ·) hfrontier) hpruned
      (isSplit_split options x.consensus _ hopen)

theorem treatment_processWith (hs : s.stopped = false) (m : σ) (emptied : Bool) :
    Treatment monitor p x node rest s
      ({ s with monitorState := m, frontier := rest, emptied }.processWith x monitor p options
        node) := by
  unfold State.processWith
  split_ifs with hcannot hadmits hall
  · exact .discarded hs rfl rfl (Or.inl hcannot)
  · exact .discarded hs rfl rfl (Or.inr (Or.inl (by simpa using hadmits)))
  · exact .complete ((stopped_offer? _ _).trans hs) (frontier_offer? _ _) (pruned_offer? _ _) hall
  · exact treatment_exploreWith hs (numOpen_pos_of_not_all hall) m emptied

theorem treatment_stepWith (x : Relaxation α) (h : s.isFinished = false) :
    ∃ node rest, s.frontier = node :: rest ∧
      Treatment monitor p x node rest s (s.stepWith x monitor p options) := by
  obtain ⟨hstopped, hempty⟩ := Bool.or_eq_false_iff.mp h
  unfold State.stepWith
  split
  · next hs => simp [hs] at hempty
  · next node rest hs =>
    refine ⟨node, rest, hs, ?_⟩
    dsimp only
    split_ifs with hstop
    · exact .stopped hstop rfl hs
    · exact treatment_processWith hstopped _ _

theorem Treatment.isBelow (h : Treatment monitor p x node rest s t) :
    IsBelow t.frontier (node :: rest) := by
  cases h with
  | stopped _ _ frontier_eq => exact .of_subset (frontier_eq ▸ List.Subset.refl _)
  | discarded _ frontier_eq => exact .of_subset (frontier_eq ▸ List.subset_cons_self _ _)
  | complete _ frontier_eq => exact .of_subset (frontier_eq ▸ List.subset_cons_self _ _)
  | branched _ frontier_eq _ isSplit =>
    intro other hother
    rw [frontier_eq] at hother
    rcases List.mem_append.mp hother with hchild | hrest
    · exact ⟨node, List.mem_cons_self, fun _ => isSplit.agrees hchild⟩
    · exact ⟨other, List.mem_cons_of_mem _ hrest, fun _ => id⟩

theorem Treatment.length_fixed {n : ℕ} (h : Treatment monitor p x node rest s t)
    (hlength : ∀ other ∈ node :: rest, other.fixed.length = n) :
    ∀ other ∈ t.frontier, other.fixed.length = n := by
  cases h with
  | stopped _ _ frontier_eq => exact frontier_eq ▸ hlength
  | discarded _ frontier_eq | complete _ frontier_eq =>
    exact fun other hother => hlength other (List.mem_cons_of_mem _ (frontier_eq ▸ hother))
  | branched _ frontier_eq _ isSplit =>
    intro other hother
    rw [frontier_eq] at hother
    rcases List.mem_append.mp hother with hchild | hrest
    · exact (isSplit.length_eq hchild).trans (hlength node List.mem_cons_self)
    · exact hlength other (List.mem_cons_of_mem _ hrest)

theorem Treatment.pairwise (h : Treatment monitor p x node rest s t)
    (hapart : (node :: rest).Pairwise Apart) : t.frontier.Pairwise Apart := by
  obtain ⟨hnode, hrest⟩ := List.pairwise_cons.mp hapart
  cases h with
  | stopped _ _ frontier_eq => exact frontier_eq ▸ hapart
  | discarded _ frontier_eq => exact frontier_eq ▸ hrest
  | complete _ frontier_eq => exact frontier_eq ▸ hrest
  | branched _ frontier_eq _ isSplit =>
    rw [frontier_eq]
    refine List.pairwise_append.mpr ⟨isSplit.pairwise, hrest, ?_⟩
    intro child hchild other hother values hboth
    exact hnode other hother values ⟨isSplit.agrees hchild hboth.1, hboth.2⟩

theorem Treatment.weight_lt (h : Treatment monitor p x node rest s t) (hcontinues : t.stopped = false) :
    weight t.frontier < weight (node :: rest) := by
  have hnode : 1 < 2 ^ (numOpen node.fixed + 1) := Nat.one_lt_two_pow (Nat.succ_ne_zero _)
  rw [weight_cons]
  cases h with
  | stopped _ stopped_eq =>
    rw [hcontinues] at stopped_eq
    cases stopped_eq
  | discarded _ frontier_eq =>
    rw [frontier_eq]
    omega
  | complete _ frontier_eq =>
    rw [frontier_eq]
    omega
  | branched _ frontier_eq _ isSplit =>
    obtain ⟨i, b, bound, hopen, rfl⟩ := isSplit
    have hset (b : Bool) : numOpen (node.fixed.set i (some b)) + 1 = numOpen node.fixed :=
      numOpen_set hopen b
    rw [frontier_eq, weight_append, weight_cons, weight_cons, weight_nil, hset, hset]
    rw [pow_succ] at hnode ⊢
    omega

end Treatment

section Run

variable {monitor : Monitor σ} {p : Problem α} {options : Options α} {m : σ}
  {root : Relaxation α} {xs : ℕ → Relaxation α}

theorem run_succ_eq (s : State α σ) (k : ℕ) :
    s.run monitor p options (k + 1) =
      if (s.run monitor p options k).isFinished then s.run monitor p options k
      else (s.run monitor p options k).step monitor p options := by
  induction k generalizing s with
  | zero => rfl
  | succ k ih =>
    rw [State.run]
    split_ifs with hs hnext hnext
    · rw [State.run, if_pos hs]
    · rw [State.run, if_pos hs] at hnext
      exact absurd hs hnext
    · rw [ih, State.run, if_neg hs]
      rw [State.run, if_neg hs] at hnext
      exact if_pos hnext
    · rw [ih, State.run, if_neg hs]
      rw [State.run, if_neg hs] at hnext
      exact if_neg hnext

theorem run_eq_stage (k : ℕ) :
    (State.start p options root m).run monitor p options k =
      stage monitor p options m root (relaxationAt monitor p options m root) k := by
  induction k with
  | zero => rfl
  | succ k ih => rw [run_succ_eq, stage, ← ih, State.step_eq_stepWith, relaxationAt]

theorem treatment_stage {k : ℕ} (h : (stage monitor p options m root xs k).isFinished = false) :
    ∃ node rest, (stage monitor p options m root xs k).frontier = node :: rest ∧
      Treatment monitor p (xs k) node rest (stage monitor p options m root xs k)
        (stage monitor p options m root xs (k + 1)) := by
  have hnext : stage monitor p options m root xs (k + 1) =
      (stage monitor p options m root xs k).stepWith (xs k) monitor p options := by
    rw [stage, if_neg (by simp [h])]
  rw [hnext]
  exact treatment_stepWith (xs k) h

theorem stage_succ_of_isFinished {k : ℕ}
    (h : (stage monitor p options m root xs k).isFinished = true) :
    stage monitor p options m root xs (k + 1) = stage monitor p options m root xs k := by
  rw [stage, if_pos h]

theorem isFinished_stage_of_le {k l : ℕ} (hkl : k ≤ l)
    (h : (stage monitor p options m root xs k).isFinished = true) :
    (stage monitor p options m root xs l).isFinished = true := by
  induction l, hkl using Nat.le_induction with
  | base => exact h
  | succ l hkl ih => rwa [stage_succ_of_isFinished ih]

theorem isFinished_stage_eq_false_of_le {k l : ℕ} (hkl : k ≤ l)
    (h : (stage monitor p options m root xs l).isFinished = false) :
    (stage monitor p options m root xs k).isFinished = false := by
  by_contra hfinished
  rw [Bool.not_eq_false] at hfinished
  rw [isFinished_stage_of_le hkl hfinished] at h
  cases h

variable (p options m root) in
/-- A search starts with the children of its root, unless the root is certified or there is no
variable. -/
theorem start_cases :
    ((State.start p options root m).frontier = [] ∧
        (root.certified = true ∨ p.numVariables = 0)) ∨
      IsSplit (List.replicate p.numVariables none) (State.start p options root m).frontier := by
  simp only [State.start]
  split_ifs with hroot
  · exact Or.inl ⟨rfl, Or.inl hroot⟩
  · rcases Nat.eq_zero_or_pos p.numVariables with hzero | hpos
    · have hnone : branchingVariable? options root.consensus [] = none := by
        cases hi : branchingVariable? options root.consensus [] with
        | none => rfl
        | some i => simpa using isOpen_of_branchingVariable? hi
      rw [hzero, List.replicate_zero, split, hnone]
      exact Or.inl ⟨rfl, Or.inr rfl⟩
    · exact Or.inr (isSplit_split options _ _ (by simpa [numOpen] using hpos))

theorem stage_induction {P : List (Node α) → Prop}
    (hstart : P (State.start p options root m).frontier)
    (hstep : ∀ {k : ℕ} {node : Node α} {rest : List (Node α)} {s t : State α σ},
      Treatment monitor p (xs k) node rest s t → P (node :: rest) → P t.frontier) (k : ℕ) :
    P (stage monitor p options m root xs k).frontier := by
  induction k with
  | zero => exact hstart
  | succ k ih =>
    cases hfinished : (stage monitor p options m root xs k).isFinished with
    | true =>
      rw [stage_succ_of_isFinished hfinished]
      exact ih
    | false =>
      obtain ⟨node, rest, hs, htreatment⟩ := treatment_stage hfinished
      exact hstep htreatment (hs ▸ ih)

theorem length_fixed_stage (k : ℕ) :
    ∀ node ∈ (stage monitor p options m root xs k).frontier,
      node.fixed.length = p.numVariables := by
  refine stage_induction (P := fun nodes => ∀ node ∈ nodes, node.fixed.length = p.numVariables)
    (fun node hnode => ?_) (fun htreatment => htreatment.length_fixed) k
  rcases start_cases p options m root with ⟨hnil, _⟩ | hsplit
  · rw [hnil] at hnode
    cases hnode
  · rw [hsplit.length_eq hnode, List.length_replicate]

theorem pairwise_stage (k : ℕ) :
    (stage monitor p options m root xs k).frontier.Pairwise Apart := by
  refine stage_induction ?_ (fun htreatment => htreatment.pairwise) k
  rcases start_cases p options m root with ⟨hnil, _⟩ | hsplit
  · rw [hnil]
    exact .nil
  · exact hsplit.pairwise

theorem isBelow_stage {k l : ℕ} (hkl : k ≤ l) :
    IsBelow (stage monitor p options m root xs l).frontier
      (stage monitor p options m root xs k).frontier := by
  induction l, hkl using Nat.le_induction with
  | base => exact .of_subset (List.Subset.refl _)
  | succ l hkl ih =>
    cases hfinished : (stage monitor p options m root xs l).isFinished with
    | true =>
      rw [stage_succ_of_isFinished hfinished]
      exact ih
    | false =>
      obtain ⟨node, rest, hs, htreatment⟩ := treatment_stage hfinished
      intro a ha
      obtain ⟨b, hb, hab⟩ := htreatment.isBelow a ha
      obtain ⟨c, hc, hbc⟩ := ih b (hs ▸ hb)
      exact ⟨c, hc, fun values => hbc values ∘ hab values⟩

theorem apart_of_complete {k l : ℕ} {node : Node α} {rest : List (Node α)} (hkl : k < l)
    (hl : (stage monitor p options m root xs l).isFinished = false)
    (hs : (stage monitor p options m root xs k).frontier = node :: rest)
    (hcomplete : node.fixed.all Option.isSome = true) :
    ∀ other ∈ (stage monitor p options m root xs l).frontier, Apart node other := by
  have hnext : (stage monitor p options m root xs (k + 1)).isFinished = false :=
    isFinished_stage_eq_false_of_le hkl hl
  obtain ⟨node', rest', hs', htreatment⟩ :=
    treatment_stage (isFinished_stage_eq_false_of_le hkl.le hl)
  obtain ⟨rfl, rfl⟩ := List.cons.inj (hs.symm.trans hs')
  have hrest : (stage monitor p options m root xs (k + 1)).frontier = rest := by
    cases htreatment with
    | stopped _ stopped_eq => simp [State.isFinished, stopped_eq] at hnext
    | discarded _ frontier_eq => exact frontier_eq
    | complete _ frontier_eq => exact frontier_eq
    | branched _ _ _ isSplit =>
      obtain ⟨i, b, bound, hopen, rfl⟩ := isSplit
      have hsome := List.all_eq_true.mp hcomplete none (List.mem_of_getElem? hopen)
      cases hsome
  have hpairwise : (stage monitor p options m root xs k).frontier.Pairwise Apart :=
    pairwise_stage k
  rw [hs] at hpairwise
  have hapart := (List.pairwise_cons.mp hpairwise).1
  intro other hother values hboth
  obtain ⟨a, ha, hagree⟩ := isBelow_stage hkl other hother
  exact hapart a (hrest ▸ ha) values ⟨hboth.1, hagree values hboth.2⟩

theorem weight_start_le :
    weight (State.start p options root m).frontier ≤ 2 ^ (p.numVariables + 1) - 2 := by
  rcases start_cases p options m root with ⟨hnil, _⟩ | ⟨i, b, bound, hopen, hs⟩
  · rw [hnil, weight_nil]
    exact Nat.zero_le _
  · have hset (b : Bool) := numOpen_set hopen b
    have hn : numOpen (List.replicate p.numVariables none) = p.numVariables := by simp [numOpen]
    rw [hs, weight_cons, weight_cons, weight_nil, hset, hset, hn, pow_succ]
    omega

/-- As long as the search goes on, every node that is taken makes the open ones weigh less. -/
theorem weight_stage_add_le {k : ℕ}
    (h : (stage monitor p options m root xs k).isFinished = false) :
    weight (stage monitor p options m root xs k).frontier + k ≤
      weight (State.start p options root m).frontier := by
  induction k with
  | zero => exact le_rfl
  | succ k ih =>
    have hbefore := isFinished_stage_eq_false_of_le k.le_succ h
    obtain ⟨node, rest, hs, htreatment⟩ := treatment_stage hbefore
    have hlt := htreatment.weight_lt (Bool.or_eq_false_iff.mp h).1
    have := ih hbefore
    rw [hs] at this
    omega

variable (monitor p options m root xs) in
theorem exists_isFinished_stage :
    ∃ k ≤ 2 ^ (p.numVariables + 1) - 2,
      (stage monitor p options m root xs k).isFinished = true ∧
      ∀ j < k, (stage monitor p options m root xs j).isFinished = false := by
  let limit := 2 ^ (p.numVariables + 1) - 2
  have hlimit : (stage monitor p options m root xs limit).isFinished = true := by
    by_contra hopen
    rw [Bool.not_eq_true] at hopen
    have hweight := (weight_stage_add_le hopen).trans weight_start_le
    obtain ⟨node, rest, hs, _⟩ := treatment_stage hopen
    have hnode : 1 < 2 ^ (numOpen node.fixed + 1) := Nat.one_lt_two_pow (Nat.succ_ne_zero _)
    rw [hs, weight_cons] at hweight
    omega
  have hex : ∃ k, (stage monitor p options m root xs k).isFinished = true := ⟨limit, hlimit⟩
  exact ⟨Nat.find hex, Nat.find_min' hex hlimit, Nat.find_spec hex,
    fun j hj => Bool.eq_false_of_not_eq_true (Nat.find_min hex hj)⟩

theorem isFinished_run_start {limit : ℕ} (h : 2 ^ (p.numVariables + 1) - 2 ≤ limit) :
    ((State.start p options root m).run monitor p options limit).isFinished = true := by
  obtain ⟨k, hk, hfinished, _⟩ :=
    exists_isFinished_stage monitor p options m root (relaxationAt monitor p options m root)
  rw [run_eq_stage]
  exact isFinished_stage_of_le (hk.trans h) hfinished

end Run

/-- The search visits no assignment twice and ends, for any factors, any monitor, either selection
and whatever the relaxations return: the root and every node that is taken are split on a variable
that they leave open, or there is a reason not to split them; the open nodes have no assignment in
common, nor do they agree with one that has been evaluated; and at most `2 ^ (n + 1) - 2` nodes are
taken. The search of a problem is the case in which the relaxations are those of its nodes. -/
theorem visits_once (monitor : Monitor σ) (p : Problem α) (options : Options α) (m : σ)
    (root : Relaxation α) :
    (∀ xs : ℕ → Relaxation α,
      let s := stage monitor p options m root xs
      (((s 0).frontier = [] ∧ (root.certified = true ∨ p.numVariables = 0)) ∨
        IsSplit (List.replicate p.numVariables none) (s 0).frontier) ∧
      (∀ k, (s k).isFinished = false → ∃ node rest, (s k).frontier = node :: rest ∧
        Treatment monitor p (xs k) node rest (s k) (s (k + 1))) ∧
      (∀ k, (s k).frontier.Pairwise Apart ∧
        ∀ node ∈ (s k).frontier, node.fixed.length = p.numVariables) ∧
      (∀ k l node rest, k < l → (s l).isFinished = false → (s k).frontier = node :: rest →
        node.fixed.all Option.isSome = true → ∀ other ∈ (s l).frontier, Apart node other) ∧
      ∃ k ≤ 2 ^ (p.numVariables + 1) - 2, (s k).isFinished = true ∧
        ∀ j < k, (s j).isFinished = false) ∧
    ∃ xs : ℕ → Relaxation α, ∀ limit,
      (State.start p options root m).run monitor p options limit =
        stage monitor p options m root xs limit := by
  refine ⟨fun xs => ⟨start_cases p options m root, fun k => treatment_stage,
    fun k => ⟨pairwise_stage k, length_fixed_stage k⟩, ?_,
    exists_isFinished_stage monitor p options m root xs⟩, ⟨_, run_eq_stage⟩⟩
  intro k l node rest hkl hl hs hcomplete
  exact apart_of_complete hkl hl hs hcomplete

def undecided : Relaxation ℚ where
  workers := []
  consensus := [1 / 2, 1 / 2]
  value := .bottom
  bound := .top
  integral := none
  certified := false
  iterations := 0
  adaptations := 0
  stepSize := 1
  overflowed := false
  reports := []

/-- When every relaxation leaves two variables undecided, the search takes all nodes of the tree, and
no assignment agrees with two nodes that are open after the first one. -/
theorem visits_once_undecided :
    let s := stage (Condition.monitor 0) ⟨[], [1, 1]⟩ .standard .indefinite undecided fun _ => undecided
    (s 5).isFinished = false ∧ (s 6).isFinished = true ∧ (s 1).frontier.length = 3 ∧
      (s 1).frontier.Pairwise Apart := by
  intro s
  refine ⟨by decide +kernel, by decide +kernel, by decide +kernel, ?_⟩
  exact (((visits_once (Condition.monitor 0) ⟨[], [1, 1]⟩ .standard .indefinite undecided).1
    fun _ => undecided).2.2.1 1).1

end Search
end MapInference
