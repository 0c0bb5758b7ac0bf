import MapInference.Proofs.Extremum
import MapInference.Proofs.Factor
import MapInference.Search

/-!
# Splitting nodes

A node is split on a variable that it leaves open. Every assignment that agrees with the node agrees
with one of its children, and the children weigh less than the node, where a node weighs more than
all of its descendants.
-/

namespace MapInference

open Scalar

def numOpen (fixed : List (Option Bool)) : ℕ := fixed.count none

theorem numOpen_set {fixed : List (Option Bool)} {i : ℕ} (h : fixed[i]? = some none) (b : Bool) :
    numOpen (fixed.set i (some b)) + 1 = numOpen fixed :=
  count_set_add_one h (Option.some_ne_none b)

theorem numOpen_pos_of_not_all {fixed : List (Option Bool)}
    (h : ¬ fixed.all Option.isSome) : 0 < numOpen fixed := by
  simp only [List.all_eq_true, not_forall] at h
  obtain ⟨value, hmem, hvalue⟩ := h
  have hnone : value = none := by simpa using hvalue
  exact List.count_pos_iff.mpr (hnone ▸ hmem)

theorem agrees_replicate_none (n : ℕ) (values : List Bool) :
    Agrees (List.replicate n none) values := by
  intro i b hb
  have hmem := List.mem_of_getElem? hb
  simp at hmem

theorem Agrees.set {fixed : List (Option Bool)} {values : List Bool} (h : Agrees fixed values)
    {i : ℕ} {b : Bool} (hb : values[i]? = some b) : Agrees (fixed.set i (some b)) values := by
  intro j c hc
  by_cases hij : i = j
  · subst hij
    rw [List.getElem?_set_self'] at hc
    cases hf : fixed[i]? with
    | none => simp [hf] at hc
    | some value =>
      have hbc : b = c := by simpa [hf] using hc
      rw [hb, hbc]
  · rw [List.getElem?_set_ne hij] at hc
    exact h j c hc

/-- A partial assignment that leaves no variable open agrees with one assignment only. -/
theorem Agrees.eq_map_getD {fixed : List (Option Bool)} {values : List Bool}
    (h : Agrees fixed values) (hlen : values.length = fixed.length)
    (hall : fixed.all Option.isSome) : fixed.map (fun value => value.getD false) = values := by
  apply List.ext_getElem?
  intro i
  rw [List.getElem?_map]
  cases hf : fixed[i]? with
  | none =>
    rw [List.getElem?_eq_none_iff] at hf
    rw [List.getElem?_eq_none (hlen ▸ hf)]
    rfl
  | some value =>
    have hsome := List.all_eq_true.mp hall value (List.mem_of_getElem? hf)
    obtain ⟨b, rfl⟩ := Option.isSome_iff_exists.mp hsome
    rw [h i b hf]
    rfl

namespace Search

variable {α : Type}

/-- What a list of open nodes weighs: each node as many as its subtree can have nodes. -/
def weight (nodes : List (Node α)) : ℕ :=
  (nodes.map fun node => 2 ^ (numOpen node.fixed + 1) - 1).sum

@[simp] theorem weight_nil : weight ([] : List (Node α)) = 0 := rfl

theorem weight_cons (node : Node α) (nodes : List (Node α)) :
    weight (node :: nodes) = (2 ^ (numOpen node.fixed + 1) - 1) + weight nodes := by
  simp [weight]

theorem weight_append (nodes nodes' : List (Node α)) :
    weight (nodes ++ nodes') = weight nodes + weight nodes' := by
  simp [weight]

end Search

variable {α : Type} [Scalar α]

theorem VariableSelection.isOpen_of_select? {s : VariableSelection} {consensus : List α}
    {fixed : List (Option Bool)} {tolerance : α} {i : ℕ}
    (h : s.select? consensus fixed tolerance = some i) : fixed[i]? = some none := by
  obtain ⟨x, hmem⟩ : ∃ x, (i, x) ∈ candidates consensus fixed tolerance := by
    cases s with
    | mostFractional =>
      obtain ⟨c, hc, rfl⟩ := Option.map_eq_some_iff.mp h
      exact ⟨c.2, Extremum.mem_of_firstGreatest? hc⟩
    | firstFractional =>
      obtain ⟨c, hc, rfl⟩ := Option.map_eq_some_iff.mp h
      exact ⟨c.2, List.mem_of_head? hc⟩
  obtain ⟨⟨⟨y, value⟩, j⟩, hzip, hj⟩ := List.mem_filterMap.mp hmem
  simp only [Bool.and_eq_true] at hj
  split_ifs at hj with hopen
  have hij : j = i := congrArg Prod.fst (Option.some.inj hj)
  have hvalue : value = none := by simpa using hopen.1
  have hget := List.mk_mem_zipIdx_iff_getElem?.mp hzip
  rw [List.getElem?_zipWith_eq_some] at hget
  obtain ⟨_, z, _, hz, hzip⟩ := hget
  rw [← hij, hz, (Prod.mk.inj hzip).2, hvalue]

namespace Search

variable {options : Options α} {consensus : List α} {fixed : List (Option Bool)}
  {bound : Extended α}

theorem isOpen_of_branchingVariable? {i : ℕ}
    (h : branchingVariable? options consensus fixed = some i) : fixed[i]? = some none := by
  unfold branchingVariable? at h
  cases hs : options.selection.select? consensus fixed Relaxation.integralityTolerance with
  | some j =>
    have hij : j = i := by simpa [hs] using h
    exact VariableSelection.isOpen_of_select? (hij ▸ hs)
  | none =>
    rw [hs, Option.none_or, List.findIdx?_eq_some_iff_getElem] at h
    obtain ⟨hi, hnone, _⟩ := h
    rw [List.getElem?_eq_getElem hi, Option.isNone_iff_eq_none.mp hnone]

theorem exists_branchingVariable? (options : Options α) (consensus : List α)
    (h : 0 < numOpen fixed) :
    ∃ i, branchingVariable? options consensus fixed = some i := by
  unfold branchingVariable?
  cases hs : options.selection.select? consensus fixed Relaxation.integralityTolerance with
  | some j => exact ⟨j, rfl⟩
  | none =>
    rw [Option.none_or, ← Option.isSome_iff_exists, List.findIdx?_isSome, List.any_eq_true]
    exact ⟨none, List.count_pos_iff.mp h, rfl⟩

theorem length_fixed_of_mem_split {node : Node α}
    (h : node ∈ split options consensus fixed bound) : node.fixed.length = fixed.length := by
  unfold split at h
  cases hb : branchingVariable? options consensus fixed with
  | none => simp [hb] at h
  | some i =>
    simp only [hb, children, List.mem_cons, List.not_mem_nil, or_false] at h
    rcases h with rfl | rfl <;> simp

theorem exists_mem_split (options : Options α) (consensus : List α) (bound : Extended α)
    {values : List Bool} (hagree : Agrees fixed values)
    (hlen : values.length = fixed.length) (hopen : 0 < numOpen fixed) :
    ∃ node ∈ split options consensus fixed bound, Agrees node.fixed values ∧ node.bound = bound := by
  obtain ⟨i, hi⟩ := exists_branchingVariable? options consensus hopen
  obtain ⟨hlt, _⟩ := List.getElem?_eq_some_iff.mp (isOpen_of_branchingVariable? hi)
  have hvalue := List.getElem?_eq_getElem (hlen ▸ hlt : i < values.length)
  let preferred := decide ((half : α) ≤ coordinate consensus i)
  have hsplit : split options consensus fixed bound =
      [⟨fixed.set i (some preferred), bound⟩, ⟨fixed.set i (some !preferred), bound⟩] := by
    unfold split
    rw [hi]
    rfl
  rw [hsplit]
  rcases Bool.eq_or_eq_not values[i] preferred with hb | hb
  · exact ⟨_, List.mem_cons_self, hagree.set (hb ▸ hvalue), rfl⟩
  · exact ⟨_, List.mem_cons_of_mem _ List.mem_cons_self, hagree.set (hb ▸ hvalue), rfl⟩

end Search
end MapInference
