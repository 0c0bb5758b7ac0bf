import MapInference.Proofs.Graph.Calls
import MapInference.Proofs.Search.End

/-!
# Reachable graphs

The graphs that sequences of calls lead to, solves and their warm starts included. All factors of a
reachable graph are well-formed, also those that its seal adds.
-/

namespace MapInference

open Scalar
variable {α : Type}

namespace FactorGraph

/-- Vectors are shorter than this, so that no graph has more variables. -/
def maxVariables : ℕ := twoTo 63

/-- The graphs that the calls of the interface lead to; a call that fails leads nowhere. -/
inductive Reachable [Scalar α] : FactorGraph α → Prop
  | empty : Reachable empty
  | addBinary {g : FactorGraph α} (h : Reachable g) (room : g.numBinary < maxVariables) :
      Reachable g.addBinary.2
  | addMulti {g g' : FactorGraph α} {numStates : ℕ} {m : MultiVariable} (h : Reachable g)
      (room : g.numBinary + numStates ≤ maxVariables)
      (added : g.addMulti numStates = .ok (m, g')) : Reachable g'
  | setLogPotential {g g' : FactorGraph α} {v : BinaryVariable} {x : α} (h : Reachable g)
      (changed : g.setLogPotential v x = .ok g') : Reachable g'
  | setStateLogPotential {g g' : FactorGraph α} {m : MultiVariable} {state : ℕ} {x : α}
      (h : Reachable g) (changed : g.setStateLogPotential m state x = .ok g') : Reachable g'
  | declare {g g' : FactorGraph α} {spec : FactorSpec α} {id : FactorId} (h : Reachable g)
      (declared : g.declare spec = .ok (id, g')) : Reachable g'
  | setAdditional {g g' : FactorGraph α} {id : FactorId} {xs : List α} (h : Reachable g)
      (changed : g.setAdditional id xs = .ok g') : Reachable g'
  | solve {σ : Type} {g : FactorGraph α} (h : Reachable g) (options : Options α)
      (monitor : Monitor σ) (m : σ) : Reachable (g.solve options monitor m).1.graph
  | solveProgram {g g' : FactorGraph α} {id : FactorId} {scores additional : List α}
      {solution : QuadraticProgram.Solution α} {stop : QuadraticProgram.Stop} (h : Reachable g)
      (solved : g.solveProgram id scores additional = .ok (g', solution, stop)) : Reachable g'

structure IsConsistent (g : FactorGraph α) : Prop where
  wellFormed : ∀ w ∈ g.factors.values, w.factor.WellFormed g.numBinary
  hasStates : ∀ m ∈ g.multiVariables,
    0 < m.numStates ∧ m.firstState.id + m.numStates ≤ g.numBinary
  numBinary_le : g.numBinary ≤ maxVariables

variable {g g' : FactorGraph α}

/-- A change keeps consistency when its factors are well-formed and it loses no variable. -/
theorem IsConsistent.congr (h : g.IsConsistent) (hbinary : g'.numBinary = g.numBinary)
    (hmulti : g'.multiVariables = g.multiVariables)
    (hfactors : ∀ w ∈ g'.factors.values, w.factor.WellFormed g.numBinary) : g'.IsConsistent where
  wellFormed := hbinary ▸ hfactors
  hasStates := hbinary ▸ hmulti ▸ h.hasStates
  numBinary_le := hbinary ▸ h.numBinary_le

theorem wellFormed_of_mem_set {n : ℕ} {factors : Arena FactorId (WarmFactor α)}
    (h : ∀ w ∈ factors.values, w.factor.WellFormed n) {id : FactorId} {changed : WarmFactor α}
    (hchanged : changed.factor.WellFormed n) :
    ∀ w ∈ (factors.set id changed).values, w.factor.WellFormed n := by
  intro w hw
  simp only [Arena.set, Arena.modify] at hw
  obtain ⟨i, hi⟩ := List.mem_iff_getElem?.mp hw
  rw [List.getElem?_modify] at hi
  obtain ⟨u, hu, huw⟩ := Option.map_eq_some_iff.mp hi
  split_ifs at huw
  · exact huw ▸ hchanged
  · exact huw ▸ h u (List.mem_of_getElem? hu)

theorem wellFormed_exactlyOneState {m : MultiVariable} {n : ℕ} (hpos : 0 < m.numStates)
    (hle : m.firstState.id + m.numStates ≤ n) : (exactlyOneState m : Factor α).WellFormed n := by
  have hlength : (exactlyOneState m : Factor α).literals.length = m.numStates := by
    simp [exactlyOneState]
  have hindices : (exactlyOneState m : Factor α).indices =
      (List.range m.numStates).map (m.firstState.id + ·) := by
    simp [exactlyOneState, Factor.indices, MultiVariable.states, BinaryVariable.literal,
      Function.comp_def]
  refine ⟨?_, ?_, ?_⟩
  · rw [hlength]
    exact ⟨.xor, rfl, hpos, rfl⟩
  · rw [hindices]
    exact List.nodup_range.map fun i j hij => Nat.add_left_cancel hij
  · intro i hi
    rw [hindices] at hi
    obtain ⟨j, hj, rfl⟩ := List.mem_map.mp hi
    have := List.mem_range.mp hj
    omega

theorem IsConsistent.sealed (h : g.IsConsistent) : g.sealed.IsConsistent := by
  refine h.congr rfl rfl ?_
  intro w hw
  rcases List.mem_append.mp hw with hw | hw
  · exact h.wellFormed w hw
  · obtain ⟨m, hm, rfl⟩ := List.mem_map.mp hw
    have hmem : m ∈ g.multiVariables := List.mem_of_mem_drop (List.mem_filter.mp hm).1
    obtain ⟨hpos, hle⟩ := h.hasStates m hmem
    exact wellFormed_exactlyOneState hpos hle

theorem IsConsistent.wellFormed_problem (h : g.IsConsistent) :
    ∀ f ∈ g.problem.factors, f.WellFormed g.problem.numVariables := by
  intro f hf
  obtain ⟨w, hw, rfl⟩ := List.mem_map.mp hf
  exact h.wellFormed w hw

theorem IsConsistent.settle (h : g.IsConsistent) {workers : List (Worker α)}
    (hworkers : workers.map (·.factor) = g.problem.factors) (statistics : Statistics α) :
    (g.settle workers statistics).IsConsistent := by
  refine h.congr rfl rfl ?_
  intro w hw
  obtain ⟨u, hu, rfl⟩ := List.mem_map.mp hw
  exact h.wellFormed_problem _ (hworkers ▸ List.mem_map_of_mem hu)

theorem IsConsistent.addMulti (h : g.IsConsistent) {m : MultiVariable}
    (hmulti : g'.multiVariables = g.multiVariables ++ [m]) (hfactors : g'.factors = g.factors)
    (hpos : 0 < m.numStates) (hfirst : m.firstState.id = g.numBinary)
    (hbinary : g'.numBinary = g.numBinary + m.numStates) (room : g'.numBinary ≤ maxVariables) :
    g'.IsConsistent := by
  constructor
  case wellFormed =>
    intro w hw
    rw [hfactors] at hw
    exact (h.wellFormed w hw).mono (by omega)
  case hasStates =>
    intro m' hm'
    rw [hmulti] at hm'
    rcases List.mem_append.mp hm' with hm' | hm'
    · obtain ⟨hpos, hle⟩ := h.hasStates m' hm'
      exact ⟨hpos, by omega⟩
    · rw [List.mem_singleton.mp hm']
      exact ⟨hpos, by omega⟩
  case numBinary_le => exact room

variable [Scalar α]

theorem isConsistent_empty : (empty : FactorGraph α).IsConsistent where
  wellFormed := by simp [empty]
  hasStates := by simp [empty]
  numBinary_le := Nat.zero_le _

theorem IsConsistent.addBinary (h : g.IsConsistent) (room : g.numBinary < maxVariables) :
    g.addBinary.2.IsConsistent := by
  have hbinary : g.addBinary.2.numBinary = g.numBinary + 1 := Arena.size_push _ _
  constructor
  case wellFormed =>
    intro w hw
    exact (h.wellFormed w hw).mono (by omega)
  case hasStates =>
    intro m hm
    obtain ⟨hpos, hle⟩ := h.hasStates m hm
    exact ⟨hpos, by omega⟩
  case numBinary_le => omega

theorem IsConsistent.wellFormed_of_toFactor (h : g.IsConsistent) {spec : FactorSpec α}
    {f : Factor α} (hcheck : g.check spec = .ok ()) (hf : spec.toFactor = .ok f) :
    f.WellFormed g.numBinary := by
  obtain ⟨hshape, hliterals, hdense⟩ := of_check hcheck
  obtain ⟨hnodup, hall⟩ := of_checkLiterals hliterals
  have hlt : ∀ i ∈ spec.literals.map (fun l => l.atom.id), i < g.numBinary := by
    intro i hi
    obtain ⟨l, hl, rfl⟩ := List.mem_map.mp hi
    exact (hall l hl).1
  have hlength : spec.literals.length < Word.limit - 1 := by
    have hle := length_le_of_nodup hnodup hlt
    rw [List.length_map] at hle
    exact (hle.trans h.numBinary_le).trans_lt (by decide)
  refine ⟨?_, ?_, ?_⟩
  · exact FactorSpec.fits_of_toFactor hshape hlength
      (fun m hm => (h.hasStates m (hdense m hm)).1) hf
  · rw [Factor.indices, FactorSpec.literals_of_toFactor hf]
    exact hnodup
  · rw [Factor.indices, FactorSpec.literals_of_toFactor hf]
    exact hlt

theorem IsConsistent.edit (h : g.IsConsistent) {added : ℕ} (hedit : Edit g added g')
    (room : g'.numBinary ≤ maxVariables) : g'.IsConsistent := by
  cases hedit with
  | logPotentials length_eq => exact h.congr length_eq rfl h.wellFormed
  | binary => exact h.addBinary ((Arena.size_push _ _).symm.trans_le room)
  | multi pos => exact h.addMulti rfl rfl pos rfl (by simp [numBinary, Arena.size]) room
  | declared _ check factor =>
    refine h.congr rfl rfl fun w hw => ?_
    rcases List.mem_append.mp hw with hw | hw
    · exact h.wellFormed w hw
    · rw [List.mem_singleton.mp hw]
      exact h.wellFormed_of_toFactor check factor
  | factor _ get shape_eq numAdditionals_eq =>
    have hwf := h.wellFormed _ (List.mem_of_getElem? get)
    exact h.congr rfl rfl (wellFormed_of_mem_set h.wellFormed
      (hwf.congr shape_eq numAdditionals_eq))

theorem IsConsistent.change (h : g.IsConsistent) {added : ℕ} (hchange : Change g added g')
    (room : g'.numBinary ≤ maxVariables) : g'.IsConsistent := by
  cases hchange with
  | edit hedit => exact h.edit hedit room
  | solved factors_eq => exact h.sealed.settle factors_eq _

/-- What the empty graph has and changes keep that leave no more variables than there is room for,
all reachable graphs have. -/
theorem Reachable.change_induction {P : FactorGraph α → Prop} (hempty : P FactorGraph.empty)
    (hchange : ∀ {g g' : FactorGraph α} {added : ℕ}, P g → Change g added g' →
      g'.numBinary ≤ maxVariables → P g') (h : Reachable g) : P g := by
  have hkeep {g g' : FactorGraph α} (ih : P g ∧ g.numBinary ≤ maxVariables)
      (hkept : Change g 0 g') : P g' ∧ g'.numBinary ≤ maxVariables := by
    have hroom : g'.numBinary ≤ maxVariables := hkept.numBinary_eq.trans_le ih.2
    exact ⟨hchange ih.1 hkept hroom, hroom⟩
  have hboth : P g ∧ g.numBinary ≤ maxVariables := by
    induction h with
    | empty => exact ⟨hempty, Nat.zero_le _⟩
    | addBinary _ room ih =>
      have hroom := Edit.binary.numBinary_eq.trans_le room
      exact ⟨hchange ih.1 (.edit .binary) hroom, hroom⟩
    | addMulti _ room added ih =>
      have hadd := Edit.of_addMulti added
      have hroom := hadd.numBinary_eq.trans_le room
      exact ⟨hchange ih.1 (.edit hadd) hroom, hroom⟩
    | setLogPotential _ changed ih => exact hkeep ih (.edit (.of_setLogPotential changed))
    | setStateLogPotential _ changed ih => exact hkeep ih (.edit (.of_setStateLogPotential changed))
    | declare _ declared ih => exact hkeep ih (.edit (.of_declare declared))
    | setAdditional _ changed ih => exact hkeep ih (.edit (.of_setAdditional changed))
    | solve _ options monitor m ih => exact hkeep ih (.of_solve _ options monitor m)
    | solveProgram _ solved ih => exact hkeep ih (.edit (.of_solveProgram solved))
  exact hboth.1

theorem Reachable.isConsistent (h : Reachable g) : g.IsConsistent :=
  h.change_induction isConsistent_empty fun ih hchange room => ih.change hchange room

theorem isConsistent_run {calls : List (Call α)} (room : (run calls).numBinary ≤ maxVariables) :
    (run calls).IsConsistent := by
  refine run_induction (P := fun g => g.numBinary ≤ maxVariables → g.IsConsistent)
    (fun _ => isConsistent_empty) (fun {g g' added} ih hchange room => ?_) calls room
  exact (ih ((Nat.le_add_right _ _).trans (hchange.numBinary_eq ▸ room))).change hchange room

end FactorGraph

namespace FactorGraph

variable [ExactScalar α] {g : FactorGraph α}

theorem isSound_begin (h : g.IsConsistent) (options : Options α) :
    (g.begin options).root.IsSound g.sealed.problem
      (List.replicate g.sealed.problem.numVariables none) :=
  Relaxation.isSound_solve h.sealed.wellFormed_problem (List.length_replicate ..) options

end FactorGraph
end MapInference
