import MapInference.Proofs.Graph.Declaration
import MapInference.Proofs.Search.Workers
import MapInference.Graph.Call

/-!
# What calls change

What a call can do to a graph is said once, by `FactorGraph.Edit` for the calls that do not solve
and by `FactorGraph.Change` for all of them; a property of all graphs is one that changes keep.
-/

namespace MapInference

open Scalar
variable {α : Type}

def Factor.shape (f : Factor α) : List Literal × FactorKind := (f.literals, f.kind)

theorem Factor.WellFormed.congr {n : ℕ} {f f' : Factor α} (h : f.WellFormed n)
    (hshape : f'.shape = f.shape) (hnum : f'.numAdditionals = f.numAdditionals) :
    f'.WellFormed n := by
  obtain ⟨hliterals, hkind⟩ := Prod.mk.inj hshape
  have hindices : f'.indices = f.indices := by rw [indices, hliterals, indices]
  exact ⟨hliterals ▸ hkind ▸ hnum ▸ h.fits, hindices ▸ h.nodup, hindices ▸ h.index_lt⟩

namespace FactorGraph

/-- What a call that does not solve can do to a graph, and the number of binary variables that it
adds. -/
inductive Edit [Scalar α] (g : FactorGraph α) : ℕ → FactorGraph α → Prop
  | logPotentials {values : List α} (length_eq : values.length = g.numBinary) :
      Edit g 0 { g with logPotentials := ⟨values⟩ }
  | binary : Edit g 1 { g with logPotentials := g.logPotentials.push 0 }
  | multi {numStates : ℕ} (pos : 0 < numStates) :
      Edit g numStates { g with
        logPotentials := ⟨g.logPotentials.values ++ zeros numStates⟩
        multiVariables := g.multiVariables ++
          [⟨g.multiVariables.length, g.logPotentials.nextKey, numStates⟩] }
  | declared {spec : FactorSpec α} {f : Factor α} (unsealed : g.isSealed = false)
      (check : g.check spec = .ok ()) (factor : spec.toFactor = .ok f) :
      Edit g 0 { g with
        coveredByDense := g.coveredByDense ++ spec.denseVariables
        factors := g.factors.push { factor := f }
        numDeclared := g.numDeclared + 1 }
  /-- The log-potentials of additional variables are replaced, or an active set. -/
  | factor {id : FactorId} {w changed : WarmFactor α} (isDeclared : id.id < g.numDeclared)
      (get : g.factors.get? id = some w) (shape_eq : changed.factor.shape = w.factor.shape)
      (numAdditionals_eq : changed.factor.numAdditionals = w.factor.numAdditionals) :
      Edit g 0 { g with factors := g.factors.set id changed }

inductive Change [Scalar α] (g : FactorGraph α) : ℕ → FactorGraph α → Prop
  | edit {added : ℕ} {g' : FactorGraph α} (h : Edit g added g') : Change g added g'
  | solved {workers : List (Worker α)} {statistics : Statistics α}
      (factors_eq : workers.map (·.factor) = g.sealed.problem.factors) :
      Change g 0 (g.sealed.settle workers statistics)

variable [Scalar α] {g g' : FactorGraph α} {added : ℕ}

theorem run_append (calls calls' : List (Call α)) :
    run (calls ++ calls') = calls'.foldl perform (run calls) := List.foldl_append

@[simp] theorem run_concat (calls : List (Call α)) (c : Call α) :
    run (calls ++ [c]) = (run calls).perform c := run_append calls [c]

theorem exists_of_declare_eq_ok {spec : FactorSpec α} {id : FactorId}
    (h : g.declare spec = .ok (id, g')) :
    g.isSealed = false ∧ g.check spec = .ok () ∧ ∃ f, spec.toFactor = .ok f ∧
      id = g.factors.nextKey ∧ g' = { g with
        coveredByDense := g.coveredByDense ++ spec.denseVariables
        factors := g.factors.push { factor := f }
        numDeclared := g.numDeclared + 1 } := by
  unfold declare at h
  split_ifs at h with hsealed
  · obtain ⟨_, herror, _⟩ := Except.bind_eq_ok_iff.mp h
    cases herror
  dsimp only at h
  obtain ⟨_, hcheck, h⟩ := Except.bind_eq_ok_iff.mp h
  obtain ⟨f, hf, h⟩ := Except.bind_eq_ok_iff.mp h
  obtain ⟨rfl, rfl⟩ := Prod.mk.inj (Except.ok.inj h)
  exact ⟨by simpa using hsealed, hcheck, f, hf, rfl, rfl⟩

theorem declare_eq_ok {spec : FactorSpec α}
    {f : Factor α} (hsealed : g.isSealed = false) (hcheck : g.check spec = .ok ())
    (hf : spec.toFactor = .ok f) :
    g.declare spec = .ok (g.factors.nextKey, { g with
      coveredByDense := g.coveredByDense ++ spec.denseVariables
      factors := g.factors.push { factor := f }
      numDeclared := g.numDeclared + 1 }) := by
  unfold declare
  split_ifs with h
  · rw [hsealed] at h
    cases h
  · rw [hcheck, hf]
    rfl

namespace Edit

theorem of_setLogPotential {v : BinaryVariable} {x : α} (h : g.setLogPotential v x = .ok g') :
    Edit g 0 g' := by
  obtain ⟨_, _, h⟩ := Except.bind_eq_ok_iff.mp h
  exact Except.ok.inj h ▸ .logPotentials (Arena.size_set _ _ _)

theorem of_setStateLogPotential {m : MultiVariable} {state : ℕ} {x : α}
    (h : g.setStateLogPotential m state x = .ok g') : Edit g 0 g' := by
  obtain ⟨_, _, h⟩ := Except.bind_eq_ok_iff.mp h
  cases hv : m.state? state with
  | none => simp [hv] at h
  | some v =>
    simp only [hv] at h
    exact Except.ok.inj h ▸ .logPotentials (Arena.size_set _ _ _)

theorem of_addMulti {numStates : ℕ} {m : MultiVariable}
    (h : g.addMulti numStates = .ok (m, g')) : Edit g numStates g' := by
  unfold FactorGraph.addMulti at h
  split_ifs at h with hzero
  obtain ⟨rfl, rfl⟩ := Prod.mk.inj (Except.ok.inj h)
  exact .multi (Nat.pos_of_ne_zero hzero)

theorem of_declare {spec : FactorSpec α} {id : FactorId}
    (h : g.declare spec = .ok (id, g')) : Edit g 0 g' := by
  obtain ⟨hunsealed, hcheck, f, hf, _, rfl⟩ := exists_of_declare_eq_ok h
  exact .declared hunsealed hcheck hf

theorem of_setAdditional {id : FactorId} {xs : List α}
    (h : g.setAdditional id xs = .ok g') : Edit g 0 g' := by
  obtain ⟨_, hid, h⟩ := Except.bind_eq_ok_iff.mp h
  cases hw : g.factors.get? id with
  | none => simp [hw] at h
  | some w =>
    simp only [hw] at h
    split_ifs at h with hlength
    rw [ne_eq, not_not] at hlength
    exact Except.ok.inj h ▸ .factor (lt_of_checkFactor hid) hw rfl hlength

theorem of_solveProgram {id : FactorId} {scores additional : List α}
    {solution : QuadraticProgram.Solution α} {stop : QuadraticProgram.Stop}
    (h : g.solveProgram id scores additional = .ok (g', solution, stop)) : Edit g 0 g' := by
  obtain ⟨_, hid, h⟩ := Except.bind_eq_ok_iff.mp h
  cases hw : g.factors.get? id with
  | none => simp [hw] at h
  | some w =>
    simp only [hw] at h
    cases ho : w.oracle? with
    | none => simp [ho] at h
    | some oracle =>
      simp only [ho] at h
      obtain ⟨outcome, _, h⟩ := Except.bind_eq_ok_iff.mp h
      exact (Prod.mk.inj (Except.ok.inj h)).1 ▸ .factor (lt_of_checkFactor hid) hw rfl rfl

theorem of_attempt {c : Call α} (hc : c.isSolve = false) (h : g.attempt c = .ok g') :
    ∃ added, Edit g added g' := by
  cases c with
  | addBinary =>
    have hbinary : Edit g 1 g.addBinary.2 := .binary
    exact ⟨1, Except.ok.inj h ▸ hbinary⟩
  | addMulti numStates =>
    obtain ⟨⟨m, _⟩, hadd, rfl⟩ := Except.exists_of_map_eq_ok h
    exact ⟨_, of_addMulti hadd⟩
  | setLogPotential v x => exact ⟨_, of_setLogPotential h⟩
  | setStateLogPotential m state x => exact ⟨_, of_setStateLogPotential h⟩
  | declare spec =>
    obtain ⟨⟨id, _⟩, hdeclare, rfl⟩ := Except.exists_of_map_eq_ok h
    exact ⟨_, of_declare hdeclare⟩
  | setAdditional id xs => exact ⟨_, of_setAdditional h⟩
  | solve options monitor m => cases hc
  | solveProgram id scores additional =>
    obtain ⟨⟨_, _, _⟩, hsolve, rfl⟩ := Except.exists_of_map_eq_ok h
    exact ⟨_, of_solveProgram hsolve⟩

theorem of_perform (g : FactorGraph α) {c : Call α} (hc : c.isSolve = false) :
    ∃ added, Edit g added (g.perform c) := by
  unfold perform
  split
  · next g' h => exact of_attempt hc h
  · exact ⟨0, @logPotentials α _ g g.logPotentials.values rfl⟩

theorem numBinary_eq (h : Edit g added g') : g'.numBinary = g.numBinary + added := by
  cases h with
  | logPotentials length_eq => exact length_eq
  | binary => exact Arena.size_push _ _
  | multi => simp [numBinary, Arena.size]
  | _ => rfl

end Edit

namespace Change

theorem of_solve {σ : Type} (g : FactorGraph α) (options : Options α) (monitor : Monitor σ)
    (m : σ) : Change g 0 (g.solve options monitor m).1.graph := by
  obtain ⟨workers, statistics, hworkers, hsolve⟩ := g.exists_settle_eq_solve options monitor m
  exact hsolve ▸ .solved hworkers

theorem of_perform (g : FactorGraph α) (c : Call α) : ∃ added, Change g added (g.perform c) := by
  cases hc : c.isSolve with
  | false =>
    obtain ⟨added, h⟩ := Edit.of_perform g hc
    exact ⟨added, .edit h⟩
  | true =>
    cases c with
    | solve options monitor m => exact ⟨0, of_solve g options monitor m⟩
    | _ => cases hc

theorem numBinary_eq (h : Change g added g') : g'.numBinary = g.numBinary + added := by
  cases h with
  | edit h => exact h.numBinary_eq
  | solved _ => rfl

end Change

theorem run_induction {P : FactorGraph α → Prop} (hempty : P empty)
    (hchange : ∀ {g g' : FactorGraph α} {added : ℕ}, P g → Change g added g' → P g')
    (calls : List (Call α)) :
    P (run calls) := by
  induction calls using List.reverseRecOn with
  | nil => exact hempty
  | append_singleton calls c ih =>
    obtain ⟨added, hperform⟩ := Change.of_perform (run calls) c
    rw [run_concat]
    exact hchange ih hperform

end FactorGraph
end MapInference
