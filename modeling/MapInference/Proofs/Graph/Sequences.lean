import MapInference.Proofs.Graph.Layout

/-!
# Sequences of calls

What a graph is made of after any sequence of calls. The declared factors only grow, and a handle
keeps denoting the factor that it was given for. The implicit factors are those of the last solve,
since no other call adds one.
-/

namespace MapInference

open Scalar
variable {α : Type}

/-- What no call changes in a factor, and the number of its additional variables. -/
def Factor.signature (f : Factor α) : (List Literal × FactorKind) × ℕ := (f.shape, f.numAdditionals)

namespace FactorGraph

def signatures (g : FactorGraph α) : List ((List Literal × FactorKind) × ℕ) :=
  g.declaredFactors.map Factor.signature

variable {g g' : FactorGraph α}

theorem IsGrouped.length_declaredFactors (h : g.IsGrouped) :
    g.declaredFactors.length = g.numDeclared := by
  have hle := h.numDeclared_le
  rw [shapes, List.length_map] at hle
  rw [declaredFactors, List.length_map, List.length_take, min_eq_left hle]

theorem IsGrouped.declaredFactors_of_unsealed (h : g.IsGrouped) (hunsealed : g.isSealed = false) :
    g.declaredFactors = g.problem.factors := by
  have hlength : g.numDeclared = g.factors.values.length := by
    simpa [shapes] using h.length_shapes_of_unsealed hunsealed
  rw [declaredFactors, hlength, List.take_length]
  rfl

variable [Scalar α]

omit [Scalar α] in
theorem signatures_set {id : FactorId} {w changed : WarmFactor α}
    (hw : g.factors.get? id = some w)
    (hsignature : changed.factor.signature = w.factor.signature) :
    ({ g with factors := g.factors.set id changed } : FactorGraph α).signatures =
      g.signatures := by
  have hget : g.factors.values[id.id]? = some w := hw
  simp only [signatures, declaredFactors, List.map_map]
  apply List.ext_getElem?
  intro i
  simp only [Arena.set, Arena.modify, Handle.index, List.getElem?_map, List.getElem?_take,
    List.getElem?_modify]
  by_cases hi : id.id = i
  · subst hi
    simp [hget, hsignature]
  · simp [hi]

theorem IsGrouped.of_declare (h : g.IsGrouped) {spec : FactorSpec α} {id : FactorId}
    (hdeclare : g.declare spec = .ok (id, g')) :
    id.id = g.declaredFactors.length ∧
      ∃ f, spec.toFactor = .ok f ∧ g'.declaredFactors = g.declaredFactors ++ [f] := by
  obtain ⟨hunsealed, _, f, hf, rfl, rfl⟩ := exists_of_declare_eq_ok hdeclare
  have hlength : g.factors.values.length = g.numDeclared := by
    simpa [shapes] using (h.length_shapes_of_unsealed hunsealed).symm
  refine ⟨hlength.trans h.length_declaredFactors.symm, f, hf, ?_⟩
  rw [h.declaredFactors_of_unsealed hunsealed, declaredFactors]
  change ((g.factors.push { factor := f }).values.take (g.numDeclared + 1)).map _ = _
  rw [List.take_of_length_le (by simp [hlength]), Arena.values_push, List.map_append]
  rfl

theorem Edit.signatures_prefix {added : ℕ} (hedit : Edit g added g') (h : g.IsGrouped) :
    g.signatures <+: g'.signatures := by
  cases hedit with
  | logPotentials _ | binary | multi _ => exact List.prefix_rfl
  | declared _ _ _ =>
    refine List.IsPrefix.map _ (List.IsPrefix.map _ ?_)
    change g.factors.values.take g.numDeclared <+: (g.factors.values ++ _).take (g.numDeclared + 1)
    have hle : g.numDeclared ≤ g.factors.values.length := by
      simpa [shapes] using h.numDeclared_le
    rw [← List.take_append_of_le_length hle]
    exact List.take_prefix_take_left (Nat.le_succ _)
  | factor _ get shape_eq numAdditionals_eq =>
    rw [signatures_set get (Prod.ext shape_eq numAdditionals_eq)]

theorem Change.signatures_prefix {added : ℕ} (hchange : Change g added g') (h : g.IsGrouped) :
    g.signatures <+: g'.signatures := by
  cases hchange with
  | edit hedit => exact hedit.signatures_prefix h
  | solved factors_eq => rw [signatures, signatures, declaredFactors_settle h factors_eq]

theorem signatures_prefix_run (before after : List (Call α)) :
    (run before).signatures <+: (run (before ++ after)).signatures := by
  induction after using List.reverseRecOn with
  | nil => rw [List.append_nil]
  | append_singleton after c ih =>
    rw [← List.append_assoc, run_concat]
    obtain ⟨added, hchange⟩ := Change.of_perform (run (before ++ after)) c
    exact ih.trans (hchange.signatures_prefix (isGrouped_run _))

theorem exists_declaredFactor_run {before after : List (Call α)} {spec : FactorSpec α}
    {id : FactorId} {g' : FactorGraph α} (h : (run before).declare spec = .ok (id, g')) :
    ∃ f f', spec.toFactor = .ok f ∧ f'.signature = f.signature ∧
      (run (before ++ .declare spec :: after)).declaredFactors[id.id]? = some f' := by
  obtain ⟨hid, f, hf, hdeclared⟩ := (isGrouped_run before).of_declare h
  have hg' : run (before ++ [.declare spec]) = g' := by
    rw [run_concat, perform]
    simp only [attempt, h, Except.map]
  have hprefix := signatures_prefix_run (before ++ [.declare spec]) after
  rw [List.append_assoc, List.singleton_append] at hprefix
  have hsignature : (run (before ++ [.declare spec])).signatures[id.id]? = some f.signature := by
    rw [hg', signatures, hdeclared, hid]
    simp
  obtain ⟨rest, hrest⟩ := hprefix
  have hlast : (run (before ++ .declare spec :: after)).signatures[id.id]? = some f.signature := by
    rw [← hrest, List.getElem?_append_left (List.getElem?_eq_some_iff.mp hsignature).1]
    exact hsignature
  rw [signatures, List.getElem?_map] at hlast
  obtain ⟨f', hf', hsignature'⟩ := Option.map_eq_some_iff.mp hlast
  exact ⟨f, f', hf, hsignature', hf'⟩

theorem Edit.isSealed_eq {added : ℕ} (hedit : Edit g added g') : g'.isSealed = g.isSealed := by
  cases hedit <;> rfl

theorem Edit.implicitFactors_eq {added : ℕ} (hedit : Edit g added g') (hsealed : g.isSealed = true) :
    g'.implicitFactors = g.implicitFactors := by
  cases hedit with
  | declared hunsealed => exact absurd (hsealed.symm.trans hunsealed) (by decide)
  | factor isDeclared => exact implicitFactors_set isDeclared _
  | _ => rfl

theorem isSealed_solve {σ : Type} (g : FactorGraph α) (options : Options α) (monitor : Monitor σ)
    (m : σ) : (g.solve options monitor m).1.graph.isSealed = true := by
  obtain ⟨workers, statistics, _, hsolve⟩ := g.exists_settle_eq_solve options monitor m
  rw [hsolve]
  rfl

theorem isSealed_run (calls : List (Call α)) : (run calls).isSealed = calls.any (·.isSolve) := by
  induction calls using List.reverseRecOn with
  | nil => rfl
  | append_singleton calls c ih =>
    rw [run_concat, List.any_append, ← ih, List.any_cons, List.any_nil, Bool.or_false]
    cases hc : c.isSolve with
    | false =>
      obtain ⟨added, hedit⟩ := Edit.of_perform (run calls) hc
      rw [hedit.isSealed_eq, Bool.or_false]
    | true =>
      cases c with
      | solve options monitor m => exact (isSealed_solve _ _ _ _).trans (Bool.or_true _).symm
      | _ => cases hc

theorem isSealed_run_of_not_solve {calls : List (Call α)} (h : ∀ c ∈ calls, c.isSolve = false) :
    (run calls).isSealed = false := by
  rw [isSealed_run, List.any_eq_false]
  exact fun c hc => by simp [h c hc]

theorem implicitFactors_run_of_not_solve {calls : List (Call α)}
    (h : ∀ c ∈ calls, c.isSolve = false) : (run calls).implicitFactors = [] := by
  have hzero := (isGrouped_run calls).unsealed (isSealed_run_of_not_solve h)
  rw [(isLaidOut_run calls).implicitFactors_eq, hzero, List.take_zero]
  rfl

/-- Right after a solve the implicit factors are those of the variables in no dense factor. -/
theorem implicitFactors_solve {σ : Type} (hgrouped : g.IsGrouped) (hlaid : g.IsLaidOut)
    (options : Options α) (monitor : Monitor σ) (m : σ) :
    (g.solve options monitor m).1.graph.implicitFactors =
      (g.multiVariables.filter fun v => !g.declaredFactors.any (·.isDenseOver v)).map
        exactlyOneState := by
  obtain ⟨workers, statistics, hworkers, hsolve⟩ := g.exists_settle_eq_solve options monitor m
  have hsealed := hlaid.sealed hgrouped
  rw [hsolve, (hsealed.settle hworkers statistics).implicitFactors_eq_map
    (hgrouped.sealed.settle hworkers statistics), declaredFactors_settle hgrouped hworkers]
  change ((g.multiVariables.take g.multiVariables.length).filter _).map _ = _
  rw [List.take_length]

theorem implicitFactors_run {σ : Type} (before : List (Call α)) (options : Options α)
    (monitor : Monitor σ) (m : σ) {after : List (Call α)} (h : ∀ c ∈ after, c.isSolve = false) :
    (run (before ++ .solve options monitor m :: after)).isSealed = true ∧
      (run (before ++ .solve options monitor m :: after)).implicitFactors =
        ((run before).multiVariables.filter
          fun v => !(run before).declaredFactors.any (·.isDenseOver v)).map exactlyOneState := by
  induction after using List.reverseRecOn with
  | nil =>
    rw [run_concat]
    exact ⟨isSealed_solve _ _ _ _,
      implicitFactors_solve (isGrouped_run before) (isLaidOut_run before) _ _ _⟩
  | append_singleton after c ih =>
    obtain ⟨hsealed, himplicit⟩ := ih fun c hc => h c (List.mem_append_left _ hc)
    obtain ⟨added, hedit⟩ := Edit.of_perform
      (run (before ++ .solve options monitor m :: after)) (h c (by simp))
    rw [← List.cons_append, ← List.append_assoc, run_concat]
    exact ⟨hedit.isSealed_eq.trans hsealed, (hedit.implicitFactors_eq hsealed).trans himplicit⟩

/-- What any sequence of calls makes of the empty graph. -/
theorem wellFormed_run (calls : List (Call α)) (few : (run calls).numBinary < 2 ^ 32) :
    (∀ f ∈ (run calls).problem.factors, f.WellFormed (run calls).numBinary) ∧
    (∀ (i : ℕ) (m : MultiVariable), (run calls).multiVariables[i]? = some m →
      m.id = i ∧ 0 < m.numStates ∧ m.firstState.id + m.numStates ≤ (run calls).numBinary) ∧
    ((run calls).multiVariables.Pairwise fun m m' =>
      m.firstState.id + m.numStates ≤ m'.firstState.id) ∧
    ((run calls).problem.factors = (run calls).declaredFactors ++ (run calls).implicitFactors ∧
      (run calls).declaredFactors.length = (run calls).numDeclared) ∧
    (∀ before after, calls = before ++ after → (run before).signatures <+: (run calls).signatures) ∧
    (∀ (before after : List (Call α)) (spec : FactorSpec α) (id : FactorId) (g' : FactorGraph α),
      calls = before ++ .declare spec :: after →
      (run before).declare spec = .ok (id, g') →
        id.id = (run before).numDeclared ∧ ∃ f f', spec.toFactor = .ok f ∧
          f'.signature = f.signature ∧ (run calls).declaredFactors[id.id]? = some f') ∧
    (∀ (before after : List (Call α)) (σ : Type) (options : Options α) (monitor : Monitor σ)
      (m : σ), calls = before ++ .solve options monitor m :: after →
      (∀ c ∈ after, c.isSolve = false) →
        (run calls).implicitFactors = ((run before).multiVariables.filter
          fun v => !(run before).declaredFactors.any (·.isDenseOver v)).map exactlyOneState) ∧
    ((∀ c ∈ calls, c.isSolve = false) → (run calls).implicitFactors = []) := by
  have hroom : (run calls).numBinary ≤ maxVariables := few.le.trans (by decide)
  have hconsistent := isConsistent_run hroom
  have hgrouped := isGrouped_run calls
  have hlaid := isLaidOut_run calls
  refine ⟨hconsistent.wellFormed_problem, fun i m hm => ?_, hlaid.disjoint,
    ⟨(declaredFactors_append_implicitFactors _).symm, hgrouped.length_declaredFactors⟩, ?_, ?_, ?_,
    implicitFactors_run_of_not_solve⟩
  · exact ⟨hlaid.id_eq hm, hlaid.hasStates m (List.mem_of_getElem? hm)⟩
  · rintro before after rfl
    exact signatures_prefix_run before after
  · rintro before after spec id g' rfl hdeclare
    have hbefore := isGrouped_run before
    refine ⟨(hbefore.of_declare hdeclare).1.trans hbefore.length_declaredFactors, ?_⟩
    exact exists_declaredFactor_run hdeclare
  · rintro before after σ options monitor m rfl hafter
    exact (implicitFactors_run before options monitor m hafter).2

/-- A variable and two multi-state variables, the second of which is in a dense factor, with a solve
before a third one. -/
def mixedCalls : List (Call ℚ) :=
  [.addBinary, .addMulti 2, .addMulti 2, .declare (.dense [⟨1, ⟨3⟩, 2⟩] [1, 2]),
    .solve { Options.standard with maxIterations := 1 } (Condition.monitor 0) .indefinite,
    .addMulti 3, .declare (.pair ⟨⟨0⟩, false⟩ ⟨⟨1⟩, false⟩ 2)]

/-- The dense factor is the only declared one; the third variable has no implicit factor yet. -/
theorem wellFormed_run_mixedCalls :
    (run mixedCalls).numBinary = 8 ∧ (run mixedCalls).declaredFactors.length = 1 ∧
      (run mixedCalls).implicitFactors = [exactlyOneState ⟨0, ⟨1⟩, 2⟩] := by
  have hbinary : (run mixedCalls).numBinary = 8 := by decide +kernel
  have hdeclared : (run mixedCalls).numDeclared = 1 := by decide +kernel
  obtain ⟨_, _, _, ⟨_, hlength⟩, _, _, himplicit, _⟩ :=
    wellFormed_run mixedCalls (hbinary.trans_lt (by decide))
  refine ⟨hbinary, hlength.trans hdeclared, ?_⟩
  exact himplicit (mixedCalls.take 4) (mixedCalls.drop 5) _ _ _ _ rfl (by decide)

end FactorGraph
end MapInference
