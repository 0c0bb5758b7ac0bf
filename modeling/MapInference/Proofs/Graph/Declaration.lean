import MapInference.Proofs.Factor
import MapInference.Proofs.Word
import MapInference.Graph

/-!
# Declared factors

The checks of a declaration make the factor well-formed: its variables are different variables of
the graph, and there are as many of them, and of its additional variables, as its kind needs.
-/

namespace MapInference

theorem Except.bind_eq_ok_iff {ε β γ : Type} {x : Except ε β} {f : β → Except ε γ} {c : γ} :
    x >>= f = .ok c ↔ ∃ b, x = .ok b ∧ f b = .ok c := by
  cases x <;> simp [bind, Except.bind]

theorem Except.bind_eq_error_iff {ε β γ : Type} {x : Except ε β} {f : β → Except ε γ} {e : ε} :
    x >>= f = .error e ↔ x = .error e ∨ ∃ b, x = .ok b ∧ f b = .error e := by
  cases x <;> simp [bind, Except.bind]

theorem Except.exists_of_map_eq_ok {ε β γ : Type} {x : Except ε β} {f : β → γ} {c : γ}
    (h : x.map f = .ok c) : ∃ b, x = .ok b ∧ f b = c := by
  cases x with
  | error e => cases h
  | ok b => exact ⟨b, rfl, Except.ok.inj h⟩

theorem Except.eq_ok_of_mapError {ε ε' β : Type} {x : Except ε β} {f : ε → ε'} {b : β}
    (h : x.mapError f = .ok b) : x = .ok b := by
  cases x with
  | error e => cases h
  | ok c => exact congrArg Except.ok (Except.ok.inj h)

theorem Except.length_of_mapM {ε β γ : Type} {f : β → Except ε γ} {bs : List β} {cs : List γ}
    (h : bs.mapM f = .ok cs) : cs.length = bs.length := by
  induction bs generalizing cs with
  | nil =>
    have hcs : [] = cs := by simpa [pure, Except.pure] using h
    rw [← hcs, List.length_nil, List.length_nil]
  | cons b bs ih =>
    rw [List.mapM_cons, bind_eq_ok_iff] at h
    obtain ⟨c, _, h⟩ := h
    obtain ⟨rest, hrest, h⟩ := bind_eq_ok_iff.mp h
    have hcs : c :: rest = cs := Except.ok.inj h
    rw [← hcs, List.length_cons, List.length_cons, ih hrest]

namespace FactorSpec

variable {α : Type}

theorem length_literals_dense (vars : List MultiVariable) (logPotentials : List α) :
    (dense vars logPotentials).literals.length = Dense.numStates (vars.map (·.numStates)) := by
  induction vars with
  | nil => rfl
  | cons m vars ih =>
    simp only [literals, List.flatMap_cons, List.length_append, List.length_map,
      MultiVariable.length_states, List.map_cons, Dense.numStates, List.foldr_cons] at ih ⊢
    rw [ih]

theorem lengths_of_checkShape_segmentation {vars : List BinaryVariable} {length : ℕ}
    {transitions : List α} (h : (segmentation vars length transitions).checkShape = .ok ()) :
    0 < length ∧ vars.length = Segmentation.numIntervals length ∧
      transitions.length = Segmentation.numTransitions length := by
  rw [checkShape, wordIntervals?_eq] at h
  split_ifs at h with hempty hlong
  rw [wordTransitions?_eq hlong] at h
  dsimp only at h
  split_ifs at h with hcount htransitions
  rw [ne_eq, not_not] at hcount htransitions
  exact ⟨Nat.pos_of_ne_zero hempty, hcount, htransitions⟩

variable [Scalar α] {spec : FactorSpec α} {f : Factor α}

theorem literals_of_toFactor (h : spec.toFactor = .ok f) : f.literals = spec.literals := by
  cases spec with
  | knapsack literals costs total =>
    obtain ⟨costs', _, h⟩ := Except.bind_eq_ok_iff.mp h
    obtain ⟨capacity, _, h⟩ := Except.bind_eq_ok_iff.mp h
    exact (congrArg Factor.literals (Except.ok.inj h)).symm
  | _ => exact (congrArg Factor.literals (Except.ok.inj h)).symm

/-- The shape of a specification that has passed its check fits the kind of the factor. -/
theorem fits_of_toFactor (hshape : spec.checkShape = .ok ())
    (hlen : spec.literals.length < Word.limit - 1)
    (hdense : ∀ m ∈ spec.denseVariables, 0 < m.numStates) (h : spec.toFactor = .ok f) :
    f.kind.Fits f.literals.length f.numAdditionals := by
  cases spec with
  | logic operator literals =>
    rw [← Except.ok.inj h]
    rw [checkShape] at hshape
    split_ifs at hshape with harity
    exact ⟨operator, rfl, not_lt.mp harity, rfl⟩
  | pair first second logPotential =>
    rw [← Except.ok.inj h]
    exact ⟨rfl, rfl⟩
  | budget literals limit =>
    rw [← Except.ok.inj h]
    rfl
  | knapsack literals costs total =>
    obtain ⟨costs', hcosts, h⟩ := Except.bind_eq_ok_iff.mp h
    obtain ⟨capacity, _, h⟩ := Except.bind_eq_ok_iff.mp h
    rw [← Except.ok.inj h]
    rw [checkShape] at hshape
    split_ifs at hshape with hcount
    rw [ne_eq, not_not] at hcount
    exact ⟨by rw [Except.length_of_mapM hcosts, hcount], rfl⟩
  | dense vars logPotentials =>
    rw [← Except.ok.inj h]
    rw [checkShape] at hshape
    split_ifs at hshape with hjoint
    rw [ne_eq, not_not] at hjoint
    refine ⟨length_literals_dense vars logPotentials, Word.eq_prod_of_product? hjoint, ?_⟩
    intro size hsize
    obtain ⟨m, hm, rfl⟩ := List.mem_map.mp hsize
    exact hdense m hm
  | matching vars numRows numColumns =>
    rw [← Except.ok.inj h]
    rw [checkShape] at hshape
    split_ifs at hshape with hempty hcount
    rw [ne_eq, not_not] at hcount
    have hvars : vars.length < Word.limit - 1 := by simpa [literals] using hlen
    -- A saturated product would need as many variables as there are words.
    have hproduct : Word.saturate (numRows * numColumns) = numRows * numColumns := by
      unfold Word.saturate at hcount ⊢
      split_ifs at hcount ⊢ with hlt
      · rfl
      · omega
    exact ⟨by simp [literals, hcount, hproduct], rfl⟩
  | segmentation vars length transitions =>
    rw [← Except.ok.inj h]
    obtain ⟨_, hcount, htransitions⟩ := lengths_of_checkShape_segmentation hshape
    exact ⟨by simp [literals, hcount], htransitions⟩

end FactorSpec

namespace FactorGraph

variable {α : Type} {g : FactorGraph α}

theorem lt_of_checkVariable {v : BinaryVariable} (h : g.checkVariable v = .ok ()) :
    v.id < g.numBinary := by
  unfold checkVariable at h
  split_ifs at h with hv
  exact of_decide_eq_true hv

theorem lt_of_checkFactor {id : FactorId} (h : g.checkFactor id = .ok ()) :
    id.id < g.numDeclared := by
  unfold checkFactor at h
  split_ifs at h with hid
  exact hid

theorem mem_of_checkMulti {m : MultiVariable} (h : g.checkMulti m = .ok ()) :
    m ∈ g.multiVariables := by
  unfold checkMulti at h
  split_ifs at h with hm
  exact List.mem_of_getElem? hm

theorem of_checkLiterals {literals : List Literal} {seen : List BinaryVariable}
    (h : g.checkLiterals seen literals = .ok ()) :
    (literals.map fun l => l.atom.id).Nodup ∧
      ∀ l ∈ literals, l.atom.id < g.numBinary ∧ l.atom ∉ seen := by
  induction literals generalizing seen with
  | nil => simp
  | cons l literals ih =>
    rw [checkLiterals, Except.bind_eq_ok_iff] at h
    obtain ⟨_, hvariable, h⟩ := h
    split_ifs at h with hseen
    obtain ⟨hnodup, hall⟩ := ih h
    refine ⟨?_, ?_⟩
    · refine List.nodup_cons.mpr ⟨?_, hnodup⟩
      intro hmem
      obtain ⟨l', hl', hid⟩ := List.mem_map.mp hmem
      have hatom : l'.atom = l.atom := congrArg BinaryVariable.mk hid
      exact (hall l' hl').2 (hatom ▸ List.mem_cons_self)
    · intro l' hl'
      rcases List.mem_cons.mp hl' with rfl | hl'
      · exact ⟨lt_of_checkVariable hvariable, hseen⟩
      · obtain ⟨hlt, hnot⟩ := hall l' hl'
        exact ⟨hlt, fun hmem => hnot (List.mem_cons_of_mem _ hmem)⟩

theorem mem_of_forM_checkMulti {vars : List MultiVariable}
    (h : vars.forM g.checkMulti = .ok ()) : ∀ m ∈ vars, m ∈ g.multiVariables := by
  induction vars with
  | nil => simp
  | cons m vars ih =>
    have hbind : (g.checkMulti m >>= fun _ => vars.forM g.checkMulti) = .ok () := h
    obtain ⟨_, hm, hrest⟩ := Except.bind_eq_ok_iff.mp hbind
    intro m' hm'
    rcases List.mem_cons.mp hm' with rfl | hm'
    · exact mem_of_checkMulti hm
    · exact ih hrest m' hm'

theorem of_check {spec : FactorSpec α} (h : g.check spec = .ok ()) :
    spec.checkShape = .ok () ∧ g.checkLiterals [] spec.literals = .ok () ∧
      ∀ m ∈ spec.denseVariables, m ∈ g.multiVariables := by
  unfold check at h
  split at h
  · next vars logPotentials =>
    split_ifs at h with hempty
    · obtain ⟨_, herror, _⟩ := Except.bind_eq_ok_iff.mp h
      cases herror
    · dsimp only at h
      obtain ⟨_, hvars, h⟩ := Except.bind_eq_ok_iff.mp h
      obtain ⟨_, hshape, hliterals⟩ := Except.bind_eq_ok_iff.mp h
      exact ⟨hshape, hliterals, mem_of_forM_checkMulti hvars⟩
  · next hdense =>
    obtain ⟨_, hshape, hliterals⟩ := Except.bind_eq_ok_iff.mp h
    refine ⟨hshape, hliterals, ?_⟩
    cases spec with
    | dense vars logPotentials => exact absurd rfl (hdense vars logPotentials)
    | _ => simp [FactorSpec.denseVariables]

end FactorGraph
end MapInference
