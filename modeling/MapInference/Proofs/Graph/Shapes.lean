import MapInference.Proofs.Graph.Calls

/-!
# Shapes of declarations

The kind of a factor prescribes how many variables and log-potentials it has, and the products that
this takes are computed with machine words. A matching saturates its product, a dense factor has no
shape when a product of its numbers of states overflows, and a segmentation relies on a product that
nothing guards. So every declaration that is accepted has its true shape, and a wrong shape is
answered with an error, except for a segmentation whose positions do not fit into half of a word: it
overflows whatever its lists are.
-/

namespace MapInference

namespace FactorSpec

variable {α : Type}

/-- The lists of a specification fit into the memory, and its sizes are machine words. -/
def IsStorable : FactorSpec α → Prop
  | dense vars logPotentials =>
    vars.length < twoTo 63 ∧ logPotentials.length < twoTo 63 ∧ ∀ m ∈ vars, m.numStates < Word.limit
  | matching vars numRows numColumns =>
    vars.length < twoTo 63 ∧ numRows < Word.limit ∧ numColumns < Word.limit
  | segmentation vars length transitions =>
    vars.length < twoTo 63 ∧ transitions.length < twoTo 63 ∧ length < Word.limit
  | _ => True

/-- The lists of a specification are as long as its kind prescribes, in numbers without a limit. -/
def HasShape : FactorSpec α → Prop
  | logic operator literals => operator.minimumArity ≤ literals.length
  | pair _ _ _ => True
  | budget _ _ => True
  | knapsack literals costs _ => costs.length = literals.length
  | dense vars logPotentials =>
    vars ≠ [] ∧ logPotentials.length = (vars.map (·.numStates)).prod
  | matching vars numRows numColumns =>
    0 < numRows ∧ 0 < numColumns ∧ vars.length = numRows * numColumns
  | segmentation vars length transitions =>
    0 < length ∧ vars.length = length * (length + 1) / 2 ∧
      transitions.length = length * (length - 1) / 2

/-- Whether twice the number of intervals is no machine word. -/
def IsLong : FactorSpec α → Prop
  | segmentation _ length _ => twoTo 32 ≤ length
  | _ => False

theorem length_lt_of_vars {vars length : ℕ} (hvars : vars < twoTo 63)
    (h : vars = length * (length + 1) / 2) : length < twoTo 32 := by
  by_contra hlong
  have : twoTo 32 * (twoTo 32 + 1) ≤ length * (length + 1) :=
    Nat.mul_le_mul (not_lt.mp hlong) (Nat.succ_le_succ (not_lt.mp hlong))
  have hlimit : 2 * twoTo 63 ≤ twoTo 32 * (twoTo 32 + 1) := by decide
  omega

variable {spec : FactorSpec α}

theorem HasShape.checkShape_eq_ok (h : spec.HasShape) (hstorable : spec.IsStorable)
    (hpos : ∀ m ∈ spec.denseVariables, 0 < m.numStates) : spec.checkShape = .ok () := by
  have hlimit : twoTo 63 < Word.limit - 1 := by decide
  cases spec with
  | logic operator literals => exact if_neg (not_lt.mpr h)
  | pair first second logPotential => rfl
  | budget literals limit => rfl
  | knapsack literals costs total => exact if_neg (not_not.mpr h)
  | dense vars logPotentials =>
    obtain ⟨_, hlength⟩ := h
    have hproduct : Word.product? (vars.map (·.numStates)) = some logPotentials.length := by
      rw [hlength]
      refine Word.product?_eq_some (List.forall_mem_map.mpr hpos) ?_
      rw [← hlength]
      exact hstorable.2.1.trans (by decide)
    exact if_neg (not_not.mpr hproduct)
  | matching vars numRows numColumns =>
    obtain ⟨hrows, hcolumns, hvars⟩ := h
    have hproduct : Word.saturate (numRows * numColumns) = vars.length := by
      rw [← hvars]
      exact Word.saturate_of_lt (hstorable.1.trans (by decide))
    simp [checkShape, hproduct, hrows.ne', hcolumns.ne']
  | segmentation vars length transitions =>
    obtain ⟨hpositions, hvars, htransitions⟩ := h
    have hlength : length < twoTo 32 := length_lt_of_vars hstorable.1 hvars
    simp [checkShape, wordIntervals?_eq, hlength, wordTransitions?_eq hlength, hpositions.ne',
      hvars, htransitions, Segmentation.numIntervals, Segmentation.numTransitions]

theorem checkShape_eq_sizeOverflow_iff :
    spec.checkShape = .error .sizeOverflow ↔ spec.IsLong := by
  cases spec with
  | pair first second logPotential => simp [checkShape, IsLong]
  | budget literals limit => simp [checkShape, IsLong]
  | logic _ _ | knapsack _ _ _ | dense _ _ | matching _ _ _ =>
    simp only [checkShape, IsLong, iff_false]
    split_ifs <;> simp
  | segmentation vars length transitions =>
    simp only [checkShape, IsLong, wordIntervals?_eq]
    by_cases hlong : length < twoTo 32
    · simp only [hlong, if_true, wordTransitions?_eq hlong]
      split_ifs <;> simp [hlong]
    · have hpos : length ≠ 0 := by
        rintro rfl
        exact hlong (by decide)
      simp [hlong, hpos, not_lt.mp hlong]

variable [Scalar α]

theorem natural_ne_sizeOverflow (parameter : Parameter) (x : α) :
    natural parameter x ≠ .error .sizeOverflow := by
  unfold natural
  split <;> simp

theorem mapM_natural_ne_sizeOverflow (parameter : Parameter) (xs : List α) :
    xs.mapM (natural parameter) ≠ .error .sizeOverflow := by
  induction xs with
  | nil => nofun
  | cons x xs ih =>
    rw [List.mapM_cons, ne_eq, Except.bind_eq_error_iff]
    rintro (hx | ⟨n, _, h⟩)
    · exact natural_ne_sizeOverflow parameter x hx
    · rcases Except.bind_eq_error_iff.mp h with hxs | ⟨ns, _, h⟩
      · exact ih hxs
      · cases h

theorem toFactor_ne_sizeOverflow (spec : FactorSpec α) : spec.toFactor ≠ .error .sizeOverflow := by
  cases spec with
  | knapsack literals costs total =>
    rw [toFactor, ne_eq, Except.bind_eq_error_iff]
    rintro (hcosts | ⟨ns, _, h⟩)
    · exact mapM_natural_ne_sizeOverflow _ _ hcosts
    · rcases Except.bind_eq_error_iff.mp h with htotal | ⟨n, _, h⟩
      · unfold capacity at htotal
        split_ifs at htotal
        exact natural_ne_sizeOverflow _ _ htotal
      · cases h
  | _ => nofun

end FactorSpec

namespace FactorGraph

variable {α : Type} {g : FactorGraph α} {spec : FactorSpec α}

theorem checkLiterals_ne_sizeOverflow (seen : List BinaryVariable) (literals : List Literal) :
    g.checkLiterals seen literals ≠ .error .sizeOverflow := by
  induction literals generalizing seen with
  | nil => nofun
  | cons l literals ih =>
    rw [checkLiterals, ne_eq, Except.bind_eq_error_iff]
    rintro (hvariable | ⟨_, _, h⟩)
    · unfold checkVariable at hvariable
      split_ifs at hvariable
      cases hvariable
    · split_ifs at h
      · cases h
      · exact ih _ h

theorem forM_checkMulti_ne_sizeOverflow (vars : List MultiVariable) :
    vars.forM g.checkMulti ≠ .error .sizeOverflow := by
  induction vars with
  | nil => nofun
  | cons m vars ih =>
    intro h
    have hbind : (g.checkMulti m >>= fun _ => vars.forM g.checkMulti) = .error .sizeOverflow := h
    rcases Except.bind_eq_error_iff.mp hbind with hm | ⟨_, _, h⟩
    · unfold checkMulti at hm
      split_ifs at hm
      cases hm
    · exact ih h

theorem check_eq_sizeOverflow_iff : g.check spec = .error .sizeOverflow ↔ spec.IsLong := by
  have hshape : (spec.checkShape >>= fun _ => g.checkLiterals [] spec.literals) =
      .error .sizeOverflow ↔ spec.IsLong := by
    rw [Except.bind_eq_error_iff, FactorSpec.checkShape_eq_sizeOverflow_iff]
    refine or_iff_left ?_
    rintro ⟨_, _, h⟩
    exact checkLiterals_ne_sizeOverflow _ _ h
  unfold check
  split
  · next vars logPotentials =>
    split_ifs with hempty
    · simp [FactorSpec.IsLong, bind, Except.bind]
    · dsimp only
      rw [Except.bind_eq_error_iff, or_iff_right (forM_checkMulti_ne_sizeOverflow vars)]
      refine ⟨?_, nofun⟩
      rintro ⟨_, _, h⟩
      exact hshape.mp h
  · exact hshape

theorem hasShape_of_check (hstorable : spec.IsStorable) (h : g.check spec = .ok ()) :
    spec.HasShape := by
  have hshape := (of_check h).1
  cases spec with
  | logic operator literals =>
    rw [FactorSpec.checkShape] at hshape
    split_ifs at hshape with harity
    exact not_lt.mp harity
  | pair first second logPotential => trivial
  | budget literals limit => trivial
  | knapsack literals costs total =>
    rw [FactorSpec.checkShape] at hshape
    split_ifs at hshape with hcosts
    exact not_not.mp hcosts
  | dense vars logPotentials =>
    rw [FactorSpec.checkShape] at hshape
    split_ifs at hshape with hproduct
    refine ⟨?_, Word.eq_prod_of_product? (not_not.mp hproduct)⟩
    rintro rfl
    cases h
  | matching vars numRows numColumns =>
    rw [FactorSpec.checkShape] at hshape
    split_ifs at hshape with hempty hvars
    rw [ne_eq, not_not] at hvars
    rw [not_or] at hempty
    refine ⟨Nat.pos_of_ne_zero hempty.1, Nat.pos_of_ne_zero hempty.2, ?_⟩
    -- the largest word is too long for a list
    have hlimit : twoTo 63 < Word.limit - 1 := by decide
    rcases Word.saturate_cases (numRows * numColumns) with ⟨hproduct, _⟩ | ⟨hproduct, _⟩
    · rw [hvars, hproduct]
    · exact absurd (hvars.trans hproduct) (hstorable.1.trans hlimit).ne
  | segmentation vars length transitions =>
    exact FactorSpec.lengths_of_checkShape_segmentation hshape

variable [Scalar α]

theorem declare_eq_sizeOverflow_iff :
    g.declare spec = .error .sizeOverflow ↔ g.isSealed = false ∧ spec.IsLong := by
  unfold declare
  split_ifs with hsealed
  · simp [hsealed, bind, Except.bind]
  · rw [Bool.not_eq_true] at hsealed
    dsimp only
    rw [Except.bind_eq_error_iff, check_eq_sizeOverflow_iff]
    refine ⟨?_, fun h => .inl h.2⟩
    rintro (hlong | ⟨_, _, h⟩)
    · exact ⟨hsealed, hlong⟩
    · rcases Except.bind_eq_error_iff.mp h with hfactor | ⟨f, _, h⟩
      · exact absurd hfactor (FactorSpec.toFactor_ne_sizeOverflow spec)
      · cases h

/-- A declaration that is accepted has the shape that its kind prescribes, and one without it is
answered with an error unless a product overflows. This happens to the segmentations for which twice
the number of intervals is no word, none of which has its shape, and to nothing else. No
specification is refused for its shape when it has it. -/
theorem declare_shapes (g : FactorGraph α) {spec : FactorSpec α} (hstorable : spec.IsStorable) :
    ((∃ declared, g.declare spec = .ok declared) → spec.HasShape) ∧
      (¬ spec.HasShape → ¬ spec.IsLong → ∃ e, g.declare spec = .error e ∧ e ≠ .sizeOverflow) ∧
      (g.declare spec = .error .sizeOverflow ↔ g.isSealed = false ∧ spec.IsLong) ∧
      (spec.IsLong → ¬ spec.HasShape) ∧
      ((∀ m ∈ spec.denseVariables, 0 < m.numStates) → spec.HasShape →
        spec.checkShape = .ok ()) := by
  have haccepted (declared : FactorId × FactorGraph α) (h : g.declare spec = .ok declared) :
      spec.HasShape :=
    hasShape_of_check hstorable (exists_of_declare_eq_ok h).2.1
  refine ⟨fun ⟨declared, h⟩ => haccepted declared h, ?_, declare_eq_sizeOverflow_iff, ?_,
    fun hpos hshape => hshape.checkShape_eq_ok hstorable hpos⟩
  · intro hshape hlong
    cases h : g.declare spec with
    | ok declared => exact absurd (haccepted declared h) hshape
    | error e =>
      refine ⟨e, rfl, ?_⟩
      rintro rfl
      exact hlong (declare_eq_sizeOverflow_iff.mp h).2
  · cases spec with
    | segmentation vars length transitions =>
      intro hlong hshape
      exact absurd (FactorSpec.length_lt_of_vars hstorable.1 hshape.2.1) (not_lt.mpr hlong)
    | _ => exact False.elim

/-- The product of the rows and the columns is the limit, which would wrap around to the length of
the empty list. -/
theorem declare_shapes_wrapping :
    let spec : FactorSpec ℚ := .matching [] 4294967296 4294967296
    spec.IsStorable ∧ ¬ spec.HasShape ∧ ¬ spec.IsLong ∧
      ∃ e, (empty : FactorGraph ℚ).declare spec = .error e ∧ e ≠ .sizeOverflow := by
  intro spec
  have hstorable : spec.IsStorable := by
    simp only [spec, FactorSpec.IsStorable]
    decide
  have hshape : ¬ spec.HasShape := by
    simp [spec, FactorSpec.HasShape]
  exact ⟨hstorable, hshape, id, (declare_shapes empty hstorable).2.1 hshape id⟩

/-- A sequence of positions that has a word of intervals, but not of twice as many. A segmentation
of it without variables has a wrong shape and is not answered with an error. -/
theorem declare_longSegmentation :
    let spec : FactorSpec ℚ := .segmentation [] 4294967296 []
    spec.IsStorable ∧ ¬ spec.HasShape ∧ 4294967296 * (4294967296 + 1) / 2 < Word.limit ∧
      (empty : FactorGraph ℚ).declare spec = .error .sizeOverflow := by
  intro spec
  refine ⟨?_, ?_, by decide, rfl⟩
  · simp only [spec, FactorSpec.IsStorable]
    decide
  · simp [spec, FactorSpec.HasShape]

end FactorGraph
end MapInference
