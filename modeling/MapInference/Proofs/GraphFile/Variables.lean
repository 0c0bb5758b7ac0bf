import MapInference.CommandLine.Line
import MapInference.Proofs.GraphFile.Declarations
import MapInference.Proofs.GraphFile.Tokens
import MapInference.Proofs.Search.Marginals

/-!
# The variables of a file

A file has as many names as lines that declare a variable. In the order of these lines, the names
stand for the binary variables of the graph one after another, and none is left out. This is an
invariant of reading; it makes the output show every marginal of a solution once.
-/

namespace MapInference

theorem List.map_getElem?_range {β : Type} (xs : List β) :
    (List.range xs.length).map (xs[·]?) = xs.map some := by
  apply List.ext_getElem <;> simp

namespace GraphFile

variable {α : Type} {reader : NumberReader α}

namespace Names

variable {names : Names}

/-- The binary variables that the names stand for, in order. -/
def atoms (names : Names) : List BinaryVariable := names.flatMap (·.2.atoms)

theorem lt_of_atoms_eq {n : ℕ} (h : names.atoms = (List.range n).map BinaryVariable.mk)
    {entry : String × NamedVariable} (hentry : entry ∈ names) {b : BinaryVariable}
    (hb : b ∈ entry.2.atoms) : b.id < n := by
  have hmem : b ∈ names.atoms := List.mem_flatMap.mpr ⟨entry, hentry, hb⟩
  rw [h] at hmem
  obtain ⟨i, hi, rfl⟩ := List.mem_map.mp hmem
  exact List.mem_range.mp hi

theorem eq_of_mem_atoms (hnodup : names.atoms.Nodup) {entry entry' : String × NamedVariable}
    (hentry : entry ∈ names) (hentry' : entry' ∈ names) {b : BinaryVariable}
    (hb : b ∈ entry.2.atoms) (hb' : b ∈ entry'.2.atoms) : entry = entry' := by
  by_contra hne
  have hsymm : Std.Symm (Function.onFun List.Disjoint fun entry : String × NamedVariable =>
      entry.2.atoms) := ⟨fun _ _ h => List.Disjoint.symm h⟩
  exact (List.nodup_flatMap.mp hnodup).2.forall hentry hentry' hne hb hb'

end Names

def variableLines (bytes : List UInt8) : List VariableLine :=
  (Text.lines bytes).filterMap VariableLine.ofLine?

/-- The line declares the variable under its name, and its numbers are the log-potentials of the
binary variables. -/
structure VariableLine.Declares (reader : NumberReader α) (g : FactorGraph α) (d : VariableLine)
    (entry : String × NamedVariable) : Prop where
  name_eq : entry.1 = String.ofList d.name
  isMulti_eq : entry.2.isMulti = d.isMulti
  numbers_eq : d.numbers.map reader.scalar? = entry.2.atoms.map g.logPotential?

namespace State

structure Reflects (reader : NumberReader α) (ds : List VariableLine) (s : State α) : Prop where
  nodup : (s.names.map (·.1)).Nodup
  atoms_eq : s.names.atoms = (List.range s.graph.numBinary).map BinaryVariable.mk
  declares : List.Forall₂ (VariableLine.Declares reader s.graph) ds s.names
  isSealed_eq : s.graph.isSealed = false

variable {ds : List VariableLine} {s t : State α}

theorem Adds.logPotential?_eq {d : VariableLine} {v : NamedVariable} {xs : List α}
    (h : Adds reader d s t v xs) (b : BinaryVariable) :
    t.graph.logPotential? b = (s.graph.logPotentials.values ++ xs)[b.id]? := by
  rw [← h.values_eq]
  rfl

namespace Reflects

theorem nodup_atoms (h : Reflects reader ds s) : s.names.atoms.Nodup := by
  rw [h.atoms_eq]
  exact List.nodup_range.map fun i j hij => congrArg BinaryVariable.id hij

theorem keeps (h : Reflects reader ds s) (hkeeps : Keeps s t) : Reflects reader ds t := by
  refine ⟨?_, ?_, ?_, ?_⟩
  · rw [hkeeps.names_eq]
    exact h.nodup
  · rw [hkeeps.names_eq, FactorGraph.numBinary, hkeeps.logPotentials_eq]
    exact h.atoms_eq
  · rw [hkeeps.names_eq]
    refine h.declares.imp fun d entry hd => ⟨hd.name_eq, hd.isMulti_eq, ?_⟩
    rw [hd.numbers_eq]
    unfold FactorGraph.logPotential?
    rw [hkeeps.logPotentials_eq]
  · rw [hkeeps.isSealed_eq]
    exact h.isSealed_eq

theorem adds (h : Reflects reader ds s) {d : VariableLine} {v : NamedVariable} {xs : List α}
    (hadds : Adds reader d s t v xs) : Reflects reader (ds ++ [d]) t := by
  have hsize : t.graph.numBinary = s.graph.numBinary + xs.length := by
    rw [FactorGraph.numBinary, Arena.size, hadds.values_eq, List.length_append]
    rfl
  refine ⟨?_, ?_, ?_, ?_⟩
  · rw [hadds.names_eq, List.map_append]
    exact h.nodup.append (List.nodup_singleton _)
      (by simpa using Names.notMem_of_find?_eq_none hadds.isNew)
  · rw [hadds.names_eq, Names.atoms, List.flatMap_append, ← Names.atoms, h.atoms_eq,
      List.flatMap_singleton, hadds.atoms_eq, hsize, List.range_add, List.map_append, List.map_map]
    rfl
  · rw [hadds.names_eq]
    refine List.rel_append (List.forall₂_iff_zip.mpr ⟨h.declares.length_eq, ?_⟩)
      (.cons ⟨rfl, hadds.isMulti_eq, ?_⟩ .nil)
    · -- the log-potentials of the variables before the new one stay where they are
      intro e entry hmem
      obtain ⟨hname, hmulti, hnumbers⟩ := List.forall₂_zip h.declares hmem
      refine ⟨hname, hmulti, hnumbers.trans (List.map_congr_left fun b hb => ?_)⟩
      have hlt := Names.lt_of_atoms_eq h.atoms_eq (List.of_mem_zip hmem).2 hb
      rw [hadds.logPotential?_eq, List.getElem?_append_left hlt]
      rfl
    · rw [hadds.numbers_eq, hadds.atoms_eq, List.map_map, ← List.map_getElem?_range]
      refine List.map_congr_left fun i _ => ?_
      refine Eq.trans ?_ (hadds.logPotential?_eq _).symm
      refine Eq.trans ?_ (List.getElem?_append_right (Nat.le_add_right _ i)).symm
      exact congrArg (xs[·]?) (Nat.add_sub_cancel_left _ i).symm
  · rw [hadds.isSealed_eq]
    exact h.isSealed_eq

variable [Scalar α]

theorem afterLine (h : Reflects reader ds s) {number : ℕ} {line : List UInt8}
    (hline : s.afterLine reader number line = .ok t) :
    Reflects reader (ds ++ (VariableLine.ofLine? line).toList) t := by
  obtain ⟨d, v, xs, hd, hadds⟩ | ⟨hnone, hkeeps⟩ := afterLine_cases hline
  · rw [hd]
    exact h.adds hadds
  · rw [hnone, Option.toList_none, List.append_nil]
    exact h.keeps hkeeps

theorem afterLines (h : Reflects reader ds s) {number : ℕ} {ls : List (List UInt8)}
    (hlines : s.afterLines reader number ls = .ok t) :
    Reflects reader (ds ++ ls.filterMap VariableLine.ofLine?) t := by
  induction ls generalizing ds s number with
  | nil =>
    obtain rfl : s = t := Except.ok.inj hlines
    rwa [List.filterMap_nil, List.append_nil]
  | cons line ls ih =>
    obtain ⟨u, hu, hlines⟩ := Except.bind_eq_ok_iff.mp hlines
    have hnext := ih (h.afterLine hu) hlines
    cases hline : VariableLine.ofLine? line with
    | none => simpa [hline] using hnext
    | some d => simpa [hline] using hnext

end Reflects
end State

theorem reflects_parse [Scalar α] {bytes : List UInt8} {s : State α}
    (h : parse reader bytes = .ok s) : s.Reflects reader (variableLines bytes) := by
  rw [parse_eq_afterLines] at h
  have hempty : State.Reflects reader [] (State.empty : State α) :=
    ⟨List.nodup_nil, rfl, .nil, rfl⟩
  exact hempty.afterLines h

end GraphFile

namespace CommandLine

open GraphFile

/-- What a line of output says about the marginals of a variable. -/
def Line.marginals? : Line → Option (String × List Float)
  | .marginals name xs => some (name, xs)
  | _ => none

theorem filterMap_marginals?_solutionLines (names : Names) (x : Solution Float) :
    (solutionLines names x).filterMap Line.marginals? =
      names.map fun (name, v) => (name, marginalsOf x v) := by
  rw [solutionLines, List.filterMap_append, List.filterMap_map]
  exact congrFun List.filterMap_eq_map names

theorem map_some_marginalsOf {x : Solution Float} {v : NamedVariable}
    (h : ∀ b ∈ v.atoms, b.id < x.marginals.length) :
    (marginalsOf x v).map some = v.atoms.map fun b => x.marginals[b.id]? := by
  cases v with
  | binary b =>
    have hlt : b.id < x.marginals.length := h b (by simp [NamedVariable.atoms])
    simp [marginalsOf, NamedVariable.atoms, List.getElem?_eq_getElem hlt]
  | multi m =>
    have hle : m.numStates ≤ (x.marginals.drop m.firstState.id).length := by
      rw [List.length_drop]
      rcases Nat.eq_zero_or_pos m.numStates with hzero | hpos
      · omega
      · have hlast := h ⟨m.firstState.id + (m.numStates - 1)⟩
          (List.mem_map.mpr ⟨_, List.mem_range.mpr (Nat.sub_lt hpos Nat.one_pos), rfl⟩)
        dsimp only at hlast
        omega
    rw [marginalsOf, ← List.map_getElem?_range, List.length_take_of_le hle, NamedVariable.atoms,
      MultiVariable.states, List.map_map]
    refine List.map_congr_left fun i hi => ?_
    rw [List.getElem?_take_of_lt (List.mem_range.mp hi), List.getElem?_drop]
    rfl

theorem flatMap_marginalsOf {names : Names} {x : Solution Float}
    (h : names.atoms = (List.range x.marginals.length).map BinaryVariable.mk) :
    names.flatMap (fun entry => marginalsOf x entry.2) = x.marginals := by
  refine List.map_injective_iff.mpr (Option.some_injective _) ?_
  calc (names.flatMap fun entry => marginalsOf x entry.2).map some
      = names.flatMap fun entry => entry.2.atoms.map fun b => x.marginals[b.id]? := by
        rw [List.map_flatMap]
        exact List.flatMap_congr fun entry hentry =>
          map_some_marginalsOf fun b => Names.lt_of_atoms_eq h hentry
    _ = names.atoms.map fun b => x.marginals[b.id]? := List.map_flatMap.symm
    _ = x.marginals.map some := by
      rw [h, List.map_map]
      exact List.map_getElem?_range x.marginals

end CommandLine

namespace GraphFile

/-- The names of a file are different, each is looked up as the variable that is listed with it, and
in the order of the lines that declare them they stand for all binary variables of the graph, with
the log-potentials on these lines. So a line of output for each name shows the marginals of its
binary variables, and all lines together show the marginals of any solution in order. -/
theorem marginals_parse {bytes : List UInt8} {s : State Float}
    (h : parse doubles bytes = .ok s) :
    (s.names.map (·.1)).Nodup ∧
    (∀ name v, s.names.find? name = some v ↔ (name, v) ∈ s.names) ∧
    s.names.atoms = (List.range s.graph.numBinary).map BinaryVariable.mk ∧
    List.Forall₂ (VariableLine.Declares doubles s.graph) (variableLines bytes) s.names ∧
    ∀ {σ : Type} (options : Options Float) (monitor : Monitor σ) (m : σ),
      let x := (s.graph.solve options monitor m).1.solution
      let lines := (CommandLine.solutionLines s.names x).filterMap CommandLine.Line.marginals?
      x.marginals.length = s.graph.numBinary ∧
      List.Forall₂ (fun entry line => line.1 = entry.1 ∧
        line.2.map some = entry.2.atoms.map fun b => x.marginals[b.id]?) s.names lines ∧
      lines.flatMap (·.2) = x.marginals := by
  have hreflects := reflects_parse h
  refine ⟨hreflects.nodup, fun name v => Names.find?_eq_some_iff hreflects.nodup,
    hreflects.atoms_eq, hreflects.declares, fun options monitor m => ?_⟩
  intro x lines
  have hlength : x.marginals.length = s.graph.numBinary :=
    FactorGraph.length_marginals_solve s.graph options monitor m
  have hatoms := hreflects.atoms_eq
  rw [← hlength] at hatoms
  have hlines : lines = s.names.map fun (name, v) => (name, CommandLine.marginalsOf x v) :=
    CommandLine.filterMap_marginals?_solutionLines s.names x
  refine ⟨hlength, ?_, ?_⟩
  · rw [hlines, List.forall₂_map_right_iff, List.forall₂_same]
    exact fun entry hentry => ⟨rfl, CommandLine.map_some_marginalsOf fun b =>
      Names.lt_of_atoms_eq hatoms hentry⟩
  · rw [hlines, List.flatMap_map]
    exact CommandLine.flatMap_marginalsOf hatoms

def mixedSource : List UInt8 := Text.encode "binary a 1.5\nor a\nmulti b 0.5 2.5\n".toList

theorem marginals_parse_mixedSource :
    ∃ s, parse doubles mixedSource = .ok s ∧
      s.names = [("a", .binary ⟨0⟩), ("b", .multi ⟨0, ⟨1⟩, 2⟩)] ∧
      ∀ {σ : Type} (options : Options Float) (monitor : Monitor σ) (m : σ),
        let x := (s.graph.solve options monitor m).1.solution
        ∃ a b b', x.marginals = [a, b, b'] ∧
          (CommandLine.solutionLines s.names x).filterMap CommandLine.Line.marginals? =
            [("a", [a]), ("b", [b, b'])] := by
  obtain ⟨s, hs, hnames, hbinary⟩ : ∃ s, parse doubles mixedSource = .ok s ∧
      s.names = [("a", .binary ⟨0⟩), ("b", .multi ⟨0, ⟨1⟩, 2⟩)] ∧ s.graph.numBinary = 3 :=
    ⟨_, rfl, rfl, rfl⟩
  refine ⟨s, hs, hnames, fun options monitor m => ?_⟩
  intro x
  obtain ⟨hlength, _⟩ := (marginals_parse hs).2.2.2.2 options monitor m
  obtain ⟨a, b, b', hx⟩ : ∃ a b b', x.marginals = [a, b, b'] :=
    List.length_eq_three.mp (hlength.trans hbinary)
  refine ⟨a, b, b', hx, ?_⟩
  rw [CommandLine.filterMap_marginals?_solutionLines, hnames]
  simp [CommandLine.marginalsOf, hx]

end GraphFile
end MapInference
