import MapInference.Proofs.Graph.Calls
import MapInference.Proofs.GraphFile.Lines

/-!
# What a line declares

The words of a line say whether it declares a variable, under which name and with which numbers. A
line that does so adds a binary variable for each of its numbers to the graph, and the name to the
names; any other line that is right changes neither the variables nor their names.
-/

namespace MapInference

theorem Arena.set_of_values_eq {κ β : Type} [Handle κ] {a : Arena κ β} {before behind : List β}
    {old : β} (hvalues : a.values = before ++ old :: behind) {key : κ}
    (hkey : Handle.index key = before.length) (b : β) :
    a.set key b = ⟨before ++ b :: behind⟩ := by
  rw [Arena.set, Arena.modify, hvalues, hkey, List.modify_eq_take_drop, List.take_left,
    List.drop_left]
  rfl

namespace FactorGraph

open Scalar
variable {α : Type} [Scalar α]

def withBinary (g : FactorGraph α) (x : α) : FactorGraph α :=
  { g with logPotentials := g.logPotentials.push x }

def nextMulti (g : FactorGraph α) (numStates : ℕ) : MultiVariable :=
  ⟨g.multiVariables.length, g.logPotentials.nextKey, numStates⟩

/-- The graph with another multi-state variable, whose states have the log-potentials `xs`. -/
def withMulti (g : FactorGraph α) (xs : List α) : FactorGraph α :=
  { g with
    logPotentials := ⟨g.logPotentials.values ++ xs⟩
    multiVariables := g.multiVariables ++ [g.nextMulti xs.length] }

theorem setLogPotential_addBinary (g : FactorGraph α) (x : α) :
    g.addBinary.2.setLogPotential g.addBinary.1 x = .ok (g.withBinary x) := by
  have hcheck : g.addBinary.2.checkVariable g.addBinary.1 = .ok () := by
    simp [checkVariable, addBinary, Arena.contains, Arena.nextKey, Arena.push, Handle.index,
      Handle.ofIndex]
  have hset : g.addBinary.2.logPotentials.set g.addBinary.1 x = g.logPotentials.push x :=
    Arena.set_of_values_eq rfl rfl x
  rw [setLogPotential, hcheck, hset]
  rfl

omit [Scalar α] in
/-- The states from `state` on are the last variables; their log-potentials are replaced. -/
theorem setStateLogPotentials_eq {g : FactorGraph α} {m : MultiVariable} {state : ℕ}
    {before olds xs : List α} (hm : g.multiVariables[m.id]? = some m)
    (hbefore : before.length = m.firstState.id + state)
    (hvalues : g.logPotentials.values = before ++ olds) (hlength : olds.length = xs.length)
    (hstates : state + xs.length = m.numStates) :
    g.setStateLogPotentials m state xs = .ok { g with logPotentials := ⟨before ++ xs⟩ } := by
  induction xs generalizing g state before olds with
  | nil =>
    obtain rfl : olds = [] := List.length_eq_zero_iff.mp hlength
    rw [setStateLogPotentials, ← hvalues]
  | cons x xs ih =>
    obtain ⟨old, olds, rfl⟩ := List.exists_cons_of_length_eq_add_one hlength
    have hlt : state < m.numStates := by
      rw [← hstates, List.length_cons]
      omega
    have hset : g.setStateLogPotential m state x =
        .ok { g with logPotentials := ⟨(before ++ [x]) ++ olds⟩ } := by
      have harena : g.logPotentials.set ⟨m.firstState.id + state⟩ x =
          ⟨(before ++ [x]) ++ olds⟩ := by
        rw [List.append_assoc]
        exact Arena.set_of_values_eq hvalues hbefore.symm x
      rw [setStateLogPotential, checkMulti, if_pos hm, MultiVariable.state?, if_pos hlt, ← harena]
      rfl
    rw [setStateLogPotentials, hset]
    refine (ih (g := { g with logPotentials := ⟨(before ++ [x]) ++ olds⟩ }) hm ?_ rfl
      (Nat.succ.inj hlength) ?_).trans ?_
    · rw [List.length_append, hbefore, List.length_singleton, Nat.add_assoc]
    · rw [← hstates, List.length_cons]
      omega
    · simp

theorem setStateLogPotentials_addMulti {g g' : FactorGraph α} {m : MultiVariable} {xs : List α}
    (h : g.addMulti xs.length = .ok (m, g')) :
    m = g.nextMulti xs.length ∧ g'.setStateLogPotentials m 0 xs = .ok (g.withMulti xs) := by
  unfold addMulti at h
  split_ifs at h
  obtain ⟨rfl, rfl⟩ := Prod.mk.inj (Except.ok.inj h)
  refine ⟨rfl, ?_⟩
  have hfirst : g.logPotentials.values.length = (g.nextMulti xs.length).firstState.id + 0 := rfl
  refine setStateLogPotentials_eq ?_ hfirst rfl ?_ ?_
  · simp
  · simp [zeros]
  · exact Nat.zero_add _

end FactorGraph

namespace GraphFile

/-- A line that declares a variable, with one state or with several ones. -/
structure VariableLine where
  isMulti : Bool
  name : Token
  numbers : List Token

namespace VariableLine

def ofWords? : List Token → Option VariableLine
  | keyword :: name :: numbers =>
    if keyword = "binary".toList then some ⟨false, name, numbers⟩
    else if keyword = "multi".toList then some ⟨true, name, numbers⟩
    else none
  | _ => none

def ofLine? (line : List UInt8) : Option VariableLine :=
  (Text.decode? line).bind fun cs => ofWords? (Text.words (State.content cs))

end VariableLine

theorem Keyword.ofText?_cases {text : String} {k : Keyword} (h : Keyword.ofText? text = some k) :
    (text = "binary" ∧ k = .binary) ∨ (text = "multi" ∧ k = .multi) ∨
      k ≠ .binary ∧ k ≠ .multi := by
  unfold Keyword.ofText? at h
  split at h
  case h_9 =>
    obtain ⟨op, _, rfl⟩ := Option.map_eq_some_iff.mp h
    exact .inr (.inr ⟨nofun, nofun⟩)
  all_goals
    obtain rfl := Option.some.inj h
    simp

variable {α : Type} {reader : NumberReader α} {names : Names}

theorem exists_factor_of_readArguments {k : Keyword} (hbinary : k ≠ .binary) (hmulti : k ≠ .multi)
    {ts : List Token} {d : Declaration α} (h : readArguments reader names k ts = .ok d) :
    ∃ spec, d = .factor spec := by
  unfold readArguments at h
  split at h
  case h_1 | h_2 => exact absurd rfl hbinary
  case h_3 | h_4 => exact absurd rfl hmulti
  all_goals
    simp only [Except.bind_eq_ok_iff, pure, Except.pure, reduceCtorEq, Except.ok.injEq] at h
  all_goals grind

theorem scalar?_of_readScalar {t : Token} {x : α} (h : readScalar reader t = .ok x) :
    reader.scalar? t = some x := by
  unfold readScalar at h
  split at h
  · next y hy => rw [hy, Except.ok.inj h]
  · cases h

theorem map_scalar?_of_mapM_readScalar {ts : List Token} {xs : List α}
    (h : ts.mapM (readScalar reader) = .ok xs) : ts.map reader.scalar? = xs.map some := by
  induction ts generalizing xs with
  | nil =>
    obtain rfl : [] = xs := by simpa [pure, Except.pure] using h
    rfl
  | cons t ts ih =>
    rw [List.mapM_cons, Except.bind_eq_ok_iff] at h
    obtain ⟨x, hx, h⟩ := h
    obtain ⟨rest, hrest, h⟩ := Except.bind_eq_ok_iff.mp h
    obtain rfl : x :: rest = xs := Except.ok.inj h
    rw [List.map_cons, List.map_cons, ih hrest, scalar?_of_readScalar hx]

theorem exists_of_readArguments_binary {ts : List Token} {d : Declaration α}
    (h : readArguments reader names .binary ts = .ok d) :
    ∃ name number x, ts = [name, number] ∧ reader.scalar? number = some x ∧
      d = .binary (String.ofList name) x := by
  match ts with
  | [name, number] =>
    obtain ⟨x, hx, h⟩ := Except.bind_eq_ok_iff.mp h
    exact ⟨name, number, x, rfl, scalar?_of_readScalar hx, (Except.ok.inj h).symm⟩
  | [] | [_] | _ :: _ :: _ :: _ => cases h

theorem exists_of_readArguments_multi {ts : List Token} {d : Declaration α}
    (h : readArguments reader names .multi ts = .ok d) :
    ∃ name numbers xs, ts = name :: numbers ∧ numbers.map reader.scalar? = xs.map some ∧
      d = .multi (String.ofList name) xs := by
  match ts with
  | name :: numbers =>
    obtain ⟨xs, hxs, h⟩ := Except.bind_eq_ok_iff.mp h
    exact ⟨name, numbers, xs, rfl, map_scalar?_of_mapM_readScalar hxs, (Except.ok.inj h).symm⟩
  | [] => cases h

/-- What is read from the words of a line: the variable that it declares, a factor, or nothing. -/
theorem readDeclaration_cases {ts : List Token} {d? : Option (Declaration α)}
    (h : readDeclaration reader names ts = .ok d?) :
    (∃ name number x, VariableLine.ofWords? ts = some ⟨false, name, [number]⟩ ∧
        reader.scalar? number = some x ∧ d? = some (.binary (String.ofList name) x)) ∨
      (∃ name numbers xs, VariableLine.ofWords? ts = some ⟨true, name, numbers⟩ ∧
        numbers.map reader.scalar? = xs.map some ∧
          d? = some (.multi (String.ofList name) xs)) ∨
      VariableLine.ofWords? ts = none ∧ ∀ d ∈ d?, ∃ spec, d = .factor spec := by
  cases ts with
  | nil =>
    obtain rfl : none = d? := Except.ok.inj h
    exact .inr (.inr ⟨rfl, nofun⟩)
  | cons keyword ts =>
    rw [readDeclaration] at h
    cases hkeyword : Keyword.ofText? (String.ofList keyword) with
    | none => simp [hkeyword] at h
    | some k =>
      simp only [hkeyword] at h
      obtain ⟨d, hd, rfl⟩ := Except.exists_of_map_eq_ok h
      obtain ⟨htext, rfl⟩ | ⟨htext, rfl⟩ | ⟨hbinary, hmulti⟩ := Keyword.ofText?_cases hkeyword
      · obtain ⟨name, number, x, rfl, hx, rfl⟩ := exists_of_readArguments_binary hd
        obtain rfl : keyword = "binary".toList := by rw [← htext, String.toList_ofList]
        exact .inl ⟨name, number, x, rfl, hx, rfl⟩
      · obtain ⟨name, numbers, xs, rfl, hxs, rfl⟩ := exists_of_readArguments_multi hd
        obtain rfl : keyword = "multi".toList := by rw [← htext, String.toList_ofList]
        exact .inr (.inl ⟨name, numbers, xs, rfl, hxs, rfl⟩)
      · refine .inr (.inr ⟨?_, ?_⟩)
        · have hne (word : String) (k' : Keyword) (hword : Keyword.ofText? word = some k')
              (hk : k ≠ k') : keyword ≠ word.toList := by
            rintro rfl
            rw [String.ofList_toList, hword] at hkeyword
            exact hk (Option.some.inj hkeyword).symm
          unfold VariableLine.ofWords?
          split
          · next heq =>
            obtain ⟨rfl, rfl⟩ := List.cons.inj heq
            rw [if_neg (hne "binary" .binary rfl hbinary), if_neg (hne "multi" .multi rfl hmulti)]
          · rfl
        · rintro _ ⟨rfl⟩
          exact exists_factor_of_readArguments hbinary hmulti hd

namespace NamedVariable

/-- The binary variables that a name stands for: one, or one for each state. -/
def atoms : NamedVariable → List BinaryVariable
  | binary v => [v]
  | multi m => m.states

def isMulti : NamedVariable → Bool
  | binary _ => false
  | multi _ => true

end NamedVariable

variable [Scalar α]

/-- The state `t` has the variables of `s` and a new one, which a line has declared: its binary
variables are the next ones, and they have the log-potentials that the numbers on the line say. -/
structure State.Adds (reader : NumberReader α) (d : VariableLine) (s t : State α)
    (v : NamedVariable) (xs : List α) : Prop where
  isNew : s.names.find? (String.ofList d.name) = none
  names_eq : t.names = s.names ++ [(String.ofList d.name, v)]
  isMulti_eq : v.isMulti = d.isMulti
  numbers_eq : d.numbers.map reader.scalar? = xs.map some
  atoms_eq : v.atoms = (List.range xs.length).map fun i => ⟨s.graph.numBinary + i⟩
  values_eq : t.graph.logPotentials.values = s.graph.logPotentials.values ++ xs
  isSealed_eq : t.graph.isSealed = s.graph.isSealed

structure State.Keeps (s t : State α) : Prop where
  names_eq : t.names = s.names
  logPotentials_eq : t.graph.logPotentials = s.graph.logPotentials
  isSealed_eq : t.graph.isSealed = s.graph.isSealed

namespace State

variable {s t : State α}

omit [Scalar α] in
theorem eq_of_addName {g : FactorGraph α} {name : String} {v : NamedVariable}
    (h : s.addName g name v = .ok t) :
    s.names.find? name = none ∧ t = { s with graph := g, names := s.names ++ [(name, v)] } := by
  unfold addName at h
  split at h
  · cases h
  · next hname => exact ⟨hname, (Except.ok.inj h).symm⟩

theorem eq_of_declare_binary {name : String} {x : α} (h : s.declare (.binary name x) = .ok t) :
    s.names.find? name = none ∧ t = { s with
      graph := s.graph.withBinary x
      names := s.names ++ [(name, .binary s.graph.logPotentials.nextKey)] } := by
  obtain ⟨g, hset, h⟩ := Except.bind_eq_ok_iff.mp h
  replace hset := Except.eq_ok_of_mapError hset
  rw [← Except.ok.inj ((s.graph.setLogPotential_addBinary x).symm.trans hset)] at h
  exact eq_of_addName h

theorem eq_of_declare_multi {name : String} {xs : List α} (h : s.declare (.multi name xs) = .ok t) :
    s.names.find? name = none ∧ t = { s with
      graph := s.graph.withMulti xs
      names := s.names ++ [(name, .multi (s.graph.nextMulti xs.length))] } := by
  obtain ⟨⟨m, g⟩, hadd, h⟩ := Except.bind_eq_ok_iff.mp h
  obtain ⟨g', hset, h⟩ := Except.bind_eq_ok_iff.mp h
  obtain ⟨rfl, hstates⟩ :=
    FactorGraph.setStateLogPotentials_addMulti (Except.eq_ok_of_mapError hadd)
  rw [← Except.ok.inj (hstates.symm.trans (Except.eq_ok_of_mapError hset))] at h
  exact eq_of_addName h

theorem exists_of_declare_factor {spec : FactorSpec α} (h : s.declare (.factor spec) = .ok t) :
    ∃ id, s.graph.declare spec = .ok (id, t.graph) ∧ t.names = s.names := by
  obtain ⟨⟨id, g⟩, hdeclare, h⟩ := Except.bind_eq_ok_iff.mp h
  obtain rfl := Except.ok.inj h
  exact ⟨id, Except.eq_ok_of_mapError hdeclare, rfl⟩

theorem keeps_of_declare_factor {spec : FactorSpec α} (h : s.declare (.factor spec) = .ok t) :
    Keeps s t := by
  obtain ⟨id, hdeclare, hnames⟩ := exists_of_declare_factor h
  obtain ⟨_, _, f, _, _, hgraph⟩ := FactorGraph.exists_of_declare_eq_ok hdeclare
  exact ⟨hnames, by rw [hgraph], by rw [hgraph]⟩

/-- A line that is right declares a variable, or leaves the variables as they are. -/
theorem afterLine_cases {number : ℕ} {line : List UInt8}
    (h : s.afterLine reader number line = .ok t) :
    (∃ d v xs, VariableLine.ofLine? line = some d ∧ Adds reader d s t v xs) ∨
      VariableLine.ofLine? line = none ∧ Keeps s t := by
  unfold afterLine at h
  cases hdecode : Text.decode? line with
  | none => simp [hdecode] at h
  | some cs =>
    have hline : VariableLine.ofLine? line = VariableLine.ofWords? (Text.words (content cs)) := by
      rw [VariableLine.ofLine?, hdecode, Option.bind_some]
    rw [hdecode] at h
    dsimp only at h
    obtain ⟨d?, hd, hdeclare⟩ := Except.bind_eq_ok_iff.mp (Except.eq_ok_of_mapError h)
    rw [hline]
    obtain ⟨name, number, x, hwords, hx, rfl⟩ | ⟨name, numbers, xs, hwords, hxs, rfl⟩ |
      ⟨hwords, hfactor⟩ := readDeclaration_cases hd
    · obtain ⟨hname, rfl⟩ := eq_of_declare_binary hdeclare
      refine .inl ⟨_, _, [x], hwords, hname, rfl, rfl, ?_, rfl, rfl, rfl⟩
      rw [List.map_singleton, hx, List.map_singleton]
    · obtain ⟨hname, rfl⟩ := eq_of_declare_multi hdeclare
      exact .inl ⟨_, _, xs, hwords, hname, rfl, rfl, hxs, rfl, rfl, rfl⟩
    · refine .inr ⟨hwords, ?_⟩
      cases d? with
      | none =>
        obtain rfl : s = t := Except.ok.inj hdeclare
        exact ⟨rfl, rfl, rfl⟩
      | some d =>
        obtain ⟨spec, rfl⟩ := hfactor d rfl
        exact keeps_of_declare_factor hdeclare

end State

end GraphFile
end MapInference
