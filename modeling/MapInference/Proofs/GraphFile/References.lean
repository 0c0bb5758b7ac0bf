import MapInference.Proofs.GraphFile.Variables

/-!
# Names as literals

Every word may be the name of a variable. A literal is read by its marks first, those of a negation
and of a state of a multi-state variable, and what they leave is looked up. So a name without such
marks is the literal of its variable, and a name with them is never read as that literal.
-/

namespace MapInference

theorem Arena.push_inj {κ β : Type} {a : Arena κ β} {b c : β} (h : a.push b = a.push c) : b = c :=
  List.singleton_inj.mp (List.append_cancel_left (congrArg Arena.values h))

namespace GraphFile

variable {α : Type} {reader : NumberReader α} {names : Names}

def IsMarked (t : Token) : Prop := t.head? = some '!' ∨ '[' ∈ t ∧ t.getLast? = some ']'

theorem splitAtFirst?_eq_none_iff {mark : Char} {t : Token} :
    splitAtFirst? mark t = none ↔ mark ∉ t := by
  induction t with
  | nil => simp [splitAtFirst?]
  | cons c t ih =>
    rw [splitAtFirst?, List.mem_cons, not_or]
    split_ifs with hc
    · simp [hc]
    · simp [ih, Ne.symm hc]

theorem stateReference?_eq_none_iff {t : Token} :
    stateReference? t = none ↔ ¬ ('[' ∈ t ∧ t.getLast? = some ']') := by
  unfold stateReference?
  split_ifs with hlast
  · obtain ⟨before, rfl⟩ := List.getLast?_eq_some_iff.mp hlast
    rw [List.dropLast_concat, splitAtFirst?_eq_none_iff]
    simp
  · simp [hlast]

theorem readLiteral_of_not_isMarked {t : Token} (ht : ¬ IsMarked t) {b : BinaryVariable}
    (hfind : names.find? (String.ofList t) = some (.binary b)) :
    readLiteral reader names t = .ok b.literal := by
  obtain ⟨hhead, hstate⟩ := not_or.mp ht
  rw [readLiteral, splitNegation_of_head? hhead]
  dsimp only
  rw [stateReference?_eq_none_iff.mpr hstate]
  simp [lookUp, hfind, bind, Except.bind, pure, Except.pure, BinaryVariable.literal]

theorem find?_of_lookUp {t : Token} {v : NamedVariable} (h : lookUp (α := α) names t = .ok v) :
    names.find? (String.ofList t) = some v := by
  unfold lookUp at h
  split at h
  · next w hw => rw [hw, Except.ok.inj h]
  · cases h

theorem find?_of_readMulti {t : Token} {m : MultiVariable}
    (h : readMulti (α := α) names t = .ok m) :
    names.find? (String.ofList t) = some (.multi m) := by
  obtain ⟨v, hv, h⟩ := Except.bind_eq_ok_iff.mp h
  cases v with
  | binary v => cases h
  | multi m' => rw [find?_of_lookUp hv, Except.ok.inj h]

/-- A literal has the sign that its first mark says, and is over a state if the others say so. -/
theorem readLiteral_cases {t : Token} {l : Literal} (h : readLiteral reader names t = .ok l) :
    l.negated = (splitNegation t).1 ∧ (stateReference? (splitNegation t).2 = none ∨
      ∃ name m, names.find? name = some (.multi m) ∧ l.atom ∈ m.states) := by
  unfold readLiteral at h
  generalize splitNegation t = parts at h ⊢
  obtain ⟨negated, reference⟩ := parts
  dsimp only at h ⊢
  cases hstate : stateReference? reference with
  | none =>
    rw [hstate] at h
    obtain ⟨v, _, h⟩ := Except.bind_eq_ok_iff.mp h
    cases v with
    | binary v => exact ⟨by rw [← Except.ok.inj h], .inl rfl⟩
    | multi m => cases h
  | some parts =>
    obtain ⟨name, state⟩ := parts
    rw [hstate] at h
    obtain ⟨index, _, h⟩ := Except.bind_eq_ok_iff.mp h
    obtain ⟨m, hm, h⟩ := Except.bind_eq_ok_iff.mp h
    cases hv : m.state? index with
    | none => simp [hv] at h
    | some v =>
      simp only [hv] at h
      obtain rfl := Except.ok.inj h
      refine ⟨rfl, .inr ⟨_, m, find?_of_readMulti hm, ?_⟩⟩
      rw [← MultiVariable.states_getElem?] at hv
      exact List.mem_of_getElem? hv

theorem ne_literal_of_isMarked (hnodup : names.atoms.Nodup) {t : Token} (ht : IsMarked t)
    {b : BinaryVariable} (hfind : names.find? (String.ofList t) = some (.binary b)) {l : Literal}
    (h : readLiteral reader names t = .ok l) : l ≠ b.literal := by
  rintro rfl
  obtain ⟨hnegated, hatom⟩ := readLiteral_cases h
  have hhead : t.head? ≠ some '!' := by
    intro hhead
    obtain ⟨rest, rfl⟩ := List.head?_eq_some_iff.mp hhead
    cases hnegated
  rw [splitNegation_of_head? hhead] at hatom
  obtain hstate | ⟨name, m, hm, hmem⟩ := hatom
  · exact stateReference?_eq_none_iff.mp hstate (ht.resolve_left hhead)
  · have hentry := Names.eq_of_mem_atoms hnodup (Names.mem_of_find? hfind) (Names.mem_of_find? hm)
      List.mem_cons_self hmem
    cases congrArg Prod.snd hentry

def orLine (literal : Token) : List Char := "or ".toList ++ literal

theorem newline_notMem_orLine {t : Token} (ht : IsWord t) : '\n' ∉ orLine t := by
  intro hmem
  obtain hmem | hmem := List.mem_append.mp hmem
  · revert hmem
    decide
  · have hblank := (ht.2 '\n' hmem).1
    revert hblank
    decide

theorem words_content_orLine {t : Token} (ht : IsWord t) :
    Text.words (State.content (orLine t)) = ["or".toList, t] := by
  have hor : IsWord "or".toList := Keyword.isWord_token (.operator .or)
  have hline : orLine t = "or".toList ++ ([' '] ++ t) := rfl
  have hcontent : State.content (orLine t) = orLine t := by
    refine List.takeWhile_eq_self_iff.mpr fun c hc => decide_eq_true ?_
    rw [hline] at hc
    obtain hc | hc := List.mem_append.mp hc
    · exact (hor.2 c hc).2
    · obtain rfl | hc := List.mem_cons.mp hc
      · decide
      · exact (ht.2 c hc).2
  have hlast : Text.words t = [t] := by
    have hnil : ∀ c ∈ ([] : List Char), Text.isBlank c = true := nofun
    have hwords := Text.words_append ht.1 (fun c hc => (ht.2 c hc).1) hnil fun _ => rfl
    rwa [List.append_nil, List.append_nil] at hwords
  have hgap : ∀ c ∈ [' '], Text.isBlank c = true := List.forall_mem_singleton.mpr (by decide)
  rw [hcontent, hline, Text.words_append hor.1 (fun c hc => (hor.2 c hc).1) hgap (by simp), hlast]

namespace State

variable [Scalar α] {s t : State α}

theorem afterLine_orLine (s : State α) (number : ℕ) {n : Token} (hn : IsWord n) :
    s.afterLine reader number (Text.encode (orLine n)) =
      (readLiteral reader s.names n >>= fun l => s.declare (.factor (.logic .or [l]))).mapError
        (.line number) := by
  rw [afterLine, Text.decode?_encode]
  dsimp only
  rw [readLine, words_content_orLine hn]
  have hkeyword : Keyword.ofText? (String.ofList "or".toList) = some (.operator .or) := rfl
  simp only [readDeclaration, hkeyword, readArguments, List.mapM_cons, List.mapM_nil]
  cases readLiteral reader s.names n <;> rfl

theorem exists_factor_of_declare {spec : FactorSpec α} (h : s.declare (.factor spec) = .ok t) :
    ∃ f, t.graph.factors = s.graph.factors.push { factor := f } ∧ f.literals = spec.literals := by
  obtain ⟨id, hdeclare, _⟩ := exists_of_declare_factor h
  obtain ⟨_, _, f, hf, _, hgraph⟩ := FactorGraph.exists_of_declare_eq_ok hdeclare
  exact ⟨f, by rw [hgraph], FactorSpec.literals_of_toFactor hf⟩

theorem exists_declare_or (hsealed : s.graph.isSealed = false) {l : Literal}
    (hl : l.atom.id < s.graph.numBinary) : ∃ t, s.declare (.factor (.logic .or [l])) = .ok t := by
  have hcheck : s.graph.check (.logic .or [l]) = .ok () := by
    have hvariable : s.graph.checkVariable l.atom = .ok () := if_pos (decide_eq_true hl)
    change (s.graph.checkVariable l.atom >>= fun _ => _) = _
    rw [hvariable]
    rfl
  have hdeclare := FactorGraph.declare_eq_ok hsealed hcheck rfl
  change ∃ t, ((s.graph.declare (.logic .or [l])).mapError LineError.declaration >>= _) = .ok t
  rw [hdeclare]
  exact ⟨_, rfl⟩

theorem names_prefix_of_afterLines {number : ℕ} {ls : List (List UInt8)}
    (h : s.afterLines reader number ls = .ok t) : s.names <+: t.names := by
  induction ls generalizing s number with
  | nil => rw [Except.ok.inj h]
  | cons line ls ih =>
    obtain ⟨u, hu, h⟩ := Except.bind_eq_ok_iff.mp h
    refine List.IsPrefix.trans ?_ (ih h)
    obtain ⟨d, v, xs, _, hadds⟩ | ⟨_, hkeeps⟩ := afterLine_cases hu
    · rw [hadds.names_eq]
      exact List.prefix_append _ _
    · rw [hkeeps.names_eq]

end State

variable [Scalar α] {bytes : List UInt8} {s : State α}

/-- A line `binary n v` declares `n` for the variable that is added next when it is reached. -/
theorem exists_declared_of_line (h : parse reader bytes = .ok s) {k : ℕ} {line : List UInt8}
    (hline : (Text.lines bytes)[k]? = some line) {cs : List Char}
    (hdecode : Text.decode? line = some cs) {n v : Token}
    (hwords : Text.words (State.content cs) = ["binary".toList, n, v]) :
    ∃ before, parse reader (Text.firstLines k bytes) = .ok before ∧
      (String.ofList n, .binary before.graph.addBinary.1) ∈ s.names := by
  rw [parse_eq_bind reader bytes k] at h
  obtain ⟨before, hbefore, h⟩ := Except.bind_eq_ok_iff.mp h
  refine ⟨before, hbefore, ?_⟩
  obtain ⟨hk, rfl⟩ := List.getElem?_eq_some_iff.mp hline
  rw [List.drop_eq_getElem_cons hk] at h
  obtain ⟨u, hu, hrest⟩ := Except.bind_eq_ok_iff.mp h
  have hofLine : VariableLine.ofLine? (Text.lines bytes)[k] = some ⟨false, n, [v]⟩ := by
    rw [VariableLine.ofLine?, hdecode, Option.bind_some, hwords]
    rfl
  obtain ⟨d, w, xs, hd, hadds⟩ | ⟨hnone, _⟩ := State.afterLine_cases hu
  · obtain rfl : ⟨false, n, [v]⟩ = d := Option.some.inj (hofLine.symm.trans hd)
    have hlength : xs.length = 1 := by
      simpa using (congrArg List.length hadds.numbers_eq).symm
    have hatoms := hadds.atoms_eq
    cases w with
    | multi m => cases hadds.isMulti_eq
    | binary b =>
      rw [hlength] at hatoms
      obtain rfl : b = before.graph.addBinary.1 := List.singleton_inj.mp hatoms
      refine (State.names_prefix_of_afterLines hrest).subset ?_
      rw [hadds.names_eq]
      simp
  · rw [hofLine] at hnone
    cases hnone

theorem isWord_of_mem_words {cs : List Char} {t : Token}
    (h : t ∈ Text.words (State.content cs)) : IsWord t := by
  refine ⟨fun hnil => Text.nil_not_mem_words _ (hnil ▸ h), fun c hc => ?_⟩
  obtain ⟨hblank, hmem⟩ := Text.mem_words h c hc
  exact ⟨hblank, by simpa using List.mem_takeWhile_imp hmem⟩

/-- In a source that is read, a line `binary n v` declares `n` for the next binary variable. When
the line `or n` is added to the source, the source is read and its last factor is over the literal
of this variable, if `n` does not have the marks of a negation or of a state; and only then. -/
theorem parse_withLine_or_iff (h : parse reader bytes = .ok s) {k : ℕ} {line : List UInt8}
    (hline : (Text.lines bytes)[k]? = some line) {cs : List Char}
    (hdecode : Text.decode? line = some cs) {n v : Token}
    (hwords : Text.words (State.content cs) = ["binary".toList, n, v]) :
    ∃ before b, parse reader (Text.firstLines k bytes) = .ok before ∧
      b = before.graph.addBinary.1 ∧ s.names.find? (String.ofList n) = some (.binary b) ∧
      ((∃ t f, parse reader (Text.withLine bytes (orLine n)) = .ok t ∧
          t.graph.factors = s.graph.factors.push { factor := f } ∧ f.literals = [b.literal]) ↔
        ¬ IsMarked n) := by
  obtain ⟨before, hbefore, hmem⟩ := exists_declared_of_line h hline hdecode hwords
  have hreflects := reflects_parse h
  have hfind := (Names.find?_eq_some_iff hreflects.nodup).mpr hmem
  refine ⟨before, _, hbefore, rfl, hfind, ?_⟩
  have hn : IsWord n := isWord_of_mem_words (by rw [hwords]; simp)
  obtain ⟨number, hparse⟩ :=
    exists_parse_withLine_eq h (by simp [orLine]) (newline_notMem_orLine hn)
  rw [hparse, State.afterLine_orLine s number hn]
  constructor
  · rintro ⟨t, f, ht, hfactors, hliterals⟩ hmarked
    obtain ⟨l, hl, hdeclare⟩ := Except.bind_eq_ok_iff.mp (Except.eq_ok_of_mapError ht)
    obtain ⟨f', hfactors', hliterals'⟩ := State.exists_factor_of_declare hdeclare
    have hsame : f' = f :=
      congrArg WarmFactor.factor (Arena.push_inj (hfactors'.symm.trans hfactors))
    rw [hsame] at hliterals'
    exact ne_literal_of_isMarked hreflects.nodup_atoms hmarked hfind hl
      (List.singleton_inj.mp (hliterals'.symm.trans hliterals))
  · intro hmarked
    have hlt : before.graph.addBinary.1.id < s.graph.numBinary :=
      Names.lt_of_atoms_eq hreflects.atoms_eq hmem List.mem_cons_self
    rw [readLiteral_of_not_isMarked hmarked hfind]
    obtain ⟨t, ht⟩ := State.exists_declare_or (s := s) hreflects.isSealed_eq
      (l := before.graph.addBinary.1.literal) hlt
    obtain ⟨f, hfactors, hliterals⟩ := State.exists_factor_of_declare ht
    exact ⟨t, f, congrArg (Except.mapError (ParseError.line number)) ht, hfactors, hliterals⟩

def openSource : List UInt8 := Text.encode "binary a 1\n\nbinary b 2".toList

theorem parse_withLine_or_iff_openSource :
    ∃ s b t f, parse doubles openSource = .ok s ∧ s.names.find? "b" = some (.binary b) ∧
      parse doubles (Text.withLine openSource (orLine ['b'])) = .ok t ∧
      t.graph.factors = s.graph.factors.push { factor := f } ∧ f.literals = [b.literal] := by
  obtain ⟨s, hs⟩ : ∃ s, parse doubles openSource = .ok s := ⟨_, rfl⟩
  have hline : (Text.lines openSource)[2]? = some (Text.encode "binary b 2".toList) := rfl
  have hwords : Text.words (State.content "binary b 2".toList) = ["binary".toList, ['b'], ['2']] :=
    rfl
  obtain ⟨_, b, _, _, hfind, hiff⟩ :=
    parse_withLine_or_iff hs hline (Text.decode?_encode _) hwords
  obtain ⟨t, f, ht, hfactors, hliterals⟩ := hiff.mpr (by simp [IsMarked])
  exact ⟨s, b, t, f, hs, hfind, ht, hfactors, hliterals⟩

/-- A name with the mark of a negation is looked up without it: then it is unknown, or the factor is
over the negation of another variable. -/
theorem parse_withLine_or_markedName :
    (∃ s, parse doubles (Text.encode "binary !a 1\n".toList) = .ok s ∧
      s.names = [("!a", .binary ⟨0⟩)] ∧
      parse doubles (Text.withLine (Text.encode "binary !a 1\n".toList) (orLine ['!', 'a'])) =
        .error (.line 2 (.unknownVariable "a"))) ∧
    ∃ s t, parse doubles (Text.encode "binary a 2\nbinary !a -1\n".toList) = .ok s ∧
      s.names = [("a", .binary ⟨0⟩), ("!a", .binary ⟨1⟩)] ∧
      parse doubles (Text.withLine (Text.encode "binary a 2\nbinary !a -1\n".toList)
        (orLine ['!', 'a'])) = .ok t ∧
      t.graph.problem.factors.map (·.literals) = [[BinaryVariable.negation ⟨0⟩]] :=
  ⟨⟨_, rfl, rfl, rfl⟩, _, _, rfl, rfl, rfl, rfl⟩

end GraphFile
end MapInference
