import MapInference.Proofs.GraphFile.Lines
import MapInference.Proofs.GraphFile.Numbers

/-!
# Reading graph files back

A well-formed file is read as the graph and the names that its commands lead to, or ends with the
first call that fails. Blanks, comments and empty lines make no difference. What one line does to
the state is shown first; the file follows by induction on its lines.
-/

namespace MapInference.GraphFile

variable {α : Type} {reader : NumberReader α} {names names' : Names} {scope : Scope}

theorem words_spread {ts : List Token} (hwords : ∀ t ∈ ts, IsWord t) {gaps : List (List Char)}
    (hlength : gaps.length = ts.length) (hgaps : ∀ gap ∈ gaps, SourceLine.AreBlanks gap)
    (hseparated : ∀ gap ∈ gaps.dropLast, gap ≠ []) : Text.words (spread ts gaps) = ts := by
  induction ts generalizing gaps with
  | nil => rfl
  | cons t ts ih =>
    obtain ⟨gap, gaps, rfl⟩ := List.exists_cons_of_length_eq_add_one hlength
    obtain ⟨ht, hwords⟩ := List.forall_mem_cons.mp hwords
    obtain ⟨hgap, hgaps⟩ := List.forall_mem_cons.mp hgaps
    have hlast : gap = [] → spread ts gaps = [] := by
      intro hgap
      cases gaps with
      | nil => cases ts <;> rfl
      | cons gap' gaps => exact absurd hgap (hseparated gap (by simp))
    rw [spread,
      Text.words_append ht.1 (fun c hc => (ht.2 c hc).1) (fun c hc => (hgap c hc).1) hlast,
      ih hwords (by simpa using hlength) hgaps fun gap' hgap' => hseparated gap' ?_]
    cases gaps with
    | nil => simp at hgap'
    | cons gap'' gaps => exact List.mem_cons_of_mem _ hgap'

theorem mem_spread {ts : List Token} {gaps : List (List Char)} {c : Char}
    (h : c ∈ spread ts gaps) : (∃ t ∈ ts, c ∈ t) ∨ ∃ gap ∈ gaps, c ∈ gap := by
  induction ts generalizing gaps with
  | nil => simp [spread] at h
  | cons t ts ih =>
    cases gaps with
    | nil => simp [spread] at h
    | cons gap gaps =>
      simp only [spread, List.mem_append] at h
      obtain h | h | h := h
      · exact .inl ⟨t, by simp, h⟩
      · exact .inr ⟨gap, by simp, h⟩
      · obtain ⟨t', ht', hc⟩ | ⟨gap', hgap', hc⟩ := ih h
        · exact .inl ⟨t', by simp [ht'], hc⟩
        · exact .inr ⟨gap', by simp [hgap'], hc⟩

namespace SourceLine

variable {line : SourceLine α}

theorem IsLaidOut.words_content (h : line.IsLaidOut) (hwords : ∀ t ∈ line.tokens, IsWord t) :
    Text.words (State.content line.text) = line.tokens := by
  have hmark : '#' ∉ line.body := by
    have hblank {cs : List Char} (hcs : AreBlanks cs) : '#' ∉ cs := fun hmem => by
      have := (hcs '#' hmem).1
      rw [Text.isBlank_eq_false (by decide)] at this
      cases this
    intro hmem
    rcases List.mem_append.mp hmem with hmem | hmem
    · exact hblank h.indent hmem
    · rcases mem_spread hmem with ⟨t, ht, hmem⟩ | ⟨gap, hgap, hmem⟩
      · exact ((hwords t ht).2 '#' hmem).2 rfl
      · exact hblank (h.gaps gap hgap) hmem
  have hcontent : State.content line.text = line.body := by
    have hbody : line.body.takeWhile (· ≠ '#') = line.body :=
      List.takeWhile_eq_self_iff.mpr fun c hc => by
        simpa using fun heq : c = '#' => hmark (heq ▸ hc)
    rw [State.content, text, List.takeWhile_append, if_pos (by rw [hbody])]
    cases line.comment? <;> simp
  rw [hcontent, body, Text.words, Text.wordsFrom_blanks fun c hc => (h.indent c hc).1]
  exact words_spread hwords h.length_gaps h.gaps h.gaps_ne_nil

theorem IsLaidOut.newline_not_mem (h : line.IsLaidOut) (hwords : ∀ t ∈ line.tokens, IsWord t) :
    '\n' ∉ line.text := by
  intro hmem
  rcases List.mem_append.mp hmem with hmem | hmem
  · rcases List.mem_append.mp hmem with hmem | hmem
    · exact (h.indent _ hmem).2 rfl
    · rcases mem_spread hmem with ⟨t, ht, hmem⟩ | ⟨gap, hgap, hmem⟩
      · have hblank := ((hwords t ht).2 '\n' hmem).1
        revert hblank
        decide
      · exact (h.gaps gap hgap _ hmem).2 rfl
  · cases hcomment : line.comment? with
    | none => simp [hcomment] at hmem
    | some comment =>
      have : '\n' ∈ comment := by simpa [hcomment] using hmem
      exact h.comment comment hcomment this

end SourceLine

def Declaration.name? : Declaration α → Option String
  | .binary name _ => some name
  | .multi name _ => some name
  | .factor _ => none

theorem Command.declaration?_cases {c : Command α} {d : Declaration α}
    (h : c.declaration? names = some d) :
    (∃ name x, c = .binary name x ∧ d = .binary (String.ofList name) x.value) ∨
      (∃ name xs, c = .multi name xs ∧ d = .multi (String.ofList name) (xs.map (·.value))) ∨
        ∃ spec, d = .factor spec ∧ c.declared = [] := by
  cases c with
  | binary name x => exact .inl ⟨name, x, rfl, (Option.some.inj h).symm⟩
  | multi name xs => exact .inr (.inl ⟨name, xs, rfl, (Option.some.inj h).symm⟩)
  | pair l l' x =>
    obtain ⟨_, _, h⟩ := Option.bind_eq_some_iff.mp h
    obtain ⟨_, _, h⟩ := Option.bind_eq_some_iff.mp h
    exact .inr (.inr ⟨_, (Option.some.inj h).symm, rfl⟩)
  | logic _ _ | budget _ _ | knapsack _ _ | dense _ _ | matching _ _ _ | segmentation _ _ _ =>
    obtain ⟨_, _, h⟩ := Option.bind_eq_some_iff.mp h
    exact .inr (.inr ⟨_, (Option.some.inj h).symm, rfl⟩)

theorem Command.IsWellFormed.find?_eq_none {c : Command α} (h : c.IsWellFormed reader scope)
    (hnames : names.Fit scope) {d : Declaration α} (hd : c.declaration? names = some d) :
    ∀ name ∈ d.name?, names.find? name = none := by
  rintro _ hname
  obtain ⟨name, x, rfl, rfl⟩ | ⟨name, xs, rfl, rfl⟩ | ⟨spec, rfl, _⟩ := declaration?_cases hd
  · cases hname
    exact hnames.find?_eq_none h.1.2
  · cases hname
    exact hnames.find?_eq_none h.1.2
  · cases hname

theorem numStates_of_addMulti [Scalar α] {g g' : FactorGraph α} {numStates : ℕ}
    {m : MultiVariable} (h : g.addMulti numStates = .ok (m, g')) : m.numStates = numStates := by
  unfold FactorGraph.addMulti at h
  split_ifs at h
  obtain ⟨rfl, _⟩ := Prod.mk.inj (Except.ok.inj h)
  rfl

theorem Command.IsWellFormed.fit [Scalar α] {c : Command α} (h : c.IsWellFormed reader scope)
    (hnames : names.Fit scope) {d : Declaration α} (hd : c.declaration? names = some d)
    {g g' : FactorGraph α} (hperform : d.perform g names = .ok (g', names')) :
    names'.Fit (scope ++ c.declared) := by
  obtain ⟨name, x, rfl, rfl⟩ | ⟨name, xs, rfl, rfl⟩ | ⟨spec, rfl, hdeclared⟩ :=
    declaration?_cases hd
  · obtain ⟨_, _, hperform⟩ := Except.bind_eq_ok_iff.mp hperform
    obtain ⟨_, rfl⟩ := Prod.mk.inj (Except.ok.inj hperform)
    exact hnames.concat h.1.1 h.1.2 _
  · obtain ⟨⟨m, _⟩, hadd, hperform⟩ := Except.bind_eq_ok_iff.mp hperform
    obtain ⟨_, _, hperform⟩ := Except.bind_eq_ok_iff.mp hperform
    obtain ⟨_, rfl⟩ := Prod.mk.inj (Except.ok.inj hperform)
    have hfit := hnames.concat h.1.1 h.1.2 (.multi m)
    rwa [NamedVariable.numStates?, numStates_of_addMulti hadd, List.length_map] at hfit
  · obtain ⟨_, _, hperform⟩ := Except.bind_eq_ok_iff.mp hperform
    obtain ⟨_, rfl⟩ := Prod.mk.inj (Except.ok.inj hperform)
    rwa [hdeclared, List.append_nil]

namespace State

variable [Scalar α] {s : State α}

theorem map_declare {d : Declaration α} (hnew : ∀ name ∈ d.name?, s.names.find? name = none) :
    (s.declare d).map (fun t => (t.graph, t.names)) =
      (d.perform s.graph s.names).mapError LineError.declaration := by
  cases d with
  | binary name x =>
    have hname : s.names.find? name = none := hnew name rfl
    simp only [declare, Declaration.perform]
    cases s.graph.addBinary.2.setLogPotential s.graph.addBinary.1 x with
    | error e => rfl
    | ok g =>
      simp only [bind, Except.bind, Except.mapError, addName, hname]
      rfl
  | multi name xs =>
    have hname : s.names.find? name = none := hnew name rfl
    simp only [declare, Declaration.perform]
    cases s.graph.addMulti xs.length with
    | error e => rfl
    | ok added =>
      obtain ⟨m, g⟩ := added
      cases hset : g.setStateLogPotentials m 0 xs with
      | error e =>
        simp only [bind, Except.bind, Except.mapError, hset]
        rfl
      | ok g' =>
        simp only [bind, Except.bind, Except.mapError, hset, addName, hname]
        rfl
  | factor spec =>
    simp only [declare, Declaration.perform]
    cases s.graph.declare spec <;> rfl

theorem declare_eq_error {d : Declaration α}
    (hnew : ∀ name ∈ d.name?, s.names.find? name = none) {cause : ConstructionError α}
    (hperform : d.perform s.graph s.names = .error cause) :
    s.declare d = .error (.declaration cause) := by
  have hmap := map_declare hnew
  rw [hperform] at hmap
  cases hdeclare : s.declare d with
  | ok t => simp [hdeclare, Except.map, Except.mapError] at hmap
  | error e => simpa [hdeclare, Except.map, Except.mapError] using hmap

theorem exists_declare_eq_ok {d : Declaration α}
    (hnew : ∀ name ∈ d.name?, s.names.find? name = none) {g : FactorGraph α}
    (hperform : d.perform s.graph s.names = .ok (g, names)) :
    ∃ t, s.declare d = .ok t ∧ t.graph = g ∧ t.names = names := by
  have hmap := map_declare hnew
  rw [hperform] at hmap
  cases hdeclare : s.declare d with
  | error e => simp [hdeclare, Except.map, Except.mapError] at hmap
  | ok t => exact ⟨t, rfl, by simpa [hdeclare, Except.map, Except.mapError] using hmap⟩

end State

def EndsWith (result : State α × Option (ParseError α)) :
    Except (ℕ × ConstructionError α) (FactorGraph α × Names) → Prop
  | .ok (g, names) => result.1.graph = g ∧ result.1.names = names ∧ result.2 = none
  | .error (number, cause) => result.2 = some (.line number (.declaration cause))

def SourceLine.declared (line : SourceLine α) : Scope := (line.command?.map (·.declared)).getD []

theorem SourceLine.command?_eq_none {line : SourceLine α} (h : line.tokens = []) :
    line.command? = none := by
  cases hcommand : line.command? with
  | none => rfl
  | some c => simp [tokens, hcommand, Command.tokens] at h

theorem SourceLine.isWord_tokens {line : SourceLine α} (hreader : reader.IsPlain)
    (hnames : names.Fit scope) (hline : ∀ c ∈ line.command?, c.IsWellFormed reader scope) :
    ∀ t ∈ line.tokens, IsWord t := by
  cases h : line.command? with
  | none => simp [tokens, h]
  | some c => simpa [tokens, h] using (hline c h).isWord hreader hnames

theorem areWellFormed_cons {line : SourceLine α} {file : List (SourceLine α)} :
    AreWellFormed reader scope ((line :: file).filterMap (·.command?)) ↔
      (∀ c ∈ line.command?, c.IsWellFormed reader scope) ∧
        AreWellFormed reader (scope ++ line.declared) (file.filterMap (·.command?)) := by
  cases h : line.command? <;> simp [h, SourceLine.declared, AreWellFormed]

variable [Scalar α]

theorem SourceLine.endsWith_readLines {line : SourceLine α} (hreader : reader.IsPlain)
    {s : State α} (hnames : s.names.Fit scope)
    (hline : ∀ c ∈ line.command?, c.IsWellFormed reader scope) {bytes : List UInt8}
    {cs : List Char} (hbytes : Text.decode? bytes = some cs)
    (hwords : Text.words (State.content cs) = line.tokens) {number : ℕ}
    {rest : List (List UInt8)} {commands : List (Option (Command α))}
    (hrest : ∀ t : State α, t.names.Fit (scope ++ line.declared) →
      ∃ outcome, performLines t.graph t.names (number + 1) commands = some outcome ∧
        EndsWith (t.readLines reader (number + 1) rest) outcome) :
    ∃ outcome, performLines s.graph s.names number (line.command? :: commands) = some outcome ∧
      EndsWith (s.readLines reader number (bytes :: rest)) outcome := by
  cases hcommand : line.command? with
  | none =>
    have htokens : line.tokens = [] := by simp [tokens, hcommand]
    have hread : s.readLine reader cs = .ok s := by
      rw [State.readLine, hwords, htokens]
      rfl
    have hdeclared : line.declared = [] := by simp [declared, hcommand]
    rw [hdeclared, List.append_nil] at hrest
    simpa only [performLines, State.readLines, hbytes, hread] using hrest s hnames
  | some c =>
    have htokens : line.tokens = c.tokens := by simp [tokens, hcommand]
    have hdeclared : line.declared = c.declared := by simp [declared, hcommand]
    have hc := hline c hcommand
    obtain ⟨_, hmeaning, hread⟩ := hc.readDeclaration hreader hnames
    obtain ⟨d, hd, rfl⟩ := Option.map_eq_some_iff.mp hmeaning
    have hnew := hc.find?_eq_none hnames hd
    have hstep : s.readLine reader cs = s.declare d := by
      rw [State.readLine, hwords, htokens, hread]
      rfl
    simp only [performLines, hd, Option.bind_some, State.readLines, hbytes, hstep]
    cases hperform : d.perform s.graph s.names with
    | error cause =>
      rw [State.declare_eq_error hnew hperform]
      exact ⟨_, rfl, rfl⟩
    | ok result =>
      obtain ⟨g, names⟩ := result
      obtain ⟨t, ht, rfl, rfl⟩ := State.exists_declare_eq_ok hnew hperform
      rw [ht]
      exact hrest t (hdeclared ▸ hc.fit hnames hd hperform)

theorem exists_endsWith_readLines (hreader : reader.IsPlain) {file : List (SourceLine α)}
    (hfile : AreWellFormed reader scope (file.filterMap (·.command?)))
    (hlayout : ∀ line ∈ file, line.IsLaidOut) {s : State α} (hnames : s.names.Fit scope)
    (number : ℕ) :
    ∃ outcome, performLines s.graph s.names number (file.map (·.command?)) = some outcome ∧
      EndsWith (s.readLines reader number
        (Text.lines (Text.encode (['\n'].intercalate (file.map (·.text)))))) outcome := by
  -- the state and the names in scope advance with every line
  induction file generalizing s scope number with
  | nil => exact ⟨_, rfl, rfl, rfl, rfl⟩
  | cons line file ih =>
    obtain ⟨hline, hfile⟩ := areWellFormed_cons.mp hfile
    obtain ⟨hlaid, hlayout⟩ := List.forall_mem_cons.mp hlayout
    have htokens := SourceLine.isWord_tokens hreader hnames hline
    have hnewline := hlaid.newline_not_mem htokens
    have hcontent := hlaid.words_content htokens
    cases file with
    | nil =>
      have htext : ['\n'].intercalate ([line].map (·.text)) = line.text := by simp
      rw [htext, Text.lines_encode hnewline]
      split_ifs with hnil
      · -- a last line without characters is not read, and has no command
        have hcommand : line.command? = none :=
          SourceLine.command?_eq_none (by rw [← hcontent, hnil]; rfl)
        exact ⟨.ok (s.graph, s.names), by rw [List.map_singleton, hcommand]; rfl, rfl, rfl, rfl⟩
      · exact SourceLine.endsWith_readLines hreader hnames hline (Text.decode?_encode _) hcontent
          fun t _ => ⟨_, rfl, rfl, rfl, rfl⟩
    | cons line' file =>
      have htext : ['\n'].intercalate ((line :: line' :: file).map (·.text)) =
          line.text ++ '\n' :: ['\n'].intercalate ((line' :: file).map (·.text)) := by
        simp [List.intercalate]
      rw [htext, Text.lines_encode_cons hnewline]
      -- the bytes of the line are decoded without the blank that may be cut off their end
      obtain ⟨cs, gap, hcut, hgap, hdecode⟩ := Text.exists_decode?_closeLine line.text
      have hwords : Text.words (State.content cs) = line.tokens := by
        rw [← State.words_content_append_blanks cs hgap, ← hcut, hcontent]
      exact SourceLine.endsWith_readLines hreader hnames hline hdecode hwords fun t ht =>
        ih hfile hlayout ht (number + 1)

theorem exists_parse_eq (hreader : reader.IsPlain) {file : List (SourceLine α)}
    (hfile : AreWellFormed reader [] (file.filterMap (·.command?)))
    (hlayout : ∀ line ∈ file, line.IsLaidOut) :
    ∃ outcome, performLines .empty [] 1 (file.map (·.command?)) = some outcome ∧
      (parse reader (fileBytes file)).map (fun s => (s.graph, s.names)) =
        outcome.mapError fun (number, cause) => .line number (.declaration cause) := by
  obtain ⟨outcome, hperform, hend⟩ :=
    exists_endsWith_readLines hreader hfile hlayout (s := .empty) Names.Fit.nil 1
  refine ⟨outcome, hperform, ?_⟩
  rw [parse, read, fileBytes, fileText, Text.toUTF8_ofList]
  revert hend
  generalize State.readLines reader State.empty 1 _ = result
  obtain ⟨s, error?⟩ := result
  intro hend
  cases outcome with
  | ok result =>
    obtain ⟨g, names⟩ := result
    obtain ⟨rfl, rfl, rfl⟩ := hend
    rfl
  | error failure =>
    obtain rfl := hend
    rfl

/-- A graph file with doubles is read as what the calls of its commands lead to: the graph and the
names of its variables, or the first call that fails, with the number of its line. -/
theorem exists_parse_doubles_eq {file : List (SourceLine Float)}
    (hfile : AreWellFormed doubles [] (file.filterMap (·.command?)))
    (hlayout : ∀ line ∈ file, line.IsLaidOut) :
    ∃ outcome, performLines .empty [] 1 (file.map (·.command?)) = some outcome ∧
      (parse doubles (fileBytes file)).map (fun s => (s.graph, s.names)) =
        outcome.mapError fun (number, cause) => .line number (.declaration cause) :=
  exists_parse_eq isPlain_doubles hfile hlayout

def pairFile : List (SourceLine Float) := [
  { command? := some (.binary ['a'] ⟨"1.5".toList, 1.5⟩), gaps := [[' '], [' '], ['\r']] },
  { command? := some (.multi ['m'] [⟨"0.5".toList, 0.5⟩, ⟨"2.5".toList, 2.5⟩])
    gaps := [[' '], [' '], [' '], [' ']]
    comment? := some " two states".toList },
  { command? := none },
  { command? := some
      (.pair ⟨.named ['a'], true⟩ ⟨.state ['m'] ⟨['1'], 1⟩, false⟩ ⟨"1.5".toList, 1.5⟩)
    indent := ['\t']
    gaps := [[' '], [' ', ' '], [' '], []] }]

example : fileText pairFile =
    "binary a 1.5\r\nmulti m 0.5 2.5 # two states\n\n\tpair !a  m[1] 1.5" := by
  rfl

theorem exists_parse_doubles_eq_pairFile :
    AreWellFormed doubles [] (pairFile.filterMap (·.command?)) ∧
      (∀ line ∈ pairFile, line.IsLaidOut) ∧
      ∃ outcome, performLines .empty [] 1 (pairFile.map (·.command?)) = some outcome ∧
        (parse doubles (fileBytes pairFile)).map (fun s => (s.graph, s.names)) =
          outcome.mapError fun (number, cause) => .line number (.declaration cause) := by
  have hfile : AreWellFormed doubles [] (pairFile.filterMap (·.command?)) := by
    have ha : Text.isBlank 'a' = false := by decide
    have hm : Text.isBlank 'm' = false := by decide
    refine ⟨⟨⟨?_, by simp⟩, rfl⟩, ⟨⟨?_, by simp [Command.declared]⟩, ?_⟩, ⟨?_, ?_, rfl⟩, trivial⟩
    · simp [IsName, marks, ha]
    · simp [IsName, marks, hm]
    · simpa using ⟨rfl, rfl⟩
    · simp [Reference.IsIn, Command.declared]
    · exact ⟨rfl, 2, by simp [Command.declared], by decide⟩
  have hlayout : ∀ line ∈ pairFile, line.IsLaidOut := by
    have hspace : Text.isBlank ' ' = true := by decide
    have htab : Text.isBlank '\t' = true := by decide
    have hreturn : Text.isBlank '\r' = true := by decide
    simp only [pairFile, List.forall_mem_cons]
    refine ⟨⟨rfl, ?_, ?_, ?_, ?_⟩, ⟨rfl, ?_, ?_, ?_, ?_⟩, ⟨rfl, ?_, ?_, ?_, ?_⟩,
      ⟨rfl, ?_, ?_, ?_, ?_⟩, by simp⟩
    all_goals simp [SourceLine.AreBlanks, hspace, htab, hreturn]
  exact ⟨hfile, hlayout, exists_parse_doubles_eq hfile hlayout⟩

end MapInference.GraphFile
