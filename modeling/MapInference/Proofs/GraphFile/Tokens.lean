import MapInference.Proofs.GraphFile.Syntax
import MapInference.Proofs.GraphFile.Text

/-!
# Reading the tokens of commands

Every command is read back from its tokens. The names in scope are those that have been declared,
each for a variable of its kind, so that a reference is read as the variable that it stands for.
-/

namespace MapInference.GraphFile

variable {α β γ δ : Type}

theorem splitAtFirst?_append {mark : Char} {before : Token} (h : mark ∉ before) (after : Token) :
    splitAtFirst? mark (before ++ mark :: after) = some (before, after) := by
  induction before with
  | nil => simp [splitAtFirst?]
  | cons c before ih =>
    obtain ⟨hc, hbefore⟩ := not_or.mp (mt List.mem_cons.mpr h)
    simp [splitAtFirst?, Ne.symm hc, ih hbefore]

theorem splitAtLast?_append {mark : Char} (before : Token) {after : Token} (h : mark ∉ after) :
    splitAtLast? mark (before ++ mark :: after) = some (before, after) := by
  have hreverse : (before ++ mark :: after).reverse = after.reverse ++ mark :: before.reverse := by
    simp
  rw [splitAtLast?, hreverse, splitAtFirst?_append (by simpa using h)]
  simp

theorem splitAtColon_append {before : List Token} (h : [':'] ∉ before) (after : List Token) :
    splitAtColon (α := α) (before ++ [':'] :: after) = .ok (before, after) := by
  have hindex : (before ++ [':'] :: after).idxOf? [':'] = some before.length := by
    rw [List.idxOf?_eq_some_iff]
    refine ⟨by simp, by simp, fun j hj heq => h ?_⟩
    rw [List.getElem_append_left hj] at heq
    exact heq ▸ List.getElem_mem hj
  simp [splitAtColon, hindex]

def IsWord (t : Token) : Prop := t ≠ [] ∧ ∀ c ∈ t, Text.isBlank c = false ∧ c ≠ '#'

theorem isWord_of_printable {t : Token} (hnil : t ≠ [])
    (h : (t.all fun c => Text.isPrintable c && c != '#') = true) : IsWord t := by
  refine ⟨hnil, fun c hc => ?_⟩
  have hprintable := List.all_eq_true.mp h c hc
  rw [Bool.and_eq_true, bne_iff_ne] at hprintable
  exact ⟨Text.isBlank_eq_false hprintable.1, hprintable.2⟩

theorem IsWord.append {t t' : Token} (h : IsWord t) (h' : IsWord t') : IsWord (t ++ t') :=
  ⟨by simp [h.1], fun c hc => (List.mem_append.mp hc).elim (h.2 c) (h'.2 c)⟩

theorem IsName.isWord {name : Token} (h : IsName name) : IsWord name :=
  ⟨h.1, fun c hc => ⟨(h.2 c hc).1, fun hmark => (h.2 c hc).2 (by simp [hmark, marks])⟩⟩

theorem IsName.not_mem {name : Token} (h : IsName name) (mark : Char) (hmark : mark ∈ marks) :
    mark ∉ name := fun hmem => (h.2 mark hmem).2 hmark

theorem IsName.stateReference?_eq_none {name : Token} (h : IsName name) :
    stateReference? name = none := by
  have hlast : name.getLast? ≠ some ']' := fun heq =>
    h.not_mem ']' (by decide) (List.mem_of_getLast? heq)
  simp [stateReference?, hlast]

theorem stateReference?_state {name : Token} (h : '[' ∉ name) (index : Token) :
    stateReference? (name ++ '[' :: (index ++ [']'])) = some (name, index) := by
  have hbrackets : name ++ '[' :: (index ++ [']']) = (name ++ '[' :: index) ++ [']'] := by simp
  rw [hbrackets, stateReference?, List.getLast?_concat, if_pos rfl, List.dropLast_concat,
    splitAtFirst?_append h]

theorem splitNegation_of_head? {t : Token} (h : t.head? ≠ some '!') :
    splitNegation t = (false, t) := by
  unfold splitNegation
  split
  · simp at h
  · rfl

structure NumberReader.IsPlain (reader : NumberReader α) : Prop where
  scalar {t : Token} {x : α} (h : reader.scalar? t = some x) : IsWord t ∧ ':' ∉ t
  natural {t : Token} {n : ℕ} (h : reader.natural? t = some n) : IsWord t

namespace Names

variable {names : Names}

theorem notMem_of_find?_eq_none {name : String} (h : names.find? name = none) :
    name ∉ names.map (·.1) := by
  rw [find?, List.lookup_eq_none_iff] at h
  intro hmem
  obtain ⟨entry, hentry, rfl⟩ := List.mem_map.mp hmem
  exact bne_iff_ne.mp (h entry hentry) rfl

theorem mem_of_find? {name : String} {v : NamedVariable} (h : names.find? name = some v) :
    (name, v) ∈ names := by
  obtain ⟨before, behind, rfl, _⟩ := List.lookup_eq_some_iff.mp h
  simp

theorem find?_eq_some_iff (h : (names.map (·.1)).Nodup) {name : String} {v : NamedVariable} :
    names.find? name = some v ↔ (name, v) ∈ names := by
  refine ⟨mem_of_find?, fun hmem => ?_⟩
  obtain ⟨before, behind, rfl⟩ := List.append_of_mem hmem
  rw [find?, List.lookup_eq_some_iff]
  refine ⟨before, behind, rfl, fun entry hentry => ?_⟩
  rw [List.map_append, List.map_cons, List.nodup_append] at h
  exact bne_iff_ne.mpr (h.2.2 entry.1 (List.mem_map_of_mem hentry) name (by simp)).symm

end Names

def NamedVariable.numStates? : NamedVariable → Option ℕ
  | binary _ => none
  | multi m => some m.numStates

structure Names.Fit (names : Names) (scope : Scope) : Prop where
  scope_eq : scope = names.map fun (name, v) => (name.toList, v.numStates?)
  nodup : (scope.map (·.1)).Nodup
  isName : ∀ entry ∈ scope, IsName entry.1

namespace Names.Fit

theorem nil : Fit [] [] := ⟨rfl, List.nodup_nil, by simp⟩

variable {names : Names} {scope : Scope}

theorem concat (h : names.Fit scope) {name : Token} (hname : IsName name)
    (hnew : name ∉ scope.map (·.1)) (v : NamedVariable) :
    Fit (names ++ [(String.ofList name, v)]) (scope ++ [(name, v.numStates?)]) where
  scope_eq := by simp [h.scope_eq]
  nodup := by
    rw [List.map_append]
    exact h.nodup.append (List.nodup_singleton _) (by simpa using hnew)
  isName := by
    simp only [List.mem_append, List.mem_singleton]
    rintro entry (hentry | rfl)
    · exact h.isName entry hentry
    · exact hname

theorem nodup_names (h : names.Fit scope) : (names.map (·.1)).Nodup := by
  have hnodup := h.nodup
  rw [h.scope_eq, List.map_map] at hnodup
  refine List.Nodup.of_map String.toList ?_
  rwa [List.map_map]

theorem find?_eq_none (h : names.Fit scope) {name : Token} (hnew : name ∉ scope.map (·.1)) :
    names.find? (String.ofList name) = none := by
  cases hfind : names.find? (String.ofList name) with
  | none => rfl
  | some v =>
    refine absurd (List.mem_map.mpr ⟨(name, v.numStates?), ?_, rfl⟩) hnew
    rw [h.scope_eq]
    exact List.mem_map.mpr ⟨_, mem_of_find? hfind, by simp⟩

theorem find?_eq_some (h : names.Fit scope) {name : Token} {numStates? : Option ℕ}
    (hmem : (name, numStates?) ∈ scope) :
    ∃ v, names.find? (String.ofList name) = some v ∧ v.numStates? = numStates? := by
  rw [h.scope_eq] at hmem
  obtain ⟨⟨key, v⟩, hentry, heq⟩ := List.mem_map.mp hmem
  obtain ⟨rfl, rfl⟩ := Prod.mk.inj heq
  refine ⟨v, ?_, rfl⟩
  rw [String.ofList_toList]
  exact (find?_eq_some_iff h.nodup_names).mpr hentry

theorem find?_eq_binary (h : names.Fit scope) {name : Token} (hmem : (name, none) ∈ scope) :
    ∃ v, names.find? (String.ofList name) = some (.binary v) := by
  obtain ⟨v, hv, hstates⟩ := h.find?_eq_some hmem
  cases v with
  | binary v => exact ⟨v, hv⟩
  | multi m => simp [NamedVariable.numStates?] at hstates

theorem find?_eq_multi (h : names.Fit scope) {name : Token} {numStates : ℕ}
    (hmem : (name, some numStates) ∈ scope) :
    ∃ m, names.find? (String.ofList name) = some (.multi m) ∧ m.numStates = numStates := by
  obtain ⟨v, hv, hstates⟩ := h.find?_eq_some hmem
  cases v with
  | binary v => simp [NamedVariable.numStates?] at hstates
  | multi m => exact ⟨m, hv, by simpa [NamedVariable.numStates?] using hstates⟩

end Names.Fit

def Agree (meaning : Option β) (result : Read α β) : Prop :=
  ∃ x, meaning = some x ∧ result = .ok x

namespace Agree

theorem pure (x : β) : Agree (α := α) (some x) (.ok x) := ⟨x, rfl, rfl⟩

theorem bind {meaning : Option β} {result : Read α β} {f : β → Option γ} {g : β → Read α γ}
    (h : Agree meaning result) (hf : ∀ x, Agree (f x) (g x)) :
    Agree (meaning.bind f) (result >>= g) := by
  obtain ⟨x, rfl, rfl⟩ := h
  exact hf x

theorem mapM {meaning : β → Option δ} {token : β → γ} {read : γ → Read α δ} {xs : List β}
    (h : ∀ x ∈ xs, Agree (meaning x) (read (token x))) :
    Agree (xs.mapM meaning) ((xs.map token).mapM read) := by
  induction xs with
  | nil => exact .pure []
  | cons x xs ih =>
    obtain ⟨hx, hxs⟩ := List.forall_mem_cons.mp h
    rw [List.map_cons, List.mapM_cons, List.mapM_cons]
    exact hx.bind fun y => (ih hxs).bind fun ys => .pure (y :: ys)

end Agree

variable {reader : NumberReader α} {names : Names} {scope : Scope}

theorem readScalar_token {x : Written α} (h : x.IsReadBy reader.scalar?) :
    readScalar reader x.token = .ok x.value := by
  unfold readScalar
  rw [show reader.scalar? x.token = some x.value from h]

theorem readNatural_token {n : Written ℕ} (h : n.IsReadBy reader.natural?) :
    readNatural reader n.token = .ok n.value := by
  unfold readNatural
  rw [show reader.natural? n.token = some n.value from h]

theorem mapM_readScalar {xs : List (Written α)} (h : ∀ x ∈ xs, x.IsReadBy reader.scalar?) :
    (xs.map (·.token)).mapM (readScalar reader) = .ok (xs.map (·.value)) := by
  induction xs with
  | nil => rfl
  | cons x xs ih =>
    obtain ⟨hx, hxs⟩ := List.forall_mem_cons.mp h
    rw [List.map_cons, List.mapM_cons, readScalar_token hx, ih hxs]
    rfl

theorem IsName.head?_append {name : Token} (h : IsName name) (rest : Token) :
    (name ++ rest).head? ≠ some '!' := by
  obtain ⟨c, name, rfl⟩ := List.exists_cons_of_ne_nil h.1
  intro heq
  exact h.not_mem '!' (by decide) (by simp_all)

namespace Reference.IsIn

variable {r : Reference}

theorem head?_token (h : r.IsIn reader scope) (hnames : names.Fit scope) :
    r.token.head? ≠ some '!' := by
  cases r with
  | named name => simpa [token] using (hnames.isName _ h).head?_append []
  | state name index =>
    obtain ⟨_, numStates, hname, _⟩ := h
    exact (hnames.isName _ hname).head?_append _

theorem token_ne_colon (h : r.IsIn reader scope) (hnames : names.Fit scope) :
    r.token ≠ [':'] := by
  cases r with
  | named name =>
    rintro (rfl : name = [':'])
    exact (hnames.isName _ h).not_mem ':' (by decide) (by simp)
  | state name index =>
    intro heq
    have := congrArg List.length heq
    simp only [token, List.length_append, List.length_cons, List.length_nil] at this
    omega

theorem isWord (h : r.IsIn reader scope) (hreader : reader.IsPlain) (hnames : names.Fit scope) :
    IsWord r.token := by
  cases r with
  | named name => exact (hnames.isName _ h).isWord
  | state name index =>
    obtain ⟨hindex, numStates, hname, _⟩ := h
    have hopen : IsWord ['['] := isWord_of_printable (by decide) (by decide)
    have hclose : IsWord [']'] := isWord_of_printable (by decide) (by decide)
    exact (hnames.isName _ hname).isWord.append
      (hopen.append ((hreader.natural hindex).append hclose))

end Reference.IsIn

theorem Mention.splitNegation_token {l : Mention} (h : l.reference.token.head? ≠ some '!') :
    splitNegation l.token = (l.negated, l.reference.token) := by
  obtain ⟨r, negated⟩ := l
  cases negated with
  | true => rfl
  | false => exact splitNegation_of_head? h

theorem readLiteral_token (hnames : names.Fit scope) {l : Mention}
    (h : l.reference.IsIn reader scope) :
    Agree (l.literal? names) (readLiteral reader names l.token) := by
  have hsplit := Mention.splitNegation_token (h.head?_token hnames)
  obtain ⟨r, negated⟩ := l
  cases r with
  | named name =>
    obtain ⟨v, hv⟩ := hnames.find?_eq_binary h
    refine ⟨⟨v, negated⟩, by simp [Mention.literal?, Reference.atom?, Names.binary?, hv], ?_⟩
    simp only [readLiteral, hsplit, Reference.token, (hnames.isName _ h).stateReference?_eq_none,
      lookUp, hv]
    rfl
  | state name index =>
    obtain ⟨hindex, numStates, hname, hlt⟩ := h
    obtain ⟨m, hm, rfl⟩ := hnames.find?_eq_multi hname
    have hstate : m.state? index.value = some ⟨m.firstState.id + index.value⟩ := if_pos hlt
    refine ⟨⟨⟨m.firstState.id + index.value⟩, negated⟩,
      by simp [Mention.literal?, Reference.atom?, Names.multi?, hm, hstate], ?_⟩
    -- the first bracket of the token ends the name
    have hbracket := (hnames.isName _ hname).not_mem '[' (by decide)
    simp only [readLiteral, hsplit, Reference.token, stateReference?_state hbracket,
      readNatural_token hindex, readMulti, lookUp, hm]
    simp only [bind, Except.bind, pure, Except.pure, hstate]

theorem readBinary_token (hnames : names.Fit scope) {r : Reference} (h : r.IsIn reader scope) :
    Agree (r.atom? names) (readBinary reader names r.token) := by
  obtain ⟨l, hl, hread⟩ := readLiteral_token hnames (l := ⟨r, false⟩) h
  obtain ⟨v, hv, rfl⟩ := Option.map_eq_some_iff.mp hl
  refine ⟨v, hv, ?_⟩
  have htoken : Mention.token ⟨r, false⟩ = r.token := rfl
  rw [htoken] at hread
  rw [readBinary, hread]
  rfl

theorem readMulti_token (hnames : names.Fit scope) {name : Token}
    (h : ∃ numStates, (name, some numStates) ∈ scope) :
    Agree (names.multi? name) (readMulti (α := α) names name) := by
  obtain ⟨numStates, h⟩ := h
  obtain ⟨m, hm, _⟩ := hnames.find?_eq_multi h
  refine ⟨m, ?_, ?_⟩
  · simp [Names.multi?, hm]
  · simp only [readMulti, lookUp, hm]
    rfl

theorem readItem_token (hreader : reader.IsPlain) (hnames : names.Fit scope)
    {item : Mention × Written α} (h : item.1.reference.IsIn reader scope)
    (hcost : item.2.IsReadBy reader.scalar?) :
    Agree (do return (← item.1.literal? names, item.2.value))
      (readItem reader names (item.1.token ++ ':' :: item.2.token)) := by
  rw [readItem, splitAtLast?_append _ (hreader.scalar hcost).2]
  refine (readLiteral_token hnames h).bind fun l => ?_
  rw [readScalar_token hcost]
  exact .pure _

theorem Command.IsWellFormed.readArguments {c : Command α} (h : c.IsWellFormed reader scope)
    (hreader : reader.IsPlain) (hnames : names.Fit scope) :
    Agree (c.declaration? names) (readArguments reader names c.keyword c.arguments) := by
  cases c with
  | binary name x =>
    simp only [keyword, arguments, GraphFile.readArguments, readScalar_token h.2]
    exact .pure _
  | multi name xs =>
    simp only [keyword, arguments, GraphFile.readArguments, mapM_readScalar h.2]
    exact .pure _
  | logic op ls =>
    exact (Agree.mapM fun l hl => readLiteral_token hnames (h l hl)).bind fun _ => .pure _
  | pair l l' x =>
    obtain ⟨hl, hl', hx⟩ := h
    refine (readLiteral_token hnames hl).bind fun _ => ?_
    refine (readLiteral_token hnames hl').bind fun _ => ?_
    rw [readScalar_token hx]
    exact .pure _
  | budget n ls =>
    simp only [keyword, arguments, GraphFile.readArguments, readNatural_token h.1]
    exact (Agree.mapM fun l hl => readLiteral_token hnames (h.2 l hl)).bind fun _ => .pure _
  | knapsack total items =>
    simp only [keyword, arguments, GraphFile.readArguments, readScalar_token h.1]
    exact (Agree.mapM fun item hitem =>
      readItem_token hreader hnames (h.2 item hitem).1 (h.2 item hitem).2).bind fun _ => .pure _
  | dense vars xs =>
    obtain ⟨hvars, hxs⟩ := h
    have hcolon : [':'] ∉ vars := fun hmem => by
      obtain ⟨_, hname⟩ := hvars _ hmem
      exact (hnames.isName _ hname).not_mem ':' (by decide) (by simp)
    simp only [keyword, arguments, GraphFile.readArguments, splitAtColon_append hcolon]
    have hread := Agree.mapM fun name hname => readMulti_token (α := α) hnames (hvars name hname)
    rw [List.map_id'] at hread
    refine hread.bind fun _ => ?_
    rw [mapM_readScalar hxs]
    exact .pure _
  | matching n m vars =>
    obtain ⟨hn, hm, hvars⟩ := h
    simp only [keyword, arguments, GraphFile.readArguments, readNatural_token hn,
      readNatural_token hm]
    exact (Agree.mapM fun r hr => readBinary_token hnames (hvars r hr)).bind fun _ => .pure _
  | segmentation n vars xs =>
    obtain ⟨hn, hvars, hxs⟩ := h
    have hcolon : [':'] ∉ vars.map (·.token) := fun hmem => by
      obtain ⟨r, hr, heq⟩ := List.mem_map.mp hmem
      exact (hvars r hr).token_ne_colon hnames heq
    simp only [keyword, arguments, GraphFile.readArguments, readNatural_token hn,
      splitAtColon_append hcolon]
    refine (Agree.mapM fun r hr => readBinary_token hnames (hvars r hr)).bind fun _ => ?_
    rw [mapM_readScalar hxs]
    exact .pure _

theorem Keyword.ofText?_token (k : Keyword) : ofText? (String.ofList k.token) = some k := by
  cases k with
  | operator op => cases op <;> decide
  | _ => rfl

theorem Keyword.isWord_token (k : Keyword) : IsWord k.token := by
  cases k with
  | operator op => cases op <;> exact isWord_of_printable (by decide) (by decide)
  | _ => exact isWord_of_printable (by decide) (by decide)

theorem Mention.isWord_token (hreader : reader.IsPlain) (hnames : names.Fit scope) {l : Mention}
    (h : l.reference.IsIn reader scope) : IsWord l.token := by
  have hword := h.isWord hreader hnames
  cases hneg : l.negated with
  | false => simpa [token, hneg] using hword
  | true =>
    have hmark : IsWord ['!'] := isWord_of_printable (by decide) (by decide)
    simpa [token, hneg] using hmark.append hword

theorem Command.IsWellFormed.readDeclaration {c : Command α} (h : c.IsWellFormed reader scope)
    (hreader : reader.IsPlain) (hnames : names.Fit scope) :
    Agree ((c.declaration? names).map some) (readDeclaration reader names c.tokens) := by
  obtain ⟨d, hmeaning, hread⟩ := h.readArguments hreader hnames
  refine ⟨some d, by rw [hmeaning, Option.map_some], ?_⟩
  rw [tokens, GraphFile.readDeclaration, Keyword.ofText?_token]
  simp only [hread]
  rfl

theorem Command.IsWellFormed.isWord {c : Command α} (h : c.IsWellFormed reader scope)
    (hreader : reader.IsPlain) (hnames : names.Fit scope) : ∀ t ∈ c.tokens, IsWord t := by
  have hscalar {x : Written α} (hx : x.IsReadBy reader.scalar?) : IsWord x.token :=
    (hreader.scalar hx).1
  have hscalars {xs : List (Written α)} (hxs : ∀ x ∈ xs, x.IsReadBy reader.scalar?) :
      ∀ t ∈ xs.map (·.token), IsWord t := List.forall_mem_map.mpr fun x hx => hscalar (hxs x hx)
  have hmention {l : Mention} (hl : l.reference.IsIn reader scope) : IsWord l.token :=
    Mention.isWord_token hreader hnames hl
  have hmentions {ls : List Mention} (hls : ∀ l ∈ ls, l.reference.IsIn reader scope) :
      ∀ t ∈ ls.map (·.token), IsWord t := List.forall_mem_map.mpr fun l hl => hmention (hls l hl)
  have hreferences {rs : List Reference} (hrs : ∀ r ∈ rs, r.IsIn reader scope) :
      ∀ t ∈ rs.map (·.token), IsWord t :=
    List.forall_mem_map.mpr fun r hr => (hrs r hr).isWord hreader hnames
  have hcolon : IsWord [':'] := isWord_of_printable (by decide) (by decide)
  refine List.forall_mem_cons.mpr ⟨c.keyword.isWord_token, ?_⟩
  cases c with
  | binary name x =>
    exact List.forall_mem_cons.mpr
      ⟨h.1.1.isWord, List.forall_mem_singleton.mpr (hscalar h.2)⟩
  | multi name xs => exact List.forall_mem_cons.mpr ⟨h.1.1.isWord, hscalars h.2⟩
  | logic op ls => exact hmentions h
  | pair l l' x =>
    obtain ⟨hl, hl', hx⟩ := h
    exact List.forall_mem_cons.mpr ⟨hmention hl, List.forall_mem_cons.mpr
      ⟨hmention hl', List.forall_mem_singleton.mpr (hscalar hx)⟩⟩
  | budget n ls => exact List.forall_mem_cons.mpr ⟨hreader.natural h.1, hmentions h.2⟩
  | knapsack total items =>
    refine List.forall_mem_cons.mpr ⟨hscalar h.1, List.forall_mem_map.mpr fun item hitem => ?_⟩
    obtain ⟨hl, hcost⟩ := h.2 item hitem
    exact (hmention hl).append (hcolon.append (hscalar hcost))
  | dense vars xs =>
    obtain ⟨hvars, hxs⟩ := h
    refine List.forall_mem_append.mpr ⟨fun name hname => ?_,
      List.forall_mem_cons.mpr ⟨hcolon, hscalars hxs⟩⟩
    obtain ⟨numStates, hmem⟩ := hvars name hname
    exact (hnames.isName _ hmem).isWord
  | matching n m vars =>
    obtain ⟨hn, hm, hvars⟩ := h
    exact List.forall_mem_cons.mpr ⟨hreader.natural hn,
      List.forall_mem_cons.mpr ⟨hreader.natural hm, hreferences hvars⟩⟩
  | segmentation n vars xs =>
    obtain ⟨hn, hvars, hxs⟩ := h
    exact List.forall_mem_cons.mpr ⟨hreader.natural hn, List.forall_mem_append.mpr
      ⟨hreferences hvars, List.forall_mem_cons.mpr ⟨hcolon, hscalars hxs⟩⟩⟩

end MapInference.GraphFile
