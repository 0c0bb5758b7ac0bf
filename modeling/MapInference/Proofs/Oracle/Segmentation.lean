import MapInference.Proofs.Extremum
import MapInference.Proofs.Oracle.Intervals

/-!
# The laws of segmentations

A segmentation of a prefix either leaves the last position outside of its last segment, and is one
of a shorter prefix, or ends with a segment, before which any segmentation of a shorter prefix may
stand. Every entry of the table arises in one of these ways from an entry for a shorter prefix, so
that following the notes back from it ends at the first position and lists a segmentation of its
kind, in any arithmetic. In exact arithmetic the entries are the scores of these segmentations, and
by induction on the prefix no segmentation of the kind is better. Segmentations are read from their
last segment here, as the notes list them.
-/

namespace MapInference.Segmentation

open Scalar

/-- Disjoint segments of the first `n` positions, the last one first. -/
structure IsPrefix (n : ℕ) (segments : List (ℕ × ℕ)) : Prop where
  mem {p : ℕ × ℕ} : p ∈ segments → p.1 ≤ p.2 ∧ p.2 < n
  pairwise : segments.Pairwise fun later earlier => earlier.2 < later.1

theorem isPrefix_nil (n : ℕ) : IsPrefix n [] := ⟨by simp, List.Pairwise.nil⟩

theorem IsPrefix.mono {m n : ℕ} {segments : List (ℕ × ℕ)} (h : IsPrefix m segments) (hmn : m ≤ n) :
    IsPrefix n segments :=
  ⟨fun hp => ⟨(h.mem hp).1, (h.mem hp).2.trans_le hmn⟩, h.pairwise⟩

theorem IsPrefix.cons {start stop : ℕ} {rest : List (ℕ × ℕ)} (h : IsPrefix start rest)
    (hle : start ≤ stop) : IsPrefix (stop + 1) ((start, stop) :: rest) := by
  refine ⟨?_, List.pairwise_cons.mpr ⟨fun p hp => (h.mem hp).2, h.pairwise⟩⟩
  intro p hp
  rcases List.mem_cons.mp hp with rfl | hp
  · exact ⟨hle, Nat.lt_succ_self _⟩
  · have := h.mem hp
    omega

def IsPart (n : ℕ) : (closed : Bool) → (segments : List (ℕ × ℕ)) → Prop
  | false, segments => IsPrefix (n - 1) segments
  | true, segments =>
    ∃ start rest, segments = (start, n - 1) :: rest ∧ start < n ∧ IsPrefix start rest

theorem isPrefix_iff {n : ℕ} {segments : List (ℕ × ℕ)} :
    IsPrefix n segments ↔ ∃ closed, IsPart n closed segments := by
  constructor
  · intro h
    cases segments with
    | nil => exact ⟨false, isPrefix_nil _⟩
    | cons p rest =>
      obtain ⟨start, stop⟩ := p
      obtain ⟨hp, hrest⟩ := List.pairwise_cons.mp h.pairwise
      obtain ⟨hle, hlt⟩ := h.mem List.mem_cons_self
      have hstart : IsPrefix start rest :=
        ⟨fun hq => ⟨(h.mem (List.mem_cons_of_mem _ hq)).1, hp _ hq⟩, hrest⟩
      rcases Nat.lt_or_ge stop (n - 1) with hs | hs
      · exact ⟨false, (hstart.cons hle).mono hs⟩
      · obtain rfl : stop = n - 1 := by
          have : stop < n := hlt
          omega
        exact ⟨true, start, rest, rfl, lt_of_le_of_lt hle hlt, hstart⟩
  · rintro ⟨_ | _, h⟩
    · exact IsPrefix.mono h (Nat.sub_le _ _)
    · obtain ⟨start, rest, rfl, hlt, h⟩ := h
      exact (h.cons (by omega)).mono (by omega)

theorem IsPart.isPrefix {n : ℕ} {closed : Bool} {segments : List (ℕ × ℕ)}
    (h : IsPart n closed segments) : IsPrefix n segments :=
  isPrefix_iff.mpr ⟨closed, h⟩

theorem IsPart.skip {n : ℕ} {closed : Bool} {segments : List (ℕ × ℕ)}
    (h : IsPart n closed segments) : IsPart (n + 1) false segments :=
  h.isPrefix

theorem IsPart.append {start stop : ℕ} {closed : Bool} {segments : List (ℕ × ℕ)}
    (h : IsPart start closed segments) (hle : start ≤ stop) :
    IsPart (stop + 1) true ((start, stop) :: segments) :=
  ⟨start, segments, rfl, Nat.lt_succ_of_le hle, h.isPrefix⟩

section Entries

variable {α : Type} [Scalar α]

theorem mem_of_bestOf {candidates : List (Entry α)} {e : Entry α}
    (h : bestOf candidates = some e) : e ∈ candidates := by
  obtain ⟨best, hbest, rfl⟩ := Option.map_eq_some_iff.mp h
  exact Extremum.mem_of_firstBest? hbest

omit [Scalar α] in
theorem mem_candidates {p : Prefixes α} {closed : Bool} {e : Entry α} :
    (closed, e) ∈ p.candidates ↔ p.get? closed = some e := by
  cases closed <;> simp [Prefixes.candidates, Prefixes.get?]

omit [Scalar α] in
theorem lookup?_concat {table : List (Prefixes α)} {p : Prefixes α} {k : ℕ} {closed : Bool}
    {e : Entry α} :
    lookup? (table ++ [p]) k closed = some e ↔
      lookup? table k closed = some e ∨ k = table.length ∧ p.get? closed = some e := by
  rcases Nat.lt_trichotomy k table.length with hk | rfl | hk
  · simp [lookup?, List.getElem?_append_left hk, hk.ne]
  · simp [lookup?]
  · have hnone : (table ++ [p])[k]? = none := List.getElem?_eq_none (by simpa using hk)
    simp [lookup?, hnone, List.getElem?_eq_none hk.le, hk.ne']

omit [Scalar α] in
theorem mem_skip {position : ℕ} {p : Prefixes α} {e : Entry α} :
    e ∈ p.skip position ↔
      ∃ closed e', p.get? closed = some e' ∧ e'.skip position closed = e := by
  simp [Prefixes.skip, mem_candidates]

variable {length : ℕ} {scores additional : List α}

theorem mem_append {start stop : ℕ} {p : Prefixes α} {e : Entry α} :
    e ∈ p.append length scores additional start stop ↔ ∃ closed e', p.get? closed = some e' ∧
      e'.append length scores additional start stop closed = e := by
  simp [Prefixes.append, mem_candidates]

/-- The ways in which an entry arises from one for a shorter prefix. -/
inductive Arises (length : ℕ) (scores additional : List α) (table : List (Prefixes α)) :
    ℕ → Bool → Entry α → Prop
  | empty : Arises length scores additional table 0 false .empty
  | skip {position : ℕ} {closed : Bool} {e : Entry α} :
      lookup? table position closed = some e →
        Arises length scores additional table (position + 1) false (e.skip position closed)
  | append {start stop : ℕ} {closed : Bool} {e : Entry α} :
      start ≤ stop → lookup? table start closed = some e →
        Arises length scores additional table (stop + 1) true
          (e.append length scores additional start stop closed)

theorem Arises.concat {table : List (Prefixes α)} {k : ℕ} {closed : Bool} {e : Entry α}
    (h : Arises length scores additional table k closed e) (p : Prefixes α) :
    Arises length scores additional (table ++ [p]) k closed e := by
  cases h with
  | empty => exact .empty
  | skip h => exact .skip (lookup?_concat.mpr (Or.inl h))
  | append hle h => exact .append hle (lookup?_concat.mpr (Or.inl h))

theorem arises_extend {stop : ℕ} {table : List (Prefixes α)} (hl : table.length = stop + 1)
    {closed : Bool} {e : Entry α}
    (h : (extend length scores additional stop table).get? closed = some e) :
    Arises length scores additional table (stop + 1) closed e := by
  cases closed with
  | false =>
    have hget : table[stop]? = some table[stop] := List.getElem?_eq_getElem (by omega)
    have hmem := mem_of_bestOf h
    rw [hget, Option.map_some, Option.getD_some] at hmem
    obtain ⟨closed, e', he', rfl⟩ := mem_skip.mp hmem
    exact .skip (by rw [lookup?, hget, Option.bind_some, he'])
  | true =>
    obtain ⟨⟨p, start⟩, hp, hmem⟩ := List.mem_flatMap.mp (mem_of_bestOf h)
    obtain ⟨closed, e', he', rfl⟩ := mem_append.mp hmem
    have hget : table[start]? = some p := List.mem_zipIdx_iff_getElem?.mp hp
    have hstart := (List.getElem?_eq_some_iff.mp hget).1
    exact .append (by omega) (by rw [lookup?, hget, Option.bind_some, he'])

def IsTable (length : ℕ) (scores additional : List α) (table : List (Prefixes α)) : Prop :=
  ∀ {k : ℕ} {closed : Bool} {e : Entry α}, lookup? table k closed = some e →
    Arises length scores additional table k closed e

theorem isTable_table (n : ℕ) :
    IsTable length scores additional (table length scores additional n) := by
  induction n with
  | zero =>
    intro k closed e h
    rw [table, ← List.nil_append [_], lookup?_concat] at h
    obtain ⟨rfl, hentry⟩ := h.resolve_left (by simp [lookup?])
    cases closed with
    | false => exact Option.some.inj hentry ▸ .empty
    | true => exact absurd hentry.symm (Option.some_ne_none _)
  | succ n ih =>
    intro k closed e h
    rw [table] at h ⊢
    rcases lookup?_concat.mp h with hshorter | ⟨rfl, hentry⟩
    · exact (ih hshorter).concat _
    · rw [length_table]
      exact (arises_extend (length_table length scores additional n) hentry).concat _

/-- Following the notes from a prefix leads over these origins to the prefix of the first `final`
positions, which has no note. -/
inductive IsWalk (table : List (Prefixes α)) (final : ℕ) : ℕ → Bool → List Origin → Prop
  | done {closed : Bool} {e : Entry α} :
      lookup? table final closed = some e → e.origin = none → IsWalk table final final closed []
  | step {position : ℕ} {closed : Bool} {e : Entry α} {o : Origin} {origins : List Origin} :
      lookup? table position closed = some e → e.origin = some o →
        IsWalk table final o.position o.closed origins →
          IsWalk table final position closed (o :: origins)

theorem isWalk_walk {table : List (Prefixes α)} (ht : IsTable length scores additional table)
    {limit k : ℕ} {closed : Bool} {e : Entry α} (h : lookup? table k closed = some e)
    (hle : k ≤ limit) : IsWalk table 0 k closed (walk table limit k closed) := by
  induction limit generalizing k closed e with
  | zero =>
    cases ht h with
    | empty => exact .done h rfl
    | skip => exact absurd hle (Nat.not_succ_le_zero _)
    | append => exact absurd hle (Nat.not_succ_le_zero _)
  | succ limit ih =>
    rw [walk, h]
    cases ht h with
    | empty => exact .done h rfl
    | skip hprev => exact .step h rfl (ih hprev (Nat.le_of_succ_le_succ hle))
    | append hstart hprev =>
      exact .step h rfl (ih hprev (hstart.trans (Nat.le_of_succ_le_succ hle)))

/-- What holds of the empty prefix and is kept in every way in which an entry arises holds of every
entry with the segments on the way back from it. -/
theorem IsWalk.segments_induction {table : List (Prefixes α)}
    (ht : IsTable length scores additional table)
    {motive : ℕ → Bool → Entry α → List (ℕ × ℕ) → Prop} (hempty : motive 0 false .empty [])
    (hskip : ∀ position closed e segments, motive position closed e segments →
      motive (position + 1) false (e.skip position closed) segments)
    (happend : ∀ start stop closed e segments, start ≤ stop → motive start closed e segments →
      motive (stop + 1) true (e.append length scores additional start stop closed)
        ((start, stop) :: segments))
    {final k : ℕ} {closed : Bool} {origins : List Origin}
    (h : IsWalk table final k closed origins) {e : Entry α}
    (he : lookup? table k closed = some e) :
    motive k closed e (origins.filterMap Origin.segment?) := by
  induction h generalizing e with
  | done h hnone =>
    obtain rfl := Option.some.inj (h.symm.trans he)
    cases ht h with
    | empty => exact hempty
    | skip => exact absurd hnone (Option.some_ne_none _)
    | append => exact absurd hnone (Option.some_ne_none _)
  | step h ho _ ih =>
    obtain rfl := Option.some.inj (h.symm.trans he)
    cases ht h with
    | empty => exact absurd ho.symm (Option.some_ne_none _)
    | skip hprev =>
      obtain rfl := Option.some.inj ho
      exact hskip _ _ _ _ (ih hprev)
    | append hle hprev =>
      obtain rfl := Option.some.inj ho
      exact happend _ _ _ _ _ hle (ih hprev)

theorem IsWalk.isPart {table : List (Prefixes α)} (ht : IsTable length scores additional table)
    {final k : ℕ} {closed : Bool} {origins : List Origin}
    (h : IsWalk table final k closed origins) {e : Entry α}
    (he : lookup? table k closed = some e) :
    IsPart k closed (origins.filterMap Origin.segment?) := by
  refine h.segments_induction ht (motive := fun k closed _ segments => IsPart k closed segments)
    (isPrefix_nil _) ?_ ?_ he
  · exact fun _ _ _ _ hpart => hpart.skip
  · exact fun _ _ _ _ _ hle hpart => hpart.append hle

structure IsSegmentation (length : ℕ) (segments : List (ℕ × ℕ)) : Prop where
  mem {p : ℕ × ℕ} : p ∈ segments → p.1 ≤ p.2 ∧ p.2 < length
  pairwise : segments.Pairwise fun first second => first.2 < second.1

theorem isPrefix_reverse_iff {length : ℕ} {segments : List (ℕ × ℕ)} :
    IsPrefix length segments.reverse ↔ IsSegmentation length segments :=
  ⟨fun h => ⟨fun hp => h.mem (List.mem_reverse.mpr hp), List.pairwise_reverse.mp h.pairwise⟩,
    fun h => ⟨fun hp => h.mem (List.mem_reverse.mp hp), List.pairwise_reverse.mpr h.pairwise⟩⟩

/-- The answer is read off the way back from one of the entries for the whole sequence. -/
theorem maximize_cases (length : ℕ) (scores additional : List α) :
    (∃ closed e value,
      lookup? (table length scores additional length) length closed = some e ∧
        maximize length scores additional =
          (((walk (table length scores additional length) length length closed).filterMap
            Origin.segment?).reverse, value)) ∨
      maximize length scores additional = ([], lowest) := by
  unfold maximize
  dsimp only
  split
  · next closed value h =>
    obtain ⟨p, hp, hbest⟩ := Option.bind_eq_some_iff.mp h
    obtain ⟨⟨⟨_, e⟩, _⟩, hfirst, heq⟩ := Option.map_eq_some_iff.mp hbest
    obtain ⟨rfl, rfl⟩ := Prod.mk.inj heq
    refine Or.inl ⟨_, e, _, ?_, rfl⟩
    rw [lookup?, hp, Option.bind_some]
    exact mem_candidates.mp (Extremum.mem_of_firstBest? hfirst)
  · exact Or.inr rfl

theorem isSegmentation_maximize (length : ℕ) (scores additional : List α) :
    IsSegmentation length (maximize length scores additional).1 := by
  rcases maximize_cases length scores additional with ⟨closed, e, value, h, heq⟩ | heq
  · have hwalk := isWalk_walk (isTable_table length) h le_rfl
    rw [heq, ← isPrefix_reverse_iff, List.reverse_reverse]
    exact (hwalk.isPart (isTable_table length) h).isPrefix
  · rw [heq]
    exact ⟨nofun, List.Pairwise.nil⟩

end Entries

variable {α : Type} [ExactScalar α]

def lastStop? (segments : List (ℕ × ℕ)) : Option ℕ := segments.head?.map (·.2)

def segmentScore (length : ℕ) (scores additional : List α) (previous : Option ℕ) (p : ℕ × ℕ) : α :=
  coordinate scores (intervalIndex length p.1 p.2) +
    if follows previous p.1 then coordinate additional (transitionIndex length p.1 p.2) else 0

def reversedScore (length : ℕ) (scores additional : List α) : List (ℕ × ℕ) → α
  | [] => 0
  | p :: rest =>
    reversedScore length scores additional rest +
      segmentScore length scores additional (lastStop? rest) p

theorem transitions_append_singleton (previous : Option ℕ) (segments : List (ℕ × ℕ)) (p : ℕ × ℕ) :
    transitions previous (segments ++ [p]) =
      transitions previous segments ++
        [(p, follows ((lastStop? segments.reverse).or previous) p.1)] := by
  induction segments generalizing previous with
  | nil => simp [transitions, lastStop?]
  | cons q segments ih =>
    have hlast : (lastStop? segments.reverse).or (some q.2) =
        (lastStop? (q :: segments).reverse).or previous := by
      rcases List.eq_nil_or_concat segments with rfl | ⟨front, last, rfl⟩ <;> simp [lastStop?]
    rw [List.cons_append, transitions, ih, hlast, transitions, List.cons_append]

theorem score_eq_reversedScore (length : ℕ) (scores additional : List α)
    (segments : List (ℕ × ℕ)) :
    score length scores additional segments =
      reversedScore length scores additional segments.reverse := by
  induction segments using List.reverseRecOn with
  | nil => rfl
  | append_singleton segments p ih =>
    rw [List.reverse_append, List.reverse_singleton, List.singleton_append, reversedScore, ← ih,
      score, transitions_append_singleton, List.foldl_append, ← score]
    simp only [List.foldl_cons, List.foldl_nil, Option.or_none, segmentScore]
    split_ifs <;> ring

theorem reversedScore_eq (length : ℕ) (scores additional : List α) (n : ℕ)
    (segments : List (ℕ × ℕ)) :
    reversedScore length scores additional segments =
      Oracle.scoreAt (trueVariables length segments) scores +
        reversedScore length (zeros n) additional segments := by
  induction segments with
  | nil => simp [reversedScore, trueVariables]
  | cons p rest ih =>
    simp only [reversedScore, segmentScore, coordinate_zeros, zero_add]
    rw [ih]
    simp only [trueVariables, List.map_cons, Oracle.scoreAt_cons]
    ring

theorem score_zeros (length n m : ℕ) (segments : List (ℕ × ℕ)) :
    score length (zeros n : List α) (zeros m) segments = 0 := by
  rw [score_eq_reversedScore]
  induction segments.reverse with
  | nil => rfl
  | cons p rest ih => simp [reversedScore, segmentScore, ih]

/-- A segment follows another one directly if that one is at the end of the prefix before it. -/
theorem follows_lastStop? {n : ℕ} {closed : Bool} {segments : List (ℕ × ℕ)}
    (h : IsPart n closed segments) : follows (lastStop? segments) n = closed := by
  cases closed with
  | false =>
    cases segments with
    | nil => simp [follows, lastStop?]
    | cons p rest =>
      have hlt : p.2 < n - 1 := (IsPrefix.mem h List.mem_cons_self).2
      simp [follows, lastStop?, hlt.ne]
  | true =>
    obtain ⟨start, rest, rfl, hlt, _⟩ := h
    have hn : 1 ≤ n := by omega
    simp [follows, lastStop?, hn]

section Best

variable {length : ℕ} {scores additional : List α}

theorem score_append {start : ℕ} {closed : Bool} {rest : List (ℕ × ℕ)}
    (h : IsPart start closed rest) (stop : ℕ) (e : Entry α) :
    (e.append length scores additional start stop closed).score =
      e.score + segmentScore length scores additional (lastStop? rest) (start, stop) := by
  cases closed with
  | false => simp [Entry.append, segmentScore, follows_lastStop? h]
  | true =>
    have hstart : 1 ≤ start := by
      obtain ⟨_, _, _, hlt, _⟩ := h
      omega
    simp [Entry.append, segmentScore, follows_lastStop? h, hstart, add_assoc]

theorem IsWalk.score_eq {table : List (Prefixes α)} (ht : IsTable length scores additional table)
    {final k : ℕ} {closed : Bool} {origins : List Origin} (h : IsWalk table final k closed origins)
    {e : Entry α} (he : lookup? table k closed = some e) :
    e.score = reversedScore length scores additional (origins.filterMap Origin.segment?) := by
  -- Whether a segment follows another one is read off the kind of segmentation before it.
  refine (h.segments_induction ht (motive := fun k closed e segments => IsPart k closed segments ∧
    e.score = reversedScore length scores additional segments) ⟨isPrefix_nil _, rfl⟩ ?_ ?_ he).2
  · exact fun _ _ _ _ ⟨hpart, hscore⟩ => ⟨hpart.skip, hscore⟩
  · rintro start stop closed e segments hle ⟨hpart, hscore⟩
    refine ⟨hpart.append hle, ?_⟩
    rw [score_append hpart, hscore, reversedScore]

theorem exists_bestOf {candidates : List (Entry α)} {e : Entry α} (h : e ∈ candidates) :
    ∃ best, bestOf candidates = some best ∧ e.score ≤ best.score := by
  obtain ⟨best, _, hbest, hmax⟩ :=
    Extremum.exists_firstBest? Entry.score (List.ne_nil_of_mem h)
  exact ⟨best, by simp [bestOf, hbest], hmax e h⟩

/-- The entries of a table are at least as good as all segmentations of the first `n` positions. -/
def Covers (length : ℕ) (scores additional : List α) (table : List (Prefixes α)) (n : ℕ) : Prop :=
  ∀ closed segments, IsPart n closed segments →
    ∃ e, lookup? table n closed = some e ∧
      reversedScore length scores additional segments ≤ e.score

theorem Covers.concat {table : List (Prefixes α)} {n : ℕ}
    (h : Covers length scores additional table n) (p : Prefixes α) :
    Covers length scores additional (table ++ [p]) n := fun closed segments hs =>
  (h closed segments hs).imp fun _ he => ⟨lookup?_concat.mpr (Or.inl he.1), he.2⟩

theorem Covers.exists_candidate {table : List (Prefixes α)} {n : ℕ}
    (h : Covers length scores additional table n) {segments : List (ℕ × ℕ)}
    (hs : IsPrefix n segments) :
    ∃ closed p e, IsPart n closed segments ∧ table[n]? = some p ∧ p.get? closed = some e ∧
      reversedScore length scores additional segments ≤ e.score := by
  obtain ⟨closed, hpart⟩ := isPrefix_iff.mp hs
  obtain ⟨e, he, hle⟩ := h closed segments hpart
  obtain ⟨p, hp, he⟩ := Option.bind_eq_some_iff.mp he
  exact ⟨closed, p, e, hpart, hp, he, hle⟩

/-- Extending the best segmentations of all shorter prefixes misses no better one. -/
theorem exists_extend_ge {stop : ℕ} {table : List (Prefixes α)}
    (h : ∀ k ≤ stop, Covers length scores additional table k) {closed : Bool}
    {segments : List (ℕ × ℕ)} (hs : IsPart (stop + 1) closed segments) :
    ∃ e, (extend length scores additional stop table).get? closed = some e ∧
      reversedScore length scores additional segments ≤ e.score := by
  cases closed with
  | false =>
    obtain ⟨closed, p, e, _, hp, he, hle⟩ := (h stop le_rfl).exists_candidate hs
    have hmem : e.skip stop closed ∈ (table[stop]?.map (·.skip stop)).getD [] := by
      rw [hp]
      exact mem_skip.mpr ⟨closed, e, he, rfl⟩
    obtain ⟨best, hbest, hmax⟩ := exists_bestOf hmem
    exact ⟨best, hbest, hle.trans hmax⟩
  | true =>
    obtain ⟨start, rest, rfl, hlt, hrest⟩ := hs
    have hcovers := h start (Nat.lt_succ_iff.mp hlt)
    obtain ⟨closed, p, e, hpart, hp, he, hle⟩ := hcovers.exists_candidate hrest
    have hmem : e.append length scores additional start stop closed ∈
        table.zipIdx.flatMap fun row => row.1.append length scores additional row.2 stop :=
      List.mem_flatMap.mpr ⟨(p, start), List.mem_zipIdx_iff_getElem?.mpr hp,
        mem_append.mpr ⟨closed, e, he, rfl⟩⟩
    obtain ⟨best, hbest, hmax⟩ := exists_bestOf hmem
    rw [score_append hpart] at hmax
    exact ⟨best, hbest, (add_le_add_left hle _).trans hmax⟩

theorem covers_table (n : ℕ) :
    ∀ k ≤ n, Covers length scores additional (table length scores additional n) k := by
  induction n with
  | zero =>
    rintro k hk closed segments hs
    obtain rfl := Nat.le_zero.mp hk
    cases closed with
    | false =>
      refine ⟨.empty, rfl, ?_⟩
      cases segments with
      | nil => exact le_rfl
      | cons p rest => exact absurd (IsPrefix.mem hs List.mem_cons_self).2 (Nat.not_lt_zero _)
    | true =>
      obtain ⟨_, _, _, hlt, _⟩ := hs
      exact absurd hlt (Nat.not_lt_zero _)
  | succ n ih =>
    intro k hk
    rw [table]
    rcases Nat.le_succ_iff.mp hk with hk | rfl
    · exact (ih k hk).concat _
    · intro closed segments hs
      obtain ⟨e, he, hle⟩ := exists_extend_ge ih hs
      exact ⟨e, lookup?_concat.mpr (Or.inr ⟨by rw [length_table], he⟩), hle⟩

end Best

theorem exists_maximize_eq (length : ℕ) (scores additional : List α) :
    ∃ closed e,
      lookup? (table length scores additional length) length closed = some e ∧
        maximize length scores additional =
          (((walk (table length scores additional length) length length closed).filterMap
            Origin.segment?).reverse, e.score) ∧
        ∀ closed' e', lookup? (table length scores additional length) length closed' = some e' →
          e'.score ≤ e.score := by
  have hcovers : Covers length scores additional _ length := covers_table length length le_rfl
  obtain ⟨_, p, _, _, hp, hcandidate, _⟩ := hcovers.exists_candidate (isPrefix_nil length)
  obtain ⟨⟨closed, best⟩, hmem, hbest, hmax⟩ :=
    Extremum.exists_firstBest? (·.2.score) (List.ne_nil_of_mem (mem_candidates.mpr hcandidate))
  refine ⟨closed, best, ?_, ?_, fun closed' e' he' => ?_⟩
  · rw [lookup?, hp, Option.bind_some, mem_candidates.mp hmem]
  · have hvalue : p.best? = some (closed, best.score) := by
      rw [Prefixes.best?, hbest, Option.map_some]
    unfold maximize
    dsimp only
    rw [hp, Option.bind_some, hvalue]
  · rw [lookup?, hp, Option.bind_some] at he'
    exact hmax (closed', e') (mem_candidates.mpr he')

theorem exists_maximize (length : ℕ) (scores additional : List α) :
    ∃ segments, maximize length scores additional =
        (segments, score length scores additional segments) ∧
      IsSegmentation length segments ∧
      ∀ segments', IsSegmentation length segments' →
        score length scores additional segments' ≤ score length scores additional segments := by
  obtain ⟨closed, e, he, hanswer, hmax⟩ := exists_maximize_eq length scores additional
  have hwalk := isWalk_walk (isTable_table length) he le_rfl
  have hscore := hwalk.score_eq (isTable_table length) he
  rw [← List.reverse_reverse (List.filterMap _ _), ← score_eq_reversedScore] at hscore
  have hvalid := isSegmentation_maximize length scores additional
  rw [hanswer] at hvalid
  refine ⟨_, hscore ▸ hanswer, hvalid, fun segments' h' => ?_⟩
  obtain ⟨closed', hpart⟩ := isPrefix_iff.mp (isPrefix_reverse_iff.mpr h')
  have hcovers : Covers length scores additional _ length := covers_table length length le_rfl
  obtain ⟨e', he', hle⟩ := hcovers closed' _ hpart
  rw [← hscore, score_eq_reversedScore]
  exact hle.trans (hmax closed' e' he')

theorem pairwise_trueVariables {length : ℕ} {segments : List (ℕ × ℕ)}
    (h : IsSegmentation length segments) : (trueVariables length segments).Pairwise (· < ·) := by
  refine List.pairwise_map.mpr (h.pairwise.imp_of_mem ?_)
  intro first second hf hs hlt
  exact intervalIndex_lt (h.mem hf).1 (h.mem hs).1 (h.mem hs).2 hlt

def chosen (length : ℕ) (values : List Bool) : List (ℕ × ℕ) :=
  (intervals length).filter fun p => values[intervalIndex length p.1 p.2]?.getD false

theorem mem_chosen {length : ℕ} {values : List Bool} {p : ℕ × ℕ} :
    p ∈ chosen length values ↔
      p.1 ≤ p.2 ∧ p.2 < length ∧ values[intervalIndex length p.1 p.2]? = some true := by
  simp only [chosen, List.mem_filter, mem_intervals, and_assoc]
  cases values[intervalIndex length p.1 p.2]? <;> simp

/-- The segments with a true variable are those with a number among the true indices. -/
theorem trueVariables_chosen {length : ℕ} {values : List Bool}
    (h : values.length = numIntervals length) :
    trueVariables length (chosen length values) = Oracle.trueIndices values := by
  rw [Oracle.trueIndices, h, ← map_intervalIndex_intervals, List.filter_map]
  rfl

theorem all_zip_tail_iff {length : ℕ} {segments : List (ℕ × ℕ)}
    (h : ∀ p ∈ segments, p.1 ≤ p.2 ∧ p.2 < length) :
    ((segments.zip segments.tail).all fun (first, second) => decide (first.2 < second.1)) = true ↔
      IsSegmentation length segments := by
  induction segments with
  | nil => simp only [List.tail_nil, List.zip_nil_right, List.all_nil, true_iff]
           exact ⟨fun hp => h _ hp, List.Pairwise.nil⟩
  | cons p rest ih =>
    have hrest : ∀ q ∈ rest, q.1 ≤ q.2 ∧ q.2 < length := fun q hq => h q (List.mem_cons_of_mem _ hq)
    cases rest with
    | nil =>
      simp only [List.tail_cons, List.zip_nil_right, List.all_nil, true_iff]
      exact ⟨fun hp => h _ hp, List.pairwise_singleton _ _⟩
    | cons q rest =>
      have hi := ih hrest
      simp only [List.tail_cons, List.zip_cons_cons, List.all_cons, Bool.and_eq_true,
        decide_eq_true_eq] at hi ⊢
      rw [hi]
      constructor
      · rintro ⟨hpq, hseg⟩
        refine ⟨fun hm => h _ hm, List.pairwise_cons.mpr ⟨?_, hseg.pairwise⟩⟩
        intro r hr
        rcases List.mem_cons.mp hr with rfl | hr
        · exact hpq
        · have hqr := (List.pairwise_cons.mp hseg.pairwise).1 r hr
          have hq := (hrest q List.mem_cons_self).1
          omega
      · intro hseg
        obtain ⟨hp, hpair⟩ := List.pairwise_cons.mp hseg.pairwise
        exact ⟨hp q List.mem_cons_self, fun hm => hrest _ hm, hpair⟩

/-- An assignment stands for the segments with a true variable, if these are disjoint. -/
theorem ofAssignment?_eq_some_iff_chosen {length : ℕ} {values : List Bool}
    {segments : List (ℕ × ℕ)} :
    ofAssignment? length values = some segments ↔
      IsSegmentation length (chosen length values) ∧ chosen length values = segments := by
  have hmem (p : ℕ × ℕ) (hp : p ∈ chosen length values) : p.1 ≤ p.2 ∧ p.2 < length :=
    ⟨(mem_chosen.mp hp).1, (mem_chosen.mp hp).2.1⟩
  rw [← all_zip_tail_iff hmem]
  exact Option.ite_none_right_eq_some.trans (and_congr_right fun _ => Option.some_inj)

theorem ofAssignment?_eq_some_iff {length : ℕ} {values : List Bool} {segments : List (ℕ × ℕ)}
    (h : values.length = numIntervals length) :
    ofAssignment? length values = some segments ↔
      IsSegmentation length segments ∧
        trueVariables length segments = Oracle.trueIndices values := by
  have htrue := trueVariables_chosen h
  rw [ofAssignment?_eq_some_iff_chosen]
  constructor
  · rintro ⟨hseg, rfl⟩
    exact ⟨hseg, htrue⟩
  · rintro ⟨hseg, hi⟩
    obtain rfl : chosen length values = segments :=
      eq_of_map_intervalIndex_eq (fun p hp => List.mem_of_mem_filter hp)
        (fun p hp => mem_intervals.mpr (hseg.mem hp)) (htrue.trans hi.symm)
    exact ⟨hseg, rfl⟩

theorem lawful (length : ℕ) :
    (oracle length : Oracle α (List (ℕ × ℕ))).Lawful (IsSegmentation length) where
  pairwise_trueVariables hc := pairwise_trueVariables hc
  trueVariables_lt {c} hc i hi := by
    obtain ⟨p, hp, rfl⟩ := List.mem_map.mp hi
    exact intervalIndex_lt_numIntervals (hc.mem hp).1 (hc.mem hp).2
  ofAssignment?_eq_some_iff hv := ofAssignment?_eq_some_iff hv
  score_eq {scores additional c} _ := by
    change score length scores additional c = Oracle.scoreAt (trueVariables length c) scores +
      score length (zeros (numIntervals length)) additional c
    rw [score_eq_reversedScore, score_eq_reversedScore, reversedScore_eq (n := numIntervals length),
      ← Oracle.scoreAt_reverse (trueVariables length c)]
    simp [trueVariables, List.map_reverse]
  score_zeros _ := score_zeros _ _ _ _
  isConfiguration_maximize _ _ := isSegmentation_maximize length _ _
  maximize_value {scores additional} _ _ := by
    obtain ⟨segments, hm, _⟩ := exists_maximize length scores additional
    change (maximize length scores additional).2 =
      score length scores additional (maximize length scores additional).1
    rw [hm]
  score_le {scores additional c} _ _ hc := by
    obtain ⟨segments, hm, _, hmax⟩ := exists_maximize length scores additional
    change score length scores additional c ≤ (maximize length scores additional).2
    rw [hm]
    exact hmax c hc

theorem map_fst_transitions (previous : Option ℕ) (segments : List (ℕ × ℕ)) :
    (transitions previous segments).map (·.1) = segments := by
  induction segments generalizing previous with
  | nil => rfl
  | cons p rest ih => rw [transitions, List.map_cons, ih]

theorem one_le_of_mem_transitions {previous : Option ℕ} {segments : List (ℕ × ℕ)} {p : ℕ × ℕ}
    (h : (p, true) ∈ transitions previous segments) : 1 ≤ p.1 := by
  induction segments generalizing previous with
  | nil => exact absurd h List.not_mem_nil
  | cons q rest ih =>
    rcases List.mem_cons.mp h with heq | h
    · obtain ⟨rfl, hfollows⟩ := Prod.mk.inj heq
      exact of_decide_eq_true (Bool.and_eq_true_iff.mp hfollows.symm).1
    · exact ih h

theorem mem_transitions {length : ℕ} {segments : List (ℕ × ℕ)} (h : IsSegmentation length segments)
    {p : ℕ × ℕ} (hp : (p, true) ∈ transitions none segments) :
    1 ≤ p.1 ∧ p.1 ≤ p.2 ∧ p.2 < length := by
  have hmem : p ∈ segments := by
    rw [← map_fst_transitions none segments]
    exact List.mem_map_of_mem hp
  exact ⟨one_le_of_mem_transitions hp, h.mem hmem⟩

theorem nodup_trueAdditionals {length : ℕ} {segments : List (ℕ × ℕ)}
    (h : IsSegmentation length segments) : (trueAdditionals length segments).Nodup := by
  have hpairwise : (transitions none segments).Pairwise fun s t => s.1.2 < t.1.1 := by
    have hsegments := h.pairwise
    rw [← map_fst_transitions none segments] at hsegments
    exact List.pairwise_map.mp hsegments
  refine List.pairwise_filterMap.mpr (hpairwise.imp_of_mem ?_)
  rintro ⟨p, follows⟩ ⟨q, follows'⟩ hp hq hlt i hi j hj
  dsimp only at hi hj
  split_ifs at hi hj with hf hf'
  obtain ⟨hp₁, hp⟩ := mem_transitions h (hf ▸ hp)
  obtain ⟨hq₁, hq⟩ := mem_transitions h (hf' ▸ hq)
  have hindex := intervalIndex_lt hp.1 hq.1 hq.2 hlt
  have hlow := length_le_intervalIndex hp₁ hp.1 hp.2
  have hi := Option.some.inj hi
  have hj := Option.some.inj hj
  unfold transitionIndex at hi hj
  omega

theorem trueAdditionals_lt {length : ℕ} {segments : List (ℕ × ℕ)}
    (h : IsSegmentation length segments) :
    ∀ i ∈ trueAdditionals length segments, i < numTransitions length := by
  intro i hi
  obtain ⟨⟨p, follows⟩, hmem, hi⟩ := List.mem_filterMap.mp hi
  dsimp only at hi
  split_ifs at hi with hf
  obtain ⟨hp₁, hp⟩ := mem_transitions h (hf ▸ hmem)
  have hindex := intervalIndex_lt_numIntervals hp.1 hp.2
  have hlow := length_le_intervalIndex hp₁ hp.1 hp.2
  have hcount := numIntervals_eq length
  have hi := Option.some.inj hi
  unfold transitionIndex at hi
  omega

theorem score_zeros_eq (length n : ℕ) (additional : List α) (segments : List (ℕ × ℕ)) :
    score length (zeros n) additional segments =
      Oracle.scoreAt (trueAdditionals length segments) additional := by
  have hfold (ts : List ((ℕ × ℕ) × Bool)) (sum : α) :
      ts.foldl (fun sum t =>
        let sum := sum + coordinate (zeros n) (intervalIndex length t.1.1 t.1.2)
        if t.2 then sum + coordinate additional (transitionIndex length t.1.1 t.1.2) else sum) sum =
      sum + Oracle.scoreAt (ts.filterMap fun t =>
        if t.2 then some (transitionIndex length t.1.1 t.1.2) else none) additional := by
    induction ts generalizing sum with
    | nil => simp
    | cons t ts ih =>
      obtain ⟨p, follows⟩ := t
      rw [List.foldl_cons, ih]
      cases follows <;> simp [add_assoc]
  exact (hfold (transitions none segments) 0).trans (zero_add _)

theorem hasTrueIndices (length : ℕ) :
    (oracle length : Oracle α (List (ℕ × ℕ))).HasTrueIndices (IsSegmentation length)
      (trueAdditionals length) where
  toLawful := lawful length
  accumulate_eq _ _ _ := rfl
  nodup_trueAdditionals hc := nodup_trueAdditionals hc
  trueAdditionals_lt hc := trueAdditionals_lt hc
  score_zeros_eq _ := score_zeros_eq _ _ _ _
  common_eq hc hd :=
    Oracle.countCommon_eq_countP (pairwise_trueVariables hc) (pairwise_trueVariables hd)

end MapInference.Segmentation
