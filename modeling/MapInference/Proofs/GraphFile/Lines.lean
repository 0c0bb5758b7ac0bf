import Mathlib.Order.Bounds.Basic
import MapInference.Proofs.Graph.Declaration
import MapInference.Proofs.GraphFile.Text
import MapInference.GraphFile.Parser

/-!
# Reading line by line

The lines of a source are read one after another. A line is decoded when it is reached, so its bytes
matter only if all lines before it are right, and nothing behind the first wrong line is looked at.
Hence the first wrong line decides the error, which carries its number. A declaration whose shape is
beyond the machine words ends the reading at its line like any other error. A newline at the end of
a source that is right changes nothing, so a line can be added to it without changing what stands
before (`withLine`).
-/

namespace MapInference

namespace Text

def firstLines : ℕ → List UInt8 → List UInt8
  | 0, _ => []
  | _ + 1, [] => []
  | k + 1, b :: rest =>
    b :: if b == newline then firstLines k rest else firstLines (k + 1) rest

@[simp] theorem firstLines_zero (bytes : List UInt8) : firstLines 0 bytes = [] := by
  cases bytes <;> rfl

theorem linesFrom_firstLines (k : ℕ) (bytes current : List UInt8) :
    linesFrom current (firstLines (k + 1) bytes) = (linesFrom current bytes).take (k + 1) := by
  -- a newline begins the next line, any other byte continues the current one
  induction bytes generalizing k current with
  | nil =>
    rw [firstLines, List.take_of_length_le]
    unfold linesFrom
    split_ifs <;> simp
  | cons b rest ih =>
    rw [firstLines, linesFrom, linesFrom]
    split_ifs with hb
    · cases k with
      | zero => simp [linesFrom]
      | succ k => rw [ih, List.take_succ_cons]
    · exact ih k _

@[simp] theorem lines_firstLines (k : ℕ) (bytes : List UInt8) :
    lines (firstLines k bytes) = (lines bytes).take k := by
  cases k with
  | zero => simp [lines, linesFrom]
  | succ k => exact linesFrom_firstLines k bytes []

theorem lines_append_newline (bytes rest : List UInt8) :
    lines (bytes ++ newline :: rest) = lines (bytes ++ [newline]) ++ lines rest := by
  have hfrom (current : List UInt8) : linesFrom current (bytes ++ newline :: rest) =
      linesFrom current (bytes ++ [newline]) ++ lines rest := by
    induction bytes generalizing current with
    | nil => rfl
    | cons b bytes ih =>
      rw [List.cons_append, List.cons_append, linesFrom, linesFrom]
      split_ifs
      · rw [ih, List.cons_append]
      · exact ih _
  exact hfrom []

theorem linesFrom_concat_newline (current bytes : List UInt8) :
    linesFrom current (bytes ++ [newline]) = linesFrom current bytes ++ [[]] ∨
      ∃ before last, linesFrom current bytes = before ++ [last.reverse] ∧
        linesFrom current (bytes ++ [newline]) = before ++ [closeLine last] := by
  induction bytes generalizing current with
  | nil =>
    cases current with
    | nil => exact .inl rfl
    | cons b current => exact .inr ⟨[], b :: current, rfl, rfl⟩
  | cons b bytes ih =>
    rw [List.cons_append, linesFrom, linesFrom]
    split_ifs
    · obtain h | ⟨before, last, h, hclosed⟩ := ih []
      · exact .inl (by rw [h, List.cons_append])
      · exact .inr ⟨closeLine current :: before, last, by rw [h, List.cons_append],
          by rw [hclosed, List.cons_append]⟩
    · exact ih _

def withLine (bytes : List UInt8) (cs : List Char) : List UInt8 :=
  if bytes = [] ∨ bytes.getLast? = some newline then bytes ++ encode cs
  else bytes ++ newline :: encode cs

theorem lines_withLine (bytes : List UInt8) {cs : List Char} (hnil : cs ≠ [])
    (hnewline : '\n' ∉ cs) :
    lines (withLine bytes cs) = lines bytes ++ [encode cs] ∨
      lines (withLine bytes cs) = lines (bytes ++ [newline]) ++ [encode cs] := by
  have hline : lines (encode cs) = [encode cs] := by rw [lines_encode hnewline, if_neg hnil]
  unfold withLine
  split_ifs with hclosed
  · left
    obtain rfl | hlast := hclosed
    · exact hline
    · obtain ⟨before, rfl⟩ := List.getLast?_eq_some_iff.mp hlast
      rw [List.append_assoc, List.singleton_append, lines_append_newline, hline]
  · right
    rw [lines_append_newline, hline]

end Text

namespace GraphFile

variable {α : Type} [Scalar α]

namespace State

theorem words_content_append_blanks (cs : List Char) {gap : List Char}
    (hgap : ∀ c ∈ gap, Text.isBlank c = true) :
    Text.words (content (cs ++ gap)) = Text.words (content cs) := by
  rw [content, List.takeWhile_append]
  split_ifs with h
  · have hcs : content cs = cs := (List.takeWhile_prefix _).eq_of_length h
    rw [hcs, Text.words_append_blanks]
    exact fun c hc => hgap c ((List.takeWhile_prefix _).subset hc)
  · rfl

def afterLine (reader : NumberReader α) (s : State α) (number : ℕ) (line : List UInt8) :
    Except (ParseError α) (State α) :=
  match Text.decode? line with
  | none => .error .unreadable
  | some cs => (s.readLine reader cs).mapError (.line number)

def afterLines (reader : NumberReader α) (s : State α) (number : ℕ) :
    List (List UInt8) → Except (ParseError α) (State α)
  | [] => .ok s
  | line :: rest => do
    let t ← s.afterLine reader number line
    t.afterLines reader (number + 1) rest

theorem afterLines_append (reader : NumberReader α) (s : State α) (number : ℕ)
    (before behind : List (List UInt8)) :
    s.afterLines reader number (before ++ behind) = (s.afterLines reader number before >>= fun t =>
      t.afterLines reader (number + before.length) behind) := by
  induction before generalizing s number with
  | nil => rfl
  | cons line before ih =>
    rw [List.cons_append, afterLines, afterLines]
    cases s.afterLine reader number line with
    | error e => rfl
    | ok t =>
      refine (ih t (number + 1)).trans ?_
      rw [List.length_cons, Nat.add_right_comm, Nat.add_assoc]
      rfl

theorem afterLines_singleton (reader : NumberReader α) (s : State α) (number : ℕ)
    (line : List UInt8) : s.afterLines reader number [line] = s.afterLine reader number line := by
  rw [afterLines]
  cases s.afterLine reader number line <;> rfl

theorem readLines_eq_afterLines (reader : NumberReader α) (s : State α) (number : ℕ)
    (ls : List (List UInt8)) :
    (match s.readLines reader number ls with
      | (t, none) => .ok t
      | (_, some e) => .error e) = s.afterLines reader number ls := by
  induction ls generalizing s number with
  | nil => rfl
  | cons line rest ih =>
    rw [readLines, afterLines, afterLine]
    cases Text.decode? line with
    | none => rfl
    | some cs =>
      dsimp only
      cases s.readLine reader cs with
      | error cause => rfl
      | ok t => exact ih t (number + 1)

theorem afterLine_nil (reader : NumberReader α) (s : State α) (number : ℕ) :
    s.afterLine reader number [] = .ok s := by
  have hdecode : Text.decode? [] = some [] := Text.decode?_encode []
  rw [afterLine, hdecode]
  rfl

theorem afterLine_closeLine {reader : NumberReader α} {s t : State α} {number : ℕ}
    {last : List UInt8} (h : s.afterLine reader number last.reverse = .ok t) :
    s.afterLine reader number (Text.closeLine last) = .ok t := by
  unfold afterLine at h
  cases hdecode : Text.decode? last.reverse with
  | none => simp [hdecode] at h
  | some cs =>
    obtain ⟨cs', gap, rfl, hgap, hclosed⟩ := Text.exists_decode?_closeLine cs
    rw [← Text.eq_encode_of_decode? hdecode, List.reverse_reverse] at hclosed
    rw [hdecode] at h
    rw [afterLine, hclosed, ← h]
    dsimp only
    rw [readLine, readLine, words_content_append_blanks cs' hgap]

/-- What is wrong with a line is that it cannot be decoded, or it is said with its number. -/
theorem eq_of_afterLine_eq_error {reader : NumberReader α} {s : State α} {number : ℕ}
    {line : List UInt8} {e : ParseError α} (h : s.afterLine reader number line = .error e) :
    (Text.decode? line = none ∧ e = .unreadable) ∨
      (Text.decode? line ≠ none ∧ ∃ cause, e = .line number cause) := by
  unfold afterLine at h
  cases hdecode : Text.decode? line with
  | none =>
    rw [hdecode] at h
    exact .inl ⟨rfl, (Except.error.inj h).symm⟩
  | some cs =>
    rw [hdecode] at h
    refine .inr ⟨Option.some_ne_none cs, ?_⟩
    dsimp only at h
    cases hread : s.readLine reader cs with
    | error cause =>
      rw [hread] at h
      exact ⟨cause, (Except.error.inj h).symm⟩
    | ok t =>
      rw [hread] at h
      cases h

end State

theorem parse_eq_afterLines (reader : NumberReader α) (bytes : List UInt8) :
    parse reader bytes = State.empty.afterLines reader 1 (Text.lines bytes) :=
  State.readLines_eq_afterLines reader State.empty 1 (Text.lines bytes)

theorem parse_eq_bind (reader : NumberReader α) (bytes : List UInt8) (k : ℕ) :
    parse reader bytes = (parse reader (Text.firstLines k bytes) >>= fun t => t.afterLines reader
      (1 + ((Text.lines bytes).take k).length) ((Text.lines bytes).drop k)) := by
  rw [parse_eq_afterLines, parse_eq_afterLines, Text.lines_firstLines, ← State.afterLines_append,
    List.take_append_drop]

theorem parse_concat_newline {reader : NumberReader α} {bytes : List UInt8} {s : State α}
    (h : parse reader bytes = .ok s) :
    parse reader (bytes ++ [Text.newline]) = .ok s := by
  rw [parse_eq_afterLines] at h ⊢
  obtain hlines | ⟨before, last, hlines, hclosed⟩ := Text.linesFrom_concat_newline [] bytes
  · rw [Text.lines, hlines, State.afterLines_append, ← Text.lines, h]
    exact (State.afterLines_singleton reader s (1 + (Text.lines bytes).length) []).trans
      (State.afterLine_nil reader s _)
  · rw [Text.lines, hlines, State.afterLines_append] at h
    rw [Text.lines, hclosed, State.afterLines_append]
    obtain ⟨t, ht, h⟩ := Except.bind_eq_ok_iff.mp h
    rw [State.afterLines_singleton] at h
    refine Except.bind_eq_ok_iff.mpr ⟨t, ht, ?_⟩
    rw [State.afterLines_singleton]
    exact State.afterLine_closeLine h

theorem exists_parse_withLine_eq {reader : NumberReader α} {bytes : List UInt8} {s : State α}
    (h : parse reader bytes = .ok s) {cs : List Char} (hnil : cs ≠ []) (hnewline : '\n' ∉ cs) :
    ∃ number, parse reader (Text.withLine bytes cs) =
      s.afterLine reader number (Text.encode cs) := by
  have hlast {bytes' : List UInt8} (hparse : parse reader bytes' = .ok s)
      (hlines : Text.lines (Text.withLine bytes cs) = Text.lines bytes' ++ [Text.encode cs]) :
      ∃ number, parse reader (Text.withLine bytes cs) =
        s.afterLine reader number (Text.encode cs) := by
    rw [parse_eq_afterLines] at hparse
    rw [parse_eq_afterLines, hlines, State.afterLines_append, hparse]
    exact ⟨_, State.afterLines_singleton _ _ _ _⟩
  obtain hlines | hlines := Text.lines_withLine bytes hnil hnewline
  · exact hlast h hlines
  · exact hlast (parse_concat_newline h) hlines

/-- What is wrong with the first lines is wrong with the whole source, whatever follows. -/
theorem parse_eq_error_of_take {reader : NumberReader α} {bytes bytes' : List UInt8} {k : ℕ}
    {e : ParseError α} (h : parse reader (Text.firstLines k bytes) = .error e)
    (htake : (Text.lines bytes').take k = (Text.lines bytes).take k) :
    parse reader bytes' = .error e := by
  rw [parse_eq_afterLines, Text.lines_firstLines, ← htake, ← Text.lines_firstLines,
    ← parse_eq_afterLines] at h
  rw [parse_eq_bind reader bytes' k, h]
  rfl

/-- The last of the fewest lines that are wrong is read after all lines before it are right. -/
theorem exists_afterLine_of_isLeast {reader : NumberReader α} {bytes : List UInt8} {k : ℕ}
    (h : IsLeast {k | ∃ e, parse reader (Text.firstLines k bytes) = .error e} k) :
    ∃ (s : State α) (line : List UInt8) (e : ParseError α),
      0 < k ∧ (Text.lines bytes)[k - 1]? = some line ∧
      parse reader (Text.firstLines k bytes) = .error e ∧ s.afterLine reader k line = .error e := by
  obtain ⟨⟨e, he⟩, hleast⟩ := h
  cases k with
  | zero =>
    rw [Text.firstLines_zero] at he
    cases he
  | succ j =>
    obtain ⟨s, hs⟩ : ∃ s, parse reader (Text.firstLines j bytes) = .ok s := by
      cases hfirst : parse reader (Text.firstLines j bytes) with
      | ok s => exact ⟨s, rfl⟩
      | error e => exact absurd (hleast ⟨e, hfirst⟩) (by omega)
    have hlast := he
    rw [parse_eq_afterLines, Text.lines_firstLines] at hs hlast
    rw [List.take_add_one, State.afterLines_append, hs] at hlast
    cases hline : (Text.lines bytes)[j]? with
    | none =>
      rw [hline] at hlast
      cases hlast
    | some line =>
      have hnumber : 1 + ((Text.lines bytes).take j).length = j + 1 := by
        have hj := (List.getElem?_eq_some_iff.mp hline).1
        rw [List.length_take_of_le hj.le, Nat.add_comm]
      rw [hline, hnumber] at hlast
      change s.afterLines reader (j + 1) [line] = .error e at hlast
      rw [State.afterLines_singleton] at hlast
      exact ⟨s, line, e, Nat.succ_pos j, hline, he, hlast⟩

/-- A source is wrong if and only if some of its first lines are, and then for the same reason. The
last of the fewest lines that are wrong cannot be decoded, or the error carries its number, which
counts all lines; and what stands behind it makes no difference. -/
theorem parse_eq_error_iff_firstLines (reader : NumberReader α) (bytes : List UInt8) :
    (∀ e, parse reader bytes = .error e ↔
      ∃ k ≤ (Text.lines bytes).length, parse reader (Text.firstLines k bytes) = .error e) ∧
    ∀ k, IsLeast {k | ∃ e, parse reader (Text.firstLines k bytes) = .error e} k →
      ∃ line e, 0 < k ∧ (Text.lines bytes)[k - 1]? = some line ∧
        parse reader (Text.firstLines k bytes) = .error e ∧
        (e = .unreadable ↔ Text.decode? line = none) ∧
        (Text.decode? line ≠ none → ∃ cause, e = .line k cause) ∧
        ∀ other, (Text.lines other).take k = (Text.lines bytes).take k →
          parse reader other = .error e := by
  refine ⟨fun e => ⟨fun h => ⟨_, le_rfl, ?_⟩, ?_⟩, fun k hk => ?_⟩
  · rwa [parse_eq_afterLines, Text.lines_firstLines, List.take_length, ← parse_eq_afterLines]
  · rintro ⟨k, _, h⟩
    exact parse_eq_error_of_take h rfl
  · obtain ⟨s, line, e, hpos, hline, he, hlast⟩ := exists_afterLine_of_isLeast hk
    refine ⟨line, e, hpos, hline, he, ?_, ?_, fun other htake => parse_eq_error_of_take he htake⟩
    · obtain ⟨hdecode, rfl⟩ | ⟨hdecode, cause, rfl⟩ := State.eq_of_afterLine_eq_error hlast
      · exact iff_of_true rfl hdecode
      · exact iff_of_false (by simp) hdecode
    · intro hline
      obtain ⟨hdecode, _⟩ | ⟨_, hcause⟩ := State.eq_of_afterLine_eq_error hlast
      · exact absurd hdecode hline
      · exact hcause

/-- The third line declares nothing that is known, and the fourth is not valid UTF-8. -/
def twiceWrong : List UInt8 := Text.encode "binary a 1\n\nnand a\n".toList ++ [255, Text.newline]

theorem parse_eq_error_iff_firstLines_twiceWrong :
    IsLeast {k | ∃ e, parse doubles (Text.firstLines k twiceWrong) = .error e} 3 ∧
      ∀ behind, ∃ cause, parse doubles (Text.firstLines 3 twiceWrong ++ behind) =
        .error (.line 3 cause) := by
  have hleast : IsLeast {k | ∃ e, parse doubles (Text.firstLines k twiceWrong) = .error e} 3 := by
    refine ⟨⟨.line 3 (.unknownDeclaration "nand"), rfl⟩, ?_⟩
    rintro k ⟨e, he⟩
    by_contra hk
    obtain rfl | rfl | rfl : k = 0 ∨ k = 1 ∨ k = 2 := by omega
    · cases he
    · cases he
    · cases he
  refine ⟨hleast, fun behind => ?_⟩
  obtain ⟨line, e, _, hline, _, _, hcause, hother⟩ :=
    (parse_eq_error_iff_firstLines doubles twiceWrong).2 3 hleast
  obtain rfl : Text.encode "nand a".toList = line := Option.some.inj hline
  obtain ⟨cause, rfl⟩ := hcause (by rw [Text.decode?_encode]; exact Option.some_ne_none _)
  exact ⟨cause, hother _ rfl⟩

end GraphFile
end MapInference
