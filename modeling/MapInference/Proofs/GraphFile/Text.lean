import Mathlib.Data.List.Basic
import MapInference.Text.Blank
import MapInference.Text.Lines

/-!
# Words and lines of a text

Blanks separate the words of a text and newlines its lines. Newlines and carriage returns are
single bytes in UTF-8, and no other character has these bytes in its encoding. Hence the lines can
be found before the bytes are decoded.
-/

namespace MapInference.Text

def isPrintable (c : Char) : Bool := 32 < c.toNat && c.toNat < 127

theorem isBlank_eq_false {c : Char} (h : isPrintable c = true) : isBlank c = false := by
  simp only [isPrintable, Bool.and_eq_true, decide_eq_true_eq] at h
  simp only [isBlank, blankRanges, List.any_cons, List.any_nil, Bool.or_false,
    Bool.or_eq_false_iff, Bool.and_eq_false_iff, decide_eq_false_iff_not]
  omega

theorem wordsFrom_blanks {gap : List Char} (hgap : ∀ c ∈ gap, isBlank c = true)
    (rest : List Char) : wordsFrom [] (gap ++ rest) = wordsFrom [] rest := by
  induction gap with
  | nil => rfl
  | cons c gap ih =>
    obtain ⟨hc, hgap⟩ := List.forall_mem_cons.mp hgap
    simpa [wordsFrom, hc] using ih hgap

theorem wordsFrom_append {word : List Char} (hword : ∀ c ∈ word, isBlank c = false)
    (current rest : List Char) :
    wordsFrom current (word ++ rest) = wordsFrom (word.reverse ++ current) rest := by
  induction word generalizing current with
  | nil => rfl
  | cons c word ih =>
    obtain ⟨hc, hword⟩ := List.forall_mem_cons.mp hword
    simp [wordsFrom, hc, ih hword]

theorem words_append {word gap : List Char} (hnil : word ≠ [])
    (hword : ∀ c ∈ word, isBlank c = false) (hgap : ∀ c ∈ gap, isBlank c = true)
    {rest : List Char} (hrest : gap = [] → rest = []) :
    words (word ++ (gap ++ rest)) = word :: words rest := by
  have hcurrent : word.reverse.isEmpty = false := by simpa using hnil
  rw [words, wordsFrom_append hword, List.append_nil]
  cases gap with
  | nil =>
    simp only [hrest rfl, words, wordsFrom, List.append_nil, hcurrent]
    simp
  | cons c gap =>
    obtain ⟨hc, hgap⟩ := List.forall_mem_cons.mp hgap
    simp only [List.cons_append, wordsFrom, hc, hcurrent, if_true, Bool.false_eq_true, if_false,
      List.reverse_reverse, wordsFrom_blanks hgap, words]

theorem wordsFrom_append_blanks (cs : List Char) {gap : List Char}
    (hgap : ∀ c ∈ gap, isBlank c = true) (current : List Char) :
    wordsFrom current (cs ++ gap) = wordsFrom current cs := by
  induction cs generalizing current with
  | nil =>
    cases gap with
    | nil => rfl
    | cons c gap =>
      obtain ⟨hc, hgap⟩ := List.forall_mem_cons.mp hgap
      have hend : wordsFrom [] gap = [] := by simpa [wordsFrom] using wordsFrom_blanks hgap []
      simp [wordsFrom, hc, hend]
  | cons c cs ih => simp [wordsFrom, ih]

theorem words_append_blanks (cs : List Char) {gap : List Char}
    (hgap : ∀ c ∈ gap, isBlank c = true) : words (cs ++ gap) = words cs :=
  wordsFrom_append_blanks cs hgap []

theorem mem_wordsFrom {current cs word : List Char} (h : word ∈ wordsFrom current cs)
    (hcurrent : ∀ c ∈ current, isBlank c = false) :
    ∀ c ∈ word, isBlank c = false ∧ (c ∈ current ∨ c ∈ cs) := by
  induction cs generalizing current word with
  | nil =>
    unfold wordsFrom at h
    split_ifs at h with hempty
    · cases h
    · obtain rfl := List.mem_singleton.mp h
      exact fun c hc => ⟨hcurrent c (List.mem_reverse.mp hc), .inl (List.mem_reverse.mp hc)⟩
  | cons b rest ih =>
    have hrest {word : List Char} (hword : word ∈ wordsFrom [] rest) :
        ∀ c ∈ word, isBlank c = false ∧ (c ∈ current ∨ c ∈ b :: rest) := fun c hc => by
      obtain ⟨hblank, hmem | hmem⟩ := ih hword (by simp) c hc
      · cases hmem
      · exact ⟨hblank, .inr (List.mem_cons_of_mem b hmem)⟩
    unfold wordsFrom at h
    split_ifs at h with hb hempty
    · exact hrest h
    · obtain rfl | h := List.mem_cons.mp h
      · exact fun c hc => ⟨hcurrent c (List.mem_reverse.mp hc), .inl (List.mem_reverse.mp hc)⟩
      · exact hrest h
    · intro c hc
      have hnext : ∀ c ∈ b :: current, isBlank c = false :=
        List.forall_mem_cons.mpr ⟨by simpa using hb, hcurrent⟩
      obtain ⟨hblank, hmem | hmem⟩ := ih h hnext c hc
      · obtain rfl | hmem := List.mem_cons.mp hmem
        · exact ⟨hblank, .inr List.mem_cons_self⟩
        · exact ⟨hblank, .inl hmem⟩
      · exact ⟨hblank, .inr (List.mem_cons_of_mem b hmem)⟩

theorem mem_words {cs word : List Char} (h : word ∈ words cs) :
    ∀ c ∈ word, isBlank c = false ∧ c ∈ cs := by
  intro c hc
  obtain ⟨hblank, hmem | hmem⟩ := mem_wordsFrom h (by simp) c hc
  · cases hmem
  · exact ⟨hblank, hmem⟩

def encode (cs : List Char) : List UInt8 := cs.flatMap String.utf8EncodeChar

theorem toUTF8_ofList (cs : List Char) : (String.ofList cs).toUTF8.data.toList = encode cs := by
  simp [String.toUTF8, String.toByteArray_ofList, List.utf8Encode, encode]

theorem decode?_encode (cs : List Char) : decode? (encode cs) = some cs := by
  have hbytes : (⟨(encode cs).toArray⟩ : ByteArray) = cs.utf8Encode := by
    ext1
    rw [List.utf8Encode, List.data_toByteArray, encode]
  have hvalid : cs.utf8Encode.IsValidUTF8 := .intro cs rfl
  have hstring : String.fromUTF8 cs.utf8Encode hvalid = String.ofList cs := rfl
  rw [decode?, hbytes, String.fromUTF8?, dif_pos hvalid, hstring, Option.map_some,
    String.toList_ofList]

theorem eq_encode_of_decode? {line : List UInt8} {cs : List Char} (h : decode? line = some cs) :
    line = encode cs := by
  obtain ⟨s, hs, rfl⟩ := Option.map_eq_some_iff.mp h
  unfold String.fromUTF8? at hs
  split_ifs at hs with hvalid
  obtain rfl := Option.some.inj hs
  rw [← toUTF8_ofList, String.ofList_toList]
  rfl

@[simp] theorem encode_append (cs cs' : List Char) :
    encode (cs ++ cs') = encode cs ++ encode cs' := List.flatMap_append

@[simp] theorem encode_eq_nil {cs : List Char} : encode cs = [] ↔ cs = [] := by
  cases cs <;> simp [encode]

theorem toNat_eq_of_mem_utf8EncodeChar {c : Char} {b : UInt8}
    (hb : b ∈ String.utf8EncodeChar c) (hlt : b.toNat < 128) : c.toNat = b.toNat := by
  have hc : c.toNat = c.val.toNat := rfl
  simp only [String.utf8EncodeChar] at hb
  split_ifs at hb <;> simp only [List.mem_cons, List.not_mem_nil, or_false] at hb
  · rw [hb, UInt8.toNat_ofNat']
    omega
  -- all bytes of longer encodings have their highest bit set
  · obtain rfl | rfl := hb <;> rw [UInt8.toNat_ofNat'] at hlt <;> omega
  · obtain rfl | rfl | rfl := hb <;> rw [UInt8.toNat_ofNat'] at hlt <;> omega
  · obtain rfl | rfl | rfl | rfl := hb <;> rw [UInt8.toNat_ofNat'] at hlt <;> omega

theorem linesFrom_append {bs : List UInt8} (h : newline ∉ bs) (current rest : List UInt8) :
    linesFrom current (bs ++ rest) = linesFrom (bs.reverse ++ current) rest := by
  induction bs generalizing current with
  | nil => rfl
  | cons b bs ih =>
    obtain ⟨hb, hbs⟩ := not_or.mp (mt List.mem_cons.mpr h)
    have hne : (b == newline) = false := by simpa using Ne.symm hb
    simp [linesFrom, hne, ih hbs]

theorem newline_mem_encode {cs : List Char} : newline ∈ encode cs ↔ '\n' ∈ cs := by
  simp only [encode, List.mem_flatMap]
  constructor
  · rintro ⟨c, hc, hb⟩
    have := toNat_eq_of_mem_utf8EncodeChar hb (by decide)
    have hc' : c = '\n' := Char.toNat_inj.mp this
    exact hc' ▸ hc
  · intro h
    exact ⟨_, h, by decide⟩

theorem lines_encode_cons {cs : List Char} (h : '\n' ∉ cs) (rest : List Char) :
    lines (encode (cs ++ '\n' :: rest)) =
      closeLine (encode cs).reverse :: lines (encode rest) := by
  have hbytes : encode ('\n' :: rest) = newline :: encode rest := rfl
  rw [encode_append, hbytes, lines, linesFrom_append (mt newline_mem_encode.mp h)]
  simp [linesFrom, lines]

theorem lines_encode {cs : List Char} (h : '\n' ∉ cs) :
    lines (encode cs) = if cs = [] then [] else [encode cs] := by
  have := linesFrom_append (mt newline_mem_encode.mp h) [] []
  rw [List.append_nil, List.append_nil] at this
  rw [lines, this]
  simp [linesFrom]

theorem exists_decode?_closeLine (cs : List Char) : ∃ cs' gap, cs = cs' ++ gap ∧
    (∀ c ∈ gap, isBlank c = true) ∧ decode? (closeLine (encode cs).reverse) = some cs' := by
  obtain rfl | ⟨cs, c, rfl⟩ := List.eq_nil_or_concat' cs
  · exact ⟨[], [], rfl, by simp, decode?_encode []⟩
  by_cases hc : c = '\r'
  · subst hc
    refine ⟨cs, ['\r'], rfl, List.forall_mem_singleton.mpr (by decide), ?_⟩
    have hbytes : encode ['\r'] = [carriageReturn] := rfl
    rw [encode_append, hbytes]
    simp [closeLine, decode?_encode]
  · refine ⟨cs ++ [c], [], by simp, by simp, ?_⟩
    obtain ⟨bs, b, hbs⟩ :=
      (List.eq_nil_or_concat' (String.utf8EncodeChar c)).resolve_left String.utf8EncodeChar_ne_nil
    have hb : b ≠ carriageReturn := by
      rintro rfl
      have := toNat_eq_of_mem_utf8EncodeChar (c := c) (hbs ▸ List.mem_concat_self) (by decide)
      exact hc (Char.toNat_inj.mp this)
    have hbytes : encode (cs ++ [c]) = (encode cs ++ bs) ++ [b] := by
      simp [encode, hbs]
    have hclosed : closeLine (encode (cs ++ [c])).reverse = encode (cs ++ [c]) := by
      rw [hbytes]
      simp [closeLine, hb]
    rw [hclosed, decode?_encode]

end MapInference.Text
