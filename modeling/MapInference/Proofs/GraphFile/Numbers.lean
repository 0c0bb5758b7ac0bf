import MapInference.Proofs.GraphFile.Tokens

/-!
# The texts of numbers

The readers of doubles and of machine words accept letters, digits, signs and points only, so that
a number is a word of its own and has no colon.
-/

namespace MapInference

namespace Decimal

def isNumeral (c : Char) : Bool := c.isAlphanum || c == '+' || c == '-' || c == '.'

def IsNumeral (cs : List Char) : Prop := cs ≠ [] ∧ ∀ c ∈ cs, isNumeral c = true

theorem isNumeral_of_isDigit {c : Char} (h : c.isDigit = true) : isNumeral c = true := by
  simp [isNumeral, Char.isAlphanum, h]

theorem forall_isNumeral_of_splitSign {cs : List Char}
    (h : ∀ c ∈ (splitSign cs).2, isNumeral c = true) : ∀ c ∈ cs, isNumeral c = true := by
  unfold splitSign at h
  split at h
  · exact List.forall_mem_cons.mpr ⟨by decide, h⟩
  · exact List.forall_mem_cons.mpr ⟨by decide, h⟩
  · exact h

theorem forall_isNumeral_of_all {cs : List Char} (h : cs.all Char.isDigit = true) :
    ∀ c ∈ cs, isNumeral c = true :=
  fun c hc => isNumeral_of_isDigit (List.all_eq_true.mp h c hc)

theorem forall_isNumeral_of_exponent? {cs : List Char} {e : ℤ} (h : exponent? cs = some e) :
    ∀ c ∈ cs, isNumeral c = true := by
  cases cs with
  | nil => simp
  | cons mark rest =>
    simp only [exponent?] at h
    have hmark := (Option.ite_none_right_eq_some.mp h).1
    simp only [Bool.and_eq_true, Bool.or_eq_true, beq_iff_eq] at hmark
    obtain ⟨⟨hmark, _⟩, hdigits⟩ := hmark
    refine List.forall_mem_cons.mpr
      ⟨?_, forall_isNumeral_of_splitSign (forall_isNumeral_of_all hdigits)⟩
    obtain rfl | rfl := hmark <;> decide

theorem splitDigits_spec (cs : List Char) :
    cs = (splitDigits cs).1 ++ (splitDigits cs).2 ∧ (splitDigits cs).1.all Char.isDigit = true := by
  rw [splitDigits, List.span_eq_takeWhile_dropWhile]
  exact ⟨(List.takeWhile_append_dropWhile).symm, List.all_takeWhile⟩

theorem isNumeral_of_unsigned? {cs : List Char} {x : Float} (h : unsigned? cs = some x) :
    IsNumeral cs := by
  obtain ⟨hcs, hwhole⟩ := splitDigits_spec cs
  refine ⟨by rintro rfl; simp [unsigned?, splitDigits] at h, ?_⟩
  simp only [unsigned?] at h
  rw [hcs]
  refine List.forall_mem_append.mpr ⟨forall_isNumeral_of_all hwhole, ?_⟩
  obtain ⟨_, h⟩ := Option.ite_none_left_eq_some.mp h
  obtain ⟨e, hexponent, _⟩ := Option.map_eq_some_iff.mp h
  split at hexponent
  · next rest hrest =>
    obtain ⟨hcs, hfraction⟩ := splitDigits_spec rest
    rw [hrest, hcs]
    exact List.forall_mem_cons.mpr ⟨by decide, List.forall_mem_append.mpr
      ⟨forall_isNumeral_of_all hfraction, forall_isNumeral_of_exponent? hexponent⟩⟩
  · exact forall_isNumeral_of_exponent? hexponent

theorem isNumeral_of_toLower {c : Char} (h : c.toLower.isAlpha = true) : isNumeral c = true := by
  by_cases hupper : c.isUpper = true
  · simp [isNumeral, Char.isAlphanum, Char.isAlpha, hupper]
  · rw [Char.toLower_eq_of_not_isUpper hupper] at h
    simp [isNumeral, Char.isAlphanum, h]

theorem isNumeral_of_named? {cs : List Char} {x : Float} (h : named? cs = some x) :
    IsNumeral cs := by
  have hname {name : String} (hname : String.ofList (cs.map Char.toLower) = name)
      (hletters : name.toList.all Char.isAlpha = true) : ∀ c ∈ cs, isNumeral c = true := by
    intro c hc
    rw [← hname, String.toList_ofList] at hletters
    exact isNumeral_of_toLower (List.all_eq_true.mp hletters _ (List.mem_map_of_mem hc))
  refine ⟨by rintro rfl; simp [named?] at h, ?_⟩
  simp only [named?] at h
  split_ifs at h with hinf hnan
  · rw [Bool.or_eq_true, beq_iff_eq, beq_iff_eq] at hinf
    rcases hinf with hinf | hinf
    · exact hname hinf (by decide)
    · exact hname hinf (by decide)
  · exact hname (beq_iff_eq.mp hnan) (by decide)

theorem isNumeral_of_readDouble? {cs : List Char} {x : Float} (h : readDouble? cs = some x) :
    IsNumeral cs := by
  simp only [readDouble?] at h
  obtain ⟨y, hy, _⟩ := Option.map_eq_some_iff.mp h
  have hrest : IsNumeral (splitSign cs).2 := by
    rcases Option.or_eq_some_iff.mp hy with hnamed | ⟨_, hunsigned⟩
    · exact isNumeral_of_named? hnamed
    · exact isNumeral_of_unsigned? hunsigned
  refine ⟨by rintro rfl; exact hrest.1 rfl, forall_isNumeral_of_splitSign hrest.2⟩

theorem isNumeral_of_readNatural? {limit n : ℕ} {cs : List Char}
    (h : readNatural? limit cs = some n) : IsNumeral cs := by
  simp only [readNatural?] at h
  obtain ⟨hdigits, _⟩ := Option.ite_none_right_eq_some.mp h
  simp only [Bool.and_eq_true] at hdigits
  obtain ⟨⟨hnil, hdigits⟩, _⟩ := hdigits
  refine ⟨by rintro rfl; simp at hnil, ?_⟩
  split at hdigits
  · exact List.forall_mem_cons.mpr ⟨by decide, forall_isNumeral_of_all hdigits⟩
  · exact forall_isNumeral_of_all hdigits

theorem isNumeral_spec {c : Char} (h : isNumeral c = true) :
    Text.isPrintable c = true ∧ c ≠ '#' ∧ c ≠ ':' := by
  have hrange : 43 ≤ c.toNat ∧ c.toNat ≤ 122 ∧ c.toNat ≠ 58 := by
    simp only [isNumeral, Char.isAlphanum, Char.isAlpha, Char.isUpper, Char.isLower, Char.isDigit,
      Bool.or_eq_true, Bool.and_eq_true, decide_eq_true_eq, beq_iff_eq, ge_iff_le,
      UInt32.le_iff_toNat_le] at h
    have hc : c.toNat = c.val.toNat := rfl
    rcases h with ((h | rfl) | rfl) | rfl
    · simp only [Char.reduceVal, UInt32.reduceToNat] at h
      omega
    · decide
    · decide
    · decide
  obtain ⟨hlow, hhigh, hcolon⟩ := hrange
  refine ⟨?_, ?_, ?_⟩
  · simp only [Text.isPrintable, Bool.and_eq_true, decide_eq_true_eq]
    omega
  · rintro rfl
    exact absurd hlow (by decide)
  · rintro rfl
    exact hcolon rfl

end Decimal

namespace GraphFile

theorem isWord_of_isNumeral {t : Token} (h : Decimal.IsNumeral t) : IsWord t ∧ ':' ∉ t := by
  refine ⟨isWord_of_printable h.1 (List.all_eq_true.mpr fun c hc => ?_), fun hcolon => ?_⟩
  · obtain ⟨hprintable, hmark, _⟩ := Decimal.isNumeral_spec (h.2 c hc)
    simp [hprintable, hmark]
  · exact (Decimal.isNumeral_spec (h.2 _ hcolon)).2.2 rfl

theorem isPlain_doubles : doubles.IsPlain where
  scalar h := isWord_of_isNumeral (Decimal.isNumeral_of_readDouble? h)
  natural h := (isWord_of_isNumeral (Decimal.isNumeral_of_readNatural? h)).1

end GraphFile
end MapInference
