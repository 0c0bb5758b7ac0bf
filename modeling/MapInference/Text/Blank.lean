/-!
# Blank characters

The characters with the Unicode property `White_Space`, and words, which they separate.
-/

namespace MapInference.Text

def blankRanges : List (Nat × Nat) :=
  [(0x9, 0xD), (0x20, 0x20), (0x85, 0x85), (0xA0, 0xA0), (0x1680, 0x1680), (0x2000, 0x200A),
    (0x2028, 0x2029), (0x202F, 0x202F), (0x205F, 0x205F), (0x3000, 0x3000)]

def isBlank (c : Char) : Bool :=
  blankRanges.any fun (first, last) => first ≤ c.toNat && c.toNat ≤ last

/-- The words of a text, given the beginning of the current word, last character first. -/
def wordsFrom (current : List Char) : List Char → List (List Char)
  | [] => if current.isEmpty then [] else [current.reverse]
  | c :: rest =>
    if isBlank c then
      if current.isEmpty then wordsFrom [] rest else current.reverse :: wordsFrom [] rest
    else wordsFrom (c :: current) rest

/-- The longest stretches of characters that are not blank. -/
def words (cs : List Char) : List (List Char) := wordsFrom [] cs

theorem wordsFrom_ne_nil (current cs : List Char) : [] ∉ wordsFrom current cs := by
  induction cs generalizing current with
  | nil => by_cases h : current.isEmpty <;> simp_all [wordsFrom]
  | cons c rest ih =>
    unfold wordsFrom
    split
    · split
      · exact ih []
      · next h =>
        simp only [List.mem_cons, not_or]
        exact ⟨by simpa using h, ih []⟩
    · exact ih _

theorem nil_not_mem_words (cs : List Char) : [] ∉ words cs := wordsFrom_ne_nil [] cs

example : ∀ c : Fin 128, (Char.ofNat c).isWhitespace → isBlank (Char.ofNat c) := by decide

end MapInference.Text
