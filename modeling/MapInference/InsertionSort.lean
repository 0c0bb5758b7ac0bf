/-!
# Sorting by insertion

Sorts a short list by a strict comparison. An element moves ahead of its neighbours for as long as
it compares strictly less, so equal elements keep their order. The sorted part is kept from its
greatest element down while the list is read.
-/

namespace MapInference.InsertionSort

variable {β : Type}

def insert (less : β → β → Bool) (b : β) : List β → List β
  | [] => [b]
  | c :: rest => if less b c then c :: insert less b rest else b :: c :: rest

def sort (less : β → β → Bool) (bs : List β) : List β :=
  (bs.foldl (fun sorted b => insert less b sorted) []).reverse

theorem insert_perm (less : β → β → Bool) (b : β) (bs : List β) :
    (insert less b bs).Perm (b :: bs) := by
  induction bs with
  | nil => exact .refl _
  | cons c rest ih =>
    by_cases h : less b c
    · simpa [insert, h] using (ih.cons c).trans (.swap b c rest)
    · simp [insert, h]

theorem foldl_insert_perm (less : β → β → Bool) (bs sorted : List β) :
    (bs.foldl (fun sorted b => insert less b sorted) sorted).Perm (bs ++ sorted) := by
  induction bs generalizing sorted with
  | nil => exact .refl _
  | cons b rest ih =>
    have h : (rest ++ insert less b sorted).Perm (rest ++ b :: sorted) :=
      (insert_perm less b sorted).append_left rest
    exact (ih _).trans (h.trans List.perm_middle)

theorem sort_perm (less : β → β → Bool) (bs : List β) : (sort less bs).Perm bs := by
  have h := foldl_insert_perm less bs []
  rw [List.append_nil] at h
  exact (List.reverse_perm _).trans h

end MapInference.InsertionSort
