import MapInference.Proofs.Exact

/-!
# Extreme elements in exact arithmetic

The choices among candidates find an element with the greatest score whenever there is a candidate.
In any arithmetic they find one of the candidates, if they find any.
-/

namespace MapInference.Extremum

open Scalar

section Scalar

variable {α β : Type} [Scalar α]

theorem mem_of_firstBest? {score : β → α} {bs : List β} {best : β × α}
    (h : firstBest? score bs = some best) : best.1 ∈ bs := by
  refine List.foldlRecOn (motive := fun found => found = some best → best.1 ∈ bs) bs
    (keepBetter score) (b := none) nofun (fun found hfound b hb hkept => ?_) h
  unfold keepBetter at hkept
  split_ifs at hkept
  · exact Option.some.inj hkept ▸ hb
  · exact hfound hkept

theorem foldl_ite_mem (keeps : β → β → Prop) [DecidableRel keeps] (bs : List β) (b : β) :
    bs.foldl (fun best c => if keeps best c then best else c) b ∈ b :: bs := by
  induction bs generalizing b with
  | nil => exact List.mem_cons_self
  | cons c bs ih =>
    rw [List.foldl_cons]
    split_ifs with hkeeps
    · rcases List.mem_cons.mp (ih b) with hb | hb
      · rw [hb]
        exact List.mem_cons_self
      · exact List.mem_cons_of_mem _ (List.mem_cons_of_mem _ hb)
    · exact List.mem_cons_of_mem _ (ih c)

theorem mem_of_firstGreatest? {key : β → α} {bs : List β} {b : β}
    (h : firstGreatest? key bs = some b) : b ∈ bs := by
  cases bs with
  | nil => cases h
  | cons c bs => exact Option.some.inj h ▸ foldl_ite_mem _ bs c

theorem mem_of_lastGreatest? {key : β → α} {bs : List β} {b : β}
    (h : lastGreatest? key bs = some b) : b ∈ bs := by
  cases bs with
  | nil => cases h
  | cons c bs =>
    have hfold :
        bs.foldl (fun best c => if ¬ precedes (key best) (key c) then best else c) c = b := by
      simpa only [ite_not] using Option.some.inj h
    exact hfold ▸ foldl_ite_mem _ bs c

theorem firstLeast?_eq_none_iff {key : β → α} {bs : List β} :
    firstLeast? key bs = none ↔ bs = [] := by
  cases bs <;> simp [firstLeast?]

theorem mem_of_firstLeast? {key : β → α} {bs : List β} {b : β}
    (h : firstLeast? key bs = some b) : b ∈ bs := by
  cases bs with
  | nil => cases h
  | cons c bs => exact Option.some.inj h ▸ foldl_ite_mem _ bs c

end Scalar

variable {α β : Type} [ExactScalar α]

/-- The first of the elements of a list that have the greatest score. -/
def IsFirstBest (score : β → α) (bs : List β) (c : β) : Prop :=
  ∃ before after, bs = before ++ c :: after ∧ (∀ b ∈ before, score b < score c) ∧
    ∀ b ∈ bs, score b ≤ score c

namespace IsFirstBest

variable {score : β → α} {bs : List β} {b c d : β}

theorem mem (h : IsFirstBest score bs c) : c ∈ bs := by
  obtain ⟨before, after, rfl, _⟩ := h
  exact List.mem_append_cons_self

theorem le (h : IsFirstBest score bs c) : ∀ b ∈ bs, score b ≤ score c := by
  obtain ⟨_, _, _, _, hle⟩ := h
  exact hle

theorem cons_of_lt (h : IsFirstBest score (d :: bs) c) (hbd : score b < score d) :
    IsFirstBest score (b :: d :: bs) c := by
  have hbc : score b < score c := hbd.trans_le (h.le d List.mem_cons_self)
  obtain ⟨before, after, hsplit, hlt, hle⟩ := h
  exact ⟨b :: before, after, by rw [hsplit, List.cons_append],
    List.forall_mem_cons.mpr ⟨hbc, hlt⟩, List.forall_mem_cons.mpr ⟨hbc.le, hle⟩⟩

theorem insert_of_le (h : IsFirstBest score (b :: bs) c) (hdb : score d ≤ score b) :
    IsFirstBest score (b :: d :: bs) c := by
  obtain ⟨before, after, hsplit, hlt, hle⟩ := h
  have hdc : score d ≤ score c := hdb.trans (hle b List.mem_cons_self)
  have hall : ∀ e ∈ b :: d :: bs, score e ≤ score c := by
    obtain ⟨hbc, hle⟩ := List.forall_mem_cons.mp hle
    exact List.forall_mem_cons.mpr ⟨hbc, List.forall_mem_cons.mpr ⟨hdc, hle⟩⟩
  -- Either `c` is `b`, and `d` joins the elements after it, or `d` is worse than `c` like `b`.
  cases before with
  | nil =>
    obtain ⟨rfl, rfl⟩ := List.cons.inj hsplit
    exact ⟨[], d :: bs, rfl, by simp, hall⟩
  | cons e before =>
    obtain ⟨rfl, rfl⟩ := List.cons.inj hsplit
    obtain ⟨hbc, hlt⟩ := List.forall_mem_cons.mp hlt
    exact ⟨b :: d :: before, after, rfl,
      List.forall_mem_cons.mpr ⟨hbc, List.forall_mem_cons.mpr ⟨hdb.trans_lt hbc, hlt⟩⟩, hall⟩

end IsFirstBest

theorem foldl_keepBetter (score : β → α) (bs : List β) (b : β) :
    ∃ c, bs.foldl (keepBetter score) (some (b, score b)) = some (c, score c) ∧
      IsFirstBest score (b :: bs) c := by
  induction bs generalizing b with
  | nil => exact ⟨b, rfl, [], [], rfl, by simp, by simp⟩
  | cons d bs ih =>
    by_cases h : score b < score d
    · have hk : keepBetter score (some (b, score b)) d = some (d, score d) := by
        simp [keepBetter, Extended.exceeds, h]
      obtain ⟨c, hc, hfirst⟩ := ih d
      exact ⟨c, by rw [List.foldl_cons, hk, hc], hfirst.cons_of_lt h⟩
    · have hk : keepBetter score (some (b, score b)) d = some (b, score b) := by
        simp [keepBetter, Extended.exceeds, h]
      obtain ⟨c, hc, hfirst⟩ := ih b
      exact ⟨c, by rw [List.foldl_cons, hk, hc], hfirst.insert_of_le (not_lt.mp h)⟩

theorem exists_isFirstBest (score : β → α) {bs : List β} (h : bs ≠ []) :
    ∃ c, firstBest? score bs = some (c, score c) ∧ IsFirstBest score bs c := by
  cases bs with
  | nil => exact absurd rfl h
  | cons b bs =>
    have hk : keepBetter score none b = some (b, score b) := by
      simp [keepBetter, Extended.exceeds]
    rw [firstBest?, List.foldl_cons, hk]
    exact foldl_keepBetter score bs b

theorem exists_firstBest? (score : β → α) {bs : List β} (h : bs ≠ []) :
    ∃ c ∈ bs, firstBest? score bs = some (c, score c) ∧ ∀ d ∈ bs, score d ≤ score c := by
  obtain ⟨c, hc, hfirst⟩ := exists_isFirstBest score h
  exact ⟨c, hfirst.mem, hc, hfirst.le⟩

theorem exists_lastGreatest? (key : β → α) {bs : List β} (h : bs ≠ []) :
    ∃ b ∈ bs, lastGreatest? key bs = some b := by
  obtain ⟨b, hb⟩ : ∃ b, lastGreatest? key bs = some b := by
    cases bs with
    | nil => exact absurd rfl h
    | cons c bs => exact ⟨_, rfl⟩
  exact ⟨b, mem_of_lastGreatest? hb, hb⟩

/-- A fold that keeps one of two elements by a relation ends with one that has the relation to all. -/
theorem rel_of_foldl_ite {r : β → β → Prop} {keeps : β → β → Prop} [DecidableRel keeps]
    (hrefl : ∀ b, r b b) (htrans : ∀ b c d, r b c → r c d → r b d)
    (hkeep : ∀ b c, keeps b c → r b c) (hdrop : ∀ b c, ¬ keeps b c → r c b) (bs : List β) (b : β) :
    ∀ c ∈ b :: bs, r (bs.foldl (fun best c => if keeps best c then best else c) b) c := by
  induction bs generalizing b with
  | nil =>
    intro c hc
    rw [List.mem_singleton.mp hc]
    exact hrefl b
  | cons d bs ih =>
    rw [List.foldl_cons]
    intro c hc
    split_ifs with hbd
    · have hall := ih b
      rcases List.mem_cons.mp hc with rfl | hc
      · exact hall c List.mem_cons_self
      rcases List.mem_cons.mp hc with rfl | hc
      · exact htrans _ _ _ (hall b List.mem_cons_self) (hkeep b c hbd)
      · exact hall c (List.mem_cons_of_mem _ hc)
    · have hall := ih d
      rcases List.mem_cons.mp hc with rfl | hc
      · exact htrans _ _ _ (hall d List.mem_cons_self) (hdrop c d hbd)
      · exact hall c hc

theorem le_of_firstLeast? {key : β → α} {bs : List β} {b : β} (h : firstLeast? key bs = some b) :
    ∀ c ∈ bs, key b ≤ key c := by
  cases bs with
  | nil => cases h
  | cons c bs =>
    refine Option.some.inj h ▸ rel_of_foldl_ite (r := fun b c => key b ≤ key c) (fun _ => le_rfl)
      (fun _ _ _ => le_trans) (fun b c hkeep => ?_) (fun b c hdrop => ?_) bs c
    · simpa using hkeep
    · exact (by simpa using hdrop : key c < key b).le

theorem le_of_lastGreatest? {key : β → α} {bs : List β} {b : β}
    (h : lastGreatest? key bs = some b) : ∀ c ∈ bs, key c ≤ key b := by
  cases bs with
  | nil => cases h
  | cons c bs =>
    have hfold :
        bs.foldl (fun best c => if ¬ precedes (key best) (key c) then best else c) c = b := by
      simpa only [ite_not] using Option.some.inj h
    refine hfold ▸ rel_of_foldl_ite (r := fun b c => key c ≤ key b) (fun _ => le_rfl)
      (fun _ _ _ hbc hcd => hcd.trans hbc) (fun b c hkeep => ?_) (fun b c hdrop => ?_) bs c
    · exact (by simpa using hkeep : key c < key b).le
    · simpa using hdrop

theorem foldl_larger (xs : List α) (x : α) :
    xs.foldl (fun best y => match best with
      | none => if isNumber y then some y else none
      | some b => some (larger b y)) (some x) = some (xs.foldl max x) := by
  induction xs generalizing x with
  | nil => rfl
  | cons y xs ih => simpa using ih (max x y)

theorem largest?_eq_max? (xs : List α) : largest? xs = xs.max? := by
  cases xs with
  | nil => rfl
  | cons x xs =>
    change List.foldl _ (if isNumber x then some x else none) xs = some (xs.foldl max x)
    rw [if_pos (isNumber_eq_true x)]
    exact foldl_larger xs x

theorem largest?_eq_some_iff {xs : List α} {x : α} :
    largest? xs = some x ↔ x ∈ xs ∧ ∀ y ∈ xs, y ≤ x := by
  rw [largest?_eq_max?, List.max?_eq_some_iff]

theorem exists_largest? {xs : List α} (h : xs ≠ []) :
    ∃ x ∈ xs, largest? xs = some x ∧ ∀ y ∈ xs, y ≤ x := by
  obtain ⟨x, hx⟩ : ∃ x, largest? xs = some x := by
    rw [largest?_eq_max?, ← Option.ne_none_iff_exists']
    simpa using h
  obtain ⟨hmem, hmax⟩ := largest?_eq_some_iff.mp hx
  exact ⟨x, hmem, hx, hmax⟩

end MapInference.Extremum
