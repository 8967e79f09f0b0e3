/-
  PathMerge.Proofs.Sorting — what sorting a list keeps.

  An order in which only equal elements are incomparable is named by `Separates`. Sorting under such
  an order keeps the elements; sums over the list can only go down, since repetitions go away. A handle
  and its complement are neighbours in the order, so in a sorted list comparing neighbours finds all complements.
-/

import Mathlib
import PathMerge.Pool.Choice

namespace PathMerge

namespace SortedList

variable {α : Type} {lt : α → α → Bool}

def Separates (lt : α → α → Bool) : Prop := ∀ a b, lt a b = false → lt b a = false → a = b

theorem mem_insert (sep : Separates lt) {a b : α} {l : List α} : b ∈ insert lt a l ↔ b = a ∨ b ∈ l := by
  induction l with
  | nil => simp [insert]
  | cons c l ih =>
    unfold insert
    by_cases hac : lt a c = true
    · simp [hac]
    · by_cases hca : lt c a = true
      · rw [if_neg hac, if_pos hca, List.mem_cons, List.mem_cons, ih]
        exact or_left_comm
      · obtain rfl := sep a c (by simpa using hac) (by simpa using hca)
        rw [if_neg hac, if_neg hac, List.mem_cons]
        exact or_self_left.symm

theorem mem_ofList (sep : Separates lt) {b : α} {l : List α} : b ∈ ofList lt l ↔ b ∈ l := by
  induction l with
  | nil => rfl
  | cons a l ih =>
    show b ∈ insert lt a (ofList lt l) ↔ _
    rw [mem_insert sep, ih, List.mem_cons]

/-- Inserting puts the element somewhere, unless it is there already. -/
theorem insert_cases (sep : Separates lt) (a : α) (l : List α) :
    (a ∈ l ∧ insert lt a l = l) ∨ (insert lt a l).Perm (a :: l) := by
  induction l with
  | nil => exact .inr (.refl _)
  | cons c l ih =>
    unfold insert
    by_cases hac : lt a c = true
    · rw [if_pos hac]
      exact .inr (.refl _)
    · by_cases hca : lt c a = true
      · rw [if_neg hac, if_pos hca]
        rcases ih with ⟨hm, e⟩ | hp
        · exact .inl ⟨List.mem_cons_of_mem _ hm, by rw [e]⟩
        · exact .inr ((hp.cons c).trans (.swap _ _ _))
      · obtain rfl := sep a c (by simpa using hac) (by simpa using hca)
        rw [if_neg hac, if_neg hac]
        exact .inl ⟨by simp, rfl⟩

/-- Inserting into an increasing list keeps it increasing. -/
theorem insert_pairwise (sep : Separates lt) (trans : ∀ a b c, lt a b = true → lt b c = true → lt a c = true) {a : α}
    {l : List α} (inc : l.Pairwise (lt · · = true)) : (insert lt a l).Pairwise (lt · · = true) := by
  induction l with
  | nil => exact List.pairwise_singleton _ _
  | cons c l ih =>
    obtain ⟨first, rest⟩ := List.pairwise_cons.mp inc
    unfold insert
    split
    · rename_i less
      refine List.pairwise_cons.mpr ⟨fun b hb => ?_, inc⟩
      rcases List.mem_cons.mp hb with rfl | hb
      · exact less
      · exact trans _ _ _ less (first b hb)
    · split
      · rename_i greater
        refine List.pairwise_cons.mpr ⟨fun b hb => ?_, ih rest⟩
        rcases (mem_insert sep).mp hb with rfl | hb
        · exact greater
        · exact first b hb
      · exact inc

theorem ofList_pairwise (sep : Separates lt) (trans : ∀ a b c, lt a b = true → lt b c = true → lt a c = true)
    (l : List α) : (ofList lt l).Pairwise (lt · · = true) := by
  induction l with
  | nil => exact .nil
  | cons a l ih => exact insert_pairwise sep trans ih

theorem ofList_sorted {l : List α} (inc : l.Pairwise (lt · · = true)) : ofList lt l = l := by
  induction l with
  | nil => rfl
  | cons a l ih =>
    obtain ⟨first, rest⟩ := List.pairwise_cons.mp inc
    show insert lt a (ofList lt l) = a :: l
    rw [ih rest]
    cases l with
    | nil => rfl
    | cons b l =>
      unfold insert
      rw [if_pos (first b (by simp))]

/-- Sorted lists with the same elements are equal. -/
theorem eq_of_mem_iff (irrefl : ∀ a, lt a a = false)
    (trans : ∀ a b c, lt a b = true → lt b c = true → lt a c = true) {xs ys : List α}
    (hx : xs.Pairwise (lt · · = true)) (hy : ys.Pairwise (lt · · = true)) (same : ∀ a, a ∈ xs ↔ a ∈ ys) : xs = ys := by
  have : Std.Irrefl (lt · · = true) := ⟨fun a => by simp [irrefl a]⟩
  have : Std.Antisymm (lt · · = true) := by
    refine ⟨fun a b hab hba => ?_⟩
    have := trans a b a hab hba
    simp [irrefl a] at this
  exact hx.eq_of_mem_iff hy same

/-- Sorting forgets the order and the repetitions. -/
theorem ofList_congr (sep : Separates lt) (irrefl : ∀ a, lt a a = false)
    (trans : ∀ a b c, lt a b = true → lt b c = true → lt a c = true) {xs ys : List α} (same : ∀ a, a ∈ xs ↔ a ∈ ys) :
    ofList lt xs = ofList lt ys := by
  refine eq_of_mem_iff irrefl trans (ofList_pairwise sep trans xs) (ofList_pairwise sep trans ys) fun a => ?_
  rw [mem_ofList sep, mem_ofList sep, same]

/-- Without repetitions sorting only changes the order. -/
theorem ofList_perm (sep : Separates lt) {l : List α} (nodup : l.Nodup) : (ofList lt l).Perm l := by
  induction l with
  | nil => exact .refl _
  | cons a l ih =>
    obtain ⟨new, rest⟩ := List.nodup_cons.mp nodup
    show (insert lt a (ofList lt l)).Perm (a :: l)
    rcases insert_cases sep a (ofList lt l) with ⟨there, _⟩ | perm
    · exact absurd ((mem_ofList sep).mp there) new
    · exact perm.trans ((ih rest).cons a)

theorem sum_insert_le (lt : α → α → Bool) (f : α → Nat) (a : α) (l : List α) :
    ((insert lt a l).map f).sum ≤ f a + (l.map f).sum := by
  induction l with
  | nil => simp [insert]
  | cons c l ih =>
    unfold insert
    split
    · simp
    · split
      · simp only [List.map_cons, List.sum_cons]
        omega
      · simp

theorem sum_ofList_le (lt : α → α → Bool) (f : α → Nat) (l : List α) :
    ((ofList lt l).map f).sum ≤ (l.map f).sum := by
  induction l with
  | nil => exact Nat.le_refl 0
  | cons a l ih =>
    have := sum_insert_le lt f a (ofList lt l)
    show ((insert lt a (ofList lt l)).map f).sum ≤ _
    rw [List.map_cons, List.sum_cons]
    omega

end SortedList

namespace Handle

theorem rank_injective {a b : Handle} (h : a.rank = b.rank) : a = b := by
  obtain ⟨i, m⟩ := a
  obtain ⟨j, n⟩ := b
  unfold rank at h
  cases m <;> cases n <;> simp_all <;> omega

theorem neg_ne (h : Handle) : -h ≠ h := by
  intro same
  have := congrArg negated same
  simp at this

theorem rank_neg_le (h : Handle) : (-h).rank ≤ h.rank + 1 := by
  obtain ⟨i, n⟩ := h
  cases n
  · exact Nat.le_refl _
  · exact Nat.le_add_right (2 * i) 2

theorem lt_separates : SortedList.Separates lt := by
  intro a b hab hba
  unfold lt at hab hba
  simp only [decide_eq_false_iff_not] at hab hba
  exact rank_injective (by omega)

theorem mem_sorted {h : Handle} {hs : List Handle} : h ∈ sorted hs ↔ h ∈ hs :=
  SortedList.mem_ofList lt_separates

theorem lt_trans (a b c : Handle) (hab : lt a b = true) (hbc : lt b c = true) : lt a c = true := by
  unfold lt at *
  simp only [decide_eq_true_eq] at *
  omega

theorem lt_irrefl (h : Handle) : lt h h = false := by simp [lt]

theorem eq_of_sorted {xs ys : List Handle} (hx : xs.Pairwise (lt · · = true)) (hy : ys.Pairwise (lt · · = true))
    (same : ∀ h, h ∈ xs ↔ h ∈ ys) : xs = ys :=
  SortedList.eq_of_mem_iff lt_irrefl lt_trans hx hy same

theorem sorted_pairwise (hs : List Handle) : (sorted hs).Pairwise (lt · · = true) :=
  SortedList.ofList_pairwise lt_separates lt_trans hs

theorem of_hasComplements {hs : List Handle} (h : hasComplements hs = true) : ∃ a ∈ hs, -a ∈ hs := by
  fun_induction hasComplements hs with
  | case1 a b rest ih =>
    rcases Bool.or_eq_true_iff.mp h with h | h
    · have : a = -b := of_decide_eq_true h
      exact ⟨b, by simp, by simp [this]⟩
    · obtain ⟨c, hc, hc'⟩ := ih h
      exact ⟨c, List.mem_cons_of_mem _ hc, List.mem_cons_of_mem _ hc'⟩
  | case2 => cases h

/-- In a sorted list nothing fits between a handle and its complement. -/
theorem complement_next {a b : Handle} {rest : List Handle} (inc : (a :: b :: rest).Pairwise (lt · · = true))
    (mem : -a ∈ b :: rest) : b = -a := by
  obtain ⟨above, inc⟩ := List.pairwise_cons.mp inc
  have below := (List.pairwise_cons.mp inc).1
  rcases List.mem_cons.mp mem with same | later
  · exact same.symm
  · have first := above b List.mem_cons_self
    have last := below _ later
    have next := rank_neg_le a
    simp only [lt, decide_eq_true_eq] at first last
    omega

/-- Complements are neighbours in the order, so looking at neighbours finds them all. -/
theorem consistent_of_hasComplements {hs : List Handle} (inc : hs.Pairwise (lt · · = true))
    (none_ : hasComplements hs = false) : ∀ a ∈ hs, -a ∉ hs := by
  fun_induction hasComplements hs with
  | case1 a b rest ih =>
    obtain ⟨differ, none_⟩ := Bool.or_eq_false_iff.mp none_
    have differ : a ≠ -b := of_decide_eq_false differ
    have alone : -a ∉ b :: rest := fun mem => differ (by rw [complement_next inc mem, neg_neg])
    intro c hc hc'
    rcases List.mem_cons.mp hc with rfl | hc
    · rcases List.mem_cons.mp hc' with same | hc'
      · exact neg_ne c same
      · exact alone hc'
    · rcases List.mem_cons.mp hc' with same | hc'
      · exact alone (by rwa [← same, neg_neg])
      · exact ih (List.pairwise_cons.mp inc).2 none_ c hc hc'
  | case2 hs short =>
    intro c hc hc'
    rcases hs with _ | ⟨d, _ | ⟨e, rest⟩⟩
    · cases hc
    · exact neg_ne c ((List.mem_singleton.mp hc').trans (List.mem_singleton.mp hc).symm)
    · exact short d e rest rfl

end Handle

namespace SymbolId

theorem lt_separates : SortedList.Separates lt := by
  intro a b hab hba
  obtain ⟨i⟩ := a
  obtain ⟨j⟩ := b
  simp only [lt, decide_eq_false_iff_not] at hab hba
  rw [show i = j by omega]

theorem mem_ofList {x : SymbolId} {l : List SymbolId} : x ∈ SortedList.ofList lt l ↔ x ∈ l :=
  SortedList.mem_ofList lt_separates

theorem lt_irrefl (x : SymbolId) : lt x x = false := by simp [lt]

theorem lt_trans (a b c : SymbolId) (hab : lt a b = true) (hbc : lt b c = true) : lt a c = true := by
  simp only [lt, decide_eq_true_eq] at *
  omega

theorem ofList_nodup (l : List SymbolId) : (SortedList.ofList lt l).Nodup := by
  refine (SortedList.ofList_pairwise lt_separates lt_trans l).imp fun {a b} h e => ?_
  rw [e, lt_irrefl] at h
  cases h

end SymbolId

theorem Branch.lt_separates : SortedList.Separates Branch.lt := by
  intro a b hab hba
  simp only [Branch.lt, Bool.or_eq_false_iff, Bool.and_eq_false_iff, decide_eq_false_iff_not] at hab hba
  have guards : a.1 = b.1 := Handle.lt_separates _ _ hab.1 hba.1
  have values : a.2 = b.2 := by
    apply Handle.lt_separates
    · exact hab.2.resolve_left (by simp [guards])
    · exact hba.2.resolve_left (by simp [guards])
  exact Prod.ext guards values

theorem Branch.lt_irrefl (b : Branch) : Branch.lt b b = false := by simp [Branch.lt, Handle.lt_irrefl]

theorem Branch.lt_trans (a b c : Branch) (hab : Branch.lt a b = true) (hbc : Branch.lt b c = true) :
    Branch.lt a c = true := by
  unfold Branch.lt at *
  simp only [Bool.or_eq_true, Bool.and_eq_true, decide_eq_true_eq] at *
  rcases hab with hab | ⟨eab, hab⟩ <;> rcases hbc with hbc | ⟨ebc, hbc⟩
  · exact .inl (Handle.lt_trans _ _ _ hab hbc)
  · exact .inl (ebc ▸ hab)
  · exact .inl (eab ▸ hbc)
  · exact .inr ⟨eab.trans ebc, Handle.lt_trans _ _ _ hab hbc⟩

end PathMerge
