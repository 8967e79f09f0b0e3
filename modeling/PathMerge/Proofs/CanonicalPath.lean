/-
  PathMerge.Proofs.CanonicalPath — path conditions are canonical sets of constraints.

  However a path condition was obtained (`Obtained`), its constraints increase in the order of handles, `true` is
  none of them, `false` is one only if it stands alone, and no constraint stands beside its complement
  (`Canonical`). Contradictions are looked for among neighbours only and membership by halving; both are right because
  every operation keeps the order, in which a handle and its complement are neighbours.

  What a list of constraints is normalised to depends on its members alone (`ofList_congr`), and adding a constraint
  to what was normalised is normalising all of them (`add_ofList`). So it does not matter whether a
  contradiction is found on the way or at the end (`foldl_add`).
-/

import PathMerge.Proofs.Yields
import PathMerge.PathCondition
import PathMerge.Proofs.Sorting

namespace PathMerge

namespace Handle

/-- The order of handles: by index, and of a handle and its complement the unnegated one first. -/
def Before (a b : Handle) : Prop := a.index < b.index ∨ a.index = b.index ∧ a.negated = false ∧ b.negated = true

theorem lt_iff_before {a b : Handle} : lt a b = true ↔ a.Before b := by
  obtain ⟨i, m⟩ := a
  obtain ⟨j, n⟩ := b
  unfold lt Before rank
  cases m <;> cases n <;> simp <;> omega

end Handle

namespace SortedList

variable {α : Type} {lt : α → α → Bool} {a : α} {l : List α}

theorem mem_of_search (sep : Separates lt) (found : search lt a l = true) : a ∈ l := by
  fun_induction search lt a l with
  | case1 => cases found
  | case2 l b after half less ih => exact List.mem_of_mem_take (ih found)
  | case3 l b after half less greater ih =>
    have inside : a ∈ l.drop (l.length / 2) := by
      rw [half]
      exact List.mem_cons_of_mem b (ih found)
    exact List.mem_of_mem_drop inside
  | case4 l b after half less greater =>
    obtain rfl := sep a b (by simpa using less) (by simpa using greater)
    have inside : a ∈ l.drop (l.length / 2) := by simp [half]
    exact List.mem_of_mem_drop inside

/-- In a list that increases, the half that is left out does not hold the element. -/
theorem search_of_mem (irrefl : ∀ a, lt a a = false) (trans : ∀ a b c, lt a b = true → lt b c = true → lt a c = true)
    (inc : l.Pairwise (lt · · = true)) (mem : a ∈ l) : search lt a l = true := by
  fun_induction search lt a l with
  | case1 l half =>
    have := congrArg List.length half
    rw [List.length_drop, List.length_nil] at this
    have := List.length_pos_of_mem mem
    omega
  | case2 l b after half less ih =>
    rw [← List.take_append_drop (l.length / 2) l, half] at inc mem
    obtain ⟨left, right, _⟩ := List.pairwise_append.mp inc
    refine ih left ((List.mem_append.mp mem).resolve_right fun later => ?_)
    rcases List.mem_cons.mp later with rfl | later
    · simp [irrefl] at less
    · have := trans _ _ _ less ((List.pairwise_cons.mp right).1 a later)
      simp [irrefl] at this
  | case3 l b after half less greater ih =>
    rw [← List.take_append_drop (l.length / 2) l, half] at inc mem
    obtain ⟨_, right, across⟩ := List.pairwise_append.mp inc
    rcases List.mem_append.mp mem with earlier | later
    · exact absurd (across a earlier b (by simp)) less
    · rcases List.mem_cons.mp later with rfl | later
      · simp [irrefl] at greater
      · exact ih (List.pairwise_cons.mp right).2 later
  | case4 => rfl

end SortedList

namespace PathCondition

variable {p q : PathCondition} {c : Handle} {cs ds : List Handle}

structure Canonical (p : PathCondition) : Prop where
  increasing : p.items.Pairwise Handle.Before
  not_tt : .tt ∉ p.items
  ff_alone : .ff ∈ p.items → p.items = [.ff]
  consistent : ∀ c ∈ p.items, -c ∉ p.items

/-- The path conditions that the operations make, of any handles and in any contexts. -/
inductive Obtained : PathCondition → Prop
  | empty : Obtained empty
  | ofList (cs : List Handle) : Obtained (ofList cs)
  | add {p : PathCondition} (c : Handle) : Obtained p → Obtained (p.add c)
  | addNegated {p : PathCondition} (c : Handle) : Obtained p → Obtained (p.addNegated c)
  | inter {p q : PathCondition} : Obtained p → Obtained q → Obtained (p.inter q)
  | diff {p q : PathCondition} : Obtained p → Obtained q → Obtained (p.diff q)
  | simplify {p q : PathCondition} {ctx ctx' : Context} : Obtained p → Returns p.simplify ctx q ctx' → Obtained q

/-! ## Normalising -/

/-- The constraints contradict each other on their face. -/
def Clash (cs : List Handle) : Prop := .ff ∈ cs ∨ ∃ c ∈ cs, -c ∈ cs

theorem Clash.mono (clash : Clash cs) (sub : ∀ c ∈ cs, c ∈ ds) : Clash ds := by
  rcases clash with ff | ⟨c, hc, hc'⟩
  · exact .inl (sub _ ff)
  · exact .inr ⟨c, sub c hc, sub _ hc'⟩

theorem mem_proper : c ∈ Handle.sorted (cs.filter (· ≠ .tt)) ↔ c ∈ cs ∧ c ≠ .tt := by
  rw [Handle.mem_sorted, List.mem_filter, decide_eq_true_eq]

/-- Comparing neighbours of the sorted list finds every contradiction. -/
theorem clash_iff : ((Handle.sorted (cs.filter (· ≠ .tt))).contains .ff ||
    Handle.hasComplements (Handle.sorted (cs.filter (· ≠ .tt)))) = true ↔ Clash cs := by
  rw [Bool.or_eq_true_iff, List.contains_iff_mem, mem_proper]
  constructor
  · rintro (⟨ff, _⟩ | found)
    · exact .inl ff
    · obtain ⟨c, hc, hc'⟩ := Handle.of_hasComplements found
      exact .inr ⟨c, (mem_proper.mp hc).1, (mem_proper.mp hc').1⟩
  · intro clash
    by_cases ff : .ff ∈ cs
    · exact .inl ⟨ff, by decide⟩
    · obtain ⟨c, hc, hc'⟩ := clash.resolve_left ff
      have proper : c ≠ .tt := by
        rintro rfl
        exact ff hc'
      have proper' : -c ≠ .tt := by
        intro e
        rw [← c.neg_neg, e] at hc
        exact ff hc
      refine .inr ?_
      by_contra none_
      exact Handle.consistent_of_hasComplements (Handle.sorted_pairwise _) (by simpa using none_) c
        (mem_proper.mpr ⟨hc, proper⟩) (mem_proper.mpr ⟨hc', proper'⟩)

theorem ofList_of_clash (clash : Clash cs) : ofList cs = ⟨[.ff]⟩ := by
  unfold ofList
  dsimp only
  rw [if_pos (clash_iff.mpr clash)]

theorem ofList_of_consistent (free : ¬ Clash cs) : ofList cs = ⟨Handle.sorted (cs.filter (· ≠ .tt))⟩ := by
  unfold ofList
  dsimp only
  rw [if_neg (mt clash_iff.mp free)]

theorem ofList_canonical (cs : List Handle) : (ofList cs).Canonical := by
  by_cases clash : Clash cs
  · rw [ofList_of_clash clash]
    exact ⟨List.pairwise_singleton _ _, by decide, fun _ => rfl, by decide⟩
  · rw [ofList_of_consistent clash]
    refine ⟨(Handle.sorted_pairwise _).imp Handle.lt_iff_before.mp, fun tt => (mem_proper.mp tt).2 rfl, fun ff => ?_,
      fun c hc hc' => ?_⟩
    · exact absurd (.inl (mem_proper.mp ff).1) clash
    · exact clash (.inr ⟨c, (mem_proper.mp hc).1, (mem_proper.mp hc').1⟩)

/-- What is made of constraints depends on which of them there are, `true` apart. -/
theorem ofList_congr (same : ∀ c, c ≠ .tt → (c ∈ cs ↔ c ∈ ds)) : ofList cs = ofList ds := by
  have sorted : Handle.sorted (cs.filter (· ≠ .tt)) = Handle.sorted (ds.filter (· ≠ .tt)) := by
    refine Handle.eq_of_sorted (Handle.sorted_pairwise _) (Handle.sorted_pairwise _) fun c => ?_
    rw [mem_proper, mem_proper]
    exact and_congr_left fun proper => same c proper
  unfold ofList
  rw [sorted]

/-- A contradiction among the first constraints is one among all of them. -/
theorem add_ofList (cs : List Handle) (c : Handle) : (ofList cs).add c = ofList (cs ++ [c]) := by
  unfold add
  by_cases clash : Clash cs
  · rw [ofList_of_clash clash, ofList_of_clash (.inl (by simp)), ofList_of_clash (clash.mono fun d hd => by simp [hd])]
  · rw [ofList_of_consistent clash]
    refine ofList_congr fun d proper => ?_
    rw [List.mem_append, List.mem_append, mem_proper]
    simp [proper]

theorem foldl_add (cs ds : List Handle) : ds.foldl add (ofList cs) = ofList (cs ++ ds) := by
  induction ds generalizing cs with
  | nil => rw [List.foldl_nil, List.append_nil]
  | cons d ds ih => rw [List.foldl_cons, add_ofList, ih, List.append_assoc, List.singleton_append]

/-! ## Every operation keeps the form -/

theorem Canonical.filter (h : p.Canonical) (f : Handle → Bool) : Canonical ⟨p.items.filter f⟩ := by
  have part : ∀ {c}, c ∈ p.items.filter f → c ∈ p.items := fun hc => (List.mem_filter.mp hc).1
  refine ⟨h.increasing.filter f, fun tt => h.not_tt (part tt), fun ff => ?_, fun c hc hc' => ?_⟩
  · have kept := (List.mem_filter.mp ff).2
    show p.items.filter f = [.ff]
    rw [h.ff_alone (part ff), List.filter_singleton, kept]
    rfl
  · exact h.consistent c (part hc) (part hc')

theorem returns_simplify {ctx ctx' : Context} (ret : Returns p.simplify ctx q ctx') : ∃ cs, q = ofList cs := by
  obtain ⟨parts, _, _, ret⟩ := returns_of_bind ret
  cases ret
  exact ⟨_, rfl⟩

theorem Obtained.canonical (h : Obtained p) : p.Canonical := by
  induction h with
  | empty => exact ofList_canonical []
  | ofList cs => exact ofList_canonical cs
  | add c | addNegated c => exact ofList_canonical _
  | inter _ _ ih | diff _ _ ih => exact ih.filter _
  | simplify _ ret =>
    obtain ⟨cs, rfl⟩ := returns_simplify ret
    exact ofList_canonical cs

theorem Canonical.contains_iff (h : p.Canonical) : p.contains c = true ↔ c ∈ p.items := by
  have inc : p.items.Pairwise (Handle.lt · · = true) := h.increasing.imp Handle.lt_iff_before.mpr
  exact ⟨SortedList.mem_of_search Handle.lt_separates, SortedList.search_of_mem Handle.lt_irrefl Handle.lt_trans inc⟩

theorem Canonical.contains_eq (h : p.Canonical) : p.contains = p.items.contains := by
  funext c
  rw [Bool.eq_iff_iff, h.contains_iff, List.contains_iff_mem]

/-- Every path condition that the operations make is canonical, and looking a constraint up in it finds whatever it
holds. What is made of a list of constraints is what adding them one by one makes, in any order and however often. -/
theorem conditions_canonical :
    (∀ p, Obtained p → p.Canonical ∧ ∀ c, p.contains c = true ↔ c ∈ p.items) ∧
    (∀ p q : PathCondition, Obtained q → p.inter q = ⟨p.items.filter q.contains⟩ ∧
      p.diff q = ⟨p.items.filter fun c => !q.contains c⟩) ∧
    ∀ cs ds : List Handle, (∀ c, c ∈ cs ↔ c ∈ ds) → ofList cs = ds.foldl add empty := by
  refine ⟨fun p h => ⟨h.canonical, fun c => h.canonical.contains_iff⟩, fun p q h => ?_, fun cs ds same => ?_⟩
  · rw [h.canonical.contains_eq]
    exact ⟨rfl, rfl⟩
  · rw [show empty = ofList [] from rfl, foldl_add, List.nil_append]
    exact ofList_congr fun c _ => same c

/-- `a && !b && c` without `!b && d`, and `a`, `b`, `!a` added one by one. -/
theorem conditions_canonical_difference :
    let left := (ofList [⟨4, false⟩, ⟨3, true⟩]).add ⟨2, false⟩
    let right := (empty.add ⟨5, false⟩).addNegated ⟨3, false⟩
    (left.diff right).items = [⟨2, false⟩, ⟨4, false⟩] ∧ Obtained right ∧ Obtained (left.diff right) ∧
      (left.diff right).Canonical ∧ (left.diff right).contains ⟨4, false⟩ = true ∧
      left.diff right = ⟨left.items.filter fun c => !right.contains c⟩ ∧
      ofList [⟨2, false⟩, ⟨3, false⟩, ⟨2, true⟩] =
        [⟨3, false⟩, ⟨2, true⟩, ⟨3, false⟩, ⟨2, false⟩].foldl add empty := by
  intro left right
  have items : (left.diff right).items = [⟨2, false⟩, ⟨4, false⟩] := by decide
  have obtained : Obtained right := .addNegated _ (.add _ .empty)
  have difference : Obtained (left.diff right) := .diff (.add _ (.ofList _)) obtained
  obtain ⟨canonical, filtered, order⟩ := conditions_canonical
  obtain ⟨form, found⟩ := canonical (left.diff right) difference
  refine ⟨items, obtained, difference, form, (found _).mpr ?_, (filtered left right obtained).2, order _ _ ?_⟩
  · rw [items]
    decide
  · intro c
    simp only [List.mem_cons, List.not_mem_nil, or_false]
    tauto

end PathCondition

end PathMerge
