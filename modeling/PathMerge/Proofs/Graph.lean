/-
  PathMerge.Proofs.Graph — ways through a flow graph.

  A position is live when a way leads to it from the root. `Around d i` says that some way from the root
  to `i` does not pass through `d`, and `Dominates d i` that `i` is live and no way does. The searches
  compute these notions: `contains_reachable`, `contains_reachableAround`, `dominates_iff`.

  Everything about ways rests on one fact, `last_visit`: a way either avoids a position or goes on from
  its last visit there.
-/

import Mathlib
import PathMerge.Flow

namespace PathMerge

open Relation

/-! ## Ways that avoid a position -/

section Ways

variable {α : Type} {r : α → α → Prop} {a b d : α}

def Avoiding (r : α → α → Prop) (d : α) (a b : α) : Prop := r a b ∧ b ≠ d

theorem Avoiding.way (h : ReflTransGen (Avoiding r d) a b) : ReflTransGen r a b :=
  ReflTransGen.mono (fun _ _ s => s.1) _ _ h

theorem Avoiding.ne (h : ReflTransGen (Avoiding r d) a b) (ha : a ≠ d) : b ≠ d := by
  cases h with
  | refl => exact ha
  | tail _ s => exact s.2

theorem last_visit (h : ReflTransGen r a b) (d : α) :
    (a ≠ d ∧ ReflTransGen (Avoiding r d) a b) ∨ (ReflTransGen r a d ∧ ReflTransGen (Avoiding r d) d b) := by
  induction h with
  | refl =>
    by_cases e : a = d
    · subst e
      exact .inr ⟨.refl, .refl⟩
    · exact .inl ⟨e, .refl⟩
  | tail way s ih =>
    rename_i b c
    by_cases e : c = d
    · subst e
      exact .inr ⟨way.tail s, .refl⟩
    · exact ih.imp (fun h => ⟨h.1, h.2.tail ⟨s, e⟩⟩) fun h => ⟨h.1, h.2.tail ⟨s, e⟩⟩

end Ways

/-! ## Marks -/

namespace Marks

def bound (m : Marks) : Nat := m.marks.size

theorem contains_iff {m : Marks} {i : Nat} : m.contains i = true ↔ m.marks[i]? = some true := by
  unfold contains
  cases m.marks[i]? <;> simp

theorem lacks_iff {m : Marks} {i : Nat} : m.lacks i = true ↔ i < m.bound ∧ ¬ m.contains i = true := by
  unfold lacks bound
  rw [contains_iff]
  by_cases h : i < m.marks.size
  · rw [Array.getElem?_eq_getElem h]
    cases m.marks[i] <;> simp [h]
  · rw [Array.getElem?_eq_none (Nat.le_of_not_lt h)]
    simp [h]

theorem contains_lt {m : Marks} {i : Nat} (h : m.contains i = true) : i < m.bound := by
  obtain ⟨lt, _⟩ := Array.getElem?_eq_some_iff.mp (contains_iff.mp h)
  exact lt

@[simp] theorem bound_empty (n : Nat) : (empty n).bound = n := Array.size_replicate

@[simp] theorem bound_insert (m : Marks) (i : Nat) : (m.insert i).bound = m.bound := Array.size_setIfInBounds

@[simp] theorem contains_empty (n i : Nat) : ¬ (empty n).contains i = true := by
  rw [contains_iff]
  unfold empty
  rw [Array.getElem?_replicate]
  split <;> simp

theorem contains_insert {m : Marks} {i j : Nat} :
    (m.insert i).contains j = true ↔ m.contains j = true ∨ (j = i ∧ i < m.bound) := by
  rw [contains_iff, contains_iff]
  unfold insert bound
  rw [Array.getElem?_setIfInBounds]
  by_cases e : i = j
  · subst e
    by_cases h : i < m.marks.size
    · simp [h]
    · simp [h]
  · simp [e, Ne.symm e]

theorem mem_toList {m : Marks} {i : Nat} : i ∈ m.toList ↔ m.contains i = true := by
  unfold toList
  rw [List.mem_filter, List.mem_range]
  exact ⟨fun h => h.2, fun h => ⟨contains_lt h, h⟩⟩

end Marks

namespace Flow

/-! ## What a search finds -/

def Fresh (next : Nat → List Nat) (seen : Marks) (a b : Nat) : Prop := b ∈ next a ∧ seen.lacks b = true

theorem lacks_insert {seen : Marks} {i j : Nat} : (seen.insert i).lacks j = true ↔ seen.lacks j = true ∧ j ≠ i := by
  rw [Marks.lacks_iff, Marks.lacks_iff, Marks.contains_insert, Marks.bound_insert]
  constructor
  · intro h
    refine ⟨⟨h.1, fun c => h.2 (.inl c)⟩, ?_⟩
    intro e
    exact h.2 (.inr ⟨e, e ▸ h.1⟩)
  · intro h
    exact ⟨h.1.1, fun c => c.elim h.1.2 fun c => h.2 c.1⟩

theorem fresh_insert (next : Nat → List Nat) (seen : Marks) (i : Nat) :
    Fresh next (seen.insert i) = Avoiding (Fresh next seen) i := by
  funext a b
  unfold Fresh Avoiding
  rw [lacks_insert]
  exact propext ⟨fun h => ⟨⟨h.1, h.2.1⟩, h.2.2⟩, fun h => ⟨h.1.1, h.1.2, h.2⟩⟩

/-- A search finds what it had, and what it can get to from `todo` through positions it did not have. -/
theorem contains_reach (next : Nat → List Nat) (todo : List Nat) (seen : Marks) (k : Nat) :
    (reach next todo seen).contains k = true ↔ seen.contains k = true ∨
      ∃ j ∈ todo, seen.lacks j = true ∧ ReflTransGen (Fresh next seen) j k := by
  induction todo, seen using reach.induct next with
  | case1 seen => simp [reach]
  | case2 i todo seen free ih =>
    unfold reach
    rw [if_pos free, ih, Marks.contains_insert, fresh_insert]
    constructor
    · intro h
      rcases h with (old | ⟨rfl, _⟩) | ⟨j, hj, lacks, way⟩
      · exact .inl old
      · exact .inr ⟨k, List.mem_cons_self, free, .refl⟩
      · have lacks := (lacks_insert.mp lacks).1
        rcases List.mem_append.mp hj with hj | hj
        · exact .inr ⟨i, List.mem_cons_self, free, ReflTransGen.head ⟨hj, lacks⟩ (Avoiding.way way)⟩
        · exact .inr ⟨j, List.mem_cons_of_mem _ hj, lacks, Avoiding.way way⟩
    · intro h
      rcases h with old | ⟨j, hj, lacks, way⟩
      · exact .inl (.inl old)
      · rcases last_visit way i with ⟨ne, way⟩ | ⟨_, way⟩
        · have hj := (List.mem_cons.mp hj).resolve_left ne
          exact .inr ⟨j, List.mem_append_right _ hj, lacks_insert.mpr ⟨lacks, ne⟩, way⟩
        · rcases ReflTransGen.cases_head way with rfl | ⟨b, s, way⟩
          · exact .inl (.inr ⟨rfl, (Marks.lacks_iff.mp free).1⟩)
          · exact .inr ⟨b, List.mem_append_left _ s.1.1, lacks_insert.mpr ⟨s.1.2, s.2⟩, way⟩
  | case3 i todo seen taken ih =>
    unfold reach
    rw [if_neg taken, ih]
    constructor
    · intro h
      exact h.imp id fun ⟨j, hj, lacks, way⟩ => ⟨j, List.mem_cons_of_mem _ hj, lacks, way⟩
    · intro h
      refine h.imp id fun ⟨j, hj, lacks, way⟩ => ⟨j, ?_, lacks, way⟩
      refine (List.mem_cons.mp hj).resolve_left fun e => taken ?_
      rw [← e]
      exact lacks

/-! ## Live positions and dominance -/

variable {g : Flow} {d e i j u w : Nat}

def Edge (g : Flow) (u w : Nat) : Prop := w ∈ g.succs u

def Live (g : Flow) (i : Nat) : Prop := ReflTransGen g.Edge root i

def Around (g : Flow) (d i : Nat) : Prop := root ≠ d ∧ ReflTransGen (Avoiding g.Edge d) root i

/-- Every way from the root to `i` passes through `d`, and there is one. -/
def Dominates (g : Flow) (d i : Nat) : Prop := g.Live i ∧ ¬ g.Around d i

theorem Edge.source_lt (h : g.Edge u w) : u < g.size := by
  unfold Edge succs at h
  by_cases lt : u < g.edges.size
  · exact lt
  · rw [Array.getElem?_eq_none (Nat.le_of_not_lt lt)] at h
    cases h

theorem Edge.target_lt (h : g.Edge u w) : w < g.size := by
  have lt : u < g.edges.size := h.source_lt
  unfold Edge succs at h
  rw [Array.getElem?_eq_getElem lt] at h
  exact g.inside _ (by rw [Array.mem_toList_iff]; exact Array.getElem_mem lt) w h

theorem Live.edge (h : g.Live u) (s : g.Edge u w) : g.Live w := ReflTransGen.tail h s

theorem root_live (g : Flow) : g.Live root := .refl

theorem Live.lt (h : g.Live i) (ne : 0 < g.size) : i < g.size := by
  cases h with
  | refl => exact ne
  | tail _ s => exact s.target_lt

theorem Around.live (h : g.Around d i) : g.Live i := Avoiding.way h.2

theorem Around.ne (h : g.Around d i) : i ≠ d := Avoiding.ne h.2 h.1

theorem Around.edge (h : g.Around d u) (s : g.Edge u w) (ne : w ≠ d) : g.Around d w := ⟨h.1, h.2.tail ⟨s, ne⟩⟩

theorem Around.ways (h : g.Around d u) (s : ReflTransGen (Avoiding g.Edge d) u w) : g.Around d w :=
  ⟨h.1, h.2.trans s⟩

theorem Dominates.way (h : g.Dominates d i) : g.Live d ∧ ReflTransGen (Avoiding g.Edge d) d i := by
  rcases last_visit h.1 d with around | after
  · exact absurd around h.2
  · exact after

theorem Dominates.refl (h : g.Live i) : g.Dominates i i := ⟨h, fun a => a.ne rfl⟩

/-- On the way to `k`, one of two positions may come first. -/
theorem Live.first {k : Nat} (h : g.Live k) (ne : d ≠ e) :
    (g.Around d k ∧ g.Around e k) ∨ g.Around e d ∨ g.Around d e := by
  induction h with
  | refl =>
    by_cases hd : root = d
    · exact .inr (.inl ⟨hd ▸ ne, hd ▸ .refl⟩)
    · by_cases he : root = e
      · exact .inr (.inr ⟨he ▸ Ne.symm ne, he ▸ .refl⟩)
      · exact .inl ⟨⟨hd, .refl⟩, ⟨he, .refl⟩⟩
  | tail way s ih =>
    rename_i b c
    rcases ih with ⟨hd, he⟩ | later
    · by_cases ed : c = d
      · subst ed
        exact .inr (.inl (he.edge s ne))
      · by_cases ee : c = e
        · subst ee
          exact .inr (.inr (hd.edge s (Ne.symm ne)))
        · exact .inl ⟨hd.edge s ed, he.edge s ee⟩
    · exact .inr later

theorem Dominates.trans (outer : g.Dominates d e) (inner : g.Dominates e i) : g.Dominates d i := by
  refine ⟨inner.1, fun around => ?_⟩
  -- A way that avoids `d` leads through `e`, so its first part is a way to `e` that avoids `d`.
  rcases last_visit around.2 e with ⟨ne, way⟩ | ⟨way, _⟩
  · exact inner.2 ⟨ne, ReflTransGen.mono (fun _ _ s => ⟨s.1.1, s.2⟩) _ _ way⟩
  · exact outer.2 ⟨around.1, way⟩

theorem Dominates.antisymm (h : g.Dominates d e) (h' : g.Dominates e d) : d = e := by
  by_contra ne
  rcases h'.1.first ne with ⟨around, _⟩ | around | around
  · exact around.ne rfl
  · exact h'.2 around
  · exact h.2 around

/-- The dominators of a position form a chain. -/
theorem Dominates.total (h : g.Dominates d i) (h' : g.Dominates e i) : g.Dominates d e ∨ g.Dominates e d := by
  by_contra none
  rw [not_or] at none
  have aroundD : g.Around d e := by
    by_contra no
    exact none.1 ⟨h'.way.1, no⟩
  have aroundE : g.Around e d := by
    by_contra no
    exact none.2 ⟨h.way.1, no⟩
  -- Whichever of the two a way to `i` visits last, it can be reached around the other one.
  rcases last_visit h.way.2 e with ⟨_, after⟩ | ⟨_, after⟩
  · exact h'.2 (aroundE.ways (ReflTransGen.mono (fun _ _ s => ⟨s.1.1, s.2⟩) _ _ after))
  · exact h.2 (aroundD.ways (ReflTransGen.mono (fun _ _ s => s.1) _ _ after))

/-- A live position other than the root is entered by an edge whose source it does not dominate. -/
theorem Live.entered (h : g.Live i) (ne : i ≠ root) : ∃ u, g.Around i u ∧ g.Edge u i := by
  have first : ∀ {k}, g.Live k → g.Around i k ∨ ∃ u, g.Around i u ∧ g.Edge u i := by
    intro k hk
    induction hk with
    | refl => exact .inl ⟨Ne.symm ne, .refl⟩
    | tail way s ih =>
      rename_i b c
      rcases ih with around | found
      · by_cases e : c = i
        · subst e
          exact .inr ⟨b, around, s⟩
        · exact .inl (around.edge s e)
      · exact .inr found
  rcases first h with around | found
  · exact absurd rfl around.ne
  · exact found

/-! ## The searches compute them -/

theorem fresh_empty (g : Flow) : Fresh g.succs (.empty g.size) = g.Edge := by
  funext a b
  unfold Fresh
  rw [Marks.lacks_iff]
  exact propext ⟨fun h => h.1, fun h => ⟨h, by simpa using Edge.target_lt h, by simp⟩⟩

theorem lacks_root (ne : 0 < g.size) : (Marks.empty g.size).lacks root = true :=
  Marks.lacks_iff.mpr ⟨by rwa [Marks.bound_empty], by simp⟩

def reachable (g : Flow) : Marks := reach g.succs [root] (.empty g.size)

theorem contains_reachable (ne : 0 < g.size) : g.reachable.contains i = true ↔ g.Live i := by
  unfold reachable
  rw [contains_reach, fresh_empty]
  constructor
  · intro h
    rcases h with h | ⟨j, hj, _, way⟩
    · exact absurd h (by simp)
    · rw [List.mem_singleton.mp hj] at way
      exact way
  · intro h
    exact .inr ⟨root, List.mem_singleton.mpr rfl, lacks_root ne, h⟩

def reachableAround (g : Flow) (d : Nat) : Marks :=
  reach g.succs [root] ((Marks.empty g.size).insert d)

theorem contains_reachableAround (ne : 0 < g.size) (hd : d < g.size) :
    (g.reachableAround d).contains i = true ↔ i = d ∨ g.Around d i := by
  unfold reachableAround
  rw [contains_reach, fresh_insert, fresh_empty, Marks.contains_insert]
  constructor
  · intro h
    rcases h with (h | ⟨rfl, _⟩) | ⟨j, hj, lacks, way⟩
    · exact absurd h (by simp)
    · exact .inl rfl
    · obtain rfl := List.mem_singleton.mp hj
      exact .inr ⟨(lacks_insert.mp lacks).2, way⟩
  · intro h
    rcases h with rfl | ⟨rootNe, way⟩
    · exact .inl (.inr ⟨rfl, by simpa using hd⟩)
    · exact .inr ⟨root, List.mem_singleton.mpr rfl, lacks_insert.mpr ⟨lacks_root ne, rootNe⟩, way⟩

def dominates (g : Flow) (d i : Nat) : Bool :=
  g.reachable.contains d && g.reachable.contains i && (d = i || !(g.reachableAround d).contains i)

/-- The tree answers dominance as the paths of the graph define it. -/
theorem dominates_iff (ne : 0 < g.size) : g.dominates d i = true ↔ g.Dominates d i := by
  unfold dominates
  rw [Bool.and_eq_true, Bool.and_eq_true, contains_reachable ne, contains_reachable ne]
  constructor
  · rintro ⟨⟨hd, hi⟩, through⟩
    refine ⟨hi, fun around => ?_⟩
    have found := (contains_reachableAround (d := d) ne (hd.lt ne)).mpr (.inr around)
    rw [found, Bool.not_true, Bool.or_false] at through
    exact around.ne (of_decide_eq_true through).symm
  · intro h
    have live := h.way.1
    refine ⟨⟨live, h.1⟩, ?_⟩
    by_cases same : d = i
    · simp [same]
    · have off : ¬ (g.reachableAround d).contains i = true := by
        rw [contains_reachableAround ne (live.lt ne)]
        rintro (e | around)
        · exact same e.symm
        · exact h.2 around
      simp [off]

end Flow

end PathMerge
