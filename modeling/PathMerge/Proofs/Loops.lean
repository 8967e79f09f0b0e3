/-
  PathMerge.Proofs.Loops — the natural loops of a flow graph.

  `InLoop h i` says that `i` is live and gets back to `h` along a back edge of `h` without passing
  through `h` before. Two loops with a position in common are nested (`InLoop.nested`, `InLoop.trans`), and
  a loop is entered at its head only (`InLoop.pred`). The loops of a layout are these (`Natural`), one for
  each head.

  An edge is forward if its target does not dominate its source. In a reducible graph forward edges
  never lead back, so along them one can argue by well-founded induction (`Reducible.wf`).
-/

import Mathlib
import PathMerge.Proofs.Graph
import PathMerge.Walk

namespace PathMerge

open Relation

namespace Flow

variable {g : Flow} {h i j k u w : Nat}

def BackEdge (g : Flow) (u h : Nat) : Prop := g.Edge u h ∧ g.Dominates h u

def Forward (g : Flow) (u w : Nat) : Prop := g.Edge u w ∧ ¬ g.Dominates w u

/-- Every cycle of live positions has an edge to a dominator of its source. -/
def Reducible (g : Flow) : Prop := ∀ i, g.Live i → ¬ TransGen g.Forward i i

def InLoop (g : Flow) (h i : Nat) : Prop :=
  g.Live i ∧ ∃ u, g.BackEdge u h ∧ (i = h ∨ (i ≠ h ∧ ReflTransGen (Avoiding g.Edge h) i u))

/-! ## Forward edges -/

/-- Positions may be ranked so that every forward edge leads to a higher one. -/
theorem reducible_of_rank (rank : Nat → Nat)
    (higher : ∀ u w, g.Live u → g.Edge u w → g.Dominates w u ∨ rank u < rank w) : g.Reducible := by
  intro i live cycle
  have climbs : ∀ {b}, TransGen g.Forward i b → g.Live b ∧ rank i < rank b := by
    intro b way
    induction way with
    | single s => exact ⟨live.edge s.1, (higher _ _ live s.1).resolve_left s.2⟩
    | tail _ s ih => exact ⟨ih.1.edge s.1, Nat.lt_trans ih.2 ((higher _ _ ih.1 s.1).resolve_left s.2)⟩
  exact Nat.lt_irrefl _ (climbs cycle).2

def Before (g : Flow) (u w : Nat) : Prop := g.Live u ∧ TransGen g.Forward u w

theorem Live.forward (live : g.Live u) (way : TransGen g.Forward u w) : g.Live w := by
  induction way with
  | single s => exact live.edge s.1
  | tail _ s ih => exact ih.edge s.1

theorem Reducible.before_wf (red : g.Reducible) (ne : 0 < g.size) : WellFounded g.Before := by
  have : IsStrictOrder Nat g.Before := {
    irrefl := fun i cycle => red i cycle.1 cycle.2
    trans := fun _ _ _ s t => ⟨s.1, s.2.trans t.2⟩ }
  have inside : ∀ {u w}, g.Before u w → u ∈ Set.Iio g.size ∧ w ∈ Set.Iio g.size :=
    fun s => ⟨s.1.lt ne, (s.1.forward s.2).lt ne⟩
  have wf := (Set.finite_Iio g.size).wellFoundedOn (r := g.Before)
  rw [Set.wellFoundedOn_iff] at wf
  exact Subrelation.wf (fun s => ⟨s, inside s⟩) wf

theorem Reducible.wf (red : g.Reducible) (ne : 0 < g.size) :
    WellFounded fun u w => g.Live u ∧ g.Forward u w :=
  Subrelation.wf (fun s => ⟨s.1, .single s.2⟩) (red.before_wf ne)

theorem Live.forward_pred (live : g.Live i) (ne : i ≠ root) : ∃ u, g.Live u ∧ g.Forward u i := by
  obtain ⟨u, around, s⟩ := live.entered ne
  exact ⟨u, around.live, s, fun dom => dom.2 around⟩

/-! ## Loops -/

theorem BackEdge.inLoop (back : g.BackEdge u h) : g.InLoop h u := by
  refine ⟨back.2.1, u, back, ?_⟩
  by_cases e : u = h
  · exact .inl e
  · exact .inr ⟨e, .refl⟩

theorem InLoop.dominated (m : g.InLoop h i) : g.Dominates h i := by
  obtain ⟨live, u, back, rfl | ⟨_, way⟩⟩ := m
  · exact .refl live
  · exact ⟨live, fun around => back.2.2 (around.ways way)⟩

theorem InLoop.head (m : g.InLoop h i) : g.InLoop h h := by
  have live := m.dominated.way.1
  obtain ⟨_, u, back, _⟩ := m
  exact ⟨live, u, back, .inl rfl⟩

/-- Inside a loop there is always a way on. -/
theorem InLoop.leads (m : g.InLoop h i) : ∃ t, g.Edge i t := by
  obtain ⟨_, u, back, e | ⟨_, way⟩⟩ := m
  · subst e
    rcases ReflTransGen.cases_head back.2.way.2 with rfl | ⟨t, s, _⟩
    · exact ⟨_, back.1⟩
    · exact ⟨t, s.1⟩
  · rcases ReflTransGen.cases_head way with rfl | ⟨t, s, _⟩
    · exact ⟨h, back.1⟩
    · exact ⟨t, s.1⟩

/-- An edge closes a loop exactly if its target dominates its source. -/
theorem inLoop_iff_dominates (s : g.Edge u w) : g.InLoop w u ↔ g.Dominates w u :=
  ⟨fun m => m.dominated, fun dom => BackEdge.inLoop ⟨s, dom⟩⟩

theorem forward_iff (s : g.Edge u w) : g.Forward u w ↔ ¬ g.InLoop w u := by
  rw [inLoop_iff_dominates s]
  exact ⟨fun f => f.2, fun no => ⟨s, no⟩⟩

/-- A loop is entered at its head only. -/
theorem InLoop.pred (m : g.InLoop h i) (ne : i ≠ h) (s : g.Edge j i) (live : g.Live j) : g.InLoop h j := by
  obtain ⟨_, u, back, e | ⟨_, way⟩⟩ := m
  · exact absurd e ne
  · refine ⟨live, u, back, ?_⟩
    by_cases e : j = h
    · exact .inl e
    · exact .inr ⟨e, ReflTransGen.head ⟨s, ne⟩ way⟩

theorem InLoop.antisymm (m : g.InLoop h k) (m' : g.InLoop k h) : h = k := m.dominated.antisymm m'.dominated

/-- A loop whose head lies in another one lies in it as a whole. -/
theorem InLoop.trans (outer : g.InLoop h k) (m : g.InLoop k i) : g.InLoop h i := by
  by_cases same : h = k
  · exact same ▸ m
  · obtain ⟨live, u, back, rfl | ⟨ne, way⟩⟩ := m
    · exact outer
    · -- Backwards from the head of the inner loop, along a way that stays inside it.
      have last : g.InLoop h u := outer.pred (Ne.symm same) back.1 back.2.1
      have along : ∀ {a}, ReflTransGen (Avoiding g.Edge k) a u → g.Live a → a ≠ k → g.InLoop h a := by
        intro a way
        induction way using ReflTransGen.head_induction_on with
        | refl => exact fun _ _ => last
        | head s way ih =>
          rename_i a c
          intro liveA _
          have liveC := liveA.edge s.1
          have inner : g.InLoop k c := ⟨liveC, u, back, .inr ⟨s.2, way⟩⟩
          have : c ≠ h := by
            intro e
            subst e
            exact same (outer.antisymm inner)
          exact (ih liveC s.2).pred this s.1 liveA
      exact along way live ne

/-- Two loops with a position in common are nested. -/
theorem InLoop.nested (m : g.InLoop h i) (m' : g.InLoop k i) : g.InLoop h k ∨ g.InLoop k h := by
  have inside : ∀ {h k}, g.InLoop h i → g.InLoop k i → g.Dominates h k → g.InLoop h k := by
    intro h k m m' dom
    by_cases same : h = k
    · exact same ▸ m.head
    · have notBack : ¬ g.Dominates k h := fun back => same (dom.antisymm back)
      have around : g.Around k h := by
        by_contra no
        exact notBack ⟨dom.way.1, no⟩
      -- From its last visit of `h`, a way to `i` still has to pass through `k`.
      have after : ReflTransGen (Avoiding g.Edge h) k i := by
        rcases last_visit m.dominated.way.2 k with ⟨_, avoids⟩ | ⟨_, after⟩
        · have free : ReflTransGen (Avoiding g.Edge k) h i :=
            ReflTransGen.mono (fun _ _ s => ⟨s.1.1, s.2⟩) _ _ avoids
          exact absurd (around.ways free) m'.dominated.2
        · exact Avoiding.way after
      obtain ⟨_, u, back, rfl | ⟨_, way⟩⟩ := m
      · exact absurd m'.dominated notBack
      · exact ⟨m'.dominated.way.1, u, back, .inr ⟨Ne.symm same, after.trans way⟩⟩
  rcases m.dominated.total m'.dominated with dom | dom
  · exact .inl (inside m m' dom)
  · exact .inr (inside m' m dom)

/-! ## The loops that are computed -/

structure Natural (g : Flow) (l : Loop) : Prop where
  head : g.InLoop l.head l.head
  body : ∀ {i}, i ∈ l.body ↔ g.InLoop l.head i
  exits : ∀ {i}, i ∈ l.exits ↔ g.InLoop l.head i ∧ ∃ t, g.Edge i t ∧ ¬ g.InLoop l.head t
  nodup : l.body.Nodup
  exits_nodup : l.exits.Nodup

theorem Natural.contains {l : Loop} (n : g.Natural l) : l.contains i = true ↔ g.InLoop l.head i := by
  unfold Loop.contains
  rw [List.contains_iff_mem]
  exact n.body

/-- A loop that meets the body lies inside it, unless it is a larger one around the head. -/
theorem Natural.encloses {l : Loop} (n : g.Natural l) (outer : g.InLoop k l.head → k = l.head) (hu : u ∈ l.body)
    (mu : g.InLoop k u) (mj : g.InLoop k j) : j ∈ l.body := by
  rcases (n.body.mp hu).nested mu with inner | around
  · exact n.body.mpr (inner.trans mj)
  · exact n.body.mpr (outer around ▸ mj)

theorem mem_preds : j ∈ g.preds i ↔ g.Edge j i := by
  unfold preds positions
  simp only [List.mem_flatMap, List.mem_range, List.mem_filterMap]
  constructor
  · rintro ⟨a, _, t, ht, found⟩
    split at found
    · rename_i e
      cases found
      exact e ▸ ht
    · cases found
  · intro s
    exact ⟨j, s.source_lt, i, s, if_pos rfl⟩

theorem getD_sources (i : Nat) : (g.sources[i]?).getD [] = g.preds i := by
  unfold sources positions
  by_cases lt : i < g.size
  · simp [List.getElem?_range lt]
  · have none : g.preds i = [] := List.eq_nil_iff_forall_not_mem.mpr fun j hj => lt (mem_preds.mp hj).target_lt
    simp [none, List.getElem?_eq_none (l := List.range g.size) (i := i) (by simpa using lt)]

def liveBefore (g : Flow) (i : Nat) : List Nat := (g.preds i).filter g.reachable.contains

theorem mem_liveBefore (ne : 0 < g.size) : j ∈ g.liveBefore i ↔ g.Edge j i ∧ g.Live j := by
  unfold liveBefore
  rw [List.mem_filter, mem_preds, contains_reachable ne]

/-- Backwards from the latches, without passing through the head. -/
theorem contains_members (ne : 0 < g.size) {latches : List Nat}
    (mem : ∀ u, u ∈ latches ↔ g.BackEdge u h) (some : latches ≠ []) :
    (reach g.liveBefore latches ((Marks.empty g.size).insert h)).contains i = true ↔ g.InLoop h i := by
  obtain ⟨latch, hl⟩ := List.exists_mem_of_ne_nil latches some
  have back := (mem latch).mp hl
  have live := back.inLoop.dominated.way.1
  have lacks : ∀ {b}, g.Live b → (((Marks.empty g.size).insert h).lacks b = true ↔ b ≠ h) := by
    intro b hb
    rw [lacks_insert, Marks.lacks_iff]
    exact ⟨fun l => l.2, fun l => ⟨⟨by simpa using hb.lt ne, by simp⟩, l⟩⟩
  rw [contains_reach, Marks.contains_insert]
  constructor
  · intro found
    rcases found with (no | ⟨rfl, _⟩) | ⟨j, hj, free, way⟩
    · exact absurd no (by simp)
    · exact back.inLoop.head
    · have backJ := (mem j).mp hj
      have inside : g.InLoop h i ∧ i ≠ h := by
        induction way with
        | refl => exact ⟨backJ.inLoop, (lacks backJ.2.1).mp free⟩
        | tail _ s ih =>
          obtain ⟨edge, live⟩ := (mem_liveBefore ne).mp s.1
          exact ⟨ih.1.pred ih.2 edge live, (lacks live).mp s.2⟩
      exact inside.1
  · rintro ⟨liveI, u, backU, rfl | ⟨iNe, way⟩⟩
    · exact .inl (.inr ⟨rfl, by simpa using live.lt ne⟩)
    · have uNe : u ≠ h := Avoiding.ne way iNe
      refine .inr ⟨u, (mem u).mpr backU, (lacks backU.2.1).mpr uNe, ?_⟩
      have backwards : ∀ {a}, ReflTransGen (Avoiding g.Edge h) a u → g.Live a → a ≠ h →
          ReflTransGen (Fresh g.liveBefore ((Marks.empty g.size).insert h)) u a := by
        intro a way
        induction way using ReflTransGen.head_induction_on with
        | refl => exact fun _ _ => .refl
        | head s _ ih =>
          intro liveA aNe
          exact (ih (liveA.edge s.1) s.2).tail ⟨(mem_liveBefore ne).mpr ⟨s.1, liveA⟩, (lacks liveA).mpr aNe⟩
      exact backwards way liveI iNe

def latches (g : Flow) (h : Nat) : List Nat := (g.liveBefore h).filter (g.dominates h)

theorem mem_latches (ne : 0 < g.size) : u ∈ g.latches h ↔ g.BackEdge u h := by
  unfold latches BackEdge
  rw [List.mem_filter, mem_liveBefore ne, dominates_iff ne]
  exact ⟨fun m => ⟨m.1.1, m.2⟩, fun m => ⟨⟨m.1, m.2.1⟩, m.2⟩⟩

def loopAt? (g : Flow) (h : Nat) : Option Loop :=
  match g.latches h with
  | [] => none
  | latches => some (g.loopOf h (reach g.liveBefore latches ((Marks.empty g.size).insert h)))

/-- The natural loops head by head, each from all its back edges at once. -/
def loops (g : Flow) : List Loop := g.positions.filterMap g.loopAt?

theorem nodup_toList (m : Marks) : m.toList.Nodup := List.nodup_range.filter _

/-- What is found at a head is the natural loop of that head. -/
theorem natural_of_loopAt? (ne : 0 < g.size) {l : Loop} (found : g.loopAt? h = some l) :
    l.head = h ∧ g.Natural l := by
  unfold loopAt? at found
  split at found
  · cases found
  · rename_i some
    cases found
    have members : ∀ i, _ ↔ g.InLoop h i := fun i => contains_members (i := i) ne (fun u => mem_latches ne) some
    obtain ⟨u, hu⟩ := List.exists_mem_of_ne_nil _ some
    refine ⟨rfl, ((mem_latches ne).mp hu).inLoop.head, fun {i} => ?_, fun {i} => ?_, nodup_toList _,
      (nodup_toList _).filter _⟩
    · show i ∈ Marks.toList _ ↔ _
      rw [Marks.mem_toList]
      exact members i
    · show i ∈ List.filter _ (Marks.toList _) ↔ g.InLoop h i ∧ ∃ t, g.Edge i t ∧ ¬ g.InLoop h t
      rw [List.mem_filter, Marks.mem_toList, members, List.any_eq_true]
      refine and_congr_right fun _ => exists_congr fun t => and_congr_right fun _ => ?_
      rw [Bool.not_eq_true', ← Bool.not_eq_true, members]

theorem loopAt?_of_head (ne : 0 < g.size) (m : g.InLoop h h) : ∃ l, g.loopAt? h = some l := by
  obtain ⟨_, u, back, _⟩ := m
  have hu := (mem_latches ne).mpr back
  unfold loopAt?
  split
  · rename_i none
    rw [none] at hu
    cases hu
  · exact ⟨_, rfl⟩

theorem mem_loops (ne : 0 < g.size) {l : Loop} (m : l ∈ g.loops) : g.Natural l := by
  unfold loops at m
  obtain ⟨h, _, found⟩ := List.mem_filterMap.mp m
  exact (natural_of_loopAt? ne found).2

theorem exists_loop (ne : 0 < g.size) (m : g.InLoop h h) : ∃ l ∈ g.loops, l.head = h := by
  obtain ⟨l, found⟩ := loopAt?_of_head ne m
  refine ⟨l, ?_, (natural_of_loopAt? ne found).1⟩
  exact List.mem_filterMap.mpr ⟨h, List.mem_range.mpr (m.1.lt ne), found⟩

/-- No two loops have the same head. -/
theorem loops_nodup (ne : 0 < g.size) : (g.loops.map (·.head)).Nodup := by
  unfold loops
  have heads : ∀ positions : List Nat, positions.Nodup →
      ((positions.filterMap g.loopAt?).map (·.head)).Nodup := by
    intro positions
    induction positions with
    | nil => exact fun _ => .nil
    | cons h rest ih =>
      intro nodup
      obtain ⟨new, nodup⟩ := List.nodup_cons.mp nodup
      rw [List.filterMap_cons]
      split
      · exact ih nodup
      · rename_i l found
        rw [List.map_cons]
        refine List.nodup_cons.mpr ⟨fun hm => ?_, ih nodup⟩
        obtain ⟨l', hl', e⟩ := List.mem_map.mp hm
        obtain ⟨h', hh', found'⟩ := List.mem_filterMap.mp hl'
        rw [(natural_of_loopAt? ne found).1, (natural_of_loopAt? ne found').1] at e
        exact new (e ▸ hh')
  exact heads _ List.nodup_range

end Flow

/-! ## The loops of a layout -/

namespace Layout

open PathMerge.Flow

variable {lay : Layout} {id n i u w : Nat} {l k : Loop}

theorem getLoop_eq_ok : lay.getLoop id = .ok l ↔ lay.loops[id]? = some l := by
  unfold getLoop
  cases lay.loops[id]? <;> simp

theorem statement_eq_ok {stmt : Statement} : lay.statement i = .ok stmt ↔ lay.body[i]? = some stmt := by
  unfold statement
  cases lay.body[i]? <;> simp

structure Regular (lay : Layout) : Prop where
  filled : 0 < lay.flow.size
  loops : lay.loops = lay.flow.loops.toArray

namespace Regular

variable (reg : lay.Regular)

include reg

theorem getElem?_loops : lay.loops[id]? = lay.flow.loops[id]? := by
  rw [reg.loops]
  exact List.getElem?_toArray

theorem natural (found : lay.loops[id]? = some l) : lay.flow.Natural l := by
  rw [reg.getElem?_loops] at found
  exact mem_loops reg.filled (List.mem_of_getElem? found)

theorem unique (found : lay.loops[id]? = some l) (found' : lay.loops[n]? = some k) (same : l.head = k.head) :
    id = n := by
  rw [reg.getElem?_loops] at found found'
  have both : (lay.flow.loops.map (·.head))[id]? = (lay.flow.loops.map (·.head))[n]? := by
    rw [List.getElem?_map, List.getElem?_map, found, found', Option.map_some, Option.map_some, same]
  exact (List.getElem?_inj (by simpa using (List.getElem?_eq_some_iff.mp found).1) (loops_nodup reg.filled)).mp both

theorem exists_loop (m : lay.flow.InLoop i i) : ∃ (id : Nat) (l : Loop), lay.loops[id]? = some l ∧ l.head = i := by
  obtain ⟨l, hl, head⟩ := Flow.exists_loop reg.filled m
  obtain ⟨id, found⟩ := List.getElem?_of_mem hl
  exact ⟨id, l, reg.getElem?_loops.trans found, head⟩

omit reg in
theorem findIdx?_some {p : Loop → Bool} (h : lay.loops.findIdx? p = some id) :
    ∃ l, lay.loops[id]? = some l ∧ p l = true := by
  obtain ⟨lt, hp, _⟩ := Array.findIdx?_eq_some_iff_getElem.mp h
  exact ⟨_, Array.getElem?_eq_getElem lt, hp⟩

omit reg in
theorem findIdx?_none {p : Loop → Bool} (h : lay.loops.findIdx? p = none) (found : lay.loops[id]? = some l) :
    p l = false := by
  exact Array.findIdx?_eq_none_iff.mp h l (Array.mem_of_getElem? found)

omit reg in
theorem headedBy_some (h : lay.loopHeadedBy? i = some id) : ∃ l, lay.loops[id]? = some l ∧ l.head = i := by
  obtain ⟨l, found, hp⟩ := findIdx?_some h
  exact ⟨l, found, of_decide_eq_true hp⟩

theorem headedBy_none : lay.loopHeadedBy? i = none ↔ ¬ lay.flow.InLoop i i := by
  constructor
  · intro h m
    obtain ⟨id, l, found, head⟩ := reg.exists_loop m
    exact of_decide_eq_false (findIdx?_none h found) head
  · intro no
    rcases h : lay.loopHeadedBy? i with _ | id
    · rfl
    · obtain ⟨l, found, rfl⟩ := headedBy_some h
      exact absurd (reg.natural found).head no

theorem closedBy_some (h : lay.loopClosedBy? u w = some id) :
    ∃ l, lay.loops[id]? = some l ∧ l.head = w ∧ lay.flow.InLoop w u := by
  obtain ⟨l, found, hp⟩ := findIdx?_some h
  obtain ⟨head, inside⟩ := Bool.and_eq_true_iff.mp hp
  obtain rfl := of_decide_eq_true head
  exact ⟨l, found, rfl, (reg.natural found).contains.mp inside⟩

theorem closedBy_none : lay.loopClosedBy? u w = none ↔ ¬ lay.flow.InLoop w u := by
  constructor
  · intro h m
    obtain ⟨id, l, found, rfl⟩ := reg.exists_loop m.head
    have closes : l.isBackEdge u l.head = true := by
      unfold Loop.isBackEdge
      rw [(reg.natural found).contains.mpr m]
      simp
    rw [findIdx?_none h found] at closes
    cases closes
  · intro no
    rcases h : lay.loopClosedBy? u w with _ | id
    · rfl
    · obtain ⟨_, _, _, m⟩ := reg.closedBy_some h
      exact absurd m no

theorem closedBy_eq (found : lay.loops[id]? = some l) (m : lay.flow.InLoop l.head u) :
    lay.loopClosedBy? u l.head = some id := by
  rcases h : lay.loopClosedBy? u l.head with _ | n
  · exact absurd m (reg.closedBy_none.mp h)
  · obtain ⟨k, found', head, _⟩ := reg.closedBy_some h
    rw [reg.unique found' found head]

end Regular

end Layout

end PathMerge
