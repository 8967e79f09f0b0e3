/-
  PathMerge.Proofs.NaturalLoops — the loops that are found are the natural loops, and they form a forest.

  Going up the complete dominator tree from a live position meets its dominators and nothing else
  (`isAbove_iff`), so the edges that are followed are the back edges. A body is grown one back edge at a time,
  and what it holds already stops the search; but a search from one list of positions and then from another
  marks the same as a search from both (`reach_append`). So each body is what one search from all back edges of
  its head finds, whatever the order in which they were met, and `findLoops` returns the loops that `loops`
  gives (`findLoops_eq`).

  What the bodies are, in terms of ways through the graph, is then known of `loops`, and so is how two of them
  lie to each other: a loop is entered at its head only, and two loops with a position in common are nested.
-/

import PathMerge.Proofs.DominatorTree

namespace PathMerge.Flow

open Relation

variable {g : Flow} {a b h i u : Nat} {l : List Nat} {tree : Table}

/-! ## Dominators are met on the way up -/

/-- Climbing the complete tree from a position meets exactly its dominators. -/
theorem isAbove_iff (complete : Complete g l tree) {steps : Nat} (live : g.Live b) (enough : place l b < steps) :
    ∃ answer, isAbove tree steps a b = .ok answer ∧ (answer = true ↔ g.Dominates a b) := by
  induction steps generalizing b with
  | zero => exact absurd enough (Nat.not_lt_zero _)
  | succ steps ih =>
    unfold isAbove
    by_cases same : a = b
    · subst same
      exact ⟨true, if_pos rfl, iff_of_true rfl (.refl live)⟩
    rw [if_neg same]
    obtain ⟨d, parent⟩ := complete.full b live
    have immediate := complete.immediate parent
    rw [parent]
    dsimp only
    by_cases top : b = root
    · subst top
      obtain rfl := immediate.dominates.root_eq
      exact ⟨false, if_pos rfl, iff_of_false (by simp) fun dom => same dom.root_eq⟩
    · rw [if_neg (immediate.strict top)]
      have up := complete.rooted.up parent top
      obtain ⟨answer, found, iff⟩ := ih immediate.dominates.way.1 (by omega)
      refine ⟨answer, found, iff.trans ⟨fun dom => dom.trans immediate.dominates, fun dom => ?_⟩⟩
      exact immediate.closest a dom same

theorem Complete.has_iff (complete : Complete g l tree) : (tree.get? i).isSome = true ↔ g.Live i := by
  rw [Option.isSome_iff_exists]
  exact ⟨fun ⟨_, parent⟩ => complete.rooted.live parent, complete.full i⟩

theorem Complete.has_eq (complete : Complete g l tree) (ne : 0 < g.size) (i : Nat) :
    (tree.get? i).isSome = g.reachable.contains i := by
  rw [Bool.eq_iff_iff, complete.has_iff, contains_reachable ne]

/-! ## Searching in turns -/

/-- Searching from some positions and then from others is searching from all of them. -/
theorem reach_append (next : Nat → List Nat) (todo more : List Nat) (seen : Marks) :
    reach next (todo ++ more) seen = reach next more (reach next todo seen) := by
  induction todo, seen using reach.induct next with
  | case1 seen =>
    have none : reach next [] seen = seen := by rw [reach]
    rw [List.nil_append, none]
  | case2 i todo seen free ih =>
    have step : ∀ rest, reach next (i :: rest) seen = reach next (next i ++ rest) (seen.insert i) := by
      intro rest
      rw [reach, if_pos free]
    rw [List.cons_append, step, step, ← List.append_assoc, ih]
  | case3 i todo seen taken ih =>
    have step : ∀ rest, reach next (i :: rest) seen = reach next rest seen := by
      intro rest
      rw [reach, if_neg taken]
    rw [List.cons_append, step, step, ih]

def bodyFrom (g : Flow) (h : Nat) : List Nat → Option Marks
  | [] => none
  | latches => some (reach g.liveBefore latches ((Marks.empty g.size).insert h))

theorem bodyFrom_append (h u : Nat) (latches : List Nat) : g.bodyFrom h (latches ++ [u]) =
    some (reach g.liveBefore [u] ((g.bodyFrom h latches).getD ((Marks.empty g.size).insert h))) := by
  cases latches with
  | nil => rfl
  | cons v latches => exact congrArg some (reach_append _ (v :: latches) [u] _)

/-! ## Following the edges -/

namespace Bodies

variable {bodies : Bodies}

@[simp] theorem get?_empty (n h : Nat) : (empty n).get? h = none := by
  unfold get? empty
  rw [Array.getElem?_replicate]
  split <;> rfl

theorem get?_insert {m : Marks} (inside : h < bodies.entries.size) (i : Nat) :
    (bodies.insert h m).get? i = if i = h then some m else bodies.get? i := by
  unfold get? insert
  rw [Array.getElem?_setIfInBounds]
  by_cases same : i = h
  · subst same
    rw [if_pos rfl, if_pos inside, if_pos rfl]
    rfl
  · rw [if_neg (Ne.symm same), if_neg same]

end Bodies

def latchesAmong (g : Flow) (edges : List (Nat × Nat)) (h : Nat) : List Nat :=
  (edges.filter fun e => e.2 = h && g.dominates h e.1).map (·.1)

/-- Each body is what the back edges among `edges` make of it. -/
structure Followed (g : Flow) (edges : List (Nat × Nat)) (bodies : Bodies) : Prop where
  bound : bodies.entries.size = g.size
  grown : ∀ h, bodies.get? h = g.bodyFrom h (g.latchesAmong edges h)

theorem latchesAmong_append {edges : List (Nat × Nat)} {e : Nat × Nat} (h : Nat) :
    g.latchesAmong (edges ++ [e]) h =
      g.latchesAmong edges h ++ if e.2 = h ∧ g.dominates h e.1 = true then [e.1] else [] := by
  unfold latchesAmong
  rw [List.filter_append, List.map_append]
  congr 1
  by_cases back : e.2 = h ∧ g.dominates h e.1 = true
  · simp [back]
  · rw [if_neg back, List.filter_cons_of_neg (by simpa using back)]
    rfl

/-- Following one more edge grows the body of its head if the edge goes back, and no other body. -/
theorem follow_followed (dfs : g.DepthFirst l) (complete : Complete g l tree) (ne : 0 < g.size)
    {edges : List (Nat × Nat)} {bodies : Bodies} (followed : Followed g edges bodies) (live : g.Live u)
    (edge : g.Edge u h) :
    ∃ bodies', g.follow tree g.sources bodies (u, h) = .ok bodies' ∧ Followed g (edges ++ [(u, h)]) bodies' := by
  obtain ⟨answer, found, iff⟩ := isAbove_iff (a := h) complete live (dfs.place_lt ne live)
  have before : (fun i => ((g.sources[i]?).getD []).filter fun j => (tree.get? j).isSome) = g.liveBefore := by
    funext i
    rw [getD_sources, funext (complete.has_eq ne)]
    rfl
  unfold follow
  simp only [found, before]
  cases answer with
  | false =>
    have forward : ¬ g.dominates h u = true := fun dom => by simpa using iff.mpr ((dominates_iff ne).mp dom)
    refine ⟨bodies, rfl, followed.bound, fun k => ?_⟩
    have other : ¬ (h = k ∧ g.dominates k u = true) := by
      rintro ⟨rfl, dom⟩
      exact forward dom
    rw [latchesAmong_append, if_neg other, List.append_nil]
    exact followed.grown k
  | true =>
    have back : g.dominates h u = true := (dominates_iff ne).mpr (iff.mp rfl)
    refine ⟨_, rfl, ?_, fun k => ?_⟩
    · exact Array.size_setIfInBounds.trans followed.bound
    · rw [Bodies.get?_insert (followed.bound ▸ edge.target_lt), latchesAmong_append, followed.grown h]
      by_cases same : k = h
      · subst same
        rw [if_pos rfl, if_pos ⟨rfl, back⟩, bodyFrom_append]
      · rw [if_neg same, if_neg (fun other => same other.1.symm), List.append_nil]
        exact followed.grown k

theorem foldlM_follow (dfs : g.DepthFirst l) (complete : Complete g l tree) (ne : 0 < g.size)
    {done edges : List (Nat × Nat)} {bodies : Bodies} (followed : Followed g done bodies)
    (all : ∀ e ∈ edges, g.Live e.1 ∧ g.Edge e.1 e.2) :
    ∃ bodies', edges.foldlM (g.follow tree g.sources) bodies = .ok bodies' ∧ Followed g (done ++ edges) bodies' := by
  induction edges generalizing done bodies with
  | nil => exact ⟨bodies, rfl, by rwa [List.append_nil]⟩
  | cons e edges ih =>
    obtain ⟨⟨live, edge⟩, rest⟩ := List.forall_mem_cons.mp all
    obtain ⟨bodies₁, first, followed₁⟩ := follow_followed dfs complete ne followed live edge
    obtain ⟨bodies', others, followed'⟩ := ih followed₁ rest
    refine ⟨bodies', ?_, by rwa [List.append_assoc] at followed'⟩
    rw [List.foldlM_cons, first]
    exact others

/-! ## The loops that are found -/

theorem mem_edgesWithin (complete : Complete g l tree) {e : Nat × Nat} (he : e ∈ g.edgesWithin tree) :
    g.Live e.1 ∧ g.Edge e.1 e.2 := by
  unfold edgesWithin at he
  obtain ⟨i, hi, he⟩ := List.mem_flatMap.mp he
  obtain ⟨t, ht, rfl⟩ := List.mem_map.mp he
  exact ⟨complete.has_iff.mp (List.mem_filter.mp hi).2, ht⟩

/-- In the order of the edges, the back edges to `h` come from its latches in their order. -/
theorem latchesAmong_edgesWithin (complete : Complete g l tree) (ne : 0 < g.size) (h : Nat) :
    g.latchesAmong (g.edgesWithin tree) h = g.latches h := by
  unfold latchesAmong edgesWithin latches liveBefore preds
  rw [funext (complete.has_eq ne)]
  induction g.positions with
  | nil => rfl
  | cons i rest ih =>
    have here : ((g.succs i).filterMap fun t => if t = h then some i else none) =
        ((g.succs i).filter (· = h)).map fun _ => i := by
      induction g.succs i with
      | nil => rfl
      | cons t ts ih => by_cases same : t = h <;> simp [same, ih]
    rw [List.flatMap_cons, List.filter_append, List.filter_append, ← ih, here, List.filter_cons]
    by_cases live : g.reachable.contains i = true
    · by_cases dom : g.dominates h i = true
      · simp [live, dom, List.filter_map, Function.comp_def]
      · simp [live, dom, List.filter_map, Function.comp_def]
    · simp [live]

theorem loopsAlong_eq (dfs : g.DepthFirst l) (complete : Complete g l tree) (ne : 0 < g.size) :
    g.loopsAlong tree = .ok g.loops := by
  have none : Followed g [] (.empty g.size) := ⟨Array.size_replicate, fun h => Bodies.get?_empty _ h⟩
  obtain ⟨bodies, found, followed⟩ := foldlM_follow dfs complete ne none fun e he => mem_edgesWithin complete he
  unfold loopsAlong loops
  rw [found]
  refine congrArg Except.ok (List.filterMap_congr fun h _ => ?_)
  rw [followed.grown, List.nil_append, latchesAmong_edgesWithin complete ne]
  unfold loopAt?
  cases g.latches h <;> rfl

theorem findLoops_eq (ne : 0 < g.size) : g.findLoops = .ok g.loops := by
  obtain ⟨l, tree, dfs, done, complete⟩ := dominatorTree_settles ne
  unfold findLoops
  rw [done]
  exact loopsAlong_eq dfs complete ne

/-! ## What the loops are -/

theorem loops_increasing (ne : 0 < g.size) : g.loops.Pairwise (·.head < ·.head) := by
  unfold loops positions
  refine List.pairwise_lt_range.filterMap _ fun i j lt k hk m hm => ?_
  rw [(natural_of_loopAt? ne hk).1, (natural_of_loopAt? ne hm).1]
  exact lt

theorem Natural.latch {k : Loop} (n : g.Natural k) : ∃ u, g.BackEdge u k.head := by
  obtain ⟨_, u, back, _⟩ := n.head
  exact ⟨u, back⟩

/-- The loops that are found are the natural loops: one for every position with a back edge to it, in increasing
order. The body of a loop is its head and all live positions from which the source of a back edge to the head can be
reached without passing through the head; the exits are the positions of the body with an edge out of it. -/
theorem findLoops_natural (g : Flow) (ne : 0 < g.size) : ∃ found, g.findLoops = .ok found ∧
    found.Pairwise (·.head < ·.head) ∧
    (∀ h, (∃ k ∈ found, k.head = h) ↔ ∃ u, g.Live u ∧ g.Edge u h ∧ g.Dominates h u) ∧
    ∀ k ∈ found,
      (∀ i, i ∈ k.body ↔ i = k.head ∨ i ≠ k.head ∧ g.Live i ∧ ∃ u, g.Live u ∧ g.Edge u k.head ∧ g.Dominates k.head u ∧
        ReflTransGen (Avoiding g.Edge k.head) i u) ∧
      (∀ i, i ∈ k.exits ↔ i ∈ k.body ∧ ∃ t, g.Edge i t ∧ t ∉ k.body) ∧ k.body.Nodup ∧ k.exits.Nodup := by
  refine ⟨g.loops, findLoops_eq ne, loops_increasing ne, fun h => ⟨?_, ?_⟩, fun k hk => ?_⟩
  · rintro ⟨k, hk, rfl⟩
    obtain ⟨u, edge, dom⟩ := (mem_loops ne hk).latch
    exact ⟨u, dom.1, edge, dom⟩
  · rintro ⟨u, _, edge, dom⟩
    exact exists_loop ne (BackEdge.inLoop ⟨edge, dom⟩).head
  · have natural := mem_loops ne hk
    refine ⟨fun i => natural.body.trans ⟨?_, ?_⟩, fun i => ?_, natural.nodup, natural.exits_nodup⟩
    · rintro ⟨live, u, back, rfl | ⟨other, way⟩⟩
      · exact .inl rfl
      · exact .inr ⟨other, live, u, back.2.1, back.1, back.2, way⟩
    · rintro (rfl | ⟨other, live, u, _, edge, dom, way⟩)
      · exact natural.head
      · exact ⟨live, u, ⟨edge, dom⟩, .inr ⟨other, way⟩⟩
    · rw [natural.exits, natural.body]
      exact and_congr_right fun _ => exists_congr fun t => and_congr_right fun _ => not_congr natural.body.symm

/-- A loop within a loop, both with two back edges, a position that cannot be reached and leads into them, and behind
them two positions that lead to each other and are both entered from outside. -/
def braided : Flow := ⟨#[[1], [2, 6], [3, 4], [2, 4], [1, 5], [1, 2], [8, 9], [3], [9], [8]], by decide⟩

theorem braided_loops : braided.findLoops = .ok [⟨1, [1, 2, 3, 4, 5], [1]⟩, ⟨2, [2, 3, 4, 5], [4, 5]⟩] := by cbv

theorem findLoops_natural_braided : braided.findLoops = .ok [⟨1, [1, 2, 3, 4, 5], [1]⟩, ⟨2, [2, 3, 4, 5], [4, 5]⟩] ∧
    (¬ ∃ u, braided.Live u ∧ braided.Edge u 8 ∧ braided.Dominates 8 u) ∧
    ∃ u, braided.Live u ∧ braided.Edge u 2 ∧ braided.Dominates 2 u ∧ ReflTransGen (Avoiding braided.Edge 2) 4 u := by
  obtain ⟨found, done, _, heads, loops⟩ := findLoops_natural braided (by decide)
  obtain rfl := Except.ok.inj (braided_loops.symm.trans done)
  refine ⟨braided_loops, ?_, ?_⟩
  · rw [← heads 8]
    decide
  · obtain ⟨body, _⟩ := loops ⟨2, [2, 3, 4, 5], [4, 5]⟩ (by decide)
    obtain top | ⟨_, _, latch⟩ := (body 4).mp (by decide)
    · exact absurd top (by decide)
    · exact latch

/-! ## How the loops lie to each other -/

theorem loop_eq_of_head (ne : 0 < g.size) {k m : Loop} (hk : k ∈ g.loops) (hm : m ∈ g.loops) (same : k.head = m.head) :
    k = m :=
  List.inj_on_of_nodup_map (loops_nodup ne) hk hm same

/-- A loop that has the head of another one in its body holds all of it, and not the other way around. -/
theorem Natural.outer {k m : Loop} (outer : g.Natural k) (inner : g.Natural m) (holds : g.InLoop k.head m.head)
    (other : k.head ≠ m.head) : m.body.toFinset ⊂ k.body.toFinset ∧ k.head ∉ m.body := by
  have outside : k.head ∉ m.body := fun back => other (holds.antisymm (inner.body.mp back))
  refine ⟨Finset.ssubset_iff_subset_ne.mpr ⟨fun i hi => ?_, fun same => outside ?_⟩, outside⟩
  · rw [List.mem_toFinset] at hi ⊢
    exact outer.body.mpr (holds.trans (inner.body.mp hi))
  · rw [← List.mem_toFinset, same, List.mem_toFinset]
    exact outer.body.mpr outer.head

/-- The loops that are found form a forest in which each is entered at its head: the head dominates the body, an edge
from a live position outside leads to the head, and one to the outside starts at an exit. Two different loops have no
position in common, or one lies strictly within the other and does not hold its head. -/
theorem findLoops_forest (g : Flow) (ne : 0 < g.size) : ∃ found, g.findLoops = .ok found ∧
    (∀ k ∈ found, (∀ i ∈ k.body, g.Dominates k.head i) ∧
      (∀ u w, g.Live u → g.Edge u w → u ∉ k.body → w ∈ k.body → w = k.head) ∧
      (∀ u w, g.Edge u w → u ∈ k.body → w ∉ k.body → u ∈ k.exits)) ∧
    ∀ k ∈ found, ∀ m ∈ found, k ≠ m → k.body.Disjoint m.body ∨
      (m.body.toFinset ⊂ k.body.toFinset ∧ k.head ∉ m.body) ∨
      (k.body.toFinset ⊂ m.body.toFinset ∧ m.head ∉ k.body) := by
  refine ⟨g.loops, findLoops_eq ne, fun k hk => ?_, fun k hk m hm differ => ?_⟩
  · have natural := mem_loops ne hk
    refine ⟨fun i hi => (natural.body.mp hi).dominated, fun u w live edge outside inside => ?_,
      fun u w edge inside outside => ?_⟩
    · by_contra inner
      exact outside (natural.body.mpr ((natural.body.mp inside).pred inner edge live))
    · exact natural.exits.mpr ⟨natural.body.mp inside, w, edge, fun back => outside (natural.body.mpr back)⟩
  · have naturalK := mem_loops ne hk
    have naturalM := mem_loops ne hm
    have other : k.head ≠ m.head := fun same => differ (loop_eq_of_head ne hk hm same)
    by_cases common : k.body.Disjoint m.body
    · exact .inl common
    · obtain ⟨i, inK, inM⟩ : ∃ i, i ∈ k.body ∧ i ∈ m.body := by
        by_contra none
        exact common fun i inK inM => none ⟨i, inK, inM⟩
      rcases (naturalK.body.mp inK).nested (naturalM.body.mp inM) with holds | holds
      · exact .inr (.inl (naturalK.outer naturalM holds other))
      · exact .inr (.inr (naturalM.outer naturalK holds (Ne.symm other)))

theorem findLoops_forest_braided : braided.findLoops = .ok [⟨1, [1, 2, 3, 4, 5], [1]⟩, ⟨2, [2, 3, 4, 5], [4, 5]⟩] ∧
    braided.Dominates 2 5 ∧ 1 ∉ [2, 3, 4, 5] ∧
    ∀ u w, braided.Live u → braided.Edge u w → u ∉ [2, 3, 4, 5] → w ∈ [2, 3, 4, 5] → w = 2 := by
  obtain ⟨found, done, each, pairs⟩ := findLoops_forest braided (by decide)
  obtain rfl := Except.ok.inj (braided_loops.symm.trans done)
  obtain ⟨dominated, entered, _⟩ := each ⟨2, [2, 3, 4, 5], [4, 5]⟩ (by decide)
  refine ⟨braided_loops, dominated 5 (by decide), ?_, entered⟩
  have apart := pairs ⟨1, [1, 2, 3, 4, 5], [1]⟩ (by decide) ⟨2, [2, 3, 4, 5], [4, 5]⟩ (by decide) (by decide)
  obtain disjoint | ⟨_, outside⟩ | ⟨_, outside⟩ := apart
  · exact absurd (disjoint (a := 2) (by decide)) (by decide)
  · exact outside
  · exact absurd outside (by decide)

end PathMerge.Flow
