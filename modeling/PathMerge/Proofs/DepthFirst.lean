/-
  PathMerge.Proofs.DepthFirst — what the depth-first order is good for.

  The stack of the search is a way from the root. A position is finished after everything below it, and listed
  before: so whatever it was entered from stands before it in the list. `Led` says that of a list. The list has
  every live position once, and begins with the root (`reversePostorder_led`).
-/

import PathMerge.Proofs.Graph

namespace PathMerge.Flow

variable {g : Flow}

inductive Led (g : Flow) : (before : List Nat) → List Nat → Prop
  | nil (before : List Nat) : Led g before []
  | cons {before l : List Nat} {p n : Nat} (known : p ∈ before) (edge : g.Edge p n) (rest : Led g (n :: before) l) :
      Led g before (n :: l)

theorem Led.mono {before before' l : List Nat} (sub : before ⊆ before') (led : g.Led before l) : g.Led before' l := by
  induction led generalizing before' with
  | nil => exact .nil _
  | cons known edge _ ih => exact .cons (sub known) edge (ih (List.cons_subset_cons _ sub))

theorem Led.live {before l : List Nat} (led : g.Led before l) (live : ∀ p ∈ before, g.Live p) : ∀ n ∈ l, g.Live n := by
  induction led with
  | nil => exact List.forall_mem_nil _
  | cons known edge _ ih =>
    have here := (live _ known).edge edge
    exact List.forall_mem_cons.mpr ⟨here, ih (List.forall_mem_cons.mpr ⟨here, live⟩)⟩

/-! ## The search -/

inductive Descends (g : Flow) : List (Nat × List Nat) → Prop
  | root (todo : List Nat) : Descends g [(root, todo)]
  | step {i j : Nat} {todo todo' : List Nat} {stack : List (Nat × List Nat)} (edge : g.Edge j i)
      (below : Descends g ((j, todo') :: stack)) : Descends g ((i, todo) :: (j, todo') :: stack)

structure Exploring (g : Flow) (stack : List (Nat × List Nat)) (seen : Marks) (finished : List Nat) : Prop where
  bound : seen.bound = g.size
  descends : g.Descends stack
  found : ∀ i, seen.contains i = true ↔ i ∈ stack.map (·.1) ++ finished
  nodup : (stack.map (·.1) ++ finished).Nodup
  led : g.Led (stack.map (·.1)) finished
  /-- Edges still to follow are edges, and the others have been followed. -/
  todo : ∀ e ∈ stack, ∀ w ∈ e.2, g.Edge e.1 w
  followed : ∀ e ∈ stack, ∀ w, g.Edge e.1 w → w ∈ e.2 ∨ seen.contains w = true
  closed : ∀ i ∈ finished, ∀ w, g.Edge i w → seen.contains w = true

structure DepthFirst (g : Flow) (l : List Nat) : Prop where
  nodup : (root :: l).Nodup
  led : g.Led [root] l
  closed : ∀ i ∈ root :: l, ∀ w, g.Edge i w → w ∈ root :: l

/-- Entering an unseen successor keeps the invariant of the exploration. -/
theorem Exploring.push {stack : List (Nat × List Nat)} {seen : Marks} {finished ts : List Nat} {i t : Nat}
    (h : g.Exploring ((i, t :: ts) :: stack) seen finished) (free : seen.lacks t = true) :
    g.Exploring ((t, g.succs t) :: (i, ts) :: stack) (seen.insert t) finished := by
  obtain ⟨inside, new⟩ := Marks.lacks_iff.mp free
  have mem : ∀ {w}, (seen.insert t).contains w = true ↔ w = t ∨ seen.contains w = true := by
    intro w
    rw [Marks.contains_insert]
    exact ⟨fun h => h.elim .inr fun h => .inl h.1, fun h => h.elim (fun h => .inr ⟨h, inside⟩) .inl⟩
  have edge : g.Edge i t := h.todo _ List.mem_cons_self t List.mem_cons_self
  refine ⟨by rw [Marks.bound_insert, h.bound], ?_, fun w => ?_, ?_, ?_, fun e he w hw => ?_, fun e he w hw => ?_,
    fun j hj w hw => ?_⟩
  · cases h.descends with
    | root => exact .step edge (.root ts)
    | step edge' below => exact .step edge (.step edge' below)
  · rw [mem, h.found]
    simp
  · have fresh : t ∉ ((i, ts) :: stack).map (·.1) ++ finished := fun there => new ((h.found t).mpr there)
    exact List.nodup_cons.mpr ⟨fresh, h.nodup⟩
  · exact h.led.mono (List.subset_cons_self _ _)
  · rcases List.mem_cons.mp he with rfl | he
    · exact hw
    · rcases List.mem_cons.mp he with rfl | he
      · exact h.todo _ List.mem_cons_self w (List.mem_cons_of_mem _ hw)
      · exact h.todo e (List.mem_cons_of_mem _ he) w hw
  · rcases List.mem_cons.mp he with rfl | he
    · exact .inl hw
    · rcases List.mem_cons.mp he with rfl | he
      · rcases h.followed _ List.mem_cons_self w hw with left | done
        · rcases List.mem_cons.mp left with rfl | left
          · exact .inr (mem.mpr (.inl rfl))
          · exact .inl left
        · exact .inr (mem.mpr (.inr done))
      · exact (h.followed e (List.mem_cons_of_mem _ he) w hw).imp id fun done => mem.mpr (.inr done)
  · exact mem.mpr (.inr (h.closed j hj w hw))

/-- Dropping a successor seen before keeps the invariant of the exploration. -/
theorem Exploring.skip {stack : List (Nat × List Nat)} {seen : Marks} {finished ts : List Nat} {i t : Nat}
    (h : g.Exploring ((i, t :: ts) :: stack) seen finished) (taken : ¬ seen.lacks t = true) :
    g.Exploring ((i, ts) :: stack) seen finished := by
  have edge : g.Edge i t := h.todo _ List.mem_cons_self t List.mem_cons_self
  have known : seen.contains t = true := by
    by_contra new
    exact taken (Marks.lacks_iff.mpr ⟨h.bound ▸ edge.target_lt, new⟩)
  refine ⟨h.bound, ?_, h.found, h.nodup, h.led, fun e he w hw => ?_, fun e he w hw => ?_, h.closed⟩
  · cases h.descends with
    | root => exact .root ts
    | step edge' below => exact .step edge' below
  · rcases List.mem_cons.mp he with rfl | he
    · exact h.todo _ List.mem_cons_self w (List.mem_cons_of_mem _ hw)
    · exact h.todo e (List.mem_cons_of_mem _ he) w hw
  · rcases List.mem_cons.mp he with rfl | he
    · rcases h.followed _ List.mem_cons_self w hw with left | done
      · rcases List.mem_cons.mp left with rfl | left
        · exact .inr known
        · exact .inl left
      · exact .inr done
    · exact h.followed e (List.mem_cons_of_mem _ he) w hw

/-- What is popped was entered from the position below it, and stands before all that was entered from it. -/
theorem Exploring.pop {stack : List (Nat × List Nat)} {seen : Marks} {finished todo : List Nat} {i j : Nat}
    (h : g.Exploring ((i, []) :: (j, todo) :: stack) seen finished) :
    g.Exploring ((j, todo) :: stack) seen (i :: finished) := by
  have moved :
    (((j, todo) :: stack).map (·.1) ++ i :: finished).Perm (i :: (((j, todo) :: stack).map (·.1) ++ finished)) :=
    List.perm_middle
  refine ⟨h.bound, ?_, fun w => (h.found w).trans moved.mem_iff.symm, moved.nodup_iff.mpr h.nodup, ?_,
    fun e he => h.todo e (List.mem_cons_of_mem _ he), fun e he => h.followed e (List.mem_cons_of_mem _ he),
    fun k hk w hw => ?_⟩
  · cases h.descends with
    | step _ below => exact below
  · cases h.descends with
    | step edge _ => exact .cons List.mem_cons_self edge h.led
  · rcases List.mem_cons.mp hk with rfl | hk
    · exact (h.followed _ List.mem_cons_self w hw).resolve_left List.not_mem_nil
    · exact h.closed k hk w hw

theorem Exploring.finish {seen : Marks} {finished : List Nat} {i : Nat} (h : g.Exploring [(i, [])] seen finished) :
    i = root ∧ g.DepthFirst finished := by
  obtain rfl : i = root := by
    cases h.descends
    rfl
  refine ⟨rfl, h.nodup, h.led, fun k hk w hw => (h.found w).mp ?_⟩
  rcases List.mem_cons.mp hk with rfl | hk
  · exact (h.followed _ List.mem_cons_self w hw).resolve_left List.not_mem_nil
  · exact h.closed k hk w hw

/-- Exploring from the entry lists it first, and the rest in a depth-first order. -/
theorem explore_led {stack : List (Nat × List Nat)} {seen : Marks} {finished : List Nat}
    (h : g.Exploring stack seen finished) : ∃ l, g.explore stack seen finished = root :: l ∧ g.DepthFirst l := by
  induction stack, seen, finished using explore.induct g with
  | case1 => cases h.descends
  | case2 i stack seen finished ih =>
    rw [explore]
    cases stack with
    | nil =>
      obtain ⟨rfl, done⟩ := h.finish
      exact ⟨finished, by rw [explore], done⟩
    | cons below stack => exact ih h.pop
  | case3 i t ts stack seen finished free ih =>
    rw [explore, if_pos free]
    exact ih (h.push free)
  | case4 i t ts stack seen finished taken ih =>
    rw [explore, if_neg taken]
    exact ih (h.skip taken)

/-- The search begins at the root. -/
theorem exploring_root (ne : 0 < g.size) :
    g.Exploring [(root, g.succs root)] ((Marks.empty g.size).insert root) [] := by
  refine ⟨by simp, .root _, fun i => ?_, by simp, .nil _, fun e he w hw => ?_, fun e he w hw => ?_, by simp⟩
  · rw [Marks.contains_insert, Marks.bound_empty]
    constructor
    · rintro (old | ⟨rfl, _⟩)
      · exact absurd old (Marks.contains_empty _ _)
      · exact List.mem_singleton.mpr rfl
    · exact fun hi => .inr ⟨List.mem_singleton.mp hi, ne⟩
  · rw [List.mem_singleton.mp he] at hw ⊢
    exact hw
  · rw [List.mem_singleton.mp he] at hw ⊢
    exact .inl hw

/-- The order begins with the root, and every other position in it is entered from one before it. -/
theorem reversePostorder_led (ne : 0 < g.size) : ∃ l, g.reversePostorder = root :: l ∧ g.DepthFirst l :=
  explore_led (exploring_root ne)

/-- It has the live positions. -/
theorem DepthFirst.mem_iff {l : List Nat} (h : g.DepthFirst l) {i : Nat} : i ∈ root :: l ↔ g.Live i := by
  constructor
  · have start : ∀ p ∈ [root], g.Live p := fun p hp => List.mem_singleton.mp hp ▸ root_live g
    intro hi
    rcases List.mem_cons.mp hi with rfl | hi
    · exact root_live g
    · exact h.led.live start i hi
  · intro live
    induction live with
    | refl => exact List.mem_cons_self
    | tail _ edge ih => exact h.closed _ ih _ edge

end PathMerge.Flow
