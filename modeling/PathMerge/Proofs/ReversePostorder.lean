/-
  PathMerge.Proofs.ReversePostorder — the order of a depth-first search.

  `Visit` is the search as it is told without a stack: whoever enters a position first visits all that it leads to
  and leaves it then; what was left last stands first. The search with a stack lists exactly that
  (`explore_visit`), and such a visit always comes to an end (`visit_total`).

  When a position is left, each of its edges leads to one that was left before or to one that is still being
  explored. The first stands further down in the list. The second is on the stack, so there is a way back
  from it. `Downhill` says this of the list.
-/

import PathMerge.Proofs.DepthFirst
import PathMerge.Proofs.Loops

namespace PathMerge.Flow

open Relation

variable {g : Flow}

/-! ## The search without a stack -/

/-- Depth first through those of the positions `todo` that are not in `seen`: what has been seen then, and what was
entered, the position that was left last first. -/
inductive Visit (g : Flow) : (seen : Marks) → (todo : List Nat) → (seen' : Marks) → (left : List Nat) → Prop
  | done (seen : Marks) : Visit g seen [] seen []
  | pass {seen seen' : Marks} {t : Nat} {ts l : List Nat} (taken : ¬ seen.lacks t = true)
      (rest : Visit g seen ts seen' l) : Visit g seen (t :: ts) seen' l
  | enter {seen seen₁ seen₂ : Marks} {t : Nat} {ts l₁ l₂ : List Nat} (free : seen.lacks t = true)
      (inner : Visit g (seen.insert t) (g.succs t) seen₁ l₁) (rest : Visit g seen₁ ts seen₂ l₂) :
      Visit g seen (t :: ts) seen₂ (l₂ ++ t :: l₁)

/-- Every visit comes to an end: what it enters is missing no more. -/
theorem visit_total (seen : Marks) (todo : List Nat) :
    ∃ seen' l, g.Visit seen todo seen' l ∧ seen'.missing ≤ seen.missing := by
  induction h : seen.missing using Nat.strong_induction_on generalizing seen todo with
  | _ n smaller =>
    subst h
    induction todo generalizing seen with
    | nil => exact ⟨seen, [], .done seen, Nat.le_refl _⟩
    | cons t ts ih =>
      by_cases free : seen.lacks t = true
      · have less := Marks.missing_insert_lt free
        obtain ⟨seen₁, l₁, inner, fewer₁⟩ := smaller _ less (seen.insert t) (g.succs t) rfl
        obtain ⟨seen₂, l₂, rest, fewer₂⟩ := smaller _ (Nat.lt_of_le_of_lt fewer₁ less) seen₁ ts rfl
        exact ⟨seen₂, l₂ ++ t :: l₁, .enter free inner rest, by omega⟩
      · obtain ⟨seen', l, rest, fewer⟩ := ih seen smaller
        exact ⟨seen', l, .pass free rest, fewer⟩

/-- The search with a stack works through the edges of the position on top as a visit does. -/
theorem explore_visit {seen seen' : Marks} {ts l : List Nat} (visit : g.Visit seen ts seen' l) (i : Nat)
    (stack : List (Nat × List Nat)) (finished : List Nat) :
    g.explore ((i, ts) :: stack) seen finished = g.explore ((i, []) :: stack) seen' (l ++ finished) := by
  induction visit generalizing i stack finished with
  | done => rfl
  | @pass seen seen' t ts l taken _ ih =>
    calc g.explore ((i, t :: ts) :: stack) seen finished
      _ = g.explore ((i, ts) :: stack) seen finished := by rw [explore, if_neg taken]
      _ = g.explore ((i, []) :: stack) seen' (l ++ finished) := ih i stack finished
  | @enter seen seen₁ seen₂ t ts l₁ l₂ free _ _ ihInner ihRest =>
    calc g.explore ((i, t :: ts) :: stack) seen finished
      _ = g.explore ((t, g.succs t) :: (i, ts) :: stack) (seen.insert t) finished := by rw [explore, if_pos free]
      _ = g.explore ((t, []) :: (i, ts) :: stack) seen₁ (l₁ ++ finished) := ihInner t _ finished
      _ = g.explore ((i, ts) :: stack) seen₁ (t :: (l₁ ++ finished)) := by rw [explore]
      _ = g.explore ((i, []) :: stack) seen₂ (l₂ ++ t :: (l₁ ++ finished)) := ihRest i stack _
      _ = g.explore ((i, []) :: stack) seen₂ ((l₂ ++ t :: l₁) ++ finished) := by simp

theorem reversePostorder_visit (ne : 0 < g.size) :
    ∃ seen, g.Visit (.empty g.size) [root] seen g.reversePostorder := by
  obtain ⟨seen, l, inner, _⟩ := visit_total (g := g) ((Marks.empty g.size).insert root) (g.succs root)
  have order : g.reversePostorder = root :: l := by
    unfold reversePostorder
    rw [explore_visit inner, explore, explore, List.append_nil]
  rw [order]
  exact ⟨seen, .enter (lacks_root ne) inner (.done seen)⟩

/-! ## Edges and the order -/

/-- Edges lead down the list, or to a position with a way back. -/
inductive Downhill (g : Flow) : List Nat → Prop
  | nil : Downhill g []
  | cons {i : Nat} {l : List Nat} (edges : ∀ w, g.Edge i w → w ∈ l ∨ ReflTransGen g.Edge w i) (rest : Downhill g l) :
      Downhill g (i :: l)

/-- From every position on the stack there is a way to the one on top. -/
theorem Descends.way {i : Nat} {todo : List Nat} {stack : List (Nat × List Nat)} (h : g.Descends ((i, todo) :: stack))
    {w : Nat} (hw : w ∈ ((i, todo) :: stack).map (·.1)) : ReflTransGen g.Edge w i := by
  induction stack generalizing i todo with
  | nil => rw [List.mem_singleton.mp hw]
  | cons _ stack ih =>
    rcases List.mem_cons.mp hw with rfl | hw
    · exact .refl
    · cases h with
      | step edge below => exact (ih below hw).tail edge

/-- What is left has its edges followed: they end further down or on the stack. -/
theorem Exploring.downhill {stack : List (Nat × List Nat)} {seen : Marks} {finished : List Nat} {i : Nat}
    (h : g.Exploring ((i, []) :: stack) seen finished) (down : g.Downhill finished) : g.Downhill (i :: finished) := by
  refine .cons (fun w edge => ?_) down
  have known := (h.followed _ List.mem_cons_self w edge).resolve_left List.not_mem_nil
  rcases List.mem_append.mp ((h.found w).mp known) with open_ | left
  · exact .inr (h.descends.way open_)
  · exact .inl left

/-- Exploring keeps the finished list downhill. -/
theorem explore_downhill {stack : List (Nat × List Nat)} {seen : Marks} {finished : List Nat}
    (h : g.Exploring stack seen finished) (down : g.Downhill finished) :
    g.Downhill (g.explore stack seen finished) := by
  induction stack, seen, finished using explore.induct g with
  | case1 => cases h.descends
  | case2 i stack seen finished ih =>
    rw [explore]
    cases stack with
    | nil =>
      rw [explore]
      exact h.downhill down
    | cons below stack => exact ih h.pop (h.downhill down)
  | case3 i t ts stack seen finished free ih =>
    rw [explore, if_pos free]
    exact ih (h.push free) down
  | case4 i t ts stack seen finished taken ih =>
    rw [explore, if_neg taken]
    exact ih (h.skip taken) down

theorem Downhill.before {l : List Nat} (down : g.Downhill l) {u w : Nat} (edge : g.Edge u w)
    (oneWay : ¬ ReflTransGen g.Edge w u) (hu : u ∈ l) : [u, w].Sublist l := by
  induction down with
  | nil => cases hu
  | @cons i l edges _ ih =>
    rcases List.mem_cons.mp hu with rfl | hu
    · exact (List.singleton_sublist.mpr ((edges w edge).resolve_right oneWay)).cons_cons u
    · exact (ih hu).cons i

theorem Led.before {before l : List Nat} (led : g.Led before l) {n : Nat} (hn : n ∈ l) :
    ∃ p ∈ g.preds n, p ∈ before ∨ [p, n].Sublist l := by
  induction led with
  | nil => cases hn
  | @cons before l p m known edge _ ih =>
    rcases List.mem_cons.mp hn with rfl | below
    · exact ⟨p, mem_preds.mpr edge, .inl known⟩
    · obtain ⟨q, hq, here | later⟩ := ih below
      · refine ⟨q, hq, (List.mem_cons.mp here).symm.imp id ?_⟩
        rintro rfl
        exact (List.singleton_sublist.mpr below).cons_cons q
      · exact ⟨q, hq, .inr (later.cons m)⟩

/-- On every graph that is not empty the order is that of a depth-first visit of the root, the position that was left
last first. It has the positions that can be reached, each once, the root at its head; every other position stands
after one of its predecessors; and an edge leads down the order unless there is a way back. -/
theorem reversePostorder_depthFirst (g : Flow) (ne : 0 < g.size) :
    (∃ seen, g.Visit (.empty g.size) [root] seen g.reversePostorder) ∧
    (∀ i, i ∈ g.reversePostorder ↔ g.Live i) ∧ g.reversePostorder.Nodup ∧ g.reversePostorder.head? = some root ∧
    (∀ n ∈ g.reversePostorder, n ≠ root → ∃ p ∈ g.preds n, [p, n].Sublist g.reversePostorder) ∧
    ∀ u w, g.Live u → g.Edge u w → ¬ ReflTransGen g.Edge w u → [u, w].Sublist g.reversePostorder := by
  obtain ⟨l, order, search⟩ := reversePostorder_led ne
  have down : g.Downhill g.reversePostorder := explore_downhill (exploring_root ne) .nil
  refine ⟨reversePostorder_visit ne, ?_⟩
  rw [order] at down ⊢
  refine ⟨fun i => search.mem_iff, search.nodup, rfl, fun n hn inner => ?_, fun u w live edge oneWay => ?_⟩
  · have hn := (List.mem_cons.mp hn).resolve_left inner
    obtain ⟨p, hp, top | later⟩ := search.led.before hn
    · obtain rfl := List.mem_singleton.mp top
      exact ⟨root, hp, (List.singleton_sublist.mpr hn).cons_cons root⟩
    · exact ⟨p, hp, later.cons root⟩
  · exact down.before edge oneWay (search.mem_iff.mpr live)

/-- A loop that starts with a loop of one position, a shorter way beside it, two edges that go the same way, and a
position that cannot be reached. -/
def lopsided : Flow := ⟨#[[1, 3], [1, 2], [1, 4, 4], [4], [], [4]], by decide⟩

theorem reversePostorder_depthFirst_lopsided : lopsided.reversePostorder = [0, 3, 1, 2, 4] ∧ lopsided.Live 2 ∧
    ¬ lopsided.Live 5 ∧ (∃ p ∈ lopsided.preds 1, [p, 1].Sublist [0, 3, 1, 2, 4]) ∧
    lopsided.Edge 2 4 ∧ ¬ ReflTransGen lopsided.Edge 4 2 ∧ [2, 4].Sublist [0, 3, 1, 2, 4] := by
  have order : lopsided.reversePostorder = [0, 3, 1, 2, 4] := by cbv
  obtain ⟨_, live, _, _, entered, down⟩ := reversePostorder_depthFirst lopsided (by decide)
  rw [order] at live entered down
  have edge : lopsided.Edge 2 4 := by unfold Edge; decide
  have oneWay : ¬ ReflTransGen lopsided.Edge 4 2 := by
    intro way
    obtain same | ⟨w, edge, _⟩ := way.cases_head
    · cases same
    · unfold Edge at edge
      exact absurd edge (List.not_mem_nil (a := w))
  have here : lopsided.Live 2 := (live 2).mp (by decide)
  exact ⟨order, here, fun dead => absurd ((live 5).mpr dead) (by decide), entered 1 (by decide) (by decide),
    edge, oneWay,
    down 2 4 here edge oneWay⟩

end PathMerge.Flow
