/-
  PathMerge.Proofs.CanonicalStore — a store is what it binds.

  Bindings in increasing order are given by what is found in them (`Bindings.Increasing.ext`), and the flattened
  store is such a list in which one finds what the store binds. So whatever two stores are made of, they flatten
  to the same bindings exactly if they bind every symbol alike, and the store that is built from the bindings
  stands for all of them.

  A store may also be taken apart with a stack. `search` takes the later part first and stops at the first
  binding of the symbol; `collect` takes the earlier part first and lets every binding replace those before it.
  In whatever order the parts lie on the stack, both go through them as `get?` and `flatten` do (`search_eq`,
  `collect_eq`).
-/

import PathMerge.Proofs.Sorting
import PathMerge.Proofs.State

namespace PathMerge

/-! ## Bindings -/

namespace Bindings

variable {m n : Bindings}

/-- All bindings of both, those of `n` where both bind a symbol. -/
def override (m n : Bindings) : Bindings := n.foldl (fun m b => insert b.1 b.2 m) m

theorem Increasing.mem_iff (inc : m.Increasing) {b : SymbolId × Handle} : b ∈ m ↔ m.find? b.1 = some b.2 :=
  ⟨find?_of_mem inc.nodup, mem_of_find?⟩

theorem Increasing.ext (hm : m.Increasing) (hn : n.Increasing) (same : ∀ x, m.find? x = n.find? x) : m = n := by
  let lt (a b : SymbolId × Handle) : Bool := SymbolId.lt a.1 b.1
  have trans : ∀ a b c, lt a b = true → lt b c = true → lt a c = true := fun a b c => SymbolId.lt_trans a.1 b.1 c.1
  have sorted : ∀ {l : Bindings}, l.Increasing → l.Pairwise (lt · · = true) := fun inc =>
    inc.imp fun less => decide_eq_true less
  refine SortedList.eq_of_mem_iff (fun a => SymbolId.lt_irrefl a.1) trans (sorted hm) (sorted hn) fun b => ?_
  rw [hm.mem_iff, hn.mem_iff, same]

theorem find?_override (hn : n.Increasing) (m : Bindings) (x : SymbolId) :
    (m.override n).find? x = (n.find? x).or (m.find? x) := find?_foldl n hn.nodup m x

/-- Of the bindings that are entered one after the other, the last one of a symbol is found. -/
theorem find?_entered (bs : List (SymbolId × Handle)) (m : Bindings) (x : SymbolId) :
    find? (bs.foldl (fun m b => insert b.1 b.2 m) m) x = (find? bs.reverse x).or (m.find? x) := by
  induction bs generalizing m with
  | nil => rfl
  | cons b bs ih =>
    have last : find? (bs.reverse ++ [b]) x = (find? bs.reverse x).or (find? [b] x) := List.lookup_append
    rw [List.foldl_cons, ih, find?_insert, List.reverse_cons, last, Option.or_assoc, find?_cons]
    congr 1
    by_cases e : x = b.1
    · rw [if_pos e, if_pos e, Option.some_or]
    · rw [if_neg e, if_neg e]
      rfl

end Bindings

namespace Store

variable {s t : Store}

/-! ## Taking stores apart with a stack -/

def nodes : Store → Nat
  | .empty | .single _ _ => 1
  | .parallel a b => a.nodes + b.nodes + 1

/-- The first binding of `x` that is met, the later part of a store first. -/
def search (x : SymbolId) : (stack : List Store) → Option Handle
  | [] => none
  | .empty :: stack => search x stack
  | .single y v :: stack => if y = x then some v else search x stack
  | .parallel a b :: stack => search x (b :: a :: stack)
termination_by stack => (stack.map nodes).sum
decreasing_by all_goals simp only [List.map_cons, List.sum_cons, nodes]; omega

/-- Every binding that is met, entered into `m`, the earlier part of a store first. -/
def collect : (stack : List Store) → (m : Bindings) → Bindings
  | [], m => m
  | .empty :: stack, m => collect stack m
  | .single x v :: stack, m => collect stack (m.insert x v)
  | .parallel a b :: stack, m => collect (a :: b :: stack) m
termination_by stack => (stack.map nodes).sum
decreasing_by all_goals simp only [List.map_cons, List.sum_cons, nodes]; omega

theorem search_eq (x : SymbolId) (stack : List Store) : search x stack = stack.findSome? (get? x) := by
  fun_induction search x stack with
  | case1 => rfl
  | case2 stack ih => rw [ih, List.findSome?_cons_of_isNone rfl]
  | case3 v stack => simp [get?]
  | case4 y v stack differ ih => rw [ih, List.findSome?_cons_of_isNone (by simp [get?, differ])]
  | case5 a b stack ih =>
    rw [ih, List.findSome?_cons, List.findSome?_cons, List.findSome?_cons, get?]
    cases get? x b <;> rfl

theorem collect_eq (stack : List Store) (m : Bindings) :
    collect stack m = stack.foldl (fun m s => s.flattenOnto m) m := by
  fun_induction collect stack m with
  | case1 => rfl
  | case2 stack m ih | case3 x v stack m ih | case4 a b stack m ih => exact ih

/-! ## Equality -/

theorem flatten_compose (a b : Store) : (a.compose b).flatten = a.flatten.override b.flatten := by
  have inc := Bindings.foldl_increasing b.flatten a.flatten_increasing
  refine (flatten_increasing _).ext inc fun x => ?_
  have found := Bindings.find?_override b.flatten_increasing a.flatten x
  rw [find?_flatten, get?_compose, ← find?_flatten a, ← find?_flatten b]
  exact found.symm

theorem same_iff_get? : s.same t = true ↔ ∀ x, s.get? x = t.get? x := by
  unfold same
  rw [decide_eq_true_eq]
  constructor
  · intro same x
    rw [← find?_flatten, ← find?_flatten, same]
  · intro same
    refine s.flatten_increasing.ext t.flatten_increasing fun x => ?_
    rw [find?_flatten, find?_flatten, same]

def assignAll (s : Store) (bs : List (SymbolId × Handle)) : Store := bs.foldl (fun s b => s.assign b.1 b.2) s

theorem flatten_assignAll (s : Store) (bs : List (SymbolId × Handle)) :
    (s.assignAll bs).flatten = bs.foldl (fun m b => Bindings.insert b.1 b.2 m) s.flatten := by
  induction bs generalizing s with
  | nil => rfl
  | cons b bs ih =>
    have once : (s.assign b.1 b.2).flatten = Bindings.insert b.1 b.2 s.flatten := flattenOnto_compose s _ []
    rw [List.foldl_cons, ← once]
    exact ih (s.assign b.1 b.2)

/-- What is looked up in a store is what it flattens to, also with a stack; of two parts the second overrides the
first, and of any number of assignments the last one of a symbol counts. Built from what it flattens to, a store is
the same store, and two stores are the same, which means that they bind every symbol alike, exactly if they give one
tree when they are built so. -/
theorem stores_canonical :
    (∀ (s : Store) x, s.get? x = s.flatten.find? x ∧ search x [s] = s.get? x ∧ collect [s] [] = s.flatten) ∧
    (∀ a b : Store, (a.compose b).flatten = a.flatten.override b.flatten ∧
      (parallel a b).flatten = a.flatten.override b.flatten ∧
      ∀ x, (a.flatten.override b.flatten).find? x = (b.flatten.find? x).or (a.flatten.find? x)) ∧
    (∀ (s : Store) bs x, (s.assignAll bs).flatten.find? x = (Bindings.find? bs.reverse x).or (s.flatten.find? x)) ∧
    (∀ s : Store, (ofBindings s.flatten).same s = true) ∧
    ∀ s t : Store, (s.same t = true ↔ ofBindings s.flatten = ofBindings t.flatten) ∧
      (s.same t = true ↔ ∀ x, s.get? x = t.get? x) := by
  refine ⟨fun s x => ⟨(find?_flatten s x).symm, ?_, collect_eq [s] []⟩, fun a b => ?_, fun s bs x => ?_, fun s => ?_,
    fun s t => ⟨?_, same_iff_get?⟩⟩
  · rw [search_eq, List.findSome?_singleton]
  · have joined : (parallel a b).flatten = (a.compose b).flatten := (flattenOnto_compose a b []).symm
    exact ⟨flatten_compose a b, joined.trans (flatten_compose a b),
      Bindings.find?_override b.flatten_increasing a.flatten⟩
  · rw [flatten_assignAll, Bindings.find?_entered]
  · exact decide_eq_true (flatten_ofBindings s.flatten_increasing)
  · unfold same
    rw [decide_eq_true_eq]
    refine ⟨fun same => by rw [same], fun tree => ?_⟩
    rw [← flatten_ofBindings s.flatten_increasing, tree, flatten_ofBindings t.flatten_increasing]

/-- Nested to either side, with an empty part, and with a binding that is overridden. -/
example :
    let left := parallel (parallel (.single ⟨1⟩ .tt) .empty) (parallel (.single ⟨2⟩ .ff) (.single ⟨1⟩ .ff))
    let right := (Store.empty.assign ⟨2⟩ .ff).assign ⟨1⟩ .ff
    left.same right = true ∧ left ≠ right ∧
      ofBindings left.flatten = parallel (.single ⟨1⟩ .ff) (.single ⟨2⟩ .ff) := by decide

end Store

end PathMerge
