/-
  PathMerge.Proofs.Weight — a size of expressions that no law of simplification increases.

  It counts nodes, but of the operands of a junction only the heaviest. Membership in a union splits
  into a disjunction of two memberships, so the tree can grow; its weight does not. The weight is
  never above the size of the tree.
-/

import PathMerge.Proofs.Pool

namespace PathMerge

def largest (ns : List Nat) : Nat := ns.foldr max 0

@[simp] theorem largest_nil : largest [] = 0 := rfl

@[simp] theorem largest_cons (n : Nat) (ns : List Nat) : largest (n :: ns) = max n (largest ns) := rfl

theorem le_largest {ns : List Nat} {n : Nat} (h : n ∈ ns) : n ≤ largest ns := by
  induction ns with
  | nil => cases h
  | cons m ns ih =>
    rw [largest_cons]
    rcases List.mem_cons.mp h with rfl | h
    · omega
    · have := ih h
      omega

theorem largest_le {ns : List Nat} {k : Nat} (h : ∀ n ∈ ns, n ≤ k) : largest ns ≤ k := by
  induction ns with
  | nil => exact Nat.zero_le k
  | cons m ns ih =>
    rw [largest_cons]
    have := h m (by simp)
    have := ih fun n hn => h n (List.mem_cons_of_mem _ hn)
    omega

@[simp] theorem largest_append (ms ns : List Nat) :
    largest (ms ++ ns) = max (largest ms) (largest ns) := by
  induction ms with
  | nil => simp
  | cons m ms ih => simp only [List.cons_append, largest_cons, ih, Nat.max_assoc]

theorem largest_le_sum (ns : List Nat) : largest ns ≤ ns.sum := by
  induction ns with
  | nil => exact Nat.le_refl 0
  | cons n ns ih =>
    rw [largest_cons, List.sum_cons]
    omega

theorem le_sum {ns : List Nat} {n : Nat} (h : n ∈ ns) : n ≤ ns.sum :=
  Nat.le_trans (le_largest h) (largest_le_sum ns)

def Node.weight (w : Handle → Nat) : Node → Nat
  | truth | literal _ | symbol _ => 1
  | app _ args => 1 + (args.map w).sum
  | summary branches => 1 + (branches.map fun b => w b.1 + w b.2).sum
  | eq a b => 1 + (w a + w b)
  | junction _ operands => 1 + largest (operands.map w)

theorem Node.sum_children_summary (w : Handle → Nat) (branches : List (Handle × Handle)) :
    ((summary branches).children.map w).sum = (branches.map fun b => w b.1 + w b.2).sum := by
  induction branches with
  | nil => rfl
  | cons b branches ih =>
    simp only [children, List.flatMap_cons, List.map_append, List.sum_append, List.map_cons, List.map_nil,
      List.sum_cons, List.sum_nil] at ih ⊢
    omega

theorem Node.weight_le (w : Handle → Nat) (n : Node) : n.weight w ≤ 1 + (n.children.map w).sum := by
  cases n with
  | truth => exact Nat.le_refl 1
  | literal l => exact Nat.le_refl 1
  | symbol y => exact Nat.le_refl 1
  | app f args => exact Nat.le_refl _
  | summary branches => rw [sum_children_summary]; exact Nat.le_refl _
  | eq a b => simp [weight, children]
  | junction c items => exact Nat.add_le_add_left (largest_le_sum _) 1

theorem Node.weight_congr {f g : Handle → Nat} {n : Node} (h : ∀ c ∈ n.children, f c = g c) :
    n.weight f = n.weight g := by
  cases n with
  | truth => rfl
  | literal l => rfl
  | symbol y => rfl
  | app k args => exact congrArg (1 + List.sum ·) (List.map_congr_left h)
  | summary branches =>
    show 1 + _ = 1 + _
    rw [← sum_children_summary, ← sum_children_summary, List.map_congr_left h]
  | eq a b => simp [weight, h a (by simp [children]), h b (by simp [children])]
  | junction c items => exact congrArg (1 + largest ·) (List.map_congr_left h)

theorem sum_map_le {α : Type} {f g : α → Nat} {l : List α} (h : ∀ a ∈ l, f a ≤ g a) :
    (l.map f).sum ≤ (l.map g).sum := by
  induction l with
  | nil => exact Nat.le_refl 0
  | cons a l ih =>
    simp only [List.map_cons, List.sum_cons]
    have := h a (by simp)
    have := ih fun b hb => h b (List.mem_cons_of_mem _ hb)
    omega

theorem sum_filter_le {α : Type} (f : α → Nat) (q : α → Bool) (l : List α) :
    ((l.filter q).map f).sum ≤ (l.map f).sum := by
  induction l with
  | nil => exact Nat.le_refl 0
  | cons a l ih =>
    rw [List.filter_cons]
    split <;> simp only [List.map_cons, List.sum_cons] <;> omega

theorem sum_filter_lt {α : Type} {f : α → Nat} {q : α → Bool} {l : List α} (pos : ∀ a ∈ l, 0 < f a)
    (short : (l.filter q).length < l.length) : ((l.filter q).map f).sum < (l.map f).sum := by
  induction l with
  | nil => cases short
  | cons a l ih =>
    rw [List.filter_cons] at short ⊢
    split
    · rename_i hq
      rw [if_pos hq] at short
      have := ih (fun b hb => pos b (List.mem_cons_of_mem _ hb)) (by simpa using short)
      simp only [List.map_cons, List.sum_cons]
      omega
    · have := pos a (by simp)
      have := sum_filter_le f q l
      simp only [List.map_cons, List.sum_cons]
      omega

def weightReading : Reading Nat := ⟨Node.weight, id, 0, Node.weight_congr⟩

namespace Pool

def weight (p : Pool) (h : Handle) : Nat := p.read weightReading h

variable {p p' : Pool}

theorem weight_eq (hp : p.Sound) {h : Handle} {n : Node} (hn : p.node? h = some n) :
    p.weight h = n.weight p.weight := by
  unfold weight
  rw [read_eq hp hn]
  unfold signedReading
  split <;> rfl

theorem weight_extends (hp : p.Sound) (e : p.Extends p') {h : Handle} (hh : p.Has h) :
    p'.weight h = p.weight h :=
  read_extends hp e hh

theorem weight_neg (hp : p.Sound) {h : Handle} (hh : p.Has h) : p.weight (-h) = p.weight h := by
  obtain ⟨n, hn⟩ := has_iff.mp hh
  rw [weight_eq hp hn, weight_eq hp (h := -h) hn]

theorem weight_pos (hp : p.Sound) {h : Handle} (hh : p.Has h) : 0 < p.weight h := by
  obtain ⟨n, hn⟩ := has_iff.mp hh
  rw [weight_eq hp hn]
  cases n <;> simp only [Node.weight] <;> omega

theorem weight_tt (hp : p.Sound) : p.weight .tt = 1 := weight_eq hp hp.truth

theorem weight_ff (hp : p.Sound) : p.weight .ff = 1 := weight_eq hp (h := .ff) hp.truth

/-- A handle weighs no more than its tree has nodes. -/
theorem weight_le_treeSize (hp : p.Sound) {h : Handle} (hh : p.Has h) : p.weight h ≤ p.treeSize h := by
  refine induction hp (P := fun h => p.weight h ≤ p.treeSize h) (fun h n hn ih => ?_) hh
  rw [weight_eq hp hn, hp.tree hn]
  have := n.weight_le p.weight
  have := sum_map_le ih
  omega

end Pool

end PathMerge
