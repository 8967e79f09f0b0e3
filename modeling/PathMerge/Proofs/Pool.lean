/-
  PathMerge.Proofs.Pool — handles unfold into finite trees that never change.

  In a sound pool the operands of a node have smaller indices than the node, no node is stored twice,
  the sizes kept beside the nodes are those of their trees, and every junction, summary and equation is in
  canonical form (`Node.Formed`): there is nothing left that joining, choosing or comparing its operands
  would simplify. Interning a node that is in this form and whose operands are there keeps the pool sound and
  returns a handle of that node (`intern_yields`).

  A `Reading` says how to compute something of a handle from what its operands give. `Pool.read`
  computes it along the tree; `read_eq` is the equation it was meant to satisfy, and `read_extends`
  says that a pool that grows never changes the reading of a handle it had before.
-/

import PathMerge.Pool.Choice
import PathMerge.Proofs.Interning
import PathMerge.Proofs.Yields

namespace PathMerge

/-- A node that names no symbol. A choice is among something. -/
def Node.Plain : Node → Prop
  | symbol _ | app _ _ => False
  | summary branches => branches ≠ []
  | _ => True

namespace Pool

/-- The node behind `h`, its sign ignored. -/
def node? (p : Pool) (h : Handle) : Option Node := p.table.value? h.index

/-- `h` names a node of the pool. -/
def Has (p : Pool) (h : Handle) : Prop := 0 < h.index ∧ h.index ≤ p.size

instance (p : Pool) (h : Handle) : Decidable (p.Has h) := inferInstanceAs (Decidable (_ ∧ _))

/-- `h` stands as an operand of its own in a junction of kind `c`. -/
structure Apart (p : Pool) (c : Connective) (h : Handle) : Prop where
  not_tt : h ≠ .tt
  not_ff : h ≠ .ff
  nested : h.negated = false → ∀ inner, p.node? h ≠ some (.junction c inner)

/-- `h` neither holds one of its siblings `items` nor the complement of one, if it is of the dual kind. -/
def Unabsorbed (p : Pool) (c : Connective) (items : List Handle) (h : Handle) : Prop :=
  h.negated = false → ∀ inner, p.node? h = some (.junction c.dual inner) → ∀ y ∈ inner, y ∉ items ∧ -y ∉ items

structure Flat (p : Pool) (c : Connective) (items : List Handle) : Prop where
  many : 2 ≤ items.length
  sorted : items.Pairwise (Handle.lt · · = true)
  apart : ∀ x ∈ items, p.Apart c x
  consistent : ∀ x ∈ items, -x ∉ items
  unabsorbed : ∀ x ∈ items, p.Unabsorbed c items x

structure Undecided (p : Pool) (a b : Handle) : Prop where
  differ : a ≠ b
  opposed : a ≠ -b
  left : a ≠ .tt ∧ a ≠ .ff
  right : b ≠ .tt ∧ b ≠ .ff
  literals : a.negated = false → b.negated = false →
    ∀ l m, p.node? a = some (.literal l) → p.node? b ≠ some (.literal m)

end Pool

structure Separate (bs : List Branch) : Prop where
  many : 2 ≤ bs.length
  sorted : bs.Pairwise (Branch.lt · · = true)
  values : (bs.map (·.2)).Nodup
  guards : ∀ b ∈ bs, b.1 ≠ .tt ∧ b.1 ≠ .ff

/-- The canonical form of a node of `p`. -/
def Node.Formed (p : Pool) : Node → Prop
  | junction c items => p.Flat c items
  | eq a b => p.Undecided a b
  | summary branches => Separate branches
  | _ => True

namespace Pool

structure Sound (p : Pool) : Prop where
  table : p.table.Sound
  truth : p.node? .tt = some .truth
  /-- Operands are interned before the nodes that use them. -/
  below : ∀ {h n}, p.node? h = some n → ∀ c ∈ n.children, 0 < c.index ∧ c.index < h.index
  sizes : p.sizes.size = p.size
  tree : ∀ {h n}, p.node? h = some n → p.treeSize h = 1 + (n.children.map p.treeSize).sum
  formed : ∀ {h n}, p.node? h = some n → n.Formed p

def Extends (p p' : Pool) : Prop := ∀ {h n}, p.node? h = some n → p'.node? h = some n

def AddsPlain (p p' : Pool) : Prop := ∀ {h n}, p'.node? h = some n → p.node? h = some n ∨ n.Plain

/-- The actions of the pool build nodes from nodes; symbols and applications come from outside. -/
instance : Growing Pool where
  Sound := Sound
  Extends := fun p p' => Extends p p' ∧ AddsPlain p p'
  refl := fun _ => ⟨fun h => h, .inl⟩
  trans := fun h h' => ⟨fun hn => h'.1 (h.1 hn), fun hn => (h'.2 hn).elim h.2 .inr⟩

theorem has_iff {p : Pool} {h : Handle} : p.Has h ↔ ∃ n, p.node? h = some n := by
  constructor
  · intro ⟨pos, le⟩
    exact InternTable.value?_of_le pos le
  · intro ⟨n, hn⟩
    exact InternTable.value?_le_size hn

theorem has_of_node {p : Pool} {h : Handle} {n : Node} (hn : p.node? h = some n) : p.Has h :=
  has_iff.mpr ⟨n, hn⟩

theorem Extends.has {p p' : Pool} (e : p.Extends p') {h : Handle} (hh : p.Has h) : p'.Has h := by
  obtain ⟨n, hn⟩ := has_iff.mp hh
  exact has_of_node (e hn)

/-- A handle that is there keeps its node. -/
theorem Extends.node? {p p' : Pool} (e : p.Extends p') {h : Handle} (hh : p.Has h) : p'.node? h = p.node? h := by
  obtain ⟨n, hn⟩ := has_iff.mp hh
  rw [hn, e hn]

theorem Apart.extends {p p' : Pool} (e : p.Extends p') {c : Connective} {h : Handle} (hh : p.Has h)
    (a : p.Apart c h) : p'.Apart c h :=
  ⟨a.not_tt, a.not_ff, by rw [e.node? hh]; exact a.nested⟩

/-- A node stays in canonical form while the pool grows. -/
theorem formed_extends {p p' : Pool} (e : p.Extends p') {n : Node}
    (has : ∀ c ∈ n.children, p.Has c) (formed : n.Formed p) : n.Formed p' := by
  cases n with
  | junction c items =>
    have flat : p.Flat c items := formed
    refine ⟨flat.many, flat.sorted, fun x hx => (flat.apart x hx).extends e (has x hx), flat.consistent, ?_⟩
    intro x hx
    unfold Unabsorbed
    rw [e.node? (has x hx)]
    exact flat.unabsorbed x hx
  | eq a b =>
    have undecided : p.Undecided a b := formed
    refine ⟨undecided.differ, undecided.opposed, undecided.left, undecided.right, ?_⟩
    rw [e.node? (has a (by simp [Node.children])), e.node? (has b (by simp [Node.children]))]
    exact undecided.literals
  | _ => exact formed

@[simp] theorem node?_neg (p : Pool) (h : Handle) : p.node? (-h) = p.node? h := rfl

@[simp] theorem node?_regular (p : Pool) (h : Handle) : p.node? h.regular = p.node? h := rfl

@[simp] theorem has_neg {p : Pool} {h : Handle} : p.Has (-h) ↔ p.Has h := Iff.rfl

@[simp] theorem treeSize_neg (p : Pool) (h : Handle) : p.treeSize (-h) = p.treeSize h := rfl

@[simp] theorem treeSize_regular (p : Pool) (h : Handle) : p.treeSize h.regular = p.treeSize h := rfl

theorem Sound.has_child {p : Pool} (hp : p.Sound) {h : Handle} {n : Node} (hn : p.node? h = some n)
    {c : Handle} (hc : c ∈ n.children) : p.Has c := by
  obtain ⟨pos, lt⟩ := hp.below hn c hc
  exact ⟨pos, by have := (has_of_node hn).2; omega⟩

theorem Sound.has_tt {p : Pool} (hp : p.Sound) : p.Has .tt := has_of_node hp.truth

theorem Sound.has_ff {p : Pool} (hp : p.Sound) : p.Has .ff := has_of_node (h := .ff) hp.truth

theorem Sound.treeSize_pos {p : Pool} (hp : p.Sound) {h : Handle} (hh : p.Has h) : 0 < p.treeSize h := by
  obtain ⟨n, hn⟩ := has_iff.mp hh
  rw [hp.tree hn]
  omega

/-- Two handles of one node differ in their sign at most. -/
theorem Sound.index_eq {p : Pool} (hp : p.Sound) {h h' : Handle} {n : Node} (hn : p.node? h = some n)
    (hn' : p.node? h' = some n) : h.index = h'.index :=
  hp.table.distinct hn hn'

theorem Sound.eq_of_node {p : Pool} (hp : p.Sound) {h h' : Handle} {n : Node} (hn : p.node? h = some n)
    (hn' : p.node? h' = some n) (sign : h.negated = h'.negated) : h = h' := by
  have := hp.index_eq hn hn'
  cases h; cases h'
  simp_all

/-! ## Interning -/

theorem total_eq_sum (sizes : List Nat) : total sizes = sizes.sum := rfl

theorem put_table (p : Pool) (n : Node) :
    (p.put n).2.table = (p.table.put n).2 ∧ (p.put n).1 = .ofIndex (p.table.put n).1 := ⟨rfl, rfl⟩

theorem put_sizes (p : Pool) (n : Node) : (p.put n).2.sizes =
    if (p.table.put n).1 = p.sizes.size + 1 then p.sizes.push (1 + (n.children.map (sizeAt p.sizes)).sum)
    else p.sizes := rfl

theorem extends_put (p : Pool) (n : Node) : p.Extends (p.put n).2 := fun hn => InternTable.value?_put hn

theorem node?_put (p : Pool) (n : Node) : (p.put n).2.node? (p.put n).1 = some n :=
  InternTable.put_value? p.table n

/-- A size that is there does not change when another one is pushed. -/
theorem sizeAt_push {sizes : Array Nat} {k : Nat} {h : Handle} (pos : 0 < h.index)
    (le : h.index ≤ sizes.size) : sizeAt (sizes.push k) h = sizeAt sizes h := by
  unfold sizeAt
  rw [Array.getElem?_push, if_neg (by omega)]

theorem sizeAt_push_last {sizes : Array Nat} {k : Nat} {h : Handle} (last : h.index = sizes.size + 1) :
    sizeAt (sizes.push k) h = k := by
  unfold sizeAt
  rw [Array.getElem?_push, if_pos (by omega)]
  rfl

theorem treeSize_put {p : Pool} (hp : p.Sound) (n : Node) {h : Handle} (hh : p.Has h) :
    (p.put n).2.treeSize h = p.treeSize h := by
  unfold treeSize
  rw [put_sizes]
  split
  · exact sizeAt_push hh.1 (by rw [hp.sizes]; exact hh.2)
  · rfl

/-- The nodes of a pool after `put`: those it had, and the one put. -/
theorem node?_of_put {p : Pool} {n m : Node} {h : Handle} (hm : (p.put n).2.node? h = some m) :
    p.node? h = some m ∨ (h.index = (p.put n).1.index ∧ m = n) := InternTable.value?_of_put hm

/-- A node that is put is one the pool had, or the next one. -/
theorem put_cases (p : Pool) (n : Node) : p.node? (p.put n).1 = some n ∨ (p.put n).1.index = p.size + 1 := by
  cases found : p.table.find? n with
  | none => exact .inr (InternTable.put_new_fst found)
  | some i =>
    have index : (p.put n).1.index = i := congrArg Prod.fst (InternTable.put_found found)
    refine .inl ?_
    unfold node?
    rw [index]
    exact InternTable.find?_some found

theorem sizes_put {p : Pool} (hp : p.Sound) (n : Node) : (p.put n).2.sizes.size = (p.put n).2.size := by
  rw [put_sizes]
  show _ = (p.table.put n).2.size
  have sizes : p.sizes.size = p.table.size := hp.sizes
  rcases InternTable.size_put p.table n with same | ⟨index, grown⟩
  · have := (InternTable.value?_le_size (InternTable.put_value? p.table n)).2
    rw [if_neg (by omega), sizes, same]
  · rw [if_pos (by omega), Array.size_push, grown, sizes]

theorem treeSize_put_new {p : Pool} (hp : p.Sound) {n : Node} (new : (p.put n).1.index = p.size + 1) :
    (p.put n).2.treeSize (p.put n).1 = 1 + (n.children.map p.treeSize).sum := by
  have new' : (p.table.put n).1 = p.size + 1 := new
  have sizes := hp.sizes
  unfold treeSize
  rw [put_sizes, if_pos (by omega)]
  exact sizeAt_push_last (by omega)

/-- Putting a well-formed node keeps the pool sound. -/
theorem put_sound {p : Pool} (hp : p.Sound) {n : Node} (hc : ∀ c ∈ n.children, p.Has c) (formed : n.Formed p) :
    (p.put n).2.Sound := by
  have old_tree : ∀ {h m}, p.node? h = some m →
      (p.put n).2.treeSize h = 1 + (m.children.map (p.put n).2.treeSize).sum := by
    intro h m hm
    rw [treeSize_put hp n (has_of_node hm), hp.tree hm]
    congr 2
    exact List.map_congr_left fun c hc => (treeSize_put hp n (hp.has_child hm hc)).symm
  refine ⟨InternTable.put_sound hp.table n, extends_put p n hp.truth, ?_, sizes_put hp n, ?_, ?_⟩
  · intro h m hm c hcm
    rcases node?_of_put hm with old | ⟨index, rfl⟩
    · exact hp.below old c hcm
    · rw [index]
      rcases put_cases p m with old | new
      · exact hp.below old c hcm
      · exact ⟨(hc c hcm).1, new ▸ Nat.lt_succ_of_le (hc c hcm).2⟩
  · intro h m hm
    rcases node?_of_put hm with old | ⟨index, rfl⟩
    · exact old_tree old
    · have same : (p.put m).2.treeSize h = (p.put m).2.treeSize (p.put m).1 := by
        unfold treeSize sizeAt
        rw [index]
      rw [same]
      rcases put_cases p m with old | new
      · exact old_tree old
      · rw [treeSize_put_new hp new]
        congr 2
        exact List.map_congr_left fun c hcm => (treeSize_put hp m (hc c hcm)).symm
  · intro h m hm
    rcases node?_of_put hm with old | ⟨_, rfl⟩
    · exact formed_extends (extends_put p n) (fun c hcm => hp.has_child old hcm) (hp.formed old)
    · exact formed_extends (extends_put p m) hc formed

theorem initial_first (bits : Nat) : (put ⟨.empty bits, #[]⟩ .truth).1 = .tt := by
  rw [(put_table _ _).2, InternTable.put_new_fst (InternTable.find?_empty bits _)]
  rfl

theorem initial_node {bits : Nat} {h : Handle} {n : Node} (hn : (initial bits).node? h = some n) :
    h.index = 1 ∧ n = .truth := by
  rcases node?_of_put hn with old | ⟨index, rfl⟩
  · have := InternTable.value?_le_size old
    simp [InternTable.size, InternTable.empty] at this
    omega
  · rw [initial_first] at index
    exact ⟨index, rfl⟩

theorem initial_sound (bits : Nat) : (initial bits).Sound := by
  have sizes : (initial bits).sizes = #[1] := by
    unfold initial
    rw [put_sizes, InternTable.put_new_fst (InternTable.find?_empty bits _)]
    rfl
  have size : (initial bits).size = 1 := by
    show ((InternTable.empty bits).put Node.truth).2.values.size = 1
    rw [InternTable.put_new_values (InternTable.find?_empty bits _)]
    rfl
  refine ⟨InternTable.put_sound (InternTable.empty_sound bits) Node.truth, ?_, ?_, by rw [sizes, size]; rfl, ?_, ?_⟩
  · have := node?_put ⟨.empty bits, #[]⟩ .truth
    rwa [initial_first] at this
  · intro h n hn
    rw [(initial_node hn).2]
    simp [Node.children]
  · intro h n hn
    obtain ⟨index, rfl⟩ := initial_node hn
    unfold treeSize sizeAt
    rw [index, sizes]
    rfl
  · intro h n hn
    rw [(initial_node hn).2]
    trivial

end Pool

/-- Interning a node returns a handle of that node. -/
theorem intern_yields {p : Pool} (hp : p.Sound) {n : Node} (hc : ∀ c ∈ n.children, p.Has c) (formed : n.Formed p)
    (plain : n.Plain) :
    Yields (PoolM.intern n) p fun h p' => h.negated = false ∧ p'.node? h = some n := by
  refine ⟨_, _, rfl, ⟨Pool.extends_put p n, fun hm => ?_⟩, Pool.put_sound hp hc formed, rfl, Pool.node?_put p n⟩
  rcases Pool.node?_of_put hm with old | ⟨_, rfl⟩
  · exact .inl old
  · exact .inr plain

theorem node_yields {p : Pool} (hp : p.Sound) {h : Handle} {n : Node} (hn : p.node? h = some n) :
    Yields (PoolM.node h) p fun m p' => n = m ∧ p = p' := by
  refine ⟨n, p, ?_, Growing.refl p, hp, rfl, rfl⟩
  have ok : p.table.value h.index = .ok n := InternTable.value_eq_ok.mpr hn
  unfold Returns PoolM.node
  have got : (get : PoolM Pool).run.run p = (.ok p, p) := rfl
  rw [run_bind, got]
  dsimp only
  rw [ok]
  rfl

/-! ## Reading a handle along its tree -/

/-- How to read a handle: what a node gives, given what its operands give; what a negated handle gives; what is read
where there is no node. -/
structure Reading (β : Type) where
  node : (Handle → β) → Node → β
  negated : β → β
  missing : β
  local_ : ∀ {f g : Handle → β} {n : Node}, (∀ c ∈ n.children, f c = g c) → node f n = node g n

namespace Pool

variable {β : Type} (R : Reading β)

def signedReading (h : Handle) (x : β) : β := if h.negated then R.negated x else x

def readWithin (p : Pool) : Nat → Handle → β
  | 0, _ => R.missing
  | depth + 1, h =>
    match p.node? h with
    | none => R.missing
    | some n => signedReading R h (R.node (readWithin p depth) n)

/-- An operand has a smaller index than its node, so the index of `h` bounds the depth. -/
def read (p : Pool) (h : Handle) : β := readWithin R p h.index h

variable {R}

/-- A reading cut off at a depth no smaller than the index is the reading itself: operands have smaller indices. -/
theorem readWithin_eq {p : Pool} (hp : p.Sound) (depth : Nat) (h : Handle) (le : h.index ≤ depth) :
    readWithin R p depth h = read R p h := by
  induction depth using Nat.strongRecOn generalizing h with
  | ind depth ih =>
    rcases hn : p.node? h with _ | n
    · unfold read
      cases depth <;> cases e : h.index <;> simp [readWithin, hn]
    · have pos := (has_of_node hn).1
      obtain ⟨d, rfl⟩ : ∃ d, depth = d + 1 := ⟨depth - 1, by omega⟩
      obtain ⟨k, hk⟩ : ∃ k, h.index = k + 1 := ⟨h.index - 1, by omega⟩
      unfold read
      rw [hk]
      simp only [readWithin, hn]
      congr 1
      apply R.local_
      intro c hc
      have := (hp.below hn c hc).2
      rw [ih d (by omega) c (by omega), ih k (by omega) c (by omega)]

/-- What a handle reads as, given what its operands read as. -/
theorem read_eq {p : Pool} (hp : p.Sound) {h : Handle} {n : Node} (hn : p.node? h = some n) :
    read R p h = signedReading R h (R.node (read R p) n) := by
  have pos := (has_of_node hn).1
  obtain ⟨k, hk⟩ : ∃ k, h.index = k + 1 := ⟨h.index - 1, by omega⟩
  have unfolded : read R p h = signedReading R h (R.node (readWithin R p k) n) := by
    unfold read
    rw [hk]
    simp only [readWithin, hn]
  rw [unfolded]
  congr 1
  apply R.local_
  intro c hc
  have := (hp.below hn c hc).2
  exact readWithin_eq hp k c (by omega)

theorem readWithin_extends {p p' : Pool} (hp : p.Sound) (e : p.Extends p') (depth : Nat) {h : Handle}
    (hh : p.Has h) : readWithin R p' depth h = readWithin R p depth h := by
  induction depth generalizing h with
  | zero => rfl
  | succ depth ih =>
    obtain ⟨n, hn⟩ := has_iff.mp hh
    simp only [readWithin, hn, e hn]
    congr 1
    apply R.local_
    intro c hc
    exact ih (hp.has_child hn hc)

/-- What a pool adds changes no handle it had. -/
theorem read_extends {p p' : Pool} (hp : p.Sound) (e : p.Extends p') {h : Handle} (hh : p.Has h) :
    read R p' h = read R p h :=
  readWithin_extends hp e h.index hh

/-- Induction along the tree of a handle. -/
theorem induction {p : Pool} (hp : p.Sound) {P : Handle → Prop}
    (step : ∀ h n, p.node? h = some n → (∀ c ∈ n.children, P c) → P h) {h : Handle} (hh : p.Has h) : P h := by
  obtain ⟨i, hi⟩ : ∃ i, i = h.index := ⟨_, rfl⟩
  induction i using Nat.strongRecOn generalizing h with
  | ind i ih =>
    obtain ⟨n, hn⟩ := has_iff.mp hh
    refine step h n hn fun c hc => ?_
    exact ih c.index (by rw [hi]; exact (hp.below hn c hc).2) (hp.has_child hn hc) rfl

theorem treeSize_extends {p p' : Pool} (hp : p.Sound) (hp' : p'.Sound) (e : p.Extends p') {h : Handle}
    (hh : p.Has h) : p'.treeSize h = p.treeSize h := by
  refine induction hp (P := fun h => p'.treeSize h = p.treeSize h) (fun h n hn ih => ?_) hh
  rw [hp.tree hn, hp'.tree (e hn)]
  congr 2
  exact List.map_congr_left ih

end Pool

end PathMerge
