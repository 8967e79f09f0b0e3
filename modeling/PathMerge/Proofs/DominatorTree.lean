/-
  PathMerge.Proofs.DominatorTree — the iteration finds the immediate dominators.

  Two facts hold whenever a position is given a parent, however incomplete the tree is. Every strict dominator
  of the position dominates its parent (`Rooted.closest`): it dominates the predecessors, and no step up from
  two positions leaves it behind, since a dominator never comes later in the order than what it dominates. And
  the parent comes earlier in the order than the position, since some predecessor does. So going up ends, and
  never meets a position without a parent.

  That a parent does dominate its position is a matter of how many sweeps were made. After `k` of them no way of
  less than `k` steps leads around the parent (`Excludes`), because a way of one step less leads to a
  predecessor. No position needs a way with as many steps as there are positions, so the sweep after that
  changes nothing; and if a sweep changes nothing, the number may be taken as large as one likes.
-/

import PathMerge.Proofs.DepthFirst
import PathMerge.Proofs.Loops

namespace PathMerge

/-! ## Tables -/

namespace Table

def Has (t : Table) (i : Nat) : Prop := ∃ a, t.get? i = some a

theorem get_eq_ok {t : Table} {i a : Nat} (h : t.get? i = some a) : t.get i = .ok a := by
  unfold get
  rw [h]

@[simp] theorem get?_empty (n i : Nat) : (empty n).get? i = none := by
  unfold get? empty
  rw [Array.getElem?_replicate]
  split <;> rfl

@[simp] theorem size_empty (n : Nat) : (empty n).entries.size = n := Array.size_replicate

@[simp] theorem size_insert (t : Table) (i a : Nat) : (t.insert i a).entries.size = t.entries.size :=
  Array.size_setIfInBounds

theorem get?_insert {t : Table} {i a : Nat} (inside : i < t.entries.size) (j : Nat) :
    (t.insert i a).get? j = if j = i then some a else t.get? j := by
  unfold get? insert
  rw [Array.getElem?_setIfInBounds]
  by_cases same : j = i
  · subst same
    rw [if_pos rfl, if_pos inside, if_pos rfl]
    rfl
  · rw [if_neg (Ne.symm same), if_neg same]

end Table

namespace Flow

open Relation

variable {g : Flow} {d e i n : Nat}

/-! ## Places in the order -/

/-- The place of a position in the order that begins with the root and goes on with `l`. -/
def place (l : List Nat) (i : Nat) : Nat := (root :: l).idxOf i

variable {l : List Nat}

theorem place_root (l : List Nat) : place l root = 0 := List.idxOf_cons_self

theorem pairwise_idxOf {l : List Nat} (nodup : l.Nodup) : l.Pairwise (l.idxOf · < l.idxOf ·) := by
  induction l with
  | nil => exact .nil
  | cons a l ih =>
    obtain ⟨new, nodup⟩ := List.nodup_cons.mp nodup
    have later : ∀ b ∈ l, (a :: l).idxOf b = l.idxOf b + 1 := fun b hb =>
      List.idxOf_cons_ne l (fun same => new (same ▸ hb))
    refine List.pairwise_cons.mpr ⟨fun b hb => ?_, (ih nodup).imp_of_mem fun hb hc lt => ?_⟩
    · rw [List.idxOf_cons_self, later b hb]
      exact Nat.succ_pos _
    · rw [later _ hb, later _ hc]
      exact Nat.succ_lt_succ lt

namespace DepthFirst

theorem place_injective (h : g.DepthFirst l) (live : g.Live d) (same : place l d = place l e) : d = e :=
  (List.idxOf_inj (h.mem_iff.mpr live)).mp same

theorem place_lt (h : g.DepthFirst l) (ne : 0 < g.size) (live : g.Live i) : place l i < g.size := by
  have short : (root :: l).length ≤ g.size := by
    have inside : (root :: l) ⊆ List.range g.size := fun i hi => List.mem_range.mpr ((h.mem_iff.mp hi).lt ne)
    simpa using (h.nodup.subperm inside).length_le
  exact Nat.lt_of_lt_of_le (List.idxOf_lt_length_of_mem (h.mem_iff.mpr live)) short

/-- A live position other than the root is entered from an earlier one. -/
theorem entered (h : g.DepthFirst l) (live : g.Live i) (inner : i ≠ root) :
    ∃ p, g.Live p ∧ g.Edge p i ∧ place l p < place l i := by
  have sorted : (root :: l).Pairwise (place l · < place l ·) := pairwise_idxOf h.nodup
  have all : ∀ {before rest : List Nat}, g.Led before rest → (∀ p ∈ before, g.Live p) →
      (∀ p ∈ before, ∀ n ∈ rest, place l p < place l n) → rest.Pairwise (place l · < place l ·) →
      ∀ n ∈ rest, ∃ p, g.Live p ∧ g.Edge p n ∧ place l p < place l n := by
    intro before rest led
    induction led with
    | nil => exact fun _ _ _ => List.forall_mem_nil _
    | cons known edge _ ih =>
      intro lives earlier sorted
      obtain ⟨here, sorted⟩ := List.pairwise_cons.mp sorted
      refine List.forall_mem_cons.mpr ⟨⟨_, lives _ known, edge, earlier _ known _ List.mem_cons_self⟩, ih ?_ ?_ sorted⟩
      · exact List.forall_mem_cons.mpr ⟨(lives _ known).edge edge, lives⟩
      · exact List.forall_mem_cons.mpr ⟨here, fun p hp n hn => earlier p hp n (List.mem_cons_of_mem _ hn)⟩
  obtain ⟨first, sorted⟩ := List.pairwise_cons.mp sorted
  refine all h.led ?_ ?_ sorted i ((List.mem_cons.mp (h.mem_iff.mpr live)).resolve_left inner)
  · exact fun p hp => List.mem_singleton.mp hp ▸ root_live g
  · exact fun p hp => List.mem_singleton.mp hp ▸ first

end DepthFirst

theorem Dominates.root_eq (h : g.Dominates d root) : d = root := by
  by_contra ne
  exact h.2 ⟨Ne.symm ne, .refl⟩

/-- What dominates a position, and is another one, dominates all that lead to it. -/
theorem Dominates.source {p : Nat} (h : g.Dominates d i) (ne : d ≠ i) (live : g.Live p) (edge : g.Edge p i) :
    g.Dominates d p :=
  ⟨live, fun around => h.2 (around.edge edge (Ne.symm ne))⟩

/-- A dominator does not come later in the order. -/
theorem DepthFirst.dominator_le (h : g.DepthFirst l) (dom : g.Dominates d i) : place l d ≤ place l i := by
  induction rank : place l i using Nat.strong_induction_on generalizing i with
  | _ k ih =>
    by_cases same : d = i
    · rw [same, rank]
    · have inner : i ≠ root := by
        rintro rfl
        exact same dom.root_eq
      obtain ⟨p, live, edge, lt⟩ := h.entered dom.1 inner
      have := ih (place l p) (rank ▸ lt) (dom.source same live edge) rfl
      omega

/-! ## Ways by their length -/

/-- A way of `k` steps from the root leads to a position, and not through `d`. -/
inductive Dodges (g : Flow) (d : Nat) : Nat → Nat → Prop
  | start (ne : root ≠ d) : Dodges g d 0 root
  | step {k u w : Nat} (way : Dodges g d k u) (edge : g.Edge u w) (ne : w ≠ d) : Dodges g d (k + 1) w

variable {k : Nat}

theorem Dodges.around (way : g.Dodges d k i) : g.Around d i := by
  induction way with
  | start ne => exact ⟨ne, .refl⟩
  | step _ edge ne ih => exact ih.edge edge ne

theorem Around.dodges (h : g.Around d i) : ∃ k, g.Dodges d k i := by
  obtain ⟨ne, way⟩ := h
  induction way with
  | refl => exact ⟨0, .start ne⟩
  | tail _ s ih =>
    obtain ⟨k, way⟩ := ih
    exact ⟨k + 1, .step way s.1 s.2⟩

/-- On a shortest way to a position lie positions at every smaller distance. -/
theorem Dodges.between (ne : 0 < g.size) (way : g.Dodges d k i) (least : ∀ j < k, ¬ g.Dodges d j i) :
    ∀ m ≤ k, ∃ w < g.size, g.Dodges d m w ∧ ∀ j < m, ¬ g.Dodges d j w := by
  induction way with
  | start away =>
    intro m hm
    obtain rfl := Nat.le_zero.mp hm
    exact ⟨root, ne, .start away, fun j hj => absurd hj (Nat.not_lt_zero j)⟩
  | @step k u w way edge away ih =>
    intro m hm
    rcases Nat.le_succ_iff.mp hm with le | rfl
    · exact ih (fun j hj shorter => least (j + 1) (Nat.succ_lt_succ hj) (.step shorter edge away)) m le
    · exact ⟨w, edge.target_lt, .step way edge away, least⟩

/-- No more steps are needed than there are positions, and one less. -/
theorem Around.short (ne : 0 < g.size) (h : g.Around d i) : ∃ k < g.size, g.Dodges d k i := by
  classical
  obtain ⟨way, least⟩ : g.Dodges d (Nat.find h.dodges) i ∧ ∀ j < Nat.find h.dodges, ¬ g.Dodges d j i :=
    ⟨Nat.find_spec h.dodges, fun j hj => Nat.find_min h.dodges hj⟩
  refine ⟨Nat.find h.dodges, ?_, way⟩
  choose! at_ inside reached shortest using way.between ne least
  -- Different distances, different positions.
  have injective : Set.InjOn at_ (Finset.range (Nat.find h.dodges + 1)) := by
    intro m hm m' hm' same
    have hm := Nat.lt_succ_iff.mp (Finset.mem_range.mp hm)
    have hm' := Nat.lt_succ_iff.mp (Finset.mem_range.mp hm')
    by_contra other
    rcases Nat.lt_or_gt_of_ne other with lt | lt
    · exact shortest m' hm' m lt (same ▸ reached m hm)
    · exact shortest m hm m' lt (same ▸ reached m' hm')
  have card := Finset.card_le_card_of_injOn at_ (t := Finset.range g.size)
    (fun m hm => Finset.mem_range.mpr (inside m (Nat.lt_succ_iff.mp (Finset.mem_range.mp hm)))) injective
  simpa using card

/-- A way either leads around a position as well, or comes by it earlier. -/
theorem Dodges.visit (way : g.Dodges d k i) (e : Nat) : g.Dodges e k i ∨ ∃ j ≤ k, g.Dodges d j e := by
  induction way with
  | start ne =>
    by_cases same : root = e
    · exact .inr ⟨0, Nat.le_refl 0, same ▸ .start ne⟩
    · exact .inl (.start same)
  | @step k u w way edge ne ih =>
    by_cases same : w = e
    · exact .inr ⟨k + 1, Nat.le_refl _, same ▸ .step way edge ne⟩
    · exact ih.imp (fun around => .step around edge same) fun ⟨j, le, way⟩ => ⟨j, Nat.le_succ_of_le le, way⟩

/-! ## Trees that are still incomplete -/

def Climbs (tree : Table) : Nat → Nat → Prop := ReflTransGen fun i d => tree.get? i = some d

structure Rooted (g : Flow) (l : List Nat) (tree : Table) : Prop where
  bound : tree.entries.size = g.size
  top : tree.get? root = some root
  live : ∀ {i d}, tree.get? i = some d → g.Live i
  closed : ∀ {i d}, tree.get? i = some d → tree.Has d
  up : ∀ {i d}, tree.get? i = some d → i ≠ root → place l d < place l i
  closest : ∀ {i d}, tree.get? i = some d → ∀ e, g.Dominates e i → e ≠ i → g.Dominates e d

/-- The position is a common ancestor of those of the list that are in the tree, and what dominates all of these
dominates it. -/
structure Joins (g : Flow) (l : List Nat) (tree : Table) (sources : List Nat) (c : Nat) : Prop where
  has : tree.Has c
  below : ∀ p ∈ sources, tree.Has p → Climbs tree p c ∧ place l c ≤ place l p
  dominated : ∀ e, (∀ p ∈ sources, tree.Has p → g.Dominates e p) → g.Dominates e c

variable {rank tree : Table}

def Ranked (g : Flow) (l : List Nat) (rank : Table) : Prop := ∀ {i}, g.Live i → rank.get i = .ok (place l i)

theorem Joins.congr {sources sources' : List Nat} {c : Nat} (same : ∀ p, p ∈ sources ↔ p ∈ sources')
    (joins : Joins g l tree sources c) : Joins g l tree sources' c :=
  ⟨joins.has, fun p hp => joins.below p ((same p).mpr hp), fun e dom => joins.dominated e fun p hp =>
    dom p ((same p).mp hp)⟩

theorem Joins.swap {a b c : Nat} (joins : Joins g l tree [a, b] c) : Joins g l tree [b, a] c :=
  joins.congr fun _ => (List.Perm.swap b a []).mem_iff

/-- Of two positions the later one may be left for its parent: it is not the root, and no common dominator is left
with it. -/
theorem Rooted.step (dfs : g.DepthFirst l) (rooted : Rooted g l tree) {a b : Nat} (parent : tree.get? a = some d)
    (hb : tree.Has b) (later : place l b < place l a) :
    place l d < place l a ∧ ∀ c, Joins g l tree [d, b] c → Joins g l tree [a, b] c := by
  have above : place l d < place l a := by
    refine rooted.up parent fun top => ?_
    rw [top, place_root] at later
    exact Nat.not_lt_zero _ later
  refine ⟨above, fun c joins => ⟨joins.has, fun p hp hasP => ?_, fun e dom => joins.dominated e fun p hp hasP => ?_⟩⟩
  · rcases List.mem_cons.mp hp with rfl | hp
    · obtain ⟨climbs, le⟩ := joins.below d List.mem_cons_self (rooted.closed parent)
      exact ⟨.head parent climbs, by omega⟩
    · exact joins.below p (List.mem_cons_of_mem _ hp) hasP
  · rcases List.mem_cons.mp hp with rfl | hp
    · refine rooted.closest parent e (dom a List.mem_cons_self ⟨p, parent⟩) fun eq => ?_
      exact Nat.not_lt.mpr (dfs.dominator_le (dom b (by simp) hb)) (eq ▸ later)
    · exact dom p (List.mem_cons_of_mem _ hp) hasP

/-- Going up from two positions meets in a common ancestor. -/
theorem ancestor_joins (dfs : g.DepthFirst l) (ranked : Ranked g l rank) (rooted : Rooted g l tree) {steps a b : Nat}
    (ha : tree.Has a) (hb : tree.Has b) (enough : place l a + place l b < steps) :
    ∃ c, ancestor rank tree steps a b = .ok c ∧ Joins g l tree [a, b] c := by
  induction steps generalizing a b with
  | zero => exact absurd enough (Nat.not_lt_zero _)
  | succ steps ih =>
    obtain ⟨d, hd⟩ := ha
    obtain ⟨d', hd'⟩ := hb
    unfold ancestor
    by_cases same : a = b
    · subst same
      rw [if_pos rfl]
      refine ⟨a, rfl, ⟨d, hd⟩, fun p hp _ => ?_, fun e dom => dom a List.mem_cons_self ⟨d, hd⟩⟩
      obtain rfl : p = a := by simpa using hp
      exact ⟨.refl, Nat.le_refl _⟩
    rw [if_neg same, ranked (rooted.live hd), ranked (rooted.live hd')]
    have apart : place l a ≠ place l b := fun eq => same (dfs.place_injective (rooted.live hd) eq)
    by_cases later : place l b < place l a
    · obtain ⟨above, joined⟩ := rooted.step dfs hd ⟨d', hd'⟩ later
      obtain ⟨c, found, joins⟩ := ih (rooted.closed hd) ⟨d', hd'⟩ (by omega)
      refine ⟨c, ?_, joined c joins⟩
      show (if place l b < place l a then tree.get a >>= fun d => ancestor rank tree steps d b else _) = _
      rw [if_pos later, Table.get_eq_ok hd]
      exact found
    · obtain ⟨above, joined⟩ := rooted.step dfs hd' ⟨d, hd⟩ (Nat.lt_of_le_of_ne (Nat.not_lt.mp later) apart)
      obtain ⟨c, found, joins⟩ := ih ⟨d, hd⟩ (rooted.closed hd') (by omega)
      refine ⟨c, ?_, (joined c joins.swap).swap⟩
      show (if place l b < place l a then _ else tree.get b >>= fun d => ancestor rank tree steps a d) = _
      rw [if_neg later, Table.get_eq_ok hd']
      exact found

structure Found (g : Flow) (l : List Nat) (tree : Table) (sources : List Nat) (found : Option Nat) : Prop where
  joins : ∀ c, found = some c → Joins g l tree sources c
  none : found = none → ∀ p ∈ sources, ¬ tree.Has p

/-- Joining one more source to the ancestor found so far gives a common ancestor of all of them. -/
theorem joinWith_found (dfs : g.DepthFirst l) (ranked : Ranked g l rank) (rooted : Rooted g l tree) (ne : 0 < g.size)
    {sources : List Nat} {found : Option Nat} (h : Found g l tree sources found) (p : Nat) :
    ∃ found', joinWith rank tree (2 * g.size) found p = .ok found' ∧ Found g l tree (p :: sources) found' := by
  unfold joinWith
  cases known : tree.get? p with
  | none =>
    have absent : ¬ tree.Has p := fun ⟨d, hd⟩ => by rw [known] at hd; cases hd
    refine ⟨found, rfl, fun c made => ?_, fun made => List.forall_mem_cons.mpr ⟨absent, h.none made⟩⟩
    have joins := h.joins c made
    refine ⟨joins.has, List.forall_mem_cons.mpr ⟨fun has => absurd has absent, joins.below⟩, fun e dom => ?_⟩
    exact joins.dominated e fun q hq => dom q (List.mem_cons_of_mem _ hq)
  | some d =>
    have has : tree.Has p := ⟨d, known⟩
    cases found with
    | none =>
      refine ⟨some p, rfl, fun c made => ?_, fun made => by cases made⟩
      cases made
      refine ⟨has, List.forall_mem_cons.mpr ⟨fun _ => ⟨.refl, Nat.le_refl _⟩, fun q hq hasQ => ?_⟩,
        fun e dom => dom p List.mem_cons_self has⟩
      exact absurd hasQ (h.none rfl q hq)
    | some c =>
      have joins := h.joins c rfl
      obtain ⟨_, hc⟩ := joins.has
      have below := dfs.place_lt ne (rooted.live known)
      have below' := dfs.place_lt ne (rooted.live hc)
      obtain ⟨c', met, joined⟩ := ancestor_joins dfs ranked rooted has joins.has (show _ < 2 * g.size by omega)
      refine ⟨some c', by simp only [met]; rfl, fun c'' made => ?_, fun made => by cases made⟩
      cases made
      obtain ⟨climbs, le⟩ := joined.below c (by simp) joins.has
      refine ⟨joined.has, List.forall_mem_cons.mpr ⟨joined.below p (by simp), fun q hq hasQ => ?_⟩, fun e dom => ?_⟩
      · obtain ⟨climbs', le'⟩ := joins.below q hq hasQ
        exact ⟨climbs'.trans climbs, Nat.le_trans le le'⟩
      · refine joined.dominated e fun q hq _ => ?_
        rcases List.mem_cons.mp hq with rfl | hq
        · exact dom q List.mem_cons_self has
        · rw [List.mem_singleton.mp hq]
          exact joins.dominated e fun q hq => dom q (List.mem_cons_of_mem _ hq)

/-- The positions that are in the tree have a common ancestor, if there are any. -/
theorem ancestorOf?_found (dfs : g.DepthFirst l) (ranked : Ranked g l rank) (rooted : Rooted g l tree) (ne : 0 < g.size)
    (sources : List Nat) :
    ∃ found, ancestorOf? rank tree (2 * g.size) sources = .ok found ∧ Found g l tree sources found := by
  have all : ∀ (rest done : List Nat) (found : Option Nat), Found g l tree done found → ∃ found',
      rest.foldlM (joinWith rank tree (2 * g.size)) found = .ok found' ∧
      Found g l tree (rest.reverse ++ done) found' := by
    intro rest
    induction rest with
    | nil => exact fun done found h => ⟨found, rfl, h⟩
    | cons p rest ih =>
      intro done found h
      obtain ⟨found', joined, h'⟩ := joinWith_found dfs ranked rooted ne h p
      obtain ⟨found'', folded, h''⟩ := ih (p :: done) found' h'
      refine ⟨found'', ?_, ?_⟩
      · rw [List.foldlM_cons, joined]
        exact folded
      · rw [List.reverse_cons, List.append_assoc]
        exact h''
  obtain ⟨found, folded, h⟩ := all sources [] none ⟨fun c made => (by cases made), fun _ => List.forall_mem_nil _⟩
  have same : ∀ p, p ∈ sources.reverse ++ [] ↔ p ∈ sources := by simp
  exact ⟨found, folded, fun c made => (h.joins c made).congr same, fun made p hp => h.none made p ((same p).mpr hp)⟩

/-! ## Giving a position its parent -/

/-- No way of less than `k` steps leads around the parent. -/
def Excludes (g : Flow) (k : Nat) (tree : Table) (i : Nat) : Prop :=
  ∀ d, tree.get? i = some d → ∀ j < k, ¬ g.Dodges d j i

theorem Dodges.ne (way : g.Dodges d k i) : i ≠ d := way.around.ne

/-- Nor around any other ancestor. -/
theorem Climbs.excludes (excludes : ∀ i, Excludes g k tree i) {c : Nat} (climbs : Climbs tree i c) :
    ∀ j < k, ¬ g.Dodges c j i := by
  induction climbs using ReflTransGen.head_induction_on with
  | refl => exact fun j _ way => way.ne rfl
  | @head i d parent _ ih =>
    intro j hj way
    rcases way.visit d with around | ⟨j', le, way⟩
    · exact excludes i d parent j hj around
    · exact ih j' (Nat.lt_of_le_of_lt le hj) way

structure Adopted (n c : Nat) (tree tree' : Table) : Prop where
  bound : tree'.entries.size = tree.entries.size
  here : tree'.get? n = some c
  others : ∀ i, i ≠ n → tree'.get? i = tree.get? i

theorem Adopted.has {c : Nat} {tree' : Table} (adopted : Adopted n c tree tree') (has : tree.Has i) : tree'.Has i := by
  by_cases same : i = n
  · exact ⟨c, same ▸ adopted.here⟩
  · exact has.imp fun d hd => (adopted.others i same).trans hd

theorem Adopted.of_parent {c : Nat} {tree' : Table} (adopted : Adopted n c tree tree')
    (parent : tree'.get? i = some d) :
    i = n ∧ d = c ∨ tree.get? i = some d := by
  by_cases same : i = n
  · subst same
    exact .inl ⟨rfl, Option.some.inj (parent.symm.trans adopted.here)⟩
  · exact .inr ((adopted.others i same).symm.trans parent)

/-- The common ancestor of its predecessors, one of which comes earlier, may be the parent of a position. -/
theorem Rooted.adopted {c p : Nat} {tree' : Table} (rooted : Rooted g l tree) (live : g.Live n) (inner : n ≠ root)
    (edge : g.Edge p n) (has : tree.Has p) (earlier : place l p < place l n) (joins : Joins g l tree (g.preds n) c)
    (adopted : Adopted n c tree tree') : Rooted g l tree' where
  bound := adopted.bound.trans rooted.bound
  top := (adopted.others root (Ne.symm inner)).trans rooted.top
  live parent := by
    rcases adopted.of_parent parent with ⟨rfl, rfl⟩ | parent
    · exact live
    · exact rooted.live parent
  closed parent := by
    rcases adopted.of_parent parent with ⟨rfl, rfl⟩ | parent
    · exact adopted.has joins.has
    · exact adopted.has (rooted.closed parent)
  up parent := by
    rcases adopted.of_parent parent with ⟨rfl, rfl⟩ | parent
    · exact fun _ => Nat.lt_of_le_of_lt (joins.below p (mem_preds.mpr edge) has).2 earlier
    · exact rooted.up parent
  closest parent := by
    rcases adopted.of_parent parent with ⟨rfl, rfl⟩ | parent
    · intro e dom other
      exact joins.dominated e fun q hq ⟨_, hd⟩ => dom.source other (rooted.live hd) (mem_preds.mp hq)
    · exact rooted.closest parent

/-- One step more: a way to the position comes from a predecessor. In the first sweep there is no way to speak of. -/
theorem Joins.excludes {c : Nat} (joins : Joins g l tree (g.preds n) c) (inner : n ≠ root)
    (excludes : ∀ i, Excludes g k tree i) (full : k = 0 ∨ ∀ i, g.Live i → tree.Has i) :
    ∀ j < k + 1, ¬ g.Dodges c j n := by
  intro j hj way
  cases way with
  | start => exact inner rfl
  | @step j u _ way edge =>
    have short : j < k := Nat.lt_of_succ_lt_succ hj
    have has := full.resolve_left (Nat.ne_of_gt (Nat.zero_lt_of_lt short)) u way.around.live
    exact (joins.below u (mem_preds.mpr edge) has).1.excludes excludes j short way

/-- Whatever the tree is so far, the position gets the common ancestor of its predecessors for its parent. -/
theorem adopt_returns (dfs : g.DepthFirst l) (ranked : Ranked g l rank) (rooted : Rooted g l tree) (ne : 0 < g.size)
    {p : Nat} (edge : g.Edge p n) (has : tree.Has p) (changed : Bool) :
    ∃ c, Joins g l tree (g.preds n) c ∧
      g.adopt g.sources rank (tree, changed) n =
      .ok (if tree.get? n = some c then (tree, changed) else (tree.insert n c, true)) := by
  obtain ⟨found, answer, h⟩ := ancestorOf?_found dfs ranked rooted ne (g.preds n)
  cases found with
  | none => exact absurd has (h.none rfl p (mem_preds.mpr edge))
  | some c =>
    refine ⟨c, h.joins c rfl, ?_⟩
    unfold adopt
    simp only [getD_sources, answer]
    rfl

/-! ## Sweeps -/

/-- The tree in the middle of a sweep, with the positions `before` done: so far no parent is led around in less than
`k` steps, and for what is done not in `k` steps either. -/
structure Sweeping (g : Flow) (l : List Nat) (k : Nat) (before : List Nat) (tree : Table) : Prop where
  rooted : Rooted g l tree
  has : ∀ i ∈ before, tree.Has i
  excludes : ∀ i, Excludes g k tree i
  done : ∀ i ∈ before, Excludes g (k + 1) tree i
  full : k = 0 ∨ ∀ i, g.Live i → tree.Has i

/-- Adopting the common ancestor of its sources settles a position for this sweep. -/
theorem Sweeping.adopted {before : List Nat} {c p : Nat} {tree' : Table} (h : Sweeping g l k before tree)
    (live : g.Live n) (inner : n ≠ root) (known : p ∈ before) (edge : g.Edge p n) (earlier : place l p < place l n)
    (joins : Joins g l tree (g.preds n) c) (adopted : Adopted n c tree tree') : Sweeping g l k (n :: before) tree' := by
  have excluded := joins.excludes inner h.excludes h.full
  refine ⟨h.rooted.adopted live inner edge (h.has p known) earlier joins adopted, ?_, fun i d parent => ?_, ?_, ?_⟩
  · exact List.forall_mem_cons.mpr ⟨⟨c, adopted.here⟩, fun i hi => adopted.has (h.has i hi)⟩
  · rcases adopted.of_parent parent with ⟨rfl, rfl⟩ | parent
    · exact fun j hj => excluded j (Nat.lt_succ_of_lt hj)
    · exact h.excludes i d parent
  · refine List.forall_mem_cons.mpr ⟨fun d parent => ?_, fun i hi d parent => ?_⟩
    · cases adopted.here.symm.trans parent
      exact excluded
    · rcases adopted.of_parent parent with ⟨rfl, rfl⟩ | parent
      · exact excluded
      · exact h.done i hi d parent
  · exact h.full.imp id fun full i live => adopted.has (full i live)

/-- A sweep goes through, and leaves nothing out. -/
theorem sweep_returns (dfs : g.DepthFirst l) (ranked : Ranked g l rank) (ne : 0 < g.size) {before rest : List Nat}
    (led : g.Led before rest) (earlier : ∀ p ∈ before, ∀ n ∈ rest, place l p < place l n)
    (sorted : rest.Pairwise (place l · < place l ·)) (inner : ∀ n ∈ rest, g.Live n ∧ n ≠ root) (changed : Bool)
    (h : Sweeping g l k before tree) : ∃ tree' changed',
      rest.foldlM (g.adopt g.sources rank) (tree, changed) = .ok (tree', changed') ∧
      Sweeping g l k (rest.reverse ++ before) tree' ∧ (changed' = false → changed = false ∧ tree' = tree) := by
  induction led generalizing tree changed with
  | nil => exact ⟨tree, changed, rfl, h, fun off => ⟨off, rfl⟩⟩
  | @cons before rest p n known edge _ ih =>
    obtain ⟨later, sorted⟩ := List.pairwise_cons.mp sorted
    obtain ⟨⟨live, notRoot⟩, inner⟩ := List.forall_mem_cons.mp inner
    obtain ⟨c, joins, adopts⟩ := adopt_returns dfs ranked h.rooted ne edge (h.has p known) changed
    have inside : n < tree.entries.size := h.rooted.bound ▸ live.lt ne
    have next : ∀ tree', Adopted n c tree tree' → Sweeping g l k (n :: before) tree' := fun tree' =>
      h.adopted live notRoot known edge (earlier p known n List.mem_cons_self) joins
    have earlier' : ∀ q ∈ n :: before, ∀ m ∈ rest, place l q < place l m :=
      List.forall_mem_cons.mpr ⟨later, fun q hq m hm => earlier q hq m (List.mem_cons_of_mem _ hm)⟩
    rw [List.foldlM_cons, adopts, List.reverse_cons, List.append_assoc]
    by_cases same : tree.get? n = some c
    · rw [if_pos same]
      exact ih earlier' sorted inner changed (next tree ⟨rfl, same, fun _ _ => rfl⟩)
    · rw [if_neg same]
      have insert : Adopted n c tree (tree.insert n c) := by
        refine ⟨Table.size_insert _ _ _, ?_, fun i other => ?_⟩
        · rw [Table.get?_insert inside, if_pos rfl]
        · rw [Table.get?_insert inside, if_neg other]
      obtain ⟨tree', changed', folded, h', kept⟩ := ih earlier' sorted inner true (next _ insert)
      exact ⟨tree', changed', folded, h', fun off => by cases (kept off).1⟩

structure Swept (g : Flow) (l : List Nat) (k : Nat) (tree : Table) : Prop where
  rooted : Rooted g l tree
  excludes : ∀ i, Excludes g k tree i
  full : k = 0 ∨ ∀ i, g.Live i → tree.Has i

/-- Each sweep settles the paths one edge longer than the last, and reports when nothing moved. -/
theorem Swept.sweep (dfs : g.DepthFirst l) (ranked : Ranked g l rank) (ne : 0 < g.size) (h : Swept g l k tree) :
    ∃ tree' changed, g.sweep g.sources rank (root :: l) tree = .ok (tree', changed) ∧ Swept g l (k + 1) tree' ∧
      (changed = false → tree' = tree) := by
  obtain ⟨first, sorted⟩ := List.pairwise_cons.mp (pairwise_idxOf dfs.nodup)
  obtain ⟨new, _⟩ := List.nodup_cons.mp dfs.nodup
  have begun : Sweeping g l k [root] tree := by
    refine ⟨h.rooted, fun i hi => ⟨root, List.mem_singleton.mp hi ▸ h.rooted.top⟩, h.excludes,
      fun i hi d parent => ?_, h.full⟩
    rw [List.mem_singleton.mp hi, h.rooted.top] at parent
    cases parent
    rw [List.mem_singleton.mp hi]
    exact fun j _ way => way.ne rfl
  obtain ⟨tree', changed, swept, ended, kept⟩ := sweep_returns dfs ranked ne dfs.led
    (fun p hp => List.mem_singleton.mp hp ▸ first) sorted
    (fun n hn => ⟨dfs.mem_iff.mp (List.mem_cons_of_mem _ hn), fun top => new (top ▸ hn)⟩) false begun
  have visited : ∀ {i}, g.Live i → i ∈ l.reverse ++ [root] := by
    intro i live
    simpa [or_comm] using dfs.mem_iff.mpr live
  refine ⟨tree', changed, swept, ⟨ended.rooted, fun i d parent => ?_, .inr fun i live => ended.has i (visited live)⟩,
    fun off => (kept off).2⟩
  exact ended.done i (visited (ended.rooted.live parent)) d parent

/-! ## The tree at the end -/

structure Complete (g : Flow) (l : List Nat) (tree : Table) : Prop where
  rooted : Rooted g l tree
  full : ∀ i, g.Live i → tree.Has i
  dominates : ∀ {i d}, tree.get? i = some d → g.Dominates d i

theorem Swept.complete (ne : 0 < g.size) (h : Swept g l g.size tree) : Complete g l tree where
  rooted := h.rooted
  full := h.full.resolve_left (Nat.ne_of_gt ne)
  dominates parent := by
    refine ⟨h.rooted.live parent, fun around => ?_⟩
    obtain ⟨k, short, way⟩ := around.short ne
    exact h.excludes _ _ parent k short way

/-- In the complete tree a position keeps its parent. -/
theorem Complete.adopt (dfs : g.DepthFirst l) (ranked : Ranked g l rank) (ne : 0 < g.size) (h : Complete g l tree)
    (live : g.Live n) (inner : n ≠ root) (changed : Bool) :
    g.adopt g.sources rank (tree, changed) n = .ok (tree, changed) := by
  obtain ⟨d, parent⟩ := h.full n live
  obtain ⟨p, liveP, edge, earlier⟩ := dfs.entered live inner
  obtain ⟨c, joins, adopts⟩ := adopt_returns dfs ranked h.rooted ne edge (h.full p liveP) changed
  have excludes : ∀ k i, Excludes g k tree i := fun k i d parent j _ way => (h.dominates parent).2 way.around
  have dominates : g.Dominates c n := by
    refine ⟨live, fun around => ?_⟩
    obtain ⟨k, way⟩ := around.dodges
    exact joins.excludes inner (excludes (k + 1)) (.inr h.full) k (by omega) way
  have other : c ≠ n := by
    rintro rfl
    exact Nat.lt_irrefl _ (Nat.lt_of_le_of_lt (joins.below p (mem_preds.mpr edge) (h.full p liveP)).2 earlier)
  have other' : d ≠ n := by
    rintro rfl
    exact Nat.lt_irrefl _ (h.rooted.up parent inner)
  have above : g.Dominates d c := joins.dominated d fun q hq ⟨_, hd⟩ =>
    (h.dominates parent).source other' (h.rooted.live hd) (mem_preds.mp hq)
  obtain rfl : d = c := above.antisymm (h.rooted.closest parent c dominates other)
  rw [adopts, if_pos parent]

theorem Complete.sweep (dfs : g.DepthFirst l) (ranked : Ranked g l rank) (ne : 0 < g.size) (h : Complete g l tree) :
    g.sweep g.sources rank (root :: l) tree = .ok (tree, false) := by
  obtain ⟨new, _⟩ := List.nodup_cons.mp dfs.nodup
  have all : ∀ rest : List Nat, (∀ n ∈ rest, g.Live n ∧ n ≠ root) →
      rest.foldlM (g.adopt g.sources rank) (tree, false) = .ok (tree, false) := by
    intro rest inner
    induction rest with
    | nil => rfl
    | cons n rest ih =>
      obtain ⟨⟨live, notRoot⟩, inner⟩ := List.forall_mem_cons.mp inner
      rw [List.foldlM_cons, h.adopt dfs ranked ne live notRoot]
      exact ih inner
  exact all l fun n hn => ⟨dfs.mem_iff.mp (List.mem_cons_of_mem _ hn), fun top => new (top ▸ hn)⟩

/-- A tree that a sweep leaves alone is complete, however few sweeps there were. -/
theorem Swept.complete_of_unchanged (dfs : g.DepthFirst l) (ranked : Ranked g l rank) (ne : 0 < g.size)
    (h : Swept g l k tree) (unchanged : g.sweep g.sources rank (root :: l) tree = .ok (tree, false)) :
    Complete g l tree := by
  have all : ∀ k, Swept g l k tree := by
    intro k
    induction k with
    | zero => exact ⟨h.rooted, fun i d _ j hj => absurd hj (Nat.not_lt_zero j), .inl rfl⟩
    | succ k ih =>
      obtain ⟨tree', changed, swept, next, _⟩ := ih.sweep dfs ranked ne
      obtain ⟨rfl, _⟩ := Prod.mk.inj (Except.ok.inj (unchanged.symm.trans swept))
      exact next
  exact (all g.size).complete ne

/-- As many sweeps as there are positions settle the whole tree. -/
theorem settle_complete (dfs : g.DepthFirst l) (ranked : Ranked g l rank) (ne : 0 < g.size) {sweeps : Nat}
    (h : Swept g l k tree) (within : k ≤ g.size) (enough : g.size + 1 ≤ k + sweeps) :
    ∃ tree', g.settle g.sources rank (root :: l) sweeps tree = .ok tree' ∧ Complete g l tree' := by
  induction sweeps generalizing k tree with
  | zero => omega
  | succ sweeps ih =>
    obtain ⟨tree', changed, swept, next, kept⟩ := h.sweep dfs ranked ne
    unfold settle
    rw [swept]
    cases changed with
    | false =>
      obtain rfl := kept rfl
      exact ⟨tree', rfl, h.complete_of_unchanged dfs ranked ne swept⟩
    | true =>
      have more : k ≠ g.size := by
        rintro rfl
        cases swept.symm.trans ((h.complete ne).sweep dfs ranked ne)
      exact ih next (by omega) (by omega)

/-- The rank of a position is its place in the order. -/
theorem get?_ranks {order : List Nat} (nodup : order.Nodup) {k : Nat} {t : Table}
    (inside : ∀ i ∈ order, i < t.entries.size) (i : Nat) :
    ((order.zipIdx k).foldl (fun t (p : Nat × Nat) => t.insert p.1 p.2) t).get? i =
      if i ∈ order then some (k + order.idxOf i) else t.get? i := by
  induction order generalizing k t with
  | nil => rfl
  | cons a order ih =>
    obtain ⟨new, nodup⟩ := List.nodup_cons.mp nodup
    obtain ⟨here, inside⟩ := List.forall_mem_cons.mp inside
    rw [List.zipIdx_cons, List.foldl_cons, ih nodup (by simpa using inside), Table.get?_insert here]
    by_cases same : i = a
    · subst same
      rw [if_neg new, if_pos rfl, if_pos List.mem_cons_self, List.idxOf_cons_self, Nat.add_zero]
    · rw [if_neg same, List.idxOf_cons_ne _ (Ne.symm same)]
      by_cases there : i ∈ order
      · rw [if_pos there, if_pos (List.mem_cons_of_mem _ there), Nat.add_assoc, Nat.add_comm 1]
      · rw [if_neg there, if_neg fun h => (List.mem_cons.mp h).elim same there]

theorem ranks_ranked (dfs : g.DepthFirst l) (ne : 0 < g.size) : Ranked g l (g.ranks (root :: l)) := by
  intro i live
  have known := dfs.mem_iff.mpr live
  refine Table.get_eq_ok ((get?_ranks dfs.nodup (fun i hi => ?_) i).trans ?_)
  · rw [Table.size_empty]
    exact (dfs.mem_iff.mp hi).lt ne
  · rw [if_pos known, Nat.zero_add]
    rfl

/-- The dominator tree of a graph with an entry is always found, and it is complete. -/
theorem dominatorTree_settles (ne : 0 < g.size) :
    ∃ l tree, g.DepthFirst l ∧ g.dominatorTree = .ok tree ∧ Complete g l tree := by
  obtain ⟨l, order, dfs⟩ := reversePostorder_led ne
  have inside : root < (Table.empty g.size).entries.size := by
    rw [Table.size_empty]
    exact ne
  have top : ((Table.empty g.size).insert root root).get? root = some root := by
    rw [Table.get?_insert inside, if_pos rfl]
  have single : ∀ {i d}, ((Table.empty g.size).insert root root).get? i = some d → i = root ∧ d = root := by
    intro i d parent
    rw [Table.get?_insert inside, Table.get?_empty] at parent
    split at parent
    · rename_i here
      exact ⟨here, (Option.some.inj parent).symm⟩
    · cases parent
  have begun : Rooted g l ((Table.empty g.size).insert root root) := by
    refine ⟨by simp, top, fun {i d} parent => ?_, fun {i d} parent => ?_, fun {i d} parent inner => ?_,
      fun {i d} parent e dom _ => ?_⟩
    all_goals obtain ⟨rfl, rfl⟩ := single parent
    · exact root_live g
    · exact ⟨root, top⟩
    · exact absurd rfl inner
    · exact dom
  obtain ⟨tree, settled, complete⟩ := settle_complete dfs (ranks_ranked dfs ne) ne
    (⟨begun, fun i d _ j hj => absurd hj (Nat.not_lt_zero j), .inl rfl⟩ : Swept g l 0 _) (Nat.zero_le _)
    (Nat.le_of_eq (Nat.zero_add _).symm)
  refine ⟨l, tree, dfs, ?_, complete⟩
  unfold dominatorTree
  rw [order]
  exact settled

theorem dominatorTree_complete (ne : 0 < g.size) : ∃ l tree, g.dominatorTree = .ok tree ∧ Complete g l tree := by
  obtain ⟨l, tree, _, done, complete⟩ := dominatorTree_settles ne
  exact ⟨l, tree, done, complete⟩

/-- The live position `i` has `d` as its immediate dominator. -/
structure Immediate (g : Flow) (d i : Nat) : Prop where
  dominates : g.Dominates d i
  strict : i ≠ root → d ≠ i
  closest : ∀ e, g.Dominates e i → e ≠ i → g.Dominates e d

theorem Complete.immediate (h : Complete g l tree) (parent : tree.get? i = some d) : g.Immediate d i where
  dominates := h.dominates parent
  strict inner same := Nat.lt_irrefl _ (same ▸ h.rooted.up parent inner)
  closest := h.rooted.closest parent

/-- On every graph that is not empty the iteration comes to an end, and finds every entry that it asks for. It gives
the positions that can be reached, and no others, a dominator: the root itself, and every other position its
immediate one, which is another position, is on every way to it, and is reached through everything else that is. -/
theorem dominatorTree_correct (g : Flow) (ne : 0 < g.size) : ∃ tree, g.dominatorTree = .ok tree ∧
    (∀ n, (tree.get? n).isSome = true ↔ g.Live n) ∧ tree.get? root = some root ∧
    ∀ n d, n ≠ root → tree.get? n = some d → d ≠ n ∧ g.Dominates d n ∧ ∀ e, e ≠ n → g.Dominates e n →
      g.Dominates e d := by
  obtain ⟨l, tree, done, complete⟩ := dominatorTree_complete ne
  refine ⟨tree, done, fun n => ?_, complete.rooted.top, fun n d inner parent => ?_⟩
  · rw [Option.isSome_iff_exists]
    exact ⟨fun ⟨d, parent⟩ => complete.rooted.live parent, complete.full n⟩
  · have immediate := complete.immediate parent
    exact ⟨immediate.strict inner, immediate.dominates, fun e other dom => immediate.closest e dom other⟩

/-- Two positions that lead to each other and are both entered from the root; one leads to itself, two edges go the
same way, and the last position cannot be reached. -/
def tangled : Flow := ⟨#[[1, 2], [2, 1], [1, 3, 3], [], [3]], by decide⟩

theorem dominatorTree_correct_tangled : ∃ tree, tangled.dominatorTree = .ok tree ∧
    tree.entries = #[some 0, some 0, some 0, some 2, none] ∧ tangled.Dominates 2 3 ∧ ¬ tangled.Live 4 := by
  have result : tangled.dominatorTree.map (·.entries) = .ok #[some 0, some 0, some 0, some 2, none] := by cbv
  obtain ⟨tree, done, keys, _, immediate⟩ := dominatorTree_correct tangled (by decide)
  rw [done] at result
  have entries : tree.entries = #[some 0, some 0, some 0, some 2, none] := Except.ok.inj result
  refine ⟨tree, done, entries, ?_, fun live => ?_⟩
  · exact (immediate 3 2 (by decide) (by unfold Table.get?; rw [entries]; rfl)).2.1
  · have known := (keys 4).mpr live
    unfold Table.get? at known
    rw [entries] at known
    cases known

end Flow

end PathMerge
