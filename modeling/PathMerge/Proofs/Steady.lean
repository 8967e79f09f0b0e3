/-
  PathMerge.Proofs.Steady — doing a thing again changes nothing.

  An action that builds expressions finds, the second time, every node it made the first time. A steady
  action returns the same again in every later state and leaves that state as it is (`repeats`), and it
  cannot tell apart two states that hold the same nodes at the same places (`blind`), however the tables
  behind them are laid out. Both survive sequencing, so a composed action is steady when its parts are. An
  action is straight if, besides, it makes no summary: a choice is steady, and everything else that builds
  one expression from others is straight.

  `Covers x y` says that `y` returns whatever `x` returns. A recursion that counts its steps down covers
  itself with fewer steps.
-/

import PathMerge.Context
import PathMerge.Proofs.Pool
import PathMerge.Proofs.Registry

namespace PathMerge

/-! ## Steady actions -/

/-- A type of states that only grow. `Grown s t`: an action may lead from `s` to `t`. `Later s t`: what was found in
`s` is still found in `t`. `Alike s t`: the same is found in both. `Unforked s t`: every summary that is found in `t`
was found in `s`. -/
class Lasting (σ : Type) where
  Tidy : σ → Prop
  Grown : σ → σ → Prop
  Later : σ → σ → Prop
  Alike : σ → σ → Prop
  Unforked : σ → σ → Prop
  grown_refl : ∀ s, Grown s s
  grown_trans : ∀ {s t u}, Grown s t → Grown t u → Grown s u
  later : ∀ {s t u}, Grown s t → Later t u → Later s u
  unforked_refl : ∀ s, Unforked s s
  unforked_trans : ∀ {s t u}, Unforked s t → Unforked t u → Unforked s u

open Lasting

variable {σ α β : Type}

structure Steady [Lasting σ] (x : Action σ α) : Prop where
  grows : ∀ s, Grown s (x.run.run s).2
  tidies : ∀ {s}, Tidy s → Tidy (x.run.run s).2
  repeats : ∀ {s a s' t}, Returns x s a s' → Tidy t → Later s' t → Returns x t a t
  blind : ∀ {s t}, Tidy s → Tidy t → Alike s t →
    (x.run.run s).1 = (x.run.run t).1 ∧ Alike (x.run.run s).2 (x.run.run t).2

structure Straight [Lasting σ] (x : Action σ α) : Prop extends Steady x where
  unforked : ∀ s, Unforked s (x.run.run s).2

theorem run_bind_ok {x : Action σ α} {f : α → Action σ β} {s s' : σ} {a : α} (h : x.run.run s = (.ok a, s')) :
    (x >>= f).run.run s = (f a).run.run s' := by
  rw [run_bind, h]

theorem run_bind_error {x : Action σ α} {f : α → Action σ β} {s s' : σ} {e : Failure}
    (h : x.run.run s = (.error e, s')) : (x >>= f).run.run s = (.error e, s') := by
  rw [run_bind, h]

namespace Steady

variable [Lasting σ]

theorem of_returns {x : Action σ α} (hx : Steady x) {s s' : σ} {a : α} (h : Returns x s a s') : Grown s s' := by
  have := hx.grows s
  rwa [show x.run.run s = _ from h] at this

theorem tidy_returns {x : Action σ α} (hx : Steady x) {s s' : σ} {a : α} (hs : Tidy s)
    (h : Returns x s a s') : Tidy s' := by
  have := hx.tidies hs
  rwa [show x.run.run s = _ from h] at this

theorem pure (a : α) : Steady (Pure.pure a : Action σ α) where
  grows s := grown_refl s
  tidies hs := hs
  repeats h _ _ := by
    cases h
    rfl
  blind _ _ h := ⟨rfl, h⟩

theorem throw (e : Failure) : Steady (MonadExcept.throw e : Action σ α) where
  grows s := grown_refl s
  tidies hs := hs
  repeats h _ _ := by cases h
  blind _ _ h := ⟨rfl, h⟩

theorem bind {x : Action σ α} {f : α → Action σ β} (hx : Steady x) (hf : ∀ a, Steady (f a)) :
    Steady (x >>= f) where
  grows s := by
    have grown := hx.grows s
    rcases hr : x.run.run s with ⟨e | a, s'⟩ <;> rw [hr] at grown
    · rw [run_bind_error hr]
      exact grown
    · rw [run_bind_ok hr]
      exact grown_trans grown ((hf a).grows s')
  tidies {s} hs := by
    have tidy := hx.tidies hs
    rcases hr : x.run.run s with ⟨e | a, s'⟩ <;> rw [hr] at tidy
    · rw [run_bind_error hr]
      exact tidy
    · rw [run_bind_ok hr]
      exact (hf a).tidies tidy
  repeats h ht later := by
    obtain ⟨a, s', ha, hb⟩ := returns_of_bind h
    have again := hx.repeats ha ht (Lasting.later ((hf a).of_returns hb) later)
    exact returns_bind again ((hf a).repeats hb ht later)
  blind {s t} hs ht alike := by
    obtain ⟨same, alike'⟩ := hx.blind hs ht alike
    have hs' := hx.tidies hs
    have ht' := hx.tidies ht
    rcases hr : x.run.run s with ⟨r, s'⟩
    rcases hq : x.run.run t with ⟨q, t'⟩
    rw [hr, hq] at same alike'
    rw [hr] at hs'
    rw [hq] at ht'
    dsimp only at same
    subst same
    cases r with
    | error e =>
      rw [run_bind_error hr, run_bind_error hq]
      exact ⟨rfl, alike'⟩
    | ok a =>
      rw [run_bind_ok hr, run_bind_ok hq]
      exact (hf a).blind hs' ht' alike'

theorem mapM {f : α → Action σ β} (hf : ∀ a, Steady (f a)) (l : List α) : Steady (l.mapM f) := by
  induction l with
  | nil => exact .pure []
  | cons a l ih =>
    rw [List.mapM_cons]
    exact (hf a).bind fun b => ih.bind fun bs => .pure _

theorem ite {c : Prop} [Decidable c] {x y : Action σ α} (hx : Steady x) (hy : Steady y) :
    Steady (if c then x else y) := by
  split
  · exact hx
  · exact hy

end Steady

namespace Straight

variable [Lasting σ]

theorem unforked_returns {x : Action σ α} (hx : Straight x) {s s' : σ} {a : α} (h : Returns x s a s') :
    Unforked s s' := by
  have := hx.unforked s
  rwa [show x.run.run s = _ from h] at this

theorem pure (a : α) : Straight (Pure.pure a : Action σ α) := ⟨.pure a, unforked_refl⟩

theorem throw (e : Failure) : Straight (MonadExcept.throw e : Action σ α) := ⟨.throw e, unforked_refl⟩

theorem bind {x : Action σ α} {f : α → Action σ β} (hx : Straight x) (hf : ∀ a, Straight (f a)) :
    Straight (x >>= f) := by
  refine ⟨hx.toSteady.bind fun a => (hf a).toSteady, fun s => ?_⟩
  have first := hx.unforked s
  rcases hr : x.run.run s with ⟨e | a, s'⟩ <;> rw [hr] at first
  · rw [run_bind_error hr]
    exact first
  · rw [run_bind_ok hr]
    exact unforked_trans first ((hf a).unforked s')

theorem map {x : Action σ α} {f : α → β} (hx : Straight x) : Straight (f <$> x) := by
  rw [map_eq_pure_bind]
  exact hx.bind fun a => .pure _

theorem mapM {f : α → Action σ β} (hf : ∀ a, Straight (f a)) (l : List α) : Straight (l.mapM f) := by
  induction l with
  | nil => exact .pure []
  | cons a l ih =>
    rw [List.mapM_cons]
    exact (hf a).bind fun b => ih.bind fun bs => .pure _

theorem ite {c : Prop} [Decidable c] {x y : Action σ α} (hx : Straight x) (hy : Straight y) :
    Straight (if c then x else y) := by
  split
  · exact hx
  · exact hy

end Straight

/-! ## Covering -/

def Covers (x y : Action σ α) : Prop := ∀ s a s', Returns x s a s' → Returns y s a s'

namespace Covers

theorem refl (x : Action σ α) : Covers x x := fun _ _ _ h => h

theorem trans {x y z : Action σ α} (h : Covers x y) (h' : Covers y z) : Covers x z :=
  fun s a s' hx => h' s a s' (h s a s' hx)

theorem throw (e : Failure) (y : Action σ α) : Covers (MonadExcept.throw e) y := fun _ _ _ h => by cases h

theorem bind {x y : Action σ α} {f g : α → Action σ β} (h : Covers x y) (hf : ∀ a, Covers (f a) (g a)) :
    Covers (x >>= f) (y >>= g) := by
  intro s b s' hb
  obtain ⟨a, s₁, ha, hb⟩ := returns_of_bind hb
  exact returns_bind (h s a s₁ ha) (hf a s₁ b s' hb)

theorem mapM {f g : α → Action σ β} (h : ∀ a, Covers (f a) (g a)) (l : List α) :
    Covers (l.mapM f) (l.mapM g) := by
  induction l with
  | nil => exact .refl _
  | cons a l ih =>
    rw [List.mapM_cons, List.mapM_cons]
    exact (h a).bind fun b => ih.bind fun bs => .refl _

/-- Of a recursion that may fail for want of steps, more steps cover fewer. -/
theorem of_succ {x : Nat → Action σ α} (h : ∀ n, Covers (x n) (x (n + 1))) {m n : Nat} (le : m ≤ n) :
    Covers (x m) (x n) := by
  induction le with
  | refl => exact .refl _
  | step _ ih => exact ih.trans (h _)

end Covers

/-! ## Pools -/

namespace Pool

/-- Every node is stored once and has its size beside it. -/
structure Tidy (p : Pool) : Prop where
  table : p.table.Sound
  sizes : p.sizes.size = p.size

structure Grown (p q : Pool) : Prop where
  nodes : p.Extends q
  sizes : ∀ h, p.treeSize h ≤ q.treeSize h

structure Alike (p q : Pool) : Prop where
  values : p.table.values = q.table.values
  sizes : p.sizes = q.sizes

def Unforked (p q : Pool) : Prop :=
  ∀ {h bs}, q.node? h = some (.summary bs) → p.node? h = some (.summary bs)

theorem Sound.tidy {p : Pool} (hp : p.Sound) : p.Tidy := ⟨hp.table, hp.sizes⟩

theorem Grown.refl (p : Pool) : p.Grown p := ⟨id, fun _ => Nat.le_refl _⟩

theorem Grown.trans {p q r : Pool} (h : p.Grown q) (h' : q.Grown r) : p.Grown r :=
  ⟨fun hn => h'.nodes (h.nodes hn), fun k => Nat.le_trans (h.sizes k) (h'.sizes k)⟩

instance : Lasting Pool where
  Tidy := Tidy
  Grown := Grown
  Later := Grown
  Alike := Alike
  Unforked := Unforked
  grown_refl := .refl
  grown_trans := .trans
  later := .trans
  unforked_refl := fun _ _ _ h => h
  unforked_trans := fun first second _ _ h => first (second h)

theorem Alike.node? {p q : Pool} (h : p.Alike q) (k : Handle) : p.node? k = q.node? k := by
  unfold Pool.node? InternTable.value?
  rw [h.values]

theorem Alike.value {p q : Pool} (h : p.Alike q) (i : Nat) : p.table.value i = q.table.value i := by
  unfold InternTable.value
  rw [h.values]

theorem Alike.size {p q : Pool} (h : p.Alike q) : p.size = q.size := congrArg Array.size h.values

theorem Alike.treeSize {p q : Pool} (h : p.Alike q) (k : Handle) : p.treeSize k = q.treeSize k := by
  unfold Pool.treeSize
  rw [h.sizes]

/-! ### Interning -/

theorem Tidy.find?_eq_some {p : Pool} (hp : p.Tidy) {n : Node} {i : Nat} :
    p.table.find? n = some i ↔ p.table.value? i = some n := by
  refine ⟨InternTable.find?_some, fun h => ?_⟩
  rcases hf : p.table.find? n with _ | j
  · exact absurd h (InternTable.find?_none hp.table hf i)
  · rw [hp.table.distinct h (InternTable.find?_some hf)]

/-- A node that is there is found, and nothing changes. -/
theorem Tidy.put_found {p : Pool} (hp : p.Tidy) {n : Node} {h : Handle} (sign : h.negated = false)
    (hn : p.node? h = some n) : p.put n = (h, p) := by
  have found := InternTable.put_found (hp.find?_eq_some.mpr hn)
  have le : h.index ≤ p.table.size := (InternTable.value?_le_size hn).2
  have sizes : p.sizes.size = p.table.size := hp.sizes
  have index : h.index ≠ p.sizes.size + 1 := by omega
  obtain ⟨i, s⟩ := h
  cases sign
  obtain ⟨table, kept⟩ := p
  dsimp only at found index
  unfold put
  dsimp only
  rw [found]
  dsimp only
  rw [if_neg index]
  rfl

theorem Tidy.put_new {p : Pool} {n : Node} (hf : p.table.find? n = none) (hp : p.Tidy) :
    (p.put n).1 = ⟨p.size + 1, false⟩ ∧ (p.put n).2.table.values = p.table.values.push n ∧
      (p.put n).2.sizes = p.sizes.push (1 + (n.children.map p.treeSize).sum) := by
  have index : (p.table.put n).1 = p.sizes.size + 1 := by
    rw [InternTable.put_new_fst hf, hp.sizes]
    rfl
  refine ⟨?_, InternTable.put_new_values hf, ?_⟩
  · rw [(put_table p n).2, InternTable.put_new_fst hf]
    rfl
  · rw [put_sizes, if_pos index]
    rfl

theorem sizeAt_le_push (sizes : Array Nat) (k : Nat) (h : Handle) : sizeAt sizes h ≤ sizeAt (sizes.push k) h := by
  unfold sizeAt
  rw [Array.getElem?_push]
  split
  · rename_i last
    rw [Array.getElem?_eq_none (by omega)]
    exact Nat.zero_le _
  · exact Nat.le_refl _

theorem grown_put (p : Pool) (n : Node) : p.Grown (p.put n).2 := by
  refine ⟨extends_put p n, fun h => ?_⟩
  unfold treeSize
  rw [put_sizes]
  split
  · exact sizeAt_le_push _ _ _
  · exact Nat.le_refl _

theorem Tidy.put {p : Pool} (hp : p.Tidy) (n : Node) : (p.put n).2.Tidy := by
  refine ⟨InternTable.put_sound hp.table n, ?_⟩
  rcases hf : p.table.find? n with _ | i
  · obtain ⟨_, values, sizes⟩ := hp.put_new hf
    show (p.put n).2.sizes.size = (p.put n).2.table.values.size
    rw [sizes, values, Array.size_push, Array.size_push, hp.sizes]
    rfl
  · rw [hp.put_found (h := ⟨i, false⟩) rfl (InternTable.find?_some hf)]
    exact hp.sizes

/-- Pools that hold the same nodes put a node at the same index, whatever their slots. -/
theorem Alike.put {p q : Pool} (hp : p.Tidy) (hq : q.Tidy) (h : p.Alike q) (n : Node) :
    (p.put n).1 = (q.put n).1 ∧ (p.put n).2.Alike (q.put n).2 := by
  have sizes : p.treeSize = q.treeSize := funext h.treeSize
  rcases hf : p.table.find? n with _ | i
  · have missing : q.table.find? n = none := by
      rcases hg : q.table.find? n with _ | i
      · rfl
      · have found : q.node? ⟨i, false⟩ = some n := InternTable.find?_some hg
        rw [← h.node?] at found
        rw [hp.find?_eq_some.mpr found] at hf
        cases hf
    obtain ⟨first, values, kept⟩ := hp.put_new hf
    obtain ⟨first', values', kept'⟩ := hq.put_new missing
    refine ⟨by rw [first, first', h.size], ?_, ?_⟩
    · rw [values, values', h.values]
    · rw [kept, kept', h.sizes, sizes]
  · have found : p.node? ⟨i, false⟩ = some n := InternTable.find?_some hf
    rw [hp.put_found rfl found, hq.put_found rfl (h.node? ⟨i, false⟩ ▸ found)]
    exact ⟨rfl, h⟩

end Pool

namespace PoolM

theorem intern_steady (n : Node) : Steady (intern n) where
  grows p := Pool.grown_put p n
  tidies hp := Pool.Tidy.put hp n
  repeats {p h p' q} ret hq later := by
    cases ret
    have there := later.nodes (Pool.node?_put p n)
    show ((Except.ok (q.put n).1, (q.put n).2) : Except Failure Handle × Pool) = _
    rw [Pool.Tidy.put_found hq rfl there]
    rfl
  blind {p q} hp hq alike := by
    obtain ⟨same, alike'⟩ := Pool.Alike.put hp hq alike n
    exact ⟨congrArg Except.ok same, alike'⟩

theorem intern_straight {n : Node} (single : ∀ bs, n ≠ .summary bs) : Straight (intern n) where
  toSteady := intern_steady n
  unforked _ _ bs hn := (Pool.node?_of_put hn).resolve_right fun ⟨_, made⟩ => single bs made.symm

theorem node_run (h : Handle) (p : Pool) : (node h).run.run p = (p.table.value h.index, p) := by
  unfold node
  have got : (get : PoolM Pool).run.run p = (.ok p, p) := rfl
  rw [run_bind_ok got]
  cases p.table.value h.index <;> rfl

theorem node_straight (h : Handle) : Straight (node h) where
  grows p := by
    rw [node_run]
    exact .refl p
  tidies hp := by
    rw [node_run]
    exact hp
  repeats {p n p' q} ret _ later := by
    have run : (p.table.value h.index, p) = (.ok n, p') := (node_run h p).symm.trans ret
    obtain ⟨read, rfl⟩ := Prod.mk.inj run
    have still : q.node? h = some n := later.nodes (InternTable.value_eq_ok.mp read)
    show (node h).run.run q = _
    rw [node_run, InternTable.value_eq_ok.mpr still]
  blind {p q} _ _ alike := by
    rw [node_run, node_run]
    exact ⟨alike.value _, alike⟩
  unforked p h bs hn := by
    rwa [node_run] at hn

theorem isLiteral_straight (h : Handle) : Straight (isLiteral h) := by
  unfold isLiteral
  refine .ite (.pure _) ((node_straight h).bind fun n => ?_)
  split <;> exact .pure _

theorem operands?_straight (c : Connective) (h : Handle) : Straight (operands? c h) := by
  unfold operands?
  refine .ite (.pure _) ((node_straight h).bind fun n => ?_)
  split <;> exact .pure _

/-! ### Junctions -/

theorem flatten_straight (c : Connective) (items : List Handle) : Straight (flatten c items) := by
  induction items with
  | nil => exact .pure _
  | cons h rest ih =>
    unfold flatten
    exact .ite ih (.ite (.pure _) ((operands?_straight c h).bind fun here => ih.bind fun flat => .pure _))

theorem absorption?_straight (c : Connective) (items before after : List Handle) :
    Straight (absorption? c items before after) := by
  induction after generalizing before with
  | nil => exact .pure _
  | cons h after ih =>
    unfold absorption?
    refine (operands?_straight c.dual h).bind fun r => ?_
    split
    · exact ih _
    · exact .ite (.pure _) (.ite (.pure _) (ih _))

theorem joinWithin_straight (steps : Nat) (c : Connective) (items : List Handle) :
    Straight (joinWithin steps c items) := by
  induction steps generalizing c items with
  | zero => exact .throw _
  | succ steps ih =>
    unfold joinWithin
    refine (flatten_straight c items).bind fun r => ?_
    split
    · exact .pure _
    · refine .ite (.pure _) ((absorption?_straight c _ _ _).bind fun a => ?_)
      split
      · exact ih _ _
      · exact (ih _ _).bind fun smaller => ih _ _
      · split
        · exact .pure _
        · exact .pure _
        · exact intern_straight fun _ e => by cases e

/-- A join that ends within its steps ends the same way with one step more. -/
theorem joinWithin_covers (steps : Nat) (c : Connective) (items : List Handle) :
    Covers (joinWithin steps c items) (joinWithin (steps + 1) c items) := by
  induction steps generalizing c items with
  | zero => exact .throw _ _
  | succ steps ih =>
    rw [joinWithin, joinWithin]
    refine (Covers.refl _).bind fun r => ?_
    cases r with
    | none => exact .refl _
    | some flat =>
      dsimp only
      by_cases comp : Handle.hasComplements (Handle.sorted flat) = true
      · rw [if_pos comp, if_pos comp]
        exact .refl _
      · rw [if_neg comp, if_neg comp]
        refine (Covers.refl _).bind fun a => ?_
        rcases a with _ | ⟨rest⟩ | ⟨before, kept, after⟩
        · exact .refl _
        · exact ih c rest
        · exact (ih c.dual kept).bind fun smaller => ih c _

def joinSteps (p : Pool) (items : List Handle) : Nat := 1 + Pool.total (items.map p.treeSize)

theorem join_run (c : Connective) (items : List Handle) (p : Pool) :
    (join c items).run.run p = (joinWithin (joinSteps p items) c items).run.run p := by
  unfold join
  exact run_bind_ok rfl

theorem joinSteps_mono {p q : Pool} (h : p.Grown q) (items : List Handle) : joinSteps p items ≤ joinSteps q items := by
  unfold joinSteps
  rw [Pool.total_eq_sum, Pool.total_eq_sum]
  induction items with
  | nil => simp
  | cons x items ih =>
    have := h.sizes x
    simp only [List.map_cons, List.sum_cons]
    omega

/-- A join makes no summary, and joining the same operands again finds what was made. -/
theorem join_straight (c : Connective) (items : List Handle) : Straight (join c items) where
  grows p := by
    rw [join_run]
    exact (joinWithin_straight _ c items).grows p
  tidies hp := by
    rw [join_run]
    exact (joinWithin_straight _ c items).tidies hp
  repeats {p h p' q} ret hq later := by
    have within : Returns (joinWithin (joinSteps p items) c items) p h p' := (join_run c items p).symm.trans ret
    have again := (joinWithin_straight _ c items).repeats within hq later
    have grown : p.Grown q := Pool.Grown.trans ((joinWithin_straight _ c items).of_returns within) later
    have more : Returns (joinWithin (joinSteps q items) c items) q h q :=
      Covers.of_succ (fun n => joinWithin_covers n c items) (joinSteps_mono grown items) _ _ _ again
    exact (join_run c items q).trans more
  blind {p q} hp hq alike := by
    have steps : joinSteps p items = joinSteps q items := by
      unfold joinSteps
      rw [funext alike.treeSize]
    rw [join_run, join_run, steps]
    exact (joinWithin_straight _ c items).blind hp hq alike
  unforked p := by
    rw [join_run]
    exact (joinWithin_straight _ c items).unforked p

/-! ### Equations and choices -/

theorem equation_straight (a b : Handle) : Straight (equation a b) := by
  unfold equation
  refine .ite (.pure _) (.ite (.pure _) (.ite (.pure _) (.ite (.pure _) (.ite (.pure _) (.ite (.pure _) ?_)))))
  have decided : ∀ both : Bool, Straight (if both then Pure.pure Handle.ff else intern (.eq a b)) :=
    fun both => .ite (.pure _) (intern_straight fun _ e => by cases e)
  exact (isLiteral_straight a).bind fun left => .ite ((isLiteral_straight b).bind decided) (decided false)

theorem addBranch_straight (guard value : Handle) (merged : List Branch) :
    Straight (addBranch guard value merged) := by
  induction merged with
  | nil => exact .pure _
  | cons b rest ih =>
    unfold addBranch
    exact .ite ((join_straight _ _).bind fun g => .pure _) (ih.bind fun others => .pure _)

theorem mergeBranches_straight (merged branches : List Branch) : Straight (mergeBranches merged branches) := by
  induction branches generalizing merged with
  | nil => exact .pure _
  | cons b rest ih =>
    unfold mergeBranches
    exact .ite (ih _) ((addBranch_straight _ _ _).bind fun grown => ih _)

theorem choice_steady (branches : List Branch) : Steady (choice branches) := by
  unfold choice
  split
  · exact .throw _
  · refine (mergeBranches_straight _ _).toSteady.bind fun merged => ?_
    split
    · exact .pure _
    · split
      · exact .pure _
      · exact .pure _
      · exact intern_steady _

end PoolM

/-! ## Contexts -/

namespace Context

structure Later (ctx ctx' : Context) : Prop where
  pool : ctx.pool.Grown ctx'.pool
  symbols : ctx.symbols.Extends ctx'.symbols
  theories : ctx'.theories = ctx.theories

structure Grown (ctx ctx' : Context) : Prop where
  pool : ctx.pool.Grown ctx'.pool
  symbols : ctx'.symbols = ctx.symbols
  memo : ctx'.memo = ctx.memo
  theories : ctx'.theories = ctx.theories

structure Alike (ctx ctx' : Context) : Prop where
  pool : ctx.pool.Alike ctx'.pool
  symbols : ctx.symbols = ctx'.symbols
  theories : ctx.theories = ctx'.theories

theorem Later.refl (ctx : Context) : ctx.Later ctx := ⟨.refl _, .refl _, rfl⟩

theorem Later.trans {a b c : Context} (h : a.Later b) (h' : b.Later c) : a.Later c :=
  ⟨h.pool.trans h'.pool, h.symbols.trans h'.symbols, h'.theories.trans h.theories⟩

theorem Grown.later {a b : Context} (h : a.Grown b) : a.Later b :=
  ⟨h.pool, h.symbols ▸ .refl _, h.theories⟩

instance : Lasting Context where
  Tidy := fun ctx => ctx.pool.Tidy
  Grown := Grown
  Later := Later
  Alike := Alike
  Unforked := fun ctx ctx' => ctx.pool.Unforked ctx'.pool
  grown_refl := fun _ => ⟨.refl _, rfl, rfl, rfl⟩
  grown_trans := fun h h' => ⟨h.pool.trans h'.pool, h'.symbols.trans h.symbols, h'.memo.trans h.memo,
    h'.theories.trans h.theories⟩
  later := fun h h' => h.later.trans h'
  unforked_refl := fun _ _ _ h => h
  unforked_trans := fun first second _ _ h => first (second h)

structure Lasts (question : Context → Except Failure α) : Prop where
  later : ∀ {ctx ctx' a}, ctx.Later ctx' → question ctx = .ok a → question ctx' = .ok a
  alike : ∀ {ctx ctx'}, ctx.Alike ctx' → question ctx = question ctx'

namespace Lasts

theorem pure (a : α) : Lasts fun _ => Pure.pure a := ⟨fun _ h => h, fun _ => rfl⟩

theorem bind {q : Context → Except Failure α} {f : Context → α → Except Failure β} (hq : Lasts q)
    (hf : ∀ a, Lasts fun ctx => f ctx a) : Lasts fun ctx => q ctx >>= f ctx where
  later {ctx ctx' b} later h := by
    rcases asked : q ctx with e | a
    · rw [asked] at h
      cases h
    · rw [asked] at h
      rw [hq.later later asked]
      exact (hf a).later later h
  alike {ctx ctx'} alike := by
    rw [hq.alike alike]
    rcases q ctx' with e | a
    · rfl
    · exact (hf a).alike alike

theorem ite {c : Prop} [Decidable c] {q q' : Context → Except Failure α} (h : Lasts q) (h' : Lasts q') :
    Lasts fun ctx => if c then q ctx else q' ctx := by
  by_cases hc : c
  · simpa only [if_pos hc] using h
  · simpa only [if_neg hc] using h'

theorem node (h : Handle) : Lasts fun ctx => ctx.node h where
  later later read := InternTable.value_eq_ok.mpr (later.pool.nodes (InternTable.value_eq_ok.mp read))
  alike alike := alike.pool.value _

theorem symbol (id : SymbolId) : Lasts fun ctx => ctx.symbols.get id where
  later {ctx ctx' s} later h := by
    rcases hs : ctx.symbols.get? id with _ | t
    · unfold Registry.get at h
      rw [hs] at h
      cases h
    · rw [Registry.get_eq_ok hs] at h
      cases h
      exact Registry.get_eq_ok (later.symbols.get hs)
  alike alike := by rw [alike.symbols]

theorem symbolName (id : SymbolId) : Lasts fun ctx => ctx.symbolName id := (symbol id).bind fun _ => pure _

theorem symbolSort (id : SymbolId) : Lasts fun ctx => ctx.symbolSort id := (symbol id).bind fun _ => pure _

theorem theoryOf? (f : SymbolId) : Lasts fun ctx => ctx.theoryOf? f := by
  refine (symbol f).bind fun s => ?_
  have theory : ∀ owner, Lasts fun ctx => Pure.pure (ctx.theory? owner) := fun owner =>
    ⟨fun later h => by
      unfold theory? at *
      rw [later.theories]
      exact h, fun alike => by
      unfold theory?
      rw [alike.theories]⟩
  cases s.kind with
  | function arity owner => exact theory owner
  | _ => exact pure _

theorem isLiteral (h : Handle) : Lasts fun ctx => ctx.isLiteral h := by
  refine ite (pure _) ((node h).bind fun n => ?_)
  cases n <;> exact pure _

theorem intValue? (h : Handle) : Lasts fun ctx => ctx.intValue? h := by
  refine ite (pure _) ((node h).bind fun n => ?_)
  rcases n with _ | l | _ | _ | _ | _ | _
  · exact pure _
  · cases l <;> exact pure _
  all_goals exact pure _

theorem asSymbol? (h : Handle) : Lasts fun ctx => ctx.asSymbol? h := by
  refine ite (pure _) ((node h).bind fun n => ?_)
  cases n <;> exact pure _

theorem asApp? (h : Handle) (name : String) : Lasts fun ctx => ctx.asApp? h name := by
  refine ite (pure _) ((node h).bind fun n => ?_)
  cases n with
  | app f args => exact (symbolName f).bind fun _ => pure _
  | _ => exact pure _

end Lasts

end Context

namespace ContextM

theorem onPool_run (x : PoolM α) (ctx : Context) :
    (onPool x).run.run ctx = ((x.run.run ctx.pool).1, { ctx with pool := (x.run.run ctx.pool).2 }) := rfl

theorem returns_onPool {x : PoolM α} {ctx ctx' : Context} {a : α} :
    Returns (onPool x) ctx a ctx' ↔ ∃ p, Returns x ctx.pool a p ∧ ctx' = { ctx with pool := p } := by
  unfold Returns
  rw [onPool_run]
  constructor
  · intro h
    obtain ⟨h₁, h₂⟩ := Prod.mk.inj h
    exact ⟨_, Prod.ext h₁ rfl, h₂.symm⟩
  · rintro ⟨p, h, rfl⟩
    rw [h]

theorem onPool_steady {x : PoolM α} (hx : Steady x) : Steady (onPool x) where
  grows ctx := ⟨hx.grows ctx.pool, rfl, rfl, rfl⟩
  tidies hs := hx.tidies hs
  repeats {ctx a ctx' later} ret ht grown := by
    obtain ⟨p, first, rfl⟩ := returns_onPool.mp ret
    exact returns_onPool.mpr ⟨later.pool, hx.repeats first ht grown.pool, rfl⟩
  blind {ctx ctx'} hs ht alike := by
    obtain ⟨same, alike'⟩ := hx.blind hs ht alike.pool
    exact ⟨same, alike', alike.symbols, alike.theories⟩

theorem onPool_straight {x : PoolM α} (hx : Straight x) : Straight (onPool x) where
  toSteady := onPool_steady hx.toSteady
  unforked ctx := hx.unforked ctx.pool

theorem asking_run (question : Context → Except Failure α) (ctx : Context) :
    (asking question).run.run ctx = (question ctx, ctx) := by
  unfold asking
  have got : (get : ContextM Context).run.run ctx = (.ok ctx, ctx) := rfl
  rw [run_bind_ok got]
  cases question ctx <;> rfl

theorem asking_straight {question : Context → Except Failure α} (h : Context.Lasts question) :
    Straight (asking question) where
  grows ctx := by
    rw [asking_run]
    exact Lasting.grown_refl ctx
  tidies hs := by
    rw [asking_run]
    exact hs
  repeats {ctx a ctx' later} ret _ grown := by
    have run := (asking_run question ctx).symm.trans ret
    obtain ⟨asked, rfl⟩ := Prod.mk.inj run
    show (asking question).run.run later = _
    rw [asking_run, h.later grown asked]
  blind {ctx ctx'} _ _ alike := by
    rw [asking_run, asking_run]
    exact ⟨h.alike alike, alike⟩
  unforked ctx h bs hn := by
    rwa [asking_run] at hn

end ContextM

end PathMerge
