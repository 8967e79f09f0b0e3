/-
  PathMerge.Proofs.Normal — normal forms, and simplification without a memory.

  An expression is in normal form when its operands are and no law applies to it. Building a node again from its
  operands gives it back in any case, since all nodes are canonical. Normal forms stay normal as the context grows.

  `plainWithin` is the recursion of the simplifier with nothing remembered. It is a steady action, so it
  finds the same again later, and it gives a normal form back unchanged (`Normal.plain`).
-/

import PathMerge.Proofs.Canonical
import PathMerge.Proofs.Simplify

namespace PathMerge

open Context ContextM

/-! ## Normal forms -/

inductive Context.Normal (ctx : Context) : Handle → Prop
  | intro {h : Handle} {n : Node} (node : ctx.pool.node? h = some n) (children : ∀ c ∈ n.children, Normal ctx c)
      (settled : ∀ f args, n = .app f args → Returns (ContextM.rewrite f args) ctx none ctx) : Normal ctx h

variable {ctx ctx' : Context}

theorem Context.Later.extends (h : ctx.Later ctx') : ctx.Extends ctx' := ⟨h.pool.nodes, h.symbols⟩

namespace Context.Normal

theorem later (later : ctx.Later ctx') (tidy : ctx'.pool.Tidy) {h : Handle} (normal : ctx.Normal h) :
    ctx'.Normal h := by
  induction normal with
  | intro node _ settled ih =>
    refine .intro (later.pool.nodes node) ih fun f args app => ?_
    exact (rewrite_straight f args).repeats (settled f args app) tidy later

theorem neg {h : Handle} (normal : ctx.Normal h) : ctx.Normal (-h) := by
  obtain ⟨node, children, settled⟩ := normal
  exact .intro (h := -h) node children settled

theorem regular {h : Handle} (normal : ctx.Normal h) : ctx.Normal h.regular := by
  obtain ⟨node, children, settled⟩ := normal
  exact .intro (h := h.regular) node children settled

theorem signed {h : Handle} (normal : ctx.Normal h) (flip : Bool) : ctx.Normal (h.signed flip) := by
  cases flip with
  | false => exact normal
  | true => exact normal.neg

theorem has {h : Handle} (normal : ctx.Normal h) : ctx.Has h := by
  obtain ⟨node, _, _⟩ := normal
  exact Pool.has_of_node node

theorem tt (hp : ctx.pool.Sound) : ctx.Normal .tt :=
  .intro hp.truth (List.forall_mem_nil _) fun _ _ e => by cases e

/-- The normal forms of the contexts that differ from `ctx` in their pool. -/
theorem nest (ctx : Context) : Nest fun p h => Normal { ctx with pool := p } h where
  grows {p q h} grown tidy normal := by
    have later : Later { ctx with pool := p } { ctx with pool := q } := ⟨grown, .refl ctx.symbols, rfl⟩
    exact normal.later later tidy
  neg normal := normal.neg
  tt hp := tt hp
  operands normal hn x hx := by
    obtain ⟨node, children, _⟩ := normal
    cases hn.symm.trans node
    exact children x hx
  junction hn inside := .intro hn inside fun _ _ e => by cases e

end Context.Normal

/-! ## Simplification without a memory -/

namespace ContextM

/-- As `simplifyWithin`, but nothing is remembered. -/
def plainWithin : Nat → Handle → ContextM Handle
  | 0, _ => throw (.defect .boundExceeded)
  | depth + 1, signed => do
    let h := signed.regular
    let result ← rebuild (plainWithin depth) h (← asking (·.node h))
    return result.signed signed.negated

theorem rebuild_steady {simplify : Handle → ContextM Handle} (hs : ∀ h, Steady (simplify h)) (h : Handle) (n : Node) :
    Steady (rebuild simplify h n) := by
  cases n with
  | truth | literal _ | symbol _ => exact .pure _
  | app f args =>
    refine (Steady.mapM hs args).bind fun args' => (rewrite_straight f args').toSteady.bind fun r => ?_
    cases r with
    | none => exact (apply_straight f args').toSteady
    | some result => exact hs result
  | summary bs =>
    refine (Steady.mapM (fun b => ?_) bs).bind fun bs' => choice_steady bs'
    exact (hs _).bind fun g => (hs _).bind fun v => .pure _
  | eq a b => exact (hs a).bind fun a' => (hs b).bind fun b' => (equation_straight a' b').toSteady
  | junction c items => exact (Steady.mapM hs items).bind fun items' => (join_straight c items').toSteady

theorem rebuild_covers {s t : Handle → ContextM Handle} (hs : ∀ h, Covers (s h) (t h)) (h : Handle) (n : Node) :
    Covers (rebuild s h n) (rebuild t h n) := by
  cases n with
  | truth | literal _ | symbol _ => exact .refl _
  | app f args =>
    refine (Covers.mapM hs args).bind fun args' => (Covers.refl _).bind fun r => ?_
    cases r with
    | none => exact .refl _
    | some result => exact hs result
  | summary bs =>
    refine (Covers.mapM (fun b => ?_) bs).bind fun bs' => .refl _
    exact (hs _).bind fun g => (hs _).bind fun v => .refl _
  | eq a b => exact (hs a).bind fun a' => (hs b).bind fun b' => .refl _
  | junction c items => exact (Covers.mapM hs items).bind fun items' => .refl _

theorem plainWithin_steady (depth : Nat) (h : Handle) : Steady (plainWithin depth h) := by
  induction depth generalizing h with
  | zero => exact .throw _
  | succ depth ih =>
    exact (asking_straight (.node _)).toSteady.bind fun n => (rebuild_steady ih _ n).bind fun k => .pure _

theorem plainWithin_covers {depth depth' : Nat} (le : depth ≤ depth') (h : Handle) :
    Covers (plainWithin depth h) (plainWithin depth' h) := by
  refine Covers.of_succ (x := fun d => plainWithin d h) (fun d => ?_) le
  induction d generalizing h with
  | zero => exact .throw _ _
  | succ depth ih =>
    exact (Covers.refl _).bind fun n => (rebuild_covers ih _ n).bind fun k => .refl _

/-- Two runs that both return, whatever their depths, return the same. -/
theorem plainWithin_unique {depth depth' : Nat} {h k k' : Handle} {c c' : Context}
    (ret : Returns (plainWithin depth h) ctx k c) (ret' : Returns (plainWithin depth' h) ctx k' c') :
    k = k' ∧ c = c' :=
  returns_unique (plainWithin_covers (Nat.le_max_left depth depth') h _ _ _ ret)
    (plainWithin_covers (Nat.le_max_right depth depth') h _ _ _ ret')

/-- Simplifying within a depth keeps the value of everything that is no heavier. -/
theorem plainWithin_simplifies (depth : Nat) : Simplifies (plainWithin depth) depth := by
  induction depth with
  | zero =>
    intro ctx h hc hh le
    have : 0 < ctx.weight h := Pool.weight_pos hc.pool hh
    omega
  | succ depth ih =>
    intro ctx h hc hh le
    obtain ⟨n, hn⟩ := Pool.has_iff.mp hh
    have weight : ctx.weight h.regular ≤ depth + 1 := by
      have same : ctx.weight h.regular = ctx.weight h :=
        (Pool.weight_eq hc.pool (h := h.regular) hn).trans (Pool.weight_eq hc.pool hn).symm
      omega
    unfold plainWithin
    refine (asking_yields hc (a := n) (InternTable.value_eq_ok.mpr hn)).bind ?_
    rintro _ _ _ _ ⟨rfl, rfl⟩
    refine (rebuild_yields ih hc (h := h.regular) hn (regular_negated h) weight).bind fun k ctx₁ _ hc₁ refined => ?_
    exact Yields.pure hc₁ (Refined.signed hc hc₁ hh refined)

end ContextM

/-! ## Normal forms are left alone -/

theorem Node.weight_child_lt (w : Handle → Nat) {n : Node} {c : Handle} (hc : c ∈ n.children) : w c < n.weight w := by
  have le : w c ≤ (n.children.map w).sum := le_sum (List.mem_map_of_mem hc)
  cases n with
  | truth | literal _ | symbol _ => cases hc
  | app f args => exact Nat.lt_one_add_iff.mpr le
  | summary bs =>
    rw [sum_children_summary] at le
    exact Nat.lt_one_add_iff.mpr le
  | eq a b =>
    simp only [children, List.map_cons, List.map_nil, List.sum_cons, List.sum_nil, Nat.add_zero] at le
    exact Nat.lt_one_add_iff.mpr le
  | junction c items => exact Nat.lt_one_add_iff.mpr (le_largest (List.mem_map_of_mem hc))

theorem returns_mapM_self {σ α : Type} {f : α → Action σ α} {s : σ} {l : List α}
    (each : ∀ a ∈ l, Returns (f a) s a s) : Returns (l.mapM f) s l s := by
  induction l with
  | nil => rfl
  | cons a l ih =>
    rw [List.mapM_cons]
    refine returns_bind (each a (by simp)) (returns_bind (ih fun b hb => each b (List.mem_cons_of_mem _ hb)) rfl)

theorem apply_found (hc : ctx.Sound) {h : Handle} {f : SymbolId} {args : List Handle}
    (hn : ctx.pool.node? h = some (.app f args)) (sign : h.negated = false) :
    Returns (ContextM.apply f args) ctx h ctx := by
  obtain ⟨name, sort, owner, hf⟩ := hc.registered hn
  unfold ContextM.apply
  have asked : Returns (asking (·.symbols.get f)) ctx ⟨name, sort, .function args.length owner⟩ ctx := by
    unfold Returns
    rw [asking_run, Registry.get_eq_ok hf]
  refine returns_bind asked ?_
  dsimp only
  rw [if_pos rfl]
  exact returns_onPool.mpr ⟨ctx.pool, intern_found hc.pool.tidy sign hn, rfl⟩

/-- With operands that are left alone, a node to which no law applies is built again as it was. -/
theorem rebuild_settled (hc : ctx.Sound) {simplify : Handle → ContextM Handle} {h : Handle} {n : Node}
    (hn : ctx.pool.node? h = some n) (sign : h.negated = false)
    (settled : ∀ f args, n = .app f args → Returns (ContextM.rewrite f args) ctx none ctx)
    (children : ∀ c ∈ n.children, Returns (simplify c) ctx c ctx) : Returns (rebuild simplify h n) ctx h ctx := by
  have hp := hc.pool
  cases n with
  | truth | literal _ | symbol _ => rfl
  | app f args =>
    exact returns_bind (returns_mapM_self children) (returns_bind (settled f args rfl) (apply_found hc hn sign))
  | summary bs =>
    refine returns_bind (returns_mapM_self fun b hb => ?_)
      (returns_onPool.mpr ⟨ctx.pool, choice_again hp hn sign, rfl⟩)
    obtain ⟨guard, value⟩ := Node.mem_children_summary hb
    exact returns_bind (children b.1 guard) (returns_bind (children b.2 value) rfl)
  | eq a b =>
    have left := children a (by simp [Node.children])
    have right := children b (by simp [Node.children])
    exact returns_bind left (returns_bind right (returns_onPool.mpr ⟨ctx.pool, equation_again hp hn sign, rfl⟩))
  | junction c items =>
    exact returns_bind (returns_mapM_self children)
      (returns_onPool.mpr ⟨ctx.pool, join_again hp hn sign, rfl⟩)

/-- A normal form is simplified to itself, and nothing is added to the context. -/
theorem Context.Normal.plain (hc : ctx.Sound) {h : Handle} (normal : ctx.Normal h) {depth : Nat}
    (le : ctx.weight h ≤ depth) : Returns (plainWithin depth h) ctx h ctx := by
  induction normal generalizing depth with
  | @intro h n node _ settled ih =>
    have weight : ctx.weight h = n.weight ctx.weight := Pool.weight_eq hc.pool node
    have positive : 0 < ctx.weight h := Pool.weight_pos hc.pool (Pool.has_of_node node)
    obtain ⟨d, rfl⟩ : ∃ d, depth = d + 1 := ⟨depth - 1, by omega⟩
    have children : ∀ c ∈ n.children, Returns (plainWithin d c) ctx c ctx := by
      intro c hc
      have : ctx.weight c < n.weight ctx.weight := Node.weight_child_lt _ hc
      exact ih c hc (by omega)
    have asked : Returns (asking (·.node h.regular)) ctx n ctx := by
      unfold Returns
      rw [asking_run]
      exact Prod.ext (InternTable.value_eq_ok.mpr node) rfl
    refine returns_bind asked (returns_bind
      (rebuild_settled hc (h := h.regular) node (regular_negated h) settled children) ?_)
    show Returns (pure (h.regular.signed h.negated)) ctx h ctx
    rw [← eq_signed_regular]
    rfl

end PathMerge
