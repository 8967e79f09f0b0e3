/-
  PathMerge.Proofs.NodeTable — the node table is in canonical form.

  Whatever a client has built, rewritten, merged or analysed, no junction in the table could have been flattened,
  absorbed or decided, no summary has a branch too many and no equation is settled. This is part of what it means for
  a pool to be sound, so it holds wherever requests lead. Building a node again from its operands therefore finds it
  and leaves the context as it is.
-/

import PathMerge.Proofs.Requests

namespace PathMerge

open Context ContextM

variable {ctx : Context}

/-- The constructor of the node, applied to its operands, returns `h` and leaves `ctx` as it is. -/
def Node.Rebuilds (ctx : Context) (h : Handle) : Node → Prop
  | truth => h = .tt
  | literal l => Returns (ContextM.intern (.literal l)) ctx h ctx
  | symbol y => Returns (ContextM.symbol y) ctx h ctx
  | app f args => Returns (ContextM.apply f args) ctx h ctx
  | summary branches => Returns (ContextM.choice branches) ctx h ctx
  | eq a b => Returns (ContextM.equation a b) ctx h ctx
  | junction c items => Returns (onPool (PoolM.join c items)) ctx h ctx

/-- Every node of a context that a client can have is in canonical form, and its constructor, applied to its
operands, returns it without interning anything. -/
theorem nodes_canonical (reached : ctx.Reached) {h : Handle} {n : Node} (hn : ctx.pool.node? h = some n)
    (sign : h.negated = false) : n.Formed ctx.pool ∧ n.Rebuilds ctx h := by
  have hc := reached.reliable.sound
  have hp := hc.pool
  have found := returns_onPool.mpr ⟨ctx.pool, intern_found hp.tidy sign hn, rfl⟩
  refine ⟨hp.formed hn, ?_⟩
  cases n with
  | truth => exact hp.eq_of_node hn hp.truth sign
  | literal l => exact found
  | symbol y => exact found
  | app f args => exact apply_found hc hn sign
  | summary branches => exact returns_onPool.mpr ⟨ctx.pool, choice_again hp hn sign, rfl⟩
  | eq a b => exact returns_onPool.mpr ⟨ctx.pool, equation_again hp hn sign, rfl⟩
  | junction c items => exact returns_onPool.mpr ⟨ctx.pool, join_again hp hn sign, rfl⟩

theorem nodes_canonical_shared_guards : (bare.after sharedGuards).Reached ∧
    (bare.after sharedGuards).pool.Flat .disj [⟨2, true⟩, ⟨3, false⟩] ∧
    Returns (onPool (PoolM.join .disj [⟨2, true⟩, ⟨3, false⟩])) (bare.after sharedGuards) ⟨10, false⟩
      (bare.after sharedGuards) ∧
    Returns (ContextM.choice [(⟨2, false⟩, ⟨4, false⟩), (⟨10, false⟩, ⟨5, false⟩)]) (bare.after sharedGuards)
      ⟨11, false⟩
      (bare.after sharedGuards) ∧
    Returns (ContextM.equation ⟨4, false⟩ ⟨5, false⟩) (bare.after sharedGuards) ⟨9, false⟩
      (bare.after sharedGuards) := by
  have guard := nodes_canonical bare_reached (h := ⟨10, false⟩) (n := .junction .disj [⟨2, true⟩, ⟨3, false⟩])
    (by decide +kernel) rfl
  have summary := nodes_canonical bare_reached (h := ⟨11, false⟩)
    (n := .summary [(⟨2, false⟩, ⟨4, false⟩), (⟨10, false⟩, ⟨5, false⟩)]) (by decide +kernel) rfl
  have equation :=
    nodes_canonical bare_reached (h := ⟨9, false⟩) (n := .eq ⟨4, false⟩ ⟨5, false⟩) (by decide +kernel) rfl
  exact ⟨bare_reached, guard.1, guard.2, summary.2, equation.2⟩

end PathMerge
