/-
  PathMerge.Proofs.Connectives — conjunctions and disjunctions are what they say.

  An assignment gives every node that is no junction a truth value of its own, whatever its operands are. The
  truth value of a handle then follows: a junction joins those of its operands, and a sign flips. The handle
  that joining returns is true exactly if all of the operands are, or one of them, however they were flattened,
  dropped or shrunk on the way (`Joined.assigns`).

  The steps of joining are counted, but the count is never used up: with any larger count the outcome is the
  same (`join_returns`).
-/

import PathMerge.Proofs.Requests

namespace PathMerge

open Context ContextM

/-! ## Assignments -/

namespace Connective

def combine : Connective → List Bool → Bool
  | conj, bs => bs.all id
  | disj, bs => bs.any id

theorem combine_eq_decisive {c : Connective} {bs : List Bool} : c.combine bs = c.decisive ↔ c.decisive ∈ bs := by
  cases c <;> simp [combine, decisive]

/-- Where all operands have a truth value, `value` is plain conjunction or disjunction. -/
theorem value_some (c : Connective) (bs : List Bool) : c.value (bs.map some) = some (c.combine bs) := by
  by_cases decided : c.decisive ∈ bs
  · rw [combine_eq_decisive.mpr decided]
    exact value_decisive.mpr (List.mem_map_of_mem decided)
  · rw [Bool.eq_not_of_ne (mt combine_eq_decisive.mp decided)]
    refine value_other.mpr (List.forall_mem_map.mpr fun b hb => congrArg some ?_)
    exact Bool.eq_not_of_ne fun same => decided (same ▸ hb)

end Connective

/-- The truth value of a node, given those of its operands and those assigned to the nodes that are no junctions. -/
def Node.holds (assigned : Node → Bool) (ev : Handle → Bool) : Node → Bool
  | truth => true
  | junction c items => c.combine (items.map ev)
  | n => assigned n

theorem Node.holds_congr {assigned : Node → Bool} {f g : Handle → Bool} {n : Node}
    (same : ∀ c ∈ n.children, f c = g c) :
    n.holds assigned f = n.holds assigned g := by
  cases n with
  | junction c items => exact congrArg c.combine (List.map_congr_left same)
  | _ => rfl

def assignmentReading (assigned : Node → Bool) : Reading Bool := ⟨Node.holds assigned, not, false, Node.holds_congr⟩

namespace Pool

variable {p p' : Pool} {assigned : Node → Bool}

/-- The truth value of `h` under an assignment to the nodes that are no junctions. -/
def assigns (p : Pool) (assigned : Node → Bool) (h : Handle) : Bool := p.read (assignmentReading assigned) h

theorem assigns_node (hp : p.Sound) {h : Handle} {n : Node} (hn : p.node? h = some n) :
    p.assigns assigned h = if h.negated then !n.holds assigned (p.assigns assigned)
      else n.holds assigned (p.assigns assigned) :=
  read_eq hp hn

theorem assigns_neg (hp : p.Sound) {h : Handle} (hh : p.Has h) : p.assigns assigned (-h) = !p.assigns assigned h := by
  obtain ⟨n, hn⟩ := has_iff.mp hh
  rw [assigns_node hp hn, assigns_node hp (h := -h) hn, Handle.neg_negated]
  cases h.negated <;> simp

end Pool

def Truth.ofAssignment (assigned : Node → Bool) : Truth where
  holds p h := some (p.assigns assigned h)
  tt hp := congrArg some (Pool.assigns_node hp hp.truth)
  neg hp hh := by
    rw [Pool.assigns_neg hp hh, Option.some_inj, Option.some_inj, Bool.not_eq_eq_eq_not]
  junction {p h c items} hp hn sign := by
    have node : p.assigns assigned h = c.combine (items.map (p.assigns assigned)) := by
      rw [Pool.assigns_node hp hn, sign]
      rfl
    rw [node, ← c.value_some, List.map_map]
    rfl
  grows hp e hh := congrArg some (Pool.read_extends hp e hh)

/-! ## Joining -/

variable {ctx : Context} {c : Connective} {items : List Handle}

theorem Joined.assigns {p p' : Pool} {h : Handle} (joined : Joined c p items h p') (assigned : Node → Bool) :
    p'.assigns assigned h = c.combine (items.map (p.assigns assigned)) := by
  have value : c.value (items.map ((Truth.ofAssignment assigned).holds p)) =
      some (c.combine (items.map (p.assigns assigned))) := by
    rw [← c.value_some, List.map_map]
    rfl
  exact Option.some.inj (joined.truth (.ofAssignment assigned) _ value)

/-- Joining returns, and it returns the same with any larger count of steps. -/
theorem join_returns (hc : ctx.Sound) (c : Connective) (has : ∀ h ∈ items, ctx.Has h) :
    ∃ k ctx', Returns (onPool (PoolM.join c items)) ctx k ctx' ∧ Joined c ctx.pool items k ctx'.pool ∧
      ∀ steps, PoolM.joinSteps ctx.pool items ≤ steps →
        Returns (onPool (PoolM.joinWithin steps c items)) ctx k ctx' := by
  obtain ⟨k, p, ret, _, _, joined⟩ := PathMerge.join_yields (c := c) hc.pool has
  have counted : Returns (PoolM.joinWithin (PoolM.joinSteps ctx.pool items) c items) ctx.pool k p :=
    (PoolM.join_run c items ctx.pool).symm.trans ret
  refine ⟨k, { ctx with pool := p }, returns_onPool.mpr ⟨p, ret, rfl⟩, joined, fun steps le => ?_⟩
  exact returns_onPool.mpr ⟨p, Covers.of_succ (fun n => PoolM.joinWithin_covers n c items) le _ _ _ counted, rfl⟩

/-- Whatever truth values the nodes that are no junctions are given, a conjunction is true exactly if all of its
operands are and a disjunction exactly if one of them is. Both constructors return on all operands that are there,
and the count of their steps is never used up. -/
theorem connectives_hold (reached : ctx.Reached) (has : ∀ h ∈ items, ctx.Has h) :
    (∃ k ctx', Returns (ContextM.conj items) ctx k ctx' ∧
      (∀ assigned, ctx'.pool.assigns assigned k = true ↔ ∀ h ∈ items, ctx.pool.assigns assigned h = true) ∧
      ∀ steps, PoolM.joinSteps ctx.pool items ≤ steps →
        Returns (onPool (PoolM.joinWithin steps .conj items)) ctx k ctx') ∧
    ∃ k ctx', Returns (ContextM.disj items) ctx k ctx' ∧
      (∀ assigned, ctx'.pool.assigns assigned k = true ↔ ∃ h ∈ items, ctx.pool.assigns assigned h = true) ∧
      ∀ steps, PoolM.joinSteps ctx.pool items ≤ steps →
        Returns (onPool (PoolM.joinWithin steps .disj items)) ctx k ctx' := by
  have hc := reached.reliable.sound
  constructor
  · obtain ⟨k, ctx', ret, joined, counted⟩ := join_returns hc .conj has
    refine ⟨k, ctx', ret, fun assigned => ?_, counted⟩
    simp [joined.assigns, Connective.combine]
  · obtain ⟨k, ctx', ret, joined, counted⟩ := join_returns hc .disj has
    refine ⟨k, ctx', ret, fun assigned => ?_, counted⟩
    simp [joined.assigns, Connective.combine]

/-- `!a` beside `a || b`: the second operand shrinks to `b`. -/
theorem connectives_hold_absorption : (bare.after sharedGuards).Reached ∧
    ∃ k ctx', Returns (ContextM.conj [⟨2, true⟩, ⟨6, false⟩]) (bare.after sharedGuards) k ctx' ∧
      ∀ assigned, ctx'.pool.assigns assigned k = true ↔
        (bare.after sharedGuards).pool.assigns assigned ⟨2, true⟩ = true ∧
          (bare.after sharedGuards).pool.assigns assigned ⟨6, false⟩ = true := by
  have has : ∀ h ∈ [(⟨2, true⟩ : Handle), ⟨6, false⟩], (bare.after sharedGuards).Has h := by decide +kernel
  obtain ⟨⟨k, ctx', ret, meaning, _⟩, _⟩ := connectives_hold bare_reached has
  refine ⟨bare_reached, k, ctx', ret, fun assigned => ?_⟩
  simpa using meaning assigned

end PathMerge
