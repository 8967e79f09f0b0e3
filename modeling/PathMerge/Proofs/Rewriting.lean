/-
  PathMerge.Proofs.Rewriting — rewriting comes to an end.

  What a law yields for an application is simplified in turn, and may be the next application that a law
  is used on. Nothing is counted for that to stop: a law may double the operands (membership in a union is
  membership in either part), but the weight of what it yields is below that of the application
  (`rewritten_lighter`), so every chain of such steps is at most as long as the first weight.

  The depth that `simplifyWithin` counts down is therefore never used up, from the weight of the handle on, and
  one depth gives what the other gives.
-/

import PathMerge.Proofs.Requests

namespace PathMerge

open Context ContextM

variable {ctx ctx₁ ctx₂ : Context}

/-- A recursion that may go deeper returns whatever it returned before. -/
theorem ContextM.simplifyWithin_covers {depth depth' : Nat} (le : depth ≤ depth') (h : Handle) :
    Covers (simplifyWithin depth h) (simplifyWithin depth' h) := by
  refine Covers.of_succ (x := fun d => simplifyWithin d h) (fun d => ?_) le
  induction d generalizing h with
  | zero => exact .throw _ _
  | succ depth ih =>
    unfold simplifyWithin
    refine (Covers.refl _).bind fun known => ?_
    cases known with
    | some k => exact .refl _
    | none => exact (Covers.refl _).bind fun n => (rebuild_covers ih _ n).bind fun k => .refl _

/-- Depth counts only as far as the weight of the handle: any depth from there on gives the same. -/
theorem ContextM.simplifyWithin_returns (hc : ctx.Sound) {h : Handle} (hh : ctx.Has h) :
    ∃ k ctx', ctx'.Has k ∧ Returns (simplify h) ctx k ctx' ∧
      ∀ depth, ctx.weight h ≤ depth → Returns (simplifyWithin depth h) ctx k ctx' := by
  obtain ⟨k, ctx', ret, _, _, refined⟩ := simplifyWithin_simplifies (ctx.weight h) hc hh (Nat.le_refl _)
  have deeper : ∀ depth, ctx.weight h ≤ depth → Returns (simplifyWithin depth h) ctx k ctx' :=
    fun depth le => simplifyWithin_covers le h _ _ _ ret
  have whole : ctx.weight h ≤ ctx.pool.treeSize h := Pool.weight_le_treeSize hc.pool hh
  exact ⟨k, ctx', refined.has, returns_bind rfl (deeper _ whole), deeper⟩

/-- The simplifier has not met the application `h` before, and `k` is what a law yields for it, in `ctx₂`, once its
arguments are simplified. It is simplified next. -/
def Context.RewrittenTo (ctx : Context) (h : Handle) (ctx₂ : Context) (k : Handle) : Prop :=
  ∃ f args args' ctx₀ ctx₁, ctx.pool.node? h = some (.app f args) ∧ Returns (fetch h.regular) ctx none ctx₀ ∧
    Returns (args.mapM simplify) ctx₀ args' ctx₁ ∧ Returns (ContextM.rewrite f args') ctx₁ (some k) ctx₂

/-- What is simplified next is lighter than what it was rewritten from. -/
theorem Context.rewritten_lighter (hc : ctx.Sound) {h k : Handle} (step : ctx.RewrittenTo h ctx₂ k) :
    ctx₂.Sound ∧ ctx₂.weight k < ctx.weight h := by
  obtain ⟨f, args, args', ctx₀, ctx₁, node, missed, simplified, rewritten⟩ := step
  have has : ∀ a ∈ args, ctx.Has a := fun a ha => hc.pool.has_child node ha
  obtain ⟨e₀, hc₀, _⟩ := (fetch_yields hc h.regular).of_returns missed
  have node₀ := e₀.pool node
  have weight : ctx.weight h = 1 + ctx₀.weights args := by
    rw [← weight_extends hc e₀ (Pool.has_of_node node)]
    exact Pool.weight_eq hc₀.pool node₀
  obtain ⟨name, sort, owner, hf⟩ := hc₀.registered node₀
  have each : Simplifies simplify (ctx₀.weights args) := fun hc hh _ => simplify_yields hc hh
  obtain ⟨e₁, hc₁, refined⟩ := (mapM_simplify_yields each hc₀ (fun a ha => e₀.has (has a ha))
    fun a ha => weight_le_weights ha).of_returns simplified
  have hf₁ := e₁.symbols.get hf
  rw [refined.length_eq] at hf₁
  obtain ⟨_, hc₂, replaces⟩ := (rewrite_yields hc₁ hf₁ rfl refined.has).of_returns rewritten
  have lighter := refined.weights
  have yielded := (replaces k rfl).weight
  exact ⟨hc₂, by omega⟩

/-- A chain of rewritings, each of what the last one yielded, has at most as many steps as its first expression
weighs. -/
theorem Context.rewriting_ends {contexts : Nat → Context} {handles : Nat → Handle} (hc : (contexts 0).Sound) :
    ∃ n ≤ (contexts 0).weight (handles 0), ¬ (contexts n).RewrittenTo (handles n) (contexts (n + 1))
      (handles (n + 1)) := by
  by_contra endless
  push Not at endless
  have descent : ∀ n ≤ (contexts 0).weight (handles 0) + 1, (contexts n).Sound ∧
      (contexts n).weight (handles n) + n ≤ (contexts 0).weight (handles 0) := by
    intro n
    induction n with
    | zero => exact fun _ => ⟨hc, Nat.le_refl _⟩
    | succ n ih =>
      intro le
      obtain ⟨sound, bound⟩ := ih (by omega)
      obtain ⟨sound', less⟩ := rewritten_lighter sound (endless n (by omega))
      exact ⟨sound', by omega⟩
  have := (descent _ (Nat.le_refl _)).2
  omega

/-- In every context a client can have, whatever its theories, its functions and what its memory holds, the
simplifier returns on every handle; the count of its depth is never used up from the weight of the handle on, and no
chain of rewritings is longer than that. -/
theorem simplify_terminates (reached : ctx.Reached) {h : Handle} (hh : ctx.Has h) :
    (∃ k ctx', ctx'.Has k ∧ Returns (simplify h) ctx k ctx' ∧
      ∀ depth, ctx.weight h ≤ depth → Returns (simplifyWithin depth h) ctx k ctx') ∧
    ∀ (contexts : Nat → Context) (handles : Nat → Handle), contexts 0 = ctx → handles 0 = h →
      ∃ n ≤ ctx.weight h, ¬ (contexts n).RewrittenTo (handles n) (contexts (n + 1)) (handles (n + 1)) := by
  have hc := reached.reliable.sound
  refine ⟨simplifyWithin_returns hc hh, fun contexts handles first start => ?_⟩
  subst first
  subst start
  exact rewriting_ends hc

def Context.locations : Context :=
  ((Context.create 0 [.locations]).toOption).getD ⟨.initial 0, .initial, .empty 0, []⟩

/-- They ask whether the field `C.f` of `o` is in the union of `r` and `s`, which is handle 7. -/
def memberOfUnion : List Request :=
  [.addLocal "o" .object, .addLocal "r" .locset, .addLocal "s" .locset, .symbol ⟨6⟩, .field "C.f", .symbol ⟨7⟩,
    .symbol ⟨8⟩, .call "union" [⟨4, false⟩, ⟨5, false⟩], .call "elementOf" [⟨2, false⟩, ⟨3, false⟩, ⟨6, false⟩]]

theorem Context.create_locations : Context.create 0 [.locations] = .ok .locations := rfl

theorem Context.locations_reached : (locations.after memberOfUnion).Reached := by
  refine .intro memberOfUnion create_locations ?_
  refine ⟨trivial, trivial, trivial, ?_, trivial, ?_, ?_, ?_, ?_, trivial⟩
  · show 6 < _
    decide +kernel
  · show 7 < _
    decide +kernel
  · show 8 < _
    decide +kernel
  · show ∀ a ∈ _, Pool.Has _ a
    decide +kernel
  · show ∀ a ∈ _, Pool.Has _ a
    decide +kernel

theorem simplify_terminates_union : (locations.after memberOfUnion).Reached ∧
    (∃ k ctx', ctx'.Has k ∧ Returns (simplify ⟨7, false⟩) (locations.after memberOfUnion) k ctx') ∧
    ∃ ctx' k, (locations.after memberOfUnion).RewrittenTo ⟨7, false⟩ ctx' k := by
  have has : (locations.after memberOfUnion).Has ⟨7, false⟩ := by decide +kernel
  obtain ⟨⟨k, ctx', hasK, ret, _⟩, _⟩ := simplify_terminates locations_reached has
  refine ⟨locations_reached, ⟨k, ctx', hasK, ret⟩, ?_⟩
  have ran : ∀ {α : Type} (x : ContextM α) (c : Context) (a : α), (x.run.run c).1 = .ok a →
      Returns x c a (x.run.run c).2 := fun x c a ok => Prod.ext ok rfl
  exact ⟨_, ⟨13, false⟩, ⟨5⟩, [⟨2, false⟩, ⟨3, false⟩, ⟨6, false⟩], [⟨2, false⟩, ⟨3, false⟩, ⟨6, false⟩], _, _,
    by decide +kernel, ran _ _ _ (by cbv), ran _ _ _ (by cbv), ran _ _ _ (by cbv)⟩

end PathMerge
