/-
  PathMerge.Proofs.Preservation — simplification never changes what an expression means.

  Every context a client can have is sound, and in a sound context the laws of every theory and all that the pool does
  of its own keep values. So simplification returns, and what it returns has every value that it was given for.
-/

import PathMerge.Proofs.Requests

namespace PathMerge

open ContextM

variable {ctx : Context}

/-- In every context that a client can have, whichever theories it has, simplification returns. A handle has its
value under every interpretation and every valuation under which it has one, and so has the handle it is simplified
to; a path condition keeps its truth value, and a state keeps that and the value of every symbol. -/
theorem simplification_preserves_meaning (reached : ctx.Reached) :
    (∀ h, ctx.Has h → ∃ k ctx', Returns (simplify h) ctx k ctx' ∧ ctx'.Has k ∧
      ∀ I v x, ctx.eval I v h = some x → ctx'.eval I v h = some x ∧ ctx'.eval I v k = some x) ∧
    (∀ p : PathCondition, p.Valid ctx → ∃ q ctx', Returns p.simplify ctx q ctx' ∧ q.Valid ctx' ∧
      ∀ I v b, p.truth ctx I v = some b → q.truth ctx' I v = some b) ∧
    (∀ s : State, s.Valid ctx → ∃ t ctx', Returns s.simplify ctx t ctx' ∧ t.Valid ctx' ∧
      (∀ I v b, s.path.truth ctx I v = some b → t.path.truth ctx' I v = some b) ∧
      ∀ I v y x, s.store.eval ctx I v y = some x → t.store.eval ctx' I v y = some x) := by
  have hc := reached.reliable.sound
  refine ⟨fun h hh => ?_, fun p hp => ?_, fun s hs => ?_⟩
  · obtain ⟨k, ctx', returned, e, _, refined⟩ := simplify_yields hc hh
    refine ⟨k, ctx', returned, refined.has, fun I v x hx => ⟨?_, refined.value I v x hx⟩⟩
    rw [Context.eval_extends hc e hh, hx]
  · obtain ⟨q, ctx', returned, _, _, valid, truth⟩ := PathCondition.simplify_yields hc hp
    exact ⟨q, ctx', returned, valid, truth⟩
  · obtain ⟨t, ctx', returned, _, _, refined⟩ := State.simplify_yields hc hs
    exact ⟨t, ctx', returned, refined.valid, refined.path, refined.store⟩

def Context.basic : Context := ((Context.create 4 Theory.all).toOption).getD ⟨.initial 0, .initial, .empty 0, []⟩

theorem Context.create_basic : Context.create 4 Theory.all = .ok .basic := rfl

/-- They build `x + 0`, as handle 4. -/
def sumWithZero : List Request :=
  [.addLocal "x" .int, .symbol ⟨18⟩, .integer 0, .apply ⟨1⟩ [⟨2, false⟩, ⟨3, false⟩]]

theorem Context.withSum_reached : (basic.after sumWithZero).Reached := by
  refine .intro sumWithZero create_basic ⟨trivial, ?_, trivial, ?_, trivial⟩
  · show 18 < _
    decide +kernel
  · show ∀ a ∈ _, Pool.Has _ a
    decide +kernel

theorem Context.eval_withSum (I : Interpretation) (v : Valuation) {n : Int} (hn : v ⟨18⟩ = .int n) :
    (basic.after sumWithZero).eval I v ⟨4, false⟩ = some (.int n) := by
  have hc := withSum_reached.reliable.sound
  have sum : (basic.after sumWithZero).eval I v ⟨4, false⟩ =
      appliedSymbol (basic.after sumWithZero) I v ⟨"plus", .int, .function 2 "int"⟩ [⟨2, false⟩, ⟨3, false⟩] :=
    eval_app hc (f := ⟨1⟩) (by decide +kernel) (by decide +kernel) rfl I v
  have left := Stands.eval hc (y := ⟨18⟩) (h := ⟨2, false⟩) ⟨rfl, by decide +kernel⟩ I v
  have right : (basic.after sumWithZero).eval I v ⟨3, false⟩ = some (Literal.int 0).value :=
    Pool.eval_node hc.pool (h := ⟨3, false⟩) (n := .literal (.int 0)) (by decide +kernel) rfl
  rw [sum, appliedSymbol, List.mapM_cons, List.mapM_cons, left, right, hn]
  show some (Value.int (n + 0)) = _
  rw [Int.add_zero]

/-- `x + 0` is simplified to something that has the value of `x`. -/
theorem simplification_preserves_meaning_sum :
    ∃ k ctx', Returns (simplify ⟨4, false⟩) (Context.basic.after sumWithZero) k ctx' ∧
    ∀ I v n, v ⟨18⟩ = .int n → ctx'.eval I v k = some (.int n) := by
  obtain ⟨k, ctx', returned, _, same⟩ :=
    (simplification_preserves_meaning Context.withSum_reached).1 ⟨4, false⟩ (by decide +kernel)
  exact ⟨k, ctx', returned, fun I v n hn => (same I v _ (Context.eval_withSum I v hn)).2⟩

end PathMerge
