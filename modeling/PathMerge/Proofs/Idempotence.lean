/-
  PathMerge.Proofs.Idempotence — simplifying again changes nothing.

  What the simplifier returns is a normal form, normal forms stay normal whatever is done to the context
  later, and the simplifier gives a normal form back. None of this depends on what the memory has kept, so
  the result is given back also when it was forgotten. A simplified path condition is a canonical list of normal
  forms that are not taken apart any further, and a simplified state has such a path condition and the canonical
  store of normal forms none of which is its own symbol; both are given back as they are.
-/

import PathMerge.Proofs.Requests

namespace PathMerge

open Context ContextM

variable {α β : Type} {ctx ctx' : Context}

/-! ## Actions that change nothing that can be seen -/

def Stays (x : ContextM α) (ctx : Context) (a : α) : Prop :=
  ∃ ctx', Returns x ctx a ctx' ∧ ctx'.Reliable ∧ ctx.Alike ctx'

namespace Stays

theorem of_returns {x : ContextM α} {a : α} (hc : ctx.Reliable) (ret : Returns x ctx a ctx) : Stays x ctx a :=
  ⟨ctx, ret, hc, ⟨rfl, rfl⟩, rfl, rfl⟩

theorem bind {x : ContextM α} {f : α → ContextM β} {a : α} {b : β} (hx : Stays x ctx a)
    (hf : ∀ c, c.Reliable → ctx.Alike c → Stays (f a) c b) : Stays (x >>= f) ctx b := by
  obtain ⟨c, ret, hc, alike⟩ := hx
  obtain ⟨c', ret', hc', alike'⟩ := hf c hc alike
  exact ⟨c', returns_bind ret ret', hc', alike.trans alike'⟩

theorem mapM {f : α → ContextM β} {g : α → β} (l : List α) (hc : ctx.Reliable)
    (each : ∀ a ∈ l, ∀ c, c.Reliable → ctx.Alike c → Stays (f a) c (g a)) : Stays (l.mapM f) ctx (l.map g) := by
  induction l generalizing ctx with
  | nil => exact of_returns hc rfl
  | cons a l ih =>
    rw [List.mapM_cons]
    refine (each a List.mem_cons_self ctx hc ⟨⟨rfl, rfl⟩, rfl, rfl⟩).bind fun c hc alike => ?_
    have rest := ih hc fun b hb c' hc' alike' => each b (List.mem_cons_of_mem _ hb) c' hc' (alike.trans alike')
    exact rest.bind fun c' hc' _ => of_returns hc' rfl

end Stays

/-! ## Normal forms are given back -/

theorem Context.Normal.stays (hc : ctx.Reliable) {k : Handle} (normal : ctx.Normal k) : Stays (simplify k) ctx k := by
  obtain ⟨k', ref, plain, _, _, settled⟩ := simplify_settled hc normal.has
  obtain ⟨rfl, rfl⟩ := plainWithin_unique (normal.plain hc.sound (Nat.le_refl _)) plain
  obtain ⟨ctx', ret, reliable, alike⟩ := settled ctx hc ⟨⟨rfl, rfl⟩, rfl, rfl⟩
  exact ⟨ctx', ret, reliable, alike.symm⟩

namespace PathCondition

theorem simplifiedParts_stays (hc : ctx.Reliable) {d : Handle} (normal : ctx.Normal d) (alone : Alone ctx d) :
    Stays (simplifiedParts d) ctx [d] := by
  refine (normal.stays hc).bind fun c hc alike => ?_
  have looked := Stays.of_returns hc (alone.later alike.later hc.sound.pool.tidy)
  exact looked.bind fun c' hc' _ => .of_returns hc' rfl

theorem Simplified.stays (hc : ctx.Reliable) {p : PathCondition} (h : p.Simplified ctx) : Stays p.simplify ctx p := by
  have parts : Stays (p.items.mapM simplifiedParts) ctx (p.items.map fun d => [d]) := by
    refine Stays.mapM p.items hc fun d hd c hc alike => ?_
    have tidy := hc.sound.pool.tidy
    exact simplifiedParts_stays hc ((h.alone d hd).1.later alike.later tidy) ((h.alone d hd).2.later alike.later tidy)
  refine parts.bind fun c hc _ => .of_returns hc ?_
  have flat : (p.items.map fun d => [d]).flatten = p.items := by
    rw [← List.flatMap_def, List.flatMap_singleton']
  rw [flat, h.canonical]
  rfl

end PathCondition

/-! ## Canonical stores -/

namespace State

theorem simplifyBinding_stays (hc : ctx.Reliable) {b : SymbolId × Handle} (proper : Proper b ctx) :
    Stays (simplifyBinding b) ctx (some b) := by
  refine (proper.normal.stays hc).bind fun c hc alike => ?_
  obtain ⟨r, asked, other⟩ := (proper.later alike.later hc.sound.pool.tidy).other
  have looked : Stays (asking (·.asSymbol? b.2)) c r := by
    refine .of_returns hc ?_
    unfold Returns
    rw [asking_run, asked]
  refine looked.bind fun c' hc' _ => ?_
  rw [if_neg other]
  exact .of_returns hc' rfl

theorem Simplified.stays (hc : ctx.Reliable) {s : State} (h : s.Simplified ctx) : Stays s.simplify ctx s := by
  obtain ⟨path, store⟩ := s
  obtain ⟨settled, bs, rfl, inc, proper⟩ := h
  refine (settled.stays hc).bind fun c hc alike => ?_
  dsimp only
  rw [Store.flatten_ofBindings inc]
  refine (Stays.mapM (g := some) bs hc fun b hb c' hc' alike' => ?_).bind fun c' hc' _ => .of_returns hc' ?_
  · exact simplifyBinding_stays hc' ((proper b hb).later (alike.trans alike').later hc'.sound.pool.tidy)
  · rw [show (bs.map some).filterMap id = bs by simp]
    rfl

end State

/-! ## Idempotence -/

/-- Everything that `kept` remembers is remembered as in `memo`; the rest is forgotten. -/
def Memo.KeptFrom (kept memo : Memo) : Prop := ∀ key k, kept.find? key = some k → memo.find? key = some k

theorem Context.Reliable.forget (hc : ctx.Reliable) {kept : Memo} (from_ : kept.KeptFrom ctx.memo) :
    Context.Reliable { ctx with memo := kept } := by
  have later : ctx.Later { ctx with memo := kept } := ⟨.refl _, .refl _, rfl⟩
  refine ⟨?_, hc.faithful.later later hc.sound.pool.tidy from_⟩
  exact hc.sound.grow later.extends hc.sound.pool hc.sound.symbols rfl (from_ _ _) hc.sound.registered

/-- However the context is used from here on, and whatever its memory then forgets, `x` returns `a`. -/
def Context.Always (ctx : Context) (x : ContextM α) (a : α) : Prop :=
  ∀ (requests : List Request) (kept : Memo), ctx.Allows requests → kept.KeptFrom (ctx.after requests).memo →
    ∃ last, Returns x { ctx.after requests with memo := kept } a last

/-- What lasts, and makes `x` return `a` wherever it holds, makes it return `a` from here on. -/
theorem Context.Always.of_lasting {x : ContextM α} {a : α} {P : Context → Prop} (hc : ctx.Reliable) (here : P ctx)
    (lasts : ∀ {c c'}, c.Later c' → c'.pool.Tidy → P c → P c') (stays : ∀ {c}, c.Reliable → P c → Stays x c a) :
    ctx.Always x a := by
  intro requests kept valid from_
  obtain ⟨later, reliable⟩ := after_later hc valid
  have forgotten := reliable.forget from_
  have later' : ctx.Later { ctx.after requests with memo := kept } := later.trans ⟨.refl _, .refl _, rfl⟩
  obtain ⟨last, ret, _⟩ := stays forgotten (lasts later' forgotten.sound.pool.tidy here)
  exact ⟨last, ret⟩

/-- In every context a client can have, of whatever size and with whatever theories, the simplified form of a handle,
of a path condition and of a state is its own simplified form; for a state this is the same tree of a store. It stays
so whatever is done later and whatever the memory forgets. -/
theorem simplification_idempotent (reached : ctx.Reached) :
    (∀ h, ctx.Has h → ∃ k ctx', Returns (simplify h) ctx k ctx' ∧ ctx'.Always (simplify k) k) ∧
    (∀ p : PathCondition, p.Valid ctx → ∃ q ctx', Returns p.simplify ctx q ctx' ∧ ctx'.Always q.simplify q) ∧
    (∀ s : State, s.Valid ctx → ∃ t ctx', Returns s.simplify ctx t ctx' ∧ ctx'.Always t.simplify t) := by
  have hc := reached.reliable
  refine ⟨fun h hh => ?_, fun p hp => ?_, fun s hs => ?_⟩
  · obtain ⟨k, ctx', ret, _⟩ := simplify_yields hc.sound hh
    obtain ⟨reliable, normal⟩ := (simplify_uniform hc hh).of_returns ret
    refine ⟨k, ctx', ret, .of_lasting (P := fun c => c.Normal k) reliable normal (fun later tidy normal => ?_) ?_⟩
    · exact normal.later later tidy
    · exact fun hc normal => normal.stays hc
  · obtain ⟨q, ctx', ret, _⟩ := PathCondition.simplify_yields hc.sound hp
    obtain ⟨reliable, simplified⟩ := (PathCondition.simplify_simplified hc hp).of_returns ret
    exact ⟨q, ctx', ret, .of_lasting reliable simplified PathCondition.Simplified.later fun hc h => h.stays hc⟩
  · obtain ⟨t, ctx', ret, _⟩ := State.simplify_yields hc.sound hs
    obtain ⟨reliable, simplified⟩ := (State.simplify_simplified hc hs).of_returns ret
    exact ⟨t, ctx', ret, .of_lasting reliable simplified State.Simplified.later fun hc h => h.stays hc⟩

theorem simplification_idempotent_one_slot : (oneSlot.after readAfterWrite).Reached ∧
    ∃ k ctx', Returns (simplify ⟨9, false⟩) (oneSlot.after readAfterWrite) k ctx' ∧ ctx'.Always (simplify k) k := by
  have reached : (oneSlot.after readAfterWrite).Reached := .intro readAfterWrite create_oneSlot oneSlot_allows
  exact ⟨reached, (simplification_idempotent reached).1 ⟨9, false⟩ (by decide +kernel)⟩

end PathMerge
