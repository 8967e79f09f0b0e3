/-
  PathMerge.Proofs.Decided.Simplify — simplification adds only decided summaries.

  `Careful I v x ctx Q` says of an action that, whatever it returns, it has added only decided summaries. An
  action that makes no summary is careful, and so is a choice of which exactly one guard is true. Simplification
  builds a summary again from its branches, simplified: they have the values they had, so exactly one guard
  is true again. What holds of the simplification without a memory holds of the simplifier, which returns
  the same and leaves the same nodes behind.
-/

import PathMerge.Proofs.Uniform

namespace PathMerge

open Context ContextM

variable {α β : Type} {ctx ctx' ctx'' : Context} {I : Interpretation} {v : Valuation}

/-! ## Actions that add only decided summaries -/

structure Context.Develops (ctx : Context) (I : Interpretation) (v : Valuation) (ctx' : Context) : Prop where
  sound : ctx'.Sound
  nodes : ctx.pool.Extends ctx'.pool
  symbols : ctx'.symbols = ctx.symbols
  adds : ctx.pool.AddsDecided (ctx.meaning I v) ctx'.pool

namespace Context.Develops

theorem refl (hc : ctx.Sound) : ctx.Develops I v ctx := ⟨hc, fun h => h, rfl, .of_unforked fun h => h⟩

theorem trans (h : ctx.Develops I v ctx') (h' : ctx'.Develops I v ctx'') : ctx.Develops I v ctx'' := by
  refine ⟨h'.sound, fun hn => h'.nodes (h.nodes hn), h'.symbols.trans h.symbols, ?_⟩
  have adds := h'.adds
  rw [meaning_eq h.symbols] at adds
  exact h.adds.trans h.sound.pool h'.nodes adds

theorem «extends» (h : ctx.Develops I v ctx') : ctx.Extends ctx' := ⟨h.nodes, h.symbols ▸ .refl _⟩

theorem decided (h : ctx.Develops I v ctx') {k : Handle} (d : ctx.Decided I v k) : ctx'.Decided I v k := by
  unfold Context.Decided
  rw [meaning_eq h.symbols]
  exact Pool.Decided.extends h.nodes d

end Context.Develops

/-- Whatever `x` returns from `ctx`, it has added only decided summaries. -/
def Careful (I : Interpretation) (v : Valuation) (x : ContextM α) (ctx : Context) (Q : α → Context → Prop) : Prop :=
  ∀ a ctx', Returns x ctx a ctx' → ctx.Develops I v ctx' ∧ Q a ctx'

namespace Careful

variable {Q : α → Context → Prop} {R : β → Context → Prop}

theorem pure {a : α} (hc : ctx.Sound) (h : Q a ctx) : Careful I v (Pure.pure a) ctx Q := by
  intro b ctx' ret
  cases ret
  exact ⟨.refl hc, h⟩

theorem throw (e : Failure) : Careful I v (MonadExcept.throw e) ctx Q := by
  intro a ctx' ret
  cases ret

theorem bind {x : ContextM α} {f : α → ContextM β} (hx : Careful I v x ctx Q)
    (hf : ∀ a ctx', ctx.Develops I v ctx' → Q a ctx' → Careful I v (f a) ctx' R) : Careful I v (x >>= f) ctx R := by
  intro b ctx'' ret
  obtain ⟨a, ctx', ra, rb⟩ := returns_of_bind ret
  obtain ⟨dev, qa⟩ := hx a ctx' ra
  obtain ⟨dev', rb⟩ := hf a ctx' dev qa b ctx'' rb
  exact ⟨dev.trans dev', rb⟩

theorem mono {x : ContextM α} {Q' : α → Context → Prop} (hx : Careful I v x ctx Q)
    (h : ∀ a ctx', ctx.Develops I v ctx' → Q a ctx' → Q' a ctx') : Careful I v x ctx Q' := by
  intro a ctx' ret
  obtain ⟨dev, qa⟩ := hx a ctx' ret
  exact ⟨dev, h a ctx' dev qa⟩

theorem mapM {f : α → ContextM β} {P : α → β → Context → Prop} (l : List α) (hc : ctx.Sound)
    (stable : ∀ {a b c c'}, c.Sound → c.Develops I v c' → P a b c → P a b c')
    (each : ∀ a ∈ l, ∀ c, ctx.Develops I v c → Careful I v (f a) c (P a)) :
    Careful I v (l.mapM f) ctx fun bs c => List.Forall₂ (fun a b => P a b c) l bs := by
  induction l generalizing ctx with
  | nil => exact Careful.pure hc .nil
  | cons a l ih =>
    rw [List.mapM_cons]
    refine (each a (by simp) ctx (.refl hc)).bind fun b c dev hb => ?_
    have rest := ih dev.sound fun a' ha' c' dev' => each a' (List.mem_cons_of_mem _ ha') c' (dev.trans dev')
    exact rest.bind fun bs c' dev' hbs => Careful.pure dev'.sound (.cons (stable dev.sound dev' hb) hbs)

/-- As `mapM`, where it does not matter which element a result is from. -/
theorem mapM_all {f : α → ContextM β} {P : β → Context → Prop} (l : List α) (hc : ctx.Sound)
    (stable : ∀ {b c c'}, c.Develops I v c' → P b c → P b c')
    (each : ∀ a ∈ l, ∀ c, ctx.Develops I v c → Careful I v (f a) c P) :
    Careful I v (l.mapM f) ctx fun bs c => ∀ b ∈ bs, P b c := by
  refine (Careful.mapM (P := fun _ b c => P b c) l hc (fun _ => stable) each).mono fun bs c _ related b hb => ?_
  obtain ⟨_, _, h⟩ := Related.exists_left related hb
  exact h

/-- What else is known of whatever the action returns. -/
theorem also {x : ContextM α} {Q' : α → Context → Prop} (hx : Careful I v x ctx Q)
    (h : ∀ a ctx', Returns x ctx a ctx' → Q' a ctx') : Careful I v x ctx fun a c => Q a c ∧ Q' a c := by
  intro a ctx' ret
  obtain ⟨dev, qa⟩ := hx a ctx' ret
  exact ⟨dev, qa, h a ctx' ret⟩

theorem asking {question : Context → Except Failure α} (hc : ctx.Sound) :
    Careful I v (ContextM.asking question) ctx fun a c => c = ctx ∧ question ctx = .ok a := by
  intro a c ret
  obtain ⟨asked, rfl⟩ := Prod.mk.inj ((asking_run question ctx).symm.trans ret)
  exact ⟨.refl hc, rfl, asked⟩

/-- An action that makes no summary is careful wherever it yields something. -/
theorem straight {x : ContextM α} (hx : Straight x) (yields : Yields x ctx Q) : Careful I v x ctx Q := by
  intro a c ret
  obtain ⟨e, sound, result⟩ := yields.of_returns ret
  exact ⟨⟨sound, e.pool, (hx.of_returns ret).symbols, .of_unforked (hx.unforked_returns ret)⟩, result⟩

end Careful

namespace ContextM

theorem symbol_careful (hc : ctx.Sound) {y : SymbolId} (registered : y.number < ctx.symbols.size) :
    Careful I v (symbol y) ctx fun h c => c.Decided I v h :=
  (Careful.straight (symbol_straight y) (symbol_yields hc registered)).mono fun _ _ _ stands => stands.decided I v

theorem join_careful (hc : ctx.Sound) (c : Connective) {items : List Handle} (d : ∀ h ∈ items, ctx.Decided I v h) :
    Careful I v (onPool (PoolM.join c items)) ctx fun h c => c.Decided I v h :=
  (Careful.straight (join_straight c items) (join_yields hc c fun h hh => (d h hh).has)).mono
    fun _ _ _ joined => joined.decided d

theorem equation_careful (hc : ctx.Sound) {a b : Handle} (ha : ctx.Decided I v a) (hb : ctx.Decided I v b) :
    Careful I v (equation a b) ctx fun h c => c.Decided I v h :=
  (Careful.straight (equation_straight a b) (equation_yields hc ha.has hb.has)).mono
    fun _ _ _ equated => equated.decided ha hb

/-- A choice of which exactly one guard is true. -/
theorem choice_careful (hc : ctx.Sound) {bs : List Branch} (d : ∀ b ∈ bs, ctx.Decided I v b.1 ∧ ctx.Decided I v b.2)
    (picked : ctx.pool.Decides (ctx.meaning I v) bs) : Careful I v (choice bs) ctx fun h c => c.Decided I v h := by
  have ne : bs ≠ [] := by
    obtain ⟨l, b, r, rfl, _⟩ := picked
    simp
  intro k c ret
  obtain ⟨e, sound, _⟩ := (choice_yields hc (fun b hb => ⟨(d b hb).1.has, (d b hb).2.has⟩) ne).of_returns ret
  obtain ⟨p', made, rfl⟩ := returns_onPool.mp ret
  obtain ⟨decided, adds⟩ := PoolM.choice_decided hc.pool d picked made
  exact ⟨⟨sound, e.pool, rfl, adds⟩, decided⟩

/-- Of an application that is there, the arguments simplified: a law may rewrite it, and if none does it is built. -/
theorem rewrite_careful (hc : ctx.Sound) {f : SymbolId} {s : Symbol} {args : List Handle} {owner : String}
    (hs : ctx.symbols.get? f = some s) (kind : s.kind = .function args.length owner)
    (d : ∀ a ∈ args, ctx.Decided I v a) :
    Careful I v (rewrite f args) ctx fun r c => ∀ k, r = some k → c.Decided I v k :=
  (Careful.straight (rewrite_straight f args) (rewrite_yields hc hs kind fun a ha => (d a ha).has)).mono
    fun _ _ _ replaced k hk => (replaced k hk).decided d

theorem apply_careful (hc : ctx.Sound) {f : SymbolId} {s : Symbol} {args : List Handle} {owner : String}
    (hs : ctx.symbols.get? f = some s) (kind : s.kind = .function args.length owner)
    (d : ∀ a ∈ args, ctx.Decided I v a) : Careful I v (apply f args) ctx fun h c => c.Decided I v h :=
  (Careful.straight (apply_straight f args) (apply_yields hc hs kind fun a ha => (d a ha).has)).mono
    fun _ _ dev made => .intro made.2.2 (fun a ha => dev.decided (d a ha)) fun _ e => by cases e

end ContextM

/-! ## Building again -/

theorem plainWithin_refined (hc : ctx.Sound) {depth : Nat} {h k : Handle} (hh : ctx.Has h)
    (ret : Returns (plainWithin depth h) ctx k ctx') : ctx.Refined h k ctx' := by
  obtain ⟨k', c, ret', _, _, refined⟩ := plainWithin_simplifies _ hc hh (Nat.le_refl _)
  obtain ⟨rfl, rfl⟩ := plainWithin_unique ret ret'
  exact refined

def CarefulWithin (I : Interpretation) (v : Valuation) (depth : Nat) : Prop :=
  ∀ {ctx : Context} {h : Handle}, ctx.Sound → ctx.Decided I v h →
    Careful I v (plainWithin depth h) ctx fun k c => c.Decided I v k

namespace CarefulWithin

variable {depth : Nat}

theorem refined (careful : CarefulWithin I v depth) (hc : ctx.Sound) {h : Handle} (d : ctx.Decided I v h) :
    Careful I v (plainWithin depth h) ctx fun k c => c.Decided I v k ∧ ctx.Refined h k c :=
  (careful hc d).also fun _ _ ret => plainWithin_refined hc d.has ret

theorem mapM (careful : CarefulWithin I v depth) (hc : ctx.Sound) {args : List Handle}
    (d : ∀ a ∈ args, ctx.Decided I v a) :
    Careful I v (args.mapM (plainWithin depth)) ctx fun ks c => ks.length = args.length ∧
      ∀ k ∈ ks, c.Decided I v k := by
  refine (Careful.mapM (P := fun _ k c => c.Decided I v k) args hc (fun _ dev d => dev.decided d) fun a ha c dev =>
    careful dev.sound (dev.decided (d a ha))).mono fun ks c _ related => ⟨related.length_eq.symm, fun k hk => ?_⟩
  obtain ⟨_, _, decided⟩ := Related.exists_left related hk
  exact decided

/-- Decided branches are simplified to decided branches of the same values. -/
theorem branches (careful : CarefulWithin I v depth) (hc : ctx.Sound) {bs : List Branch}
    (d : ∀ b ∈ bs, ctx.Decided I v b.1 ∧ ctx.Decided I v b.2) :
    Careful I v (bs.mapM fun (b : Branch) => do
      let g ← plainWithin depth b.1
      let v ← plainWithin depth b.2
      return (g, v)) ctx fun bs' c =>
        (∀ b ∈ bs', c.Decided I v b.1 ∧ c.Decided I v b.2) ∧ RefinedBranches ctx bs bs' c := by
  refine (Careful.mapM (P := fun (b b' : Branch) c => (c.Decided I v b'.1 ∧ c.Decided I v b'.2) ∧
    ctx.Refined b.1 b'.1 c ∧ ctx.Refined b.2 b'.2 c) bs hc (fun sound dev h => ?_) fun b hb c dev => ?_).mono
    fun bs' c _ related => ⟨fun b hb => ?_, related.imp fun {_ _} h => h.2⟩
  · exact ⟨⟨dev.decided h.1.1, dev.decided h.1.2⟩, h.2.1.later sound dev.extends, h.2.2.later sound dev.extends⟩
  · obtain ⟨dg, dv⟩ := d b hb
    refine (careful.refined dev.sound (dev.decided dg)).bind fun g c₁ dev₁ guard => ?_
    have dev' := dev.trans dev₁
    refine (careful.refined dev₁.sound (dev'.decided dv)).bind fun k c₂ dev₂ value => Careful.pure dev₂.sound ?_
    refine ⟨⟨dev₂.decided guard.1, value.1⟩, ?_, value.2.earlier hc dev'.extends dv.has⟩
    exact (guard.2.later dev₁.sound dev₂.extends).earlier hc dev.extends dg.has
  · obtain ⟨_, _, h⟩ := Related.exists_left related hb
    exact h.1

/-- Every node is built again from decided operands. A summary has one true guard as before, since its branches have
the values they had. -/
theorem rebuild (careful : CarefulWithin I v depth) (hc : ctx.Sound) {h : Handle} {n : Node}
    (hn : ctx.pool.node? h = some n) (d : ctx.Decided I v h) :
    Careful I v (ContextM.rebuild (plainWithin depth) h n) ctx fun k c => c.Decided I v k := by
  have inside := d.child hn
  cases n with
  | truth | literal _ | symbol _ => exact .pure hc d
  | app f args =>
    obtain ⟨name, sort, owner, hf⟩ := hc.registered hn
    refine (careful.mapM hc inside).bind fun args' c₁ dev₁ facts => ?_
    obtain ⟨length, d₁⟩ : args'.length = args.length ∧ _ := facts
    have hf₁ := dev₁.extends.symbols.get hf
    rw [← length] at hf₁
    refine (rewrite_careful dev₁.sound hf₁ rfl d₁).bind fun r c₂ dev₂ offers => ?_
    cases r with
    | some result => exact careful dev₂.sound (offers result rfl)
    | none =>
      have hf₂ := dev₂.extends.symbols.get hf₁
      exact apply_careful dev₂.sound hf₂ rfl fun a ha => dev₂.decided (d₁ a ha)
  | summary bs =>
    refine (careful.branches hc fun b hb => ?_).bind fun bs' c₁ dev₁ facts => ?_
    · exact ⟨inside _ (Node.mem_children_summary hb).1, inside _ (Node.mem_children_summary hb).2⟩
    · refine choice_careful dev₁.sound facts.1 ?_
      obtain ⟨x, picked⟩ := Pool.decides_iff.mp (d.decides hn)
      exact Pool.decides_iff.mpr ⟨x, facts.2.pick I v x picked⟩
  | eq a b =>
    have da := inside a (by simp [Node.children])
    have db := inside b (by simp [Node.children])
    refine (careful hc da).bind fun a' c₁ dev₁ da' => ?_
    refine (careful dev₁.sound (dev₁.decided db)).bind fun b' c₂ dev₂ db' => ?_
    exact equation_careful dev₂.sound (dev₂.decided da') db'
  | junction c items =>
    refine (careful.mapM hc inside).bind fun items' c₁ dev₁ d₁ => ?_
    exact join_careful dev₁.sound c d₁.2

end CarefulWithin

theorem plainWithin_careful (depth : Nat) : CarefulWithin I v depth := by
  induction depth with
  | zero => exact fun _ _ => .throw _
  | succ depth ih =>
    intro ctx h hc d
    unfold plainWithin
    refine (Careful.asking hc).bind ?_
    rintro n _ _ ⟨rfl, node⟩
    have hn := InternTable.value_eq_ok.mp node
    have regular : Context.Decided _ I v h.regular := d.regular
    exact (ih.rebuild hc hn regular).bind fun k c dev dk => .pure dev.sound (dk.signed _)

/-! ## The simplifier -/

/-- Contexts that look the same have developed in the same way. -/
theorem Context.Develops.alike (dev : ctx.Develops I v ctx') {twin : Context} (alike : twin.Alike ctx')
    (sound : twin.Sound) : ctx.Develops I v twin := by
  have later := alike.symm.later
  refine ⟨sound, fun hn => later.extends.pool (dev.nodes hn), alike.symbols.trans dev.symbols, fun h bs hn => ?_⟩
  rw [alike.pool.node?] at hn
  refine (dev.adds h bs hn).imp_right fun decides => decides.extends dev.sound.pool later.extends.pool fun b hb => ?_
  obtain ⟨guard, value⟩ := Node.mem_children_summary hb
  exact ⟨dev.sound.pool.has_child hn guard, dev.sound.pool.has_child hn value⟩

theorem simplify_careful (hc : ctx.Reliable) {h : Handle} (d : ctx.Decided I v h) :
    Careful I v (simplify h) ctx fun k c => c.Decided I v k := by
  intro k c ret
  obtain ⟨k', ref, plain, _, _, settled⟩ := simplify_settled hc d.has
  obtain ⟨c', ret', reliable, alike⟩ := settled ctx hc ⟨⟨rfl, rfl⟩, rfl, rfl⟩
  obtain ⟨rfl, rfl⟩ := returns_unique ret ret'
  obtain ⟨dev, dk⟩ := plainWithin_careful _ hc.sound d k ref plain
  have later : ref.Develops I v c := (Context.Develops.refl dev.sound).alike alike reliable.sound
  exact ⟨dev.alike alike reliable.sound, later.decided dk⟩

end PathMerge
