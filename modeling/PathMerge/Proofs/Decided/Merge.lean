/-
  PathMerge.Proofs.Decided.Merge — merging is exact.

  A state is decided when each of its constraints is true or false, whatever it binds has a value, and
  every summary in them has exactly one true guard. Of decided states each applies or is refuted, so the
  state merged from them applies exactly if one of them does. If it is one alone, its guard is the one that is
  true: every choice that the merge makes has exactly one true guard, the merged state is decided again
  and has the values of that one state (`merge_exact`).
-/

import PathMerge.Proofs.Decided.Simplify
import PathMerge.Proofs.Requests

namespace PathMerge.State

open Context ContextM

variable {ctx ctx' : Context} {I : Interpretation} {v : Valuation} {s : State} {states : List State}

structure Decided (ctx : Context) (I : Interpretation) (v : Valuation) (s : State) : Prop where
  path : ∀ c ∈ s.path.items, ctx.Decided I v c ∧ ∃ b, ctx.holds I v c = some b
  store : ∀ {x h}, s.store.get? x = some h → ctx.Decided I v h ∧ ∃ a, ctx.eval I v h = some a

theorem Decided.applies_or_refuted (d : s.Decided ctx I v) : s.Applies ctx I v ∨ s.Refuted ctx I v := by
  by_cases no : ∃ c ∈ s.path.items, ctx.holds I v c = some false
  · exact .inr (PathCondition.truth_false.mpr no)
  · refine .inl (PathCondition.truth_true.mpr fun c hc => ?_)
    obtain ⟨b, hb⟩ := (d.path c hc).2
    cases b with
    | true => exact hb
    | false => exact absurd ⟨c, hc, hb⟩ no

theorem Decided.value (d : s.Decided ctx I v) (x : SymbolId) : ∃ a, s.store.eval ctx I v x = some a := by
  cases bound : s.store.get? x with
  | none => exact ⟨v x, Store.eval_unbound bound⟩
  | some h =>
    rw [Store.eval_bound bound]
    exact (d.store bound).2

/-- Of decided states one alone applies if no other does. -/
theorem sole_of_decided (d : ∀ s ∈ states, s.Decided ctx I v) {l r : List State} (split : states = l ++ s :: r)
    (applies : s.Applies ctx I v) (others : ∀ t ∈ l ++ r, ¬ t.Applies ctx I v) : Sole ctx I v s states := by
  refine ⟨l, r, split, applies, fun t ht => (d t ?_).applies_or_refuted.resolve_left (others t ht)⟩
  rw [split]
  simp only [List.mem_append, List.mem_cons] at ht ⊢
  exact ht.imp id .inr

/-! ## Guards and values -/

theorem guards_careful (hc : ctx.Sound) (common : PathCondition) (d : ∀ s ∈ states, s.Decided ctx I v) :
    Careful I v (states.mapM fun s => (s.path.diff common).formula) ctx fun gs c => ∀ g ∈ gs, c.Decided I v g := by
  refine Careful.mapM_all states hc (fun dev d => dev.decided d) fun s hs c dev => ?_
  refine join_careful dev.sound .conj fun h hh => dev.decided ?_
  exact ((d s hs).path h (List.mem_filter.mp hh).1).1

theorem valueIn_careful (hc : ctx.Sound) (d : ∀ {x h}, s.store.get? x = some h → ctx.Decided I v h) {x : SymbolId}
    (registered : x.number < ctx.symbols.size) :
    Careful I v (valueIn x s.store.flatten) ctx fun h c => c.Decided I v h := by
  unfold valueIn
  rw [Store.find?_flatten]
  cases bound : s.store.get? x with
  | some h => exact .pure hc (d bound)
  | none => exact symbol_careful hc registered

section

variable {ctx₀ : Context} (hc₀ : ctx₀.Sound) (dev₀ : ctx₀.Develops I v ctx) (valid : ∀ s ∈ states, s.Valid ctx₀)
  (d : ∀ s ∈ states, s.Decided ctx₀ I v) {x : SymbolId} (registered : x.number < ctx₀.symbols.size)

include hc₀ dev₀ valid d registered

theorem values_careful :
    Careful I v ((states.map (·.store.flatten)).mapM (valueIn x)) ctx fun hs c => (∀ h ∈ hs, c.Decided I v h) ∧
      List.Forall₂ (fun s h => ValueOf ctx₀ x s h c) states hs := by
  refine Careful.also ?_ fun hs c ret =>
    ((values_yields hc₀ dev₀.sound dev₀.extends valid registered).of_returns ret).2.2
  rw [List.mapM_map]
  refine Careful.mapM_all states dev₀.sound (fun dev d => dev.decided d) fun s hs c dev => ?_
  have dev := dev₀.trans dev
  refine valueIn_careful dev.sound (fun bound => dev.decided ((d s hs).store bound).1) ?_
  rw [dev.symbols]
  exact registered

/-- The choice among the values of a symbol is decided: of the guards exactly one is true. -/
theorem mergeSymbol_careful {common : PathCondition} (shared : ∀ c ∈ common.items, ∀ s ∈ states, c ∈ s.path.items)
    {gs : List Handle} (guards : List.Forall₂ (fun s g => Guards ctx₀ common s g ctx) states gs)
    (decided : ∀ g ∈ gs, ctx.Decided I v g) (sole : Sole ctx₀ I v s states) :
    Careful I v (mergeSymbol gs (states.map (·.store.flatten)) x) ctx fun b c => c.Decided I v b.2 := by
  unfold mergeSymbol
  refine (values_careful hc₀ dev₀ valid d registered).bind fun hs c₁ dev₁ facts => ?_
  obtain ⟨inside, values⟩ := facts
  cases hs with
  | nil => exact .throw _
  | cons h rest =>
    dsimp only
    split
    · exact .pure dev₁.sound (inside h List.mem_cons_self)
    · obtain ⟨a, ha⟩ := (d s sole.mem).value x
      have picked := pick_of_sole dev₀.sound dev₁.extends shared guards values sole ha
      refine (choice_careful dev₁.sound (fun b hb => ?_) (Pool.decides_iff.mpr ⟨a, picked⟩)).bind
        fun k c₂ dev₂ dk => .pure dev₂.sound dk
      exact ⟨dev₁.decided (decided _ (List.of_mem_zip hb).1), inside _ (List.of_mem_zip hb).2⟩

end

/-! ## The merged state -/

/-- When one of the merged states is the one that holds, everything in the merged state is decided. -/
theorem mergeSeveral_careful (hc : ctx.Reliable) {first : State} {others : List State}
    (valid : ∀ s ∈ first :: others, s.Valid ctx) (d : ∀ s ∈ first :: others, s.Decided ctx I v)
    (sole : Sole ctx I v s (first :: others)) :
    Careful I v (mergeSeveral first others) ctx fun m c =>
      (∀ k ∈ m.path.items, c.Decided I v k) ∧ ∀ {x h}, m.store.get? x = some h → c.Decided I v h := by
  unfold mergeSeveral
  dsimp only
  have shared : ∀ c ∈ (others.foldl (fun p s => p.inter s.path) first.path).items,
      ∀ s ∈ first :: others, c ∈ s.path.items := fun c hm => List.forall_mem_cons.mpr (mem_common.mp hm)
  generalize others.foldl (fun p s => p.inter s.path) first.path = common at shared ⊢
  have decidedCommon : ∀ c ∈ common.items, ctx.Decided I v c := fun c hm =>
    ((d first List.mem_cons_self).path c (shared c hm first List.mem_cons_self)).1
  generalize first :: others = states at valid d sole shared ⊢
  have uniform := guards_uniform hc common valid
  refine ((guards_careful hc.sound common d).also fun gs c ret =>
    And.intro (uniform.of_returns ret) ((guards_yields hc.sound common valid).of_returns ret).2.2).bind
    fun gs c₁ dev₁ facts => ?_
  obtain ⟨decided, ⟨hc₁, has⟩, guards⟩ := facts
  refine ((join_careful hc₁.sound .disj decided).also fun k c ret => (join_uniform hc₁ .disj has).of_returns ret).bind
    fun k c₂ dev₂ facts => ?_
  obtain ⟨dk, hc₂, _⟩ := facts
  refine (simplify_careful hc₂ dk).bind fun reached c₃ dev₃ dReached => ?_
  have dev := (dev₁.trans dev₂).trans dev₃
  refine (Careful.mapM_all (P := fun (b : SymbolId × Handle) c => c.Decided I v b.2) _ dev₃.sound
    (fun dev d => dev.decided d) fun x hx c dev₄ => ?_).bind fun bs c₄ dev₄ decidedAll => .pure dev₄.sound ⟨?_, ?_⟩
  · obtain ⟨t, ht, h, bound⟩ := mem_boundSymbols.mp hx
    have later := (dev₂.trans dev₃).trans dev₄
    exact mergeSymbol_careful hc.sound (dev.trans dev₄) valid d ((valid t ht).store bound).2 shared
      (guards.imp fun {s g} guard => guard.later hc₁.sound later.extends)
      (fun g hg => later.decided (decided g hg)) sole
  · have decidedItems : ∀ k ∈ common.items, c₄.Decided I v k :=
      fun k hk => (dev.trans dev₄).decided (decidedCommon k hk)
    intro k hk
    dsimp only at hk
    split at hk
    · exact decidedItems k hk
    · rcases PathCondition.mem_ofList hk with old | rfl
      · rcases List.mem_append.mp old with old | new
        · exact decidedItems k old
        · exact List.mem_singleton.mp new ▸ dev₄.decided dReached
      · exact (Pool.Decided.tt dev₄.sound.pool).neg
  · exact fun bound => decidedAll _ (Store.mem_of_get?_ofBindings bound)

theorem merge_careful (hc : ctx.Reliable) (valid : ∀ s ∈ states, s.Valid ctx) (d : ∀ s ∈ states, s.Decided ctx I v)
    (sole : Sole ctx I v s states) :
    Careful I v (merge states) ctx fun m c =>
      (∀ k ∈ m.path.items, c.Decided I v k) ∧ ∀ {x h}, m.store.get? x = some h → c.Decided I v h := by
  unfold merge
  split
  · exact .throw _
  · rename_i only
    have own := d only List.mem_cons_self
    exact .pure hc.sound ⟨fun k hk => (own.path k hk).1, fun bound => (own.store bound).1⟩
  · exact mergeSeveral_careful hc valid d sole

/-- In every context a client can have, one state or more are merged. Under an interpretation and a valuation under
which the states are decided, the merged state applies exactly if one of the states does. If one alone does, every
symbol has the value that it has there, the merged state is decided again, and every summary that was added has
exactly one true guard. -/
theorem merge_exact (reached : ctx.Reached) (ne : states ≠ []) (valid : ∀ s ∈ states, s.Valid ctx) :
    ∃ m ctx', Returns (merge states) ctx m ctx' ∧ m.Valid ctx' ∧
      ∀ I v, (∀ s ∈ states, s.Decided ctx I v) →
        (m.Applies ctx' I v ↔ ∃ s ∈ states, s.Applies ctx I v) ∧
        ∀ l s r, states = l ++ s :: r → s.Applies ctx I v → (∀ t ∈ l ++ r, ¬ t.Applies ctx I v) →
          (∀ x, m.store.eval ctx' I v x = s.store.eval ctx I v x) ∧ m.Decided ctx' I v ∧
          ctx.pool.AddsDecided (ctx'.meaning I v) ctx'.pool := by
  have hc := reached.reliable
  obtain ⟨m, ctx', ret, _, _, merges⟩ := merge_yields hc.sound ne valid
  refine ⟨m, ctx', ret, merges.valid, fun I v d => ⟨⟨fun applies => ?_, ?_⟩, fun l s r split applies others => ?_⟩⟩
  · by_contra none
    refine applies.not_refuted (merges.refuted fun s hs => ?_)
    exact (d s hs).applies_or_refuted.resolve_left fun h => none ⟨s, hs, h⟩
  · rintro ⟨s, hs, applies⟩
    exact merges.applies hs applies
  · have sole := sole_of_decided d split applies others
    have values : ∀ x, ∃ a, s.store.eval ctx I v x = some a ∧ m.store.eval ctx' I v x = some a := by
      intro x
      obtain ⟨a, ha⟩ := (d s sole.mem).value x
      exact ⟨a, ha, merges.store sole x a ha⟩
    obtain ⟨dev, path, store⟩ := merge_careful hc valid d sole m ctx' ret
    refine ⟨fun x => ?_, ⟨fun k hk => ⟨path k hk, true, ?_⟩, fun {x h} bound => ⟨store bound, ?_⟩⟩, ?_⟩
    · obtain ⟨a, before, after⟩ := values x
      rw [before, after]
    · exact PathCondition.truth_true.mp (merges.applies sole.mem applies) k hk
    · obtain ⟨a, _, after⟩ := values x
      rw [Store.eval_bound bound] at after
      exact ⟨a, after⟩
    · rw [meaning_eq dev.symbols]
      exact dev.adds

/-! ## Two branches -/

/-- They build `x < 0`, as handle 4, and `1`, as handle 5; handle 2 is `x`. -/
def comparison : List Request :=
  [.addLocal "x" .int, .symbol ⟨13⟩, .integer 0, .call "lt" [⟨2, false⟩, ⟨3, false⟩], .integer 1]

def compared : Context := Context.oneSlot.after comparison

theorem compared_reached : compared.Reached := by
  refine .intro comparison Context.create_oneSlot ⟨trivial, ?_, trivial, ?_, trivial, trivial⟩
  · show 13 < _
    decide +kernel
  · show ∀ a ∈ _, Pool.Has _ a
    decide +kernel

/-- Where `x < 0`, it is set to one; otherwise nothing is bound. -/
def clamped : List State := [⟨⟨[⟨4, false⟩]⟩, .single ⟨13⟩ ⟨5, false⟩⟩, ⟨⟨[⟨4, true⟩]⟩, .empty⟩]

theorem holds_compared (I : Interpretation) {v : Valuation} {n : Int} (hn : v ⟨13⟩ = .int n) :
    compared.holds I v ⟨4, false⟩ = some (decide (n < 0)) := by
  have hc := compared_reached.reliable.sound
  have less : compared.eval I v ⟨4, false⟩ =
      appliedSymbol compared I v ⟨"lt", .bool, .function 2 "int"⟩ [⟨2, false⟩, ⟨3, false⟩] :=
    eval_app hc (f := ⟨7⟩) (by decide +kernel) (by decide +kernel) rfl I v
  have left := Stands.eval hc (y := ⟨13⟩) (h := ⟨2, false⟩) ⟨rfl, by decide +kernel⟩ I v
  have right : compared.eval I v ⟨3, false⟩ = some (Literal.int 0).value :=
    Pool.eval_node hc.pool (h := ⟨3, false⟩) (n := .literal (.int 0)) (by decide +kernel) rfl
  rw [holds_eq_some, less, appliedSymbol, List.mapM_cons, List.mapM_cons, left, right, hn]
  rfl

theorem clamped_valid : ∀ s ∈ clamped, s.Valid compared := by
  intro s hs
  rcases List.mem_cons.mp hs with rfl | hs
  · refine ⟨List.forall_mem_singleton.mpr (by decide +kernel), fun {x h} bound => ?_⟩
    obtain ⟨rfl, same⟩ := Option.ite_none_right_eq_some.mp bound
    cases same
    decide +kernel
  · rw [List.mem_singleton.mp hs]
    exact ⟨List.forall_mem_singleton.mpr (by decide +kernel), nofun⟩

theorem clamped_decided (I : Interpretation) {v : Valuation} {n : Int} (hn : v ⟨13⟩ = .int n) :
    ∀ s ∈ clamped, s.Decided compared I v := by
  have hc := compared_reached.reliable.sound
  have leaf : ∀ {h : Handle} {l : Node}, compared.pool.node? h = some l → l.children = [] → (∀ bs, l ≠ .summary bs) →
      compared.Decided I v h := fun hn none plain => .intro hn (by simp [none]) fun bs e => absurd e (plain bs)
  have x : compared.Decided I v ⟨2, false⟩ := leaf (l := .symbol ⟨13⟩) (by decide +kernel) rfl nofun
  have zero : compared.Decided I v ⟨3, false⟩ := leaf (l := .literal (.int 0)) (by decide +kernel) rfl nofun
  have one : compared.Decided I v ⟨5, false⟩ := leaf (l := .literal (.int 1)) (by decide +kernel) rfl nofun
  have node : compared.pool.node? ⟨4, false⟩ = some (.app ⟨7⟩ [⟨2, false⟩, ⟨3, false⟩]) := by decide +kernel
  have less : compared.Decided I v ⟨4, false⟩ := .intro node (by simp [Node.children, x, zero]) nofun
  have holds := holds_compared I hn
  have value : compared.eval I v ⟨5, false⟩ = some (Literal.int 1).value :=
    Pool.eval_node hc.pool (h := ⟨5, false⟩) (n := .literal (.int 1)) (by decide +kernel) rfl
  intro s hs
  rcases List.mem_cons.mp hs with rfl | hs
  · refine ⟨fun c hm => ?_, fun {y h} bound => ?_⟩
    · rw [List.mem_singleton.mp hm]
      exact ⟨less, _, holds⟩
    · obtain ⟨_, same⟩ := Option.ite_none_right_eq_some.mp bound
      cases same
      exact ⟨one, _, value⟩
  · rw [List.mem_singleton.mp hs]
    refine ⟨fun c hm => ?_, fun {y h} bound => by cases bound⟩
    rw [List.mem_singleton.mp hm]
    refine ⟨less.neg, !decide (n < 0), ?_⟩
    exact (Pool.holds_neg_eq_some hc.pool less.has).mpr (by rw [Bool.not_not]; exact holds)

/-- The two branches are merged into one state, in which `x` is one or what it was. -/
theorem merge_exact_clamped : ∃ m ctx', Returns (merge clamped) compared m ctx' ∧
    ∀ I v n, v ⟨13⟩ = .int n → m.Applies ctx' I v ∧ m.store.eval ctx' I v ⟨13⟩ =
      some (.int (if n < 0 then 1 else n)) := by
  obtain ⟨m, ctx', ret, _, facts⟩ := merge_exact compared_reached (List.cons_ne_nil _ _) clamped_valid
  refine ⟨m, ctx', ret, fun I v n hn => ?_⟩
  have hc := compared_reached.reliable.sound
  obtain ⟨applies, values⟩ := facts I v (clamped_decided I hn)
  have holds := holds_compared I hn
  have denied : compared.holds I v ⟨4, true⟩ = some (!decide (n < 0)) :=
    (Pool.holds_neg_eq_some hc.pool (h := ⟨4, false⟩) (by decide +kernel)).mpr (by rwa [Bool.not_not])
  have only :
    ∀ {k : Handle} {store : Store}, Applies compared I v ⟨⟨[k]⟩, store⟩ ↔ compared.holds I v k = some true := by
    intro k store
    exact PathCondition.truth_true.trans List.forall_mem_singleton
  by_cases negative : n < 0
  · have first : Applies compared I v ⟨⟨[⟨4, false⟩]⟩, .single ⟨13⟩ ⟨5, false⟩⟩ := only.mpr (by simp [holds, negative])
    obtain ⟨same, _⟩ := values [] _ [⟨⟨[⟨4, true⟩]⟩, .empty⟩] rfl first (by simp [only, denied, negative])
    refine ⟨applies.mpr ⟨_, List.mem_cons_self, first⟩, ?_⟩
    rw [same, if_pos negative, Store.eval_bound rfl]
    exact Pool.eval_node hc.pool (h := ⟨5, false⟩) (n := .literal (.int 1)) (by decide +kernel) rfl
  · have second : Applies compared I v ⟨⟨[⟨4, true⟩]⟩, .empty⟩ := only.mpr (by simp [denied, negative])
    obtain ⟨same, _⟩ :=
      values [⟨⟨[⟨4, false⟩]⟩, .single ⟨13⟩ ⟨5, false⟩⟩] _ [] rfl second (by simp [only, holds, negative])
    refine ⟨applies.mpr ⟨_, List.mem_cons_of_mem _ List.mem_cons_self, second⟩, ?_⟩
    rw [same, if_neg negative, Store.eval_unbound rfl, hn]

end PathMerge.State
