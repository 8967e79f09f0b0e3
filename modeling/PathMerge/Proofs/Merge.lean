/-
  PathMerge.Proofs.Merge — merging keeps the one state that applies.

  Of the states that reach a statement at most one applies under a given valuation. Wherever one applies,
  the merged state applies, and if all others are refuted it has its values (`merge_yields`); if all are
  refuted, so is the merged state. What the values are in states that are refuted does not matter.
-/

import PathMerge.Proofs.State
import PathMerge.State.Merge

namespace PathMerge.State

open Context

variable {ctx ctx' : Context} {I : Interpretation} {v : Valuation} {s t : State} {states : List State}

def Applies (ctx : Context) (I : Interpretation) (v : Valuation) (s : State) : Prop :=
  s.path.truth ctx I v = some true

def Refuted (ctx : Context) (I : Interpretation) (v : Valuation) (s : State) : Prop :=
  s.path.truth ctx I v = some false

/-- The state `s` applies and all other states are refuted. -/
def Sole (ctx : Context) (I : Interpretation) (v : Valuation) (s : State) (states : List State) : Prop :=
  ∃ l r, states = l ++ s :: r ∧ s.Applies ctx I v ∧ ∀ t ∈ l ++ r, t.Refuted ctx I v

theorem Applies.not_refuted (h : s.Applies ctx I v) : ¬ s.Refuted ctx I v := by
  unfold Applies Refuted at *
  rw [h]
  nofun

theorem Sole.mem (h : Sole ctx I v s states) : s ∈ states := by
  obtain ⟨l, r, rfl, _⟩ := h
  exact List.mem_append_right _ List.mem_cons_self

theorem Sole.applies (h : Sole ctx I v s states) : s.Applies ctx I v := by
  obtain ⟨_, _, _, applies, _⟩ := h
  exact applies

theorem sole_singleton (h : s.Applies ctx I v) : Sole ctx I v s [s] := ⟨[], [], rfl, h, nofun⟩

theorem Sole.perm {states' : List State} (perm : states.Perm states') (h : Sole ctx I v s states) :
    Sole ctx I v s states' := by
  obtain ⟨l, r, rfl, applies, rest⟩ := h
  have mem : s ∈ states' := perm.mem_iff.mp (List.mem_append_right _ List.mem_cons_self)
  obtain ⟨l', r', rfl⟩ := List.append_of_mem mem
  refine ⟨l', r', rfl, applies, fun t ht => rest t ?_⟩
  exact ((List.perm_middle.symm.trans perm).trans List.perm_middle).cons_inv.mem_iff.mpr ht

theorem Sole.append {before after : List State} (h : Sole ctx I v s states)
    (first : ∀ t ∈ before, t.Refuted ctx I v) (last : ∀ t ∈ after, t.Refuted ctx I v) :
    Sole ctx I v s (before ++ states ++ after) := by
  obtain ⟨l, r, rfl, applies, rest⟩ := h
  refine ⟨before ++ l, r ++ after, by simp, applies, fun t ht => ?_⟩
  simp only [List.mem_append] at ht rest
  rcases ht with (ht | ht) | ht | ht
  · exact first t ht
  · exact rest t (.inl ht)
  · exact rest t (.inr ht)
  · exact last t ht

/-! ## Shared constraints and what is left -/

theorem mem_common {first : State} {others : List State} {c : Handle} :
    c ∈ (others.foldl (fun p s => p.inter s.path) first.path).items ↔
      c ∈ first.path.items ∧ ∀ s ∈ others, c ∈ s.path.items := by
  generalize first.path = p
  induction others generalizing p with
  | nil => simp
  | cons s others ih =>
    rw [List.foldl_cons, ih]
    simp only [PathCondition.inter, List.mem_filter, List.contains_iff_mem, List.forall_mem_cons, and_assoc]

/-- What is left of a condition that holds, without those shared by all. -/
theorem diff_true {p common : PathCondition} (h : p.truth ctx I v = some true) :
    (p.diff common).truth ctx I v = some true := by
  refine PathCondition.truth_true.mpr fun c hc => PathCondition.truth_true.mp h c ?_
  exact (List.mem_filter.mp hc).1

theorem diff_false {p common : PathCondition} (h : p.truth ctx I v = some false) :
    common.truth ctx I v = some false ∨ (p.diff common).truth ctx I v = some false := by
  obtain ⟨c, hc, no⟩ := PathCondition.truth_false.mp h
  by_cases shared : c ∈ common.items
  · exact .inl (PathCondition.truth_false.mpr ⟨c, shared, no⟩)
  · refine .inr (PathCondition.truth_false.mpr ⟨c, List.mem_filter.mpr ⟨hc, ?_⟩, no⟩)
    simp [shared]

def Guards (ctx : Context) (common : PathCondition) (s : State) (g : Handle) (ctx' : Context) : Prop :=
  ctx'.Has g ∧ ∀ I v, Below ((s.path.diff common).truth ctx I v) (ctx'.holds I v g)

theorem Guards.later {ctx'' : Context} {common : PathCondition} {g : Handle} (hc' : ctx'.Sound) (e : ctx'.Extends ctx'')
    (guard : Guards ctx common s g ctx') : Guards ctx common s g ctx'' := by
  refine ⟨e.has guard.1, fun I v => ?_⟩
  rw [holds_extends hc' e guard.1]
  exact guard.2 I v

theorem guards_yields (hc : ctx.Sound) (common : PathCondition) (valid : ∀ s ∈ states, s.Valid ctx) :
    Yields (states.mapM fun s => (s.path.diff common).formula) ctx fun gs ctx' =>
      List.Forall₂ (fun s g => Guards ctx common s g ctx') states gs := by
  refine Yields.mapM (P := fun s g c => Guards ctx common s g c) states ?_ hc ?_
  · intro s g ctx₁ ctx₂ _ hc₁ e _ guards
    exact guards.later hc₁ e
  · intro s hs ctx₁ e hc₁
    have rest : (s.path.diff common).Valid ctx := fun c hm => (valid s hs).path c (List.mem_filter.mp hm).1
    refine (PathCondition.formula_yields hc₁ (rest.extends e)).mono fun g ctx₂ _ _ formula => ⟨formula.1, fun I v => ?_⟩
    rw [← PathCondition.truth_extends hc e rest]
    exact formula.2 I v

theorem common_true {common : PathCondition} (shared : ∀ c ∈ common.items, ∀ s ∈ states, c ∈ s.path.items)
    (mem : s ∈ states) (applies : s.Applies ctx I v) : common.truth ctx I v = some true := by
  refine PathCondition.truth_true.mpr fun c hc => ?_
  exact PathCondition.truth_true.mp applies c (shared c hc s mem)

/-- The guards of states of which one applies: one is true, all others are false. -/
theorem guards_of_sole {common : PathCondition} {gs : List Handle}
    (shared : ∀ c ∈ common.items, ∀ s ∈ states, c ∈ s.path.items)
    (guards : List.Forall₂ (fun s g => Guards ctx common s g ctx') states gs) (sole : Sole ctx I v s states) :
    ∃ l r gl g gr, states = l ++ s :: r ∧ gs = gl ++ g :: gr ∧ l.length = gl.length ∧
      ctx'.holds I v g = some true ∧ ∀ k ∈ gl ++ gr, ctx'.holds I v k = some false := by
  have commonTrue := common_true shared sole.mem sole.applies
  obtain ⟨l, r, rfl, applies, rest⟩ := sole
  obtain ⟨gl, gr', rfl, left, right⟩ := Related.of_append guards
  cases right with
  | cons own right =>
    rename_i g gr
    refine ⟨l, r, gl, g, gr, rfl, rfl, left.length_eq, own.2 I v _ (diff_true applies), fun k hk => ?_⟩
    have refuted : ∃ t ∈ l ++ r, Guards ctx common t k ctx' := by
      rcases List.mem_append.mp hk with hk | hk
      · obtain ⟨t, ht, h⟩ := Related.exists_left left hk
        exact ⟨t, List.mem_append_left _ ht, h⟩
      · obtain ⟨t, ht, h⟩ := Related.exists_left right hk
        exact ⟨t, List.mem_append_right _ ht, h⟩
    obtain ⟨t, ht, guard⟩ := refuted
    rcases diff_false (rest t ht) with no | no
    · rw [commonTrue] at no
      cases no
    · exact guard.2 I v _ no

/-- The disjunction of the guards is true where one of the states applies. -/
theorem disj_guards_true {common : PathCondition} {gs : List Handle}
    (guards : List.Forall₂ (fun s g => Guards ctx common s g ctx') states gs) (mem : s ∈ states)
    (applies : s.Applies ctx I v) :
    Connective.disj.value (gs.map (ctx'.holds I v)) = some true := by
  obtain ⟨g, hg, guard⟩ := Related.exists_right guards mem
  exact Connective.value_decisive.mpr (List.mem_map.mpr ⟨g, hg, guard.2 I v _ (diff_true applies)⟩)

/-- Where all states are refuted, by what they share or each by what is left, one of the two is false. -/
theorem disj_guards_false {common : PathCondition} {gs : List Handle}
    (guards : List.Forall₂ (fun s g => Guards ctx common s g ctx') states gs) (all : ∀ s ∈ states, s.Refuted ctx I v) :
    common.truth ctx I v = some false ∨ Connective.disj.value (gs.map (ctx'.holds I v)) = some false := by
  by_cases no : common.truth ctx I v = some false
  · exact .inl no
  · refine .inr (Connective.value_other.mpr fun b hb => ?_)
    obtain ⟨g, hg, rfl⟩ := List.mem_map.mp hb
    obtain ⟨s, hs, guard⟩ := Related.exists_left guards hg
    exact guard.2 I v _ ((diff_false (all s hs)).resolve_left no)

/-! ## Values -/

def ValueOf (ctx : Context) (x : SymbolId) (s : State) (h : Handle) (ctx' : Context) : Prop :=
  ctx'.Has h ∧ ∀ I v, ctx'.eval I v h = s.store.eval ctx I v x

theorem ValueOf.later {ctx'' : Context} (hc' : ctx'.Sound) (e : ctx'.Extends ctx'') {x : SymbolId} {h : Handle}
    (val : ValueOf ctx x s h ctx') : ValueOf ctx x s h ctx'' := by
  refine ⟨e.has val.1, fun I v => ?_⟩
  rw [Context.eval_extends hc' e val.1]
  exact val.2 I v

theorem valueIn_yields (hc : ctx.Sound) (valid : s.Valid ctx) {x : SymbolId}
    (registered : x.number < ctx.symbols.size) :
    Yields (valueIn x s.store.flatten) ctx fun h ctx' => ValueOf ctx x s h ctx' := by
  unfold valueIn
  rw [Store.find?_flatten]
  cases bound : s.store.get? x with
  | some h => exact Yields.pure hc ⟨(valid.store bound).1, fun I v => (Store.eval_bound bound).symm⟩
  | none =>
    refine (ContextM.symbol_yields hc registered).mono fun h ctx' _ hc' stands => ⟨stands.has, fun I v => ?_⟩
    rw [stands.eval hc', Store.eval_unbound bound]

theorem values_yields {ctx₀ : Context} (hc₀ : ctx₀.Sound) (hc : ctx.Sound) (e₀ : ctx₀.Extends ctx)
    (valid : ∀ s ∈ states, s.Valid ctx₀) {x : SymbolId} (registered : x.number < ctx₀.symbols.size) :
    Yields ((states.map (·.store.flatten)).mapM (valueIn x)) ctx fun hs ctx' =>
      List.Forall₂ (fun s h => ValueOf ctx₀ x s h ctx') states hs := by
  rw [List.mapM_map]
  refine Yields.mapM (P := fun s h c => ValueOf ctx₀ x s h c) states ?_ hc ?_
  · intro s h ctx₁ ctx₂ _ hc₁ e _ val
    exact val.later hc₁ e
  · intro s hs ctx₁ e hc₁
    have e₁ := e₀.trans e
    refine (valueIn_yields hc₁ ((valid s hs).extends e₁) (Nat.lt_of_lt_of_le registered e₁.symbols.size_le)).mono
      fun h ctx₂ _ _ val => ⟨val.1, fun I v => ?_⟩
    rw [← State.eval_extends hc₀ e₁ (valid s hs)]
    exact val.2 I v

structure Merged (ctx : Context) (states : List State) (x : SymbolId) (h : Handle)
    (ctx' : Context) : Prop where
  has : ctx'.Has h
  value : ∀ {I v s}, Sole ctx I v s states → Below (s.store.eval ctx I v x) (ctx'.eval I v h)

theorem Merged.later {ctx'' : Context} {x : SymbolId} {h : Handle} (hc' : ctx'.Sound) (e : ctx'.Extends ctx'')
    (merged : Merged ctx states x h ctx') : Merged ctx states x h ctx'' := by
  refine ⟨e.has merged.has, fun sole => ?_⟩
  rw [Context.eval_extends hc' e merged.has]
  exact merged.value sole

/-- The choice among the values under the guards has the value in the one state that applies: its guard is the one
that is true. -/
theorem pick_of_sole {ctx₀ : Context} (hc : ctx.Sound) (e : ctx.Extends ctx') {common : PathCondition}
    (shared : ∀ c ∈ common.items, ∀ s ∈ states, c ∈ s.path.items) {gs hs : List Handle} {x : SymbolId}
    (guards : List.Forall₂ (fun s g => Guards ctx₀ common s g ctx) states gs)
    (values : List.Forall₂ (fun s h => ValueOf ctx₀ x s h ctx') states hs) (sole : Sole ctx₀ I v s states) {a : Value}
    (ha : s.store.eval ctx₀ I v x = some a) : pick (ContextM.branches ctx' I v (gs.zip hs)) = some a := by
  obtain ⟨l, r, gl, g, gr, hstates, rfl, len, true_, false_⟩ := guards_of_sole shared guards sole
  subst hstates
  obtain ⟨vl, vr', split, left, right⟩ := Related.of_append values
  cases right with
  | cons own right =>
    rename_i k vr
    have lengths : gl.length = vl.length := len.symm.trans left.length_eq
    have hasG : ∀ k ∈ gl ++ g :: gr, ctx.Has k := by
      intro k hk
      obtain ⟨_, _, guard⟩ := Related.exists_left guards hk
      exact guard.1
    rw [split, List.zip_append lengths, List.zip_cons_cons]
    refine pick_eq_some.mpr ⟨ContextM.branches ctx' I v (gl.zip vl), ContextM.branches ctx' I v (gr.zip vr), ?_, ?_⟩
    · unfold ContextM.branches
      rw [List.map_append, List.map_cons, own.2, ha, holds_extends hc e (hasG g (by simp)), true_]
    · intro b hb
      unfold ContextM.branches at hb
      rw [← List.map_append] at hb
      obtain ⟨c, hc', rfl⟩ := List.mem_map.mp hb
      have guard : c.1 ∈ gl ++ gr := by
        rcases List.mem_append.mp hc' with hc' | hc'
        · exact List.mem_append_left _ (List.of_mem_zip hc').1
        · exact List.mem_append_right _ (List.of_mem_zip hc').1
      have mem : c.1 ∈ gl ++ g :: gr := by
        simp only [List.mem_append, List.mem_cons] at guard ⊢
        exact guard.imp id .inr
      rw [holds_extends hc e (hasG c.1 mem)]
      exact false_ c.1 guard

/-- The merged value of a symbol is, for the one state that holds, the value it has there. -/
theorem mergeSymbol_yields {ctx₀ : Context} (hc₀ : ctx₀.Sound) (hc : ctx.Sound) (e₀ : ctx₀.Extends ctx)
    {common : PathCondition} (shared : ∀ c ∈ common.items, ∀ s ∈ states, c ∈ s.path.items)
    (ne : states ≠ []) (valid : ∀ s ∈ states, s.Valid ctx₀) {gs : List Handle}
    (guards : List.Forall₂ (fun s g => Guards ctx₀ common s g ctx) states gs) {x : SymbolId}
    (registered : x.number < ctx₀.symbols.size) :
    Yields (mergeSymbol gs (states.map (·.store.flatten)) x) ctx fun b ctx' =>
      b.1 = x ∧ Merged ctx₀ states x b.2 ctx' := by
  unfold mergeSymbol
  refine (values_yields hc₀ hc e₀ valid registered).bind fun hs ctx₁ e₁ hc₁ values => ?_
  cases hs with
  | nil =>
    cases values
    exact absurd rfl ne
  | cons h rest =>
    dsimp only
    by_cases equal : rest.all (· = h) = true
    · rw [if_pos equal]
      have all : ∀ k ∈ h :: rest, k = h := by
        intro k hk
        rcases List.mem_cons.mp hk with rfl | hk
        · rfl
        · exact of_decide_eq_true (List.all_eq_true.mp equal k hk)
      refine Yields.pure hc₁ ⟨rfl, ?_, fun {I v s} sole => ?_⟩
      · obtain ⟨s, _, val⟩ := Related.exists_left values (b := h) List.mem_cons_self
        exact val.1
      · obtain ⟨k, hk, val⟩ := Related.exists_right values sole.mem
        rw [← all k hk, val.2]
        exact Below.refl _
    · rw [if_neg equal]
      have has : ctx₁.pool.HasAll (gs.zip (h :: rest)) := by
        intro b hb
        obtain ⟨hg, hv⟩ := List.of_mem_zip hb
        obtain ⟨_, _, guard⟩ := Related.exists_left guards hg
        obtain ⟨_, _, val⟩ := Related.exists_left values hv
        exact ⟨e₁.has guard.1, val.1⟩
      have some : gs.zip (h :: rest) ≠ [] := by
        intro none
        have len := guards.length_eq
        rcases List.zip_eq_nil_iff.mp none with none | none
        · rw [none] at len
          exact ne (List.eq_nil_of_length_eq_zero len)
        · cases none
      refine (ContextM.choice_yields hc₁ has some).bind fun k ctx₂ _ hc₂ chosen => Yields.pure hc₂ ⟨rfl, chosen.1, ?_⟩
      intro I v s sole a ha
      exact chosen.2.1 I v a (pick_of_sole hc e₁ shared guards values sole ha)

/-! ## The merged state -/

/-- The state `m` of `ctx'` stands for the `states` of `ctx`. -/
structure Merges (ctx : Context) (states : List State) (m : State) (ctx' : Context) : Prop where
  valid : m.Valid ctx'
  applies : ∀ {I v s}, s ∈ states → s.Applies ctx I v → m.Applies ctx' I v
  refuted : ∀ {I v}, (∀ s ∈ states, s.Refuted ctx I v) → m.Refuted ctx' I v
  store : ∀ {I v s}, Sole ctx I v s states → ∀ x, Below (s.store.eval ctx I v x) (m.store.eval ctx' I v x)
  bound : ∀ {x h}, m.store.get? x = some h → ∃ s ∈ states, ∃ k, s.store.get? x = some k

theorem mem_boundSymbols {x : SymbolId} :
    x ∈ boundSymbols (states.map (·.store.flatten)) ↔ ∃ s ∈ states, ∃ h, s.store.get? x = some h := by
  unfold boundSymbols
  rw [SymbolId.mem_ofList, List.flatMap_map, List.mem_flatMap]
  exact exists_congr fun s => and_congr_right fun _ => Store.mem_flatten_keys

/-- The merged condition: the shared constraints and, unless it is plainly true, the disjunction of the rest. -/
theorem mergedPath_truth {common : PathCondition} {reached : Handle} (hc' : ctx'.Sound) (valid : common.Valid ctx')
    (has : ctx'.Has reached) :
    let path := if reached = .tt then common else common.add reached
    path.Valid ctx' ∧
      (common.truth ctx' I v = some true → ctx'.holds I v reached = some true → path.truth ctx' I v = some true) ∧
      (common.truth ctx' I v = some false ∨ ctx'.holds I v reached = some false →
        path.truth ctx' I v = some false) := by
  dsimp only
  split
  · rename_i plain
    subst plain
    refine ⟨valid, fun h _ => h, fun h => h.resolve_right fun no => ?_⟩
    have yes : ctx'.holds I v .tt = some true := Pool.holds_tt hc'.pool
    rw [yes] at no
    cases no
  · exact ⟨PathCondition.add_valid hc' valid has, PathCondition.add_true hc' valid has, PathCondition.add_false hc'⟩

abbrev MergedBindings (ctx : Context) (states : List State) (bs : Bindings) (ctx' : Context) : Prop :=
  List.Forall₂ (fun x b => b.1 = x ∧ Merged ctx states x b.2 ctx') (boundSymbols (states.map (·.store.flatten))) bs

theorem map_fst_of_related {xs : List SymbolId} {bs : List (SymbolId × Handle)}
    (h : List.Forall₂ (fun x b => b.1 = x) xs bs) : bs.map (·.1) = xs := by
  induction h with
  | nil => rfl
  | cons hb _ ih => rw [List.map_cons, hb, ih]

theorem bindings_yields {ctx₀ : Context} (hc₀ : ctx₀.Sound) (hc : ctx.Sound) (e₀ : ctx₀.Extends ctx)
    {common : PathCondition} (shared : ∀ c ∈ common.items, ∀ s ∈ states, c ∈ s.path.items)
    (ne : states ≠ []) (valid : ∀ s ∈ states, s.Valid ctx₀) {gs : List Handle}
    (guards : List.Forall₂ (fun s g => Guards ctx₀ common s g ctx) states gs) :
    Yields ((boundSymbols (states.map (·.store.flatten))).mapM (mergeSymbol gs (states.map (·.store.flatten)))) ctx
      (MergedBindings ctx₀ states) := by
  refine Yields.mapM (P := fun x (b : SymbolId × Handle) c => b.1 = x ∧ Merged ctx₀ states x b.2 c) _ ?_ hc ?_
  · intro x b ctx₁ ctx₂ _ hc₁ e _ merged
    exact ⟨merged.1, merged.2.later hc₁ e⟩
  · intro x hx ctx₁ e₁ hc₁
    obtain ⟨s, hs, h, bound⟩ := mem_boundSymbols.mp hx
    have later := guards.imp fun {s g} guard => guard.later hc e₁
    exact mergeSymbol_yields hc₀ hc₁ (e₀.trans e₁) shared ne valid later ((valid s hs).store bound).2

theorem MergedBindings.nodup {bs : Bindings} (merged : MergedBindings ctx states bs ctx') : (bs.map (·.1)).Nodup := by
  rw [map_fst_of_related (merged.imp fun {_ _} h => h.1)]
  exact SymbolId.ofList_nodup _

theorem MergedBindings.of_get? {bs : Bindings} (merged : MergedBindings ctx states bs ctx') {x : SymbolId} {h : Handle}
    (bound : (Store.ofBindings bs).get? x = some h) :
    (∃ s ∈ states, ∃ k, s.store.get? x = some k) ∧ Merged ctx states x h ctx' := by
  rw [Store.get?_ofBindings merged.nodup] at bound
  obtain ⟨y, hy, rfl, value⟩ := Related.exists_left merged (Bindings.mem_of_find? bound)
  exact ⟨mem_boundSymbols.mp hy, value⟩

theorem MergedBindings.unbound {bs : Bindings} (merged : MergedBindings ctx states bs ctx') {x : SymbolId}
    (bound : (Store.ofBindings bs).get? x = none) (mem : s ∈ states) : s.store.get? x = none := by
  refine Option.eq_none_iff_forall_ne_some.mpr fun k own => ?_
  obtain ⟨b, hb, rfl, _⟩ := Related.exists_right merged (mem_boundSymbols.mpr ⟨s, mem, k, own⟩)
  rw [Store.get?_ofBindings merged.nodup, Bindings.find?_of_mem merged.nodup hb] at bound
  cases bound

/-- The merged store has the values of the one state that applies. A symbol that no store binds stands for itself
before and after. -/
theorem MergedBindings.eval {bs : Bindings} (merged : MergedBindings ctx states bs ctx') (sole : Sole ctx I v s states)
    (x : SymbolId) : Below (s.store.eval ctx I v x) ((Store.ofBindings bs).eval ctx' I v x) := by
  cases bound : (Store.ofBindings bs).get? x with
  | some h =>
    rw [Store.eval_bound bound]
    exact (merged.of_get? bound).2.value sole
  | none =>
    rw [Store.eval_unbound bound, Store.eval_unbound (merged.unbound bound sole.mem)]
    exact Below.refl _

/-- Merging states that are valid gives a state that stands for all of them. -/
theorem mergeSeveral_yields (hc : ctx.Sound) (first : State) (others : List State)
    (valid : ∀ s ∈ first :: others, s.Valid ctx) :
    Yields (mergeSeveral first others) ctx (Merges ctx (first :: others)) := by
  unfold mergeSeveral
  dsimp only
  have shared : ∀ c ∈ (others.foldl (fun p s => p.inter s.path) first.path).items,
      ∀ s ∈ first :: others, c ∈ s.path.items := fun c hm => List.forall_mem_cons.mpr (mem_common.mp hm)
  generalize others.foldl (fun p s => p.inter s.path) first.path = common at shared ⊢
  have commonValid : common.Valid ctx := fun c hm =>
    (valid first List.mem_cons_self).path c (shared c hm first List.mem_cons_self)
  have ne : first :: others ≠ [] := List.cons_ne_nil _ _
  generalize first :: others = states at valid shared ne ⊢
  refine (guards_yields hc common valid).bind fun gs ctx₁ e₁ hc₁ guards => ?_
  have hasG : ∀ g ∈ gs, ctx₁.Has g := by
    intro g hg
    obtain ⟨_, _, guard⟩ := Related.exists_left guards hg
    exact guard.1
  refine (ContextM.join_yields hc₁ .disj hasG).bind fun d ctx₂ e₂ hc₂ joined => ?_
  refine (PathMerge.simplify_yields hc₂ joined.has).bind fun reached ctx₃ e₃ hc₃ refined => ?_
  have e := (e₁.trans e₂).trans e₃
  have later := guards.imp fun {s g} guard => guard.later hc₁ (e₂.trans e₃)
  refine (bindings_yields hc hc₃ e shared ne valid later).bind fun bs ctx₄ e₄ hc₄ merged => Yields.pure hc₄ ?_
  have e' := e.trans e₄
  have holdsReached : ∀ {I v b}, Connective.disj.value (gs.map (ctx₁.holds I v)) = some b →
      ctx₄.holds I v reached = some b := by
    intro I v b h
    rw [holds_extends hc₃ e₄ refined.has]
    exact (refined.value I v).truth? b (joined.value I v b h)
  have path := fun I v => mergedPath_truth (I := I) (v := v) hc₄ (commonValid.extends e') (e₄.has refined.has)
  refine ⟨⟨(path ⟨id, id, fun _ => 0, fun _ _ => .bool true⟩ fun _ => .bool true).1, fun {x h} bound => ?_⟩,
    fun {I v s} mem applies => ?_, fun {I v} all => ?_, merged.eval, fun {x h} bound => (merged.of_get? bound).1⟩
  · obtain ⟨⟨s, hs, k, hk⟩, value⟩ := merged.of_get? bound
    exact ⟨value.has, Nat.lt_of_lt_of_le ((valid s hs).store hk).2 e'.symbols.size_le⟩
  · refine (path I v).2.1 ?_ (holdsReached (disj_guards_true guards mem applies))
    rw [PathCondition.truth_extends hc e' commonValid]
    exact common_true shared mem applies
  · refine (path I v).2.2 ?_
    rw [PathCondition.truth_extends hc e' commonValid]
    exact (disj_guards_false guards all).imp id holdsReached

/-- Merging one state or more returns a state that stands for them. -/
theorem merge_yields (hc : ctx.Sound) (ne : states ≠ []) (valid : ∀ s ∈ states, s.Valid ctx) :
    Yields (merge states) ctx (Merges ctx states) := by
  match states, ne with
  | [s], _ =>
    have only : ∀ {I v t}, Sole ctx I v t [s] → t = s := fun sole => List.mem_singleton.mp sole.mem
    refine Yields.pure hc ⟨valid s List.mem_cons_self, fun mem applies => ?_, fun all => all s List.mem_cons_self,
      fun sole x => ?_, fun bound => ⟨s, List.mem_cons_self, _, bound⟩⟩
    · exact List.mem_singleton.mp mem ▸ applies
    · rw [only sole]
      exact Below.refl _
  | first :: second :: others, _ => exact mergeSeveral_yields hc first (second :: others) valid

end PathMerge.State
