/-
  PathMerge.Proofs.PathCondition — the truth of what is known on a path.

  A path condition is true when all its constraints are, and false as soon as one of them is. Building
  one, adding to it and simplifying it keep a truth value that it has.
-/

import PathMerge.PathCondition
import PathMerge.Proofs.Simplify

namespace PathMerge.PathCondition

open Context

variable {ctx ctx' : Context} {I : Interpretation} {v : Valuation} {p : PathCondition} {c : Handle}

def Valid (ctx : Context) (p : PathCondition) : Prop := ∀ c ∈ p.items, ctx.Has c

noncomputable def truth (ctx : Context) (I : Interpretation) (v : Valuation) (p : PathCondition) : Option Bool :=
  Connective.conj.value (p.items.map (ctx.holds I v))

theorem truth_true : p.truth ctx I v = some true ↔ ∀ c ∈ p.items, ctx.holds I v c = some true := by
  have := Connective.value_other (c := .conj) (l := p.items.map (ctx.holds I v))
  unfold truth
  refine this.trans ?_
  simp [Connective.decisive]

theorem truth_false : p.truth ctx I v = some false ↔ ∃ c ∈ p.items, ctx.holds I v c = some false := by
  have := Connective.value_decisive (c := .conj) (l := p.items.map (ctx.holds I v))
  unfold truth
  refine this.trans ?_
  simp [Connective.decisive]

theorem Valid.extends (e : ctx.Extends ctx') (h : p.Valid ctx) : p.Valid ctx' := fun c hc => e.has (h c hc)

theorem truth_extends (hc : ctx.Sound) (e : ctx.Extends ctx') (h : p.Valid ctx) :
    p.truth ctx' I v = p.truth ctx I v := by
  unfold truth
  rw [List.map_congr_left fun c hm => holds_extends hc e (h c hm)]

theorem truth_agree {v' : Valuation} (hc : ctx.Sound)
    (agree : ∀ y : SymbolId, y.number < ctx.symbols.size → v y = v' y) (h : p.Valid ctx) :
    p.truth ctx I v = p.truth ctx I v' := by
  unfold truth
  rw [List.map_congr_left fun c hm => holds_agree hc agree (h c hm)]

@[simp] theorem truth_empty : empty.truth ctx I v = some true := truth_true.mpr nofun

theorem empty_valid (ctx : Context) : empty.Valid ctx := nofun

/-! ## Building a condition -/

theorem mem_ofList {cs : List Handle} (h : c ∈ (ofList cs).items) : c ∈ cs ∨ c = .ff := by
  unfold ofList at h
  dsimp only at h
  split at h
  · exact .inr (List.mem_singleton.mp h)
  · exact .inl (List.mem_filter.mp (Handle.mem_sorted.mp h)).1

theorem ofList_valid (hc : ctx.Sound) {cs : List Handle} (h : ∀ c ∈ cs, ctx.Has c) : (ofList cs).Valid ctx := by
  intro c hm
  rcases mem_ofList hm with hm | rfl
  · exact h c hm
  · exact hc.pool.has_ff

theorem ofList_true (hc : ctx.Sound) {cs : List Handle} (has : ∀ c ∈ cs, ctx.Has c)
    (h : ∀ c ∈ cs, ctx.holds I v c = some true) : (ofList cs).truth ctx I v = some true := by
  have items : ∀ c ∈ Handle.sorted (cs.filter (· ≠ .tt)), c ∈ cs := fun c hm =>
    (List.mem_filter.mp (Handle.mem_sorted.mp hm)).1
  have consistent : ¬ ((Handle.sorted (cs.filter (· ≠ .tt))).contains .ff ||
      Handle.hasComplements (Handle.sorted (cs.filter (· ≠ .tt)))) = true := by
    intro bad
    rcases Bool.or_eq_true_iff.mp bad with bad | bad
    · have := h .ff (items _ (by simpa using bad))
      rw [show ctx.holds I v .ff = some false from Pool.holds_ff hc.pool] at this
      cases this
    · obtain ⟨a, ha, ha'⟩ := Handle.of_hasComplements bad
      have := (Pool.holds_neg_eq_some hc.pool (has a (items a ha))).mp (h _ (items _ ha'))
      rw [show ctx.pool.holds _ a = some true from h a (items a ha)] at this
      cases this
  unfold ofList
  dsimp only
  rw [if_neg consistent]
  exact truth_true.mpr fun c hm => h c (items c hm)

theorem ofList_false (hc : ctx.Sound) {cs : List Handle} (hm : c ∈ cs) (h : ctx.holds I v c = some false) :
    (ofList cs).truth ctx I v = some false := by
  have ne : c ≠ .tt := by
    rintro rfl
    rw [show ctx.holds I v .tt = some true from Pool.holds_tt hc.pool] at h
    cases h
  unfold ofList
  dsimp only
  split
  · exact truth_false.mpr ⟨.ff, List.mem_singleton.mpr rfl, Pool.holds_ff hc.pool⟩
  · exact truth_false.mpr ⟨c, Handle.mem_sorted.mpr (List.mem_filter.mpr ⟨hm, by simpa using ne⟩), h⟩

theorem add_valid (hc : ctx.Sound) (hp : p.Valid ctx) (has : ctx.Has c) : (p.add c).Valid ctx := by
  refine ofList_valid hc fun d hd => ?_
  rcases List.mem_append.mp hd with hd | hd
  · exact hp d hd
  · exact List.mem_singleton.mp hd ▸ has

theorem add_true (hc : ctx.Sound) (hp : p.Valid ctx) (has : ctx.Has c) (path : p.truth ctx I v = some true)
    (h : ctx.holds I v c = some true) : (p.add c).truth ctx I v = some true := by
  refine ofList_true hc (fun d hd => ?_) fun d hd => ?_
  · rcases List.mem_append.mp hd with hd | hd
    · exact hp d hd
    · exact List.mem_singleton.mp hd ▸ has
  · rcases List.mem_append.mp hd with hd | hd
    · exact truth_true.mp path d hd
    · exact List.mem_singleton.mp hd ▸ h

theorem add_false (hc : ctx.Sound) (h : p.truth ctx I v = some false ∨ ctx.holds I v c = some false) :
    (p.add c).truth ctx I v = some false := by
  rcases h with h | h
  · obtain ⟨d, hd, h⟩ := truth_false.mp h
    exact ofList_false hc (List.mem_append_left _ hd) h
  · exact ofList_false hc (List.mem_append_right _ (List.mem_singleton.mpr rfl)) h

/-! ## As one formula, and simplified -/

theorem formula_yields (hc : ctx.Sound) (hp : p.Valid ctx) :
    Yields p.formula ctx fun h ctx' => ctx'.Has h ∧ ∀ I v, Below (p.truth ctx I v) (ctx'.holds I v h) :=
  (ContextM.join_yields hc .conj hp).mono fun _ _ _ _ h => ⟨h.has, h.value⟩

/-- A condition splits into its conjuncts without changing its truth. -/
theorem operands?_yields (hc : ctx.Sound) (has : ctx.Has c) :
    Yields (ContextM.onPool (PoolM.operands? .conj c)) ctx fun r ctx' => (∀ d ∈ r.getD [c], ctx'.Has d) ∧
      ∀ I v, Connective.conj.Refines [ctx.holds I v c] ((r.getD [c]).map (ctx'.holds I v)) := by
  refine (ContextM.onPool_yields hc (PathMerge.operands?_yields hc.pool has)).mono ?_
  rintro r ctx' e _ ⟨symbols, pool, facts⟩
  have meaning : ∀ I v, ctx'.holds I v = ctx.holds I v := by
    intro I v
    unfold Context.holds
    rw [ContextM.meaning_eq symbols, ← pool]
  cases r with
  | none =>
    refine ⟨fun d hd => ?_, fun I v => ?_⟩
    · rw [List.mem_singleton.mp hd]
      exact e.has has
    · rw [meaning]
      exact .refl _ _
  | some items =>
    obtain ⟨hn, sign⟩ := facts
    have reduced := nested_reduces hc.pool hn sign
    refine ⟨fun d hd => e.has (reduced.has d hd), fun I v => ?_⟩
    rw [meaning]
    exact reduced.truth (.ofMeaning _)

theorem simplifiedParts_yields (hc : ctx.Sound) (has : ctx.Has c) :
    Yields (simplifiedParts c) ctx fun parts ctx' => (∀ d ∈ parts, ctx'.Has d) ∧
      ∀ I v, Connective.conj.Refines [ctx.holds I v c] (parts.map (ctx'.holds I v)) := by
  unfold simplifiedParts
  refine (simplify_yields hc has).bind fun k ctx₁ e₁ hc₁ refined => ?_
  refine (operands?_yields hc₁ refined.has).bind fun r ctx₂ _ hc₂ facts => Yields.pure hc₂ ⟨facts.1, fun I v => ?_⟩
  refine Connective.Refines.trans (.of_forall₂ (.cons ?_ .nil)) (facts.2 I v)
  exact (refined.value I v).truth?

/-- Simplifying a path condition keeps its truth wherever it has one. -/
theorem simplify_yields (hc : ctx.Sound) (hp : p.Valid ctx) :
    Yields p.simplify ctx fun q ctx' => q.Valid ctx' ∧ ∀ I v, Below (p.truth ctx I v) (q.truth ctx' I v) := by
  unfold simplify
  let Parts (c : Handle) (parts : List Handle) (ctx' : Context) : Prop :=
    (∀ d ∈ parts, ctx'.Has d) ∧ ∀ I v, Connective.conj.Refines [ctx.holds I v c] (parts.map (ctx'.holds I v))
  have each : Yields (p.items.mapM simplifiedParts) ctx fun ls ctx' =>
    List.Forall₂ (fun c l => Parts c l ctx') p.items ls := by
    refine Yields.mapM (P := Parts) p.items ?_ hc ?_
    · intro c l ctx₁ ctx₂ _ hc₁ e _ h
      refine ⟨fun d hd => e.has (h.1 d hd), fun I v => ?_⟩
      rw [List.map_congr_left fun d hd => holds_extends hc₁ e (h.1 d hd)]
      exact h.2 I v
    · intro c hm ctx₁ e hc₁
      refine (simplifiedParts_yields hc₁ (e.has (hp c hm))).mono fun l ctx₂ _ _ h => ⟨h.1, fun I v => ?_⟩
      rw [← holds_extends hc e (hp c hm)]
      exact h.2 I v
  refine each.bind fun ls ctx₁ e₁ hc₁ parts => Yields.pure hc₁ ⟨ofList_valid hc₁ ?_, fun I v b hb => ?_⟩
  · intro d hd
    obtain ⟨l, hl, hd⟩ := List.mem_flatten.mp hd
    obtain ⟨c, _, h⟩ := Related.exists_left parts hl
    exact h.1 d hd
  · have has : ∀ d ∈ ls.flatten, ctx₁.Has d := by
      intro d hd
      obtain ⟨l, hl, hd⟩ := List.mem_flatten.mp hd
      obtain ⟨c, _, h⟩ := Related.exists_left parts hl
      exact h.1 d hd
    cases b with
    | true =>
      refine ofList_true hc₁ has fun d hd => ?_
      obtain ⟨l, hl, hd⟩ := List.mem_flatten.mp hd
      obtain ⟨c, hm, h⟩ := Related.exists_left parts hl
      refine (h.2 I v).agreed (fun x hx => ?_) _ (List.mem_map_of_mem hd)
      rw [List.mem_singleton.mp hx]
      exact truth_true.mp hb c hm
    | false =>
      obtain ⟨c, hm, hc⟩ := truth_false.mp hb
      obtain ⟨l, hl, h⟩ := Related.exists_right parts hm
      have decided := (h.2 I v).decided (by rw [hc]; exact List.mem_singleton.mpr rfl)
      obtain ⟨d, hd, e⟩ := List.mem_map.mp decided
      exact ofList_false hc₁ (List.mem_flatten.mpr ⟨l, hl, hd⟩) e

end PathMerge.PathCondition
