/-
  PathMerge.Proofs.Uniform.States — simplifying and merging states, and the rules, are uniform.

  On valid states every one of these actions, whether it returns or fails, leaves a reliable context, and
  the states it returns are valid there.
-/

import PathMerge.Proofs.Denotation
import PathMerge.Proofs.Merge
import PathMerge.Proofs.Uniform

namespace PathMerge

open Context ContextM

variable {ctx : Context}

/-! ## Path conditions -/

namespace PathCondition

variable {p q : PathCondition}

theorem formula_uniform (hc : ctx.Reliable) (hp : p.Valid ctx) : Uniform p.formula ctx fun h c => c.Has h :=
  join_uniform hc .conj hp

def Alone (ctx : Context) (d : Handle) : Prop := Returns (onPool (PoolM.operands? .conj d)) ctx none ctx

theorem Alone.later {ctx' : Context} {d : Handle} (later : ctx.Later ctx') (tidy : ctx'.pool.Tidy) (h : Alone ctx d) :
    Alone ctx' d :=
  (onPool_straight (PoolM.operands?_straight .conj d)).repeats h tidy later

/-- The parts of a simplified constraint are simplified and are not taken apart again. -/
theorem simplifiedParts_uniform (hc : ctx.Reliable) {h : Handle} (has : ctx.Has h) :
    Uniform (simplifiedParts h) ctx fun parts c => ∀ d ∈ parts, c.Normal d ∧ Alone c d := by
  refine (ContextM.simplify_uniform hc has).bind fun k c _ hc normal => ?_
  have steady := (onPool_straight (PoolM.operands?_straight .conj k)).toSteady
  have looked := onPool_yields hc.sound (PathMerge.operands?_yields (c := .conj) hc.sound.pool normal.has)
  refine (Uniform.steady steady hc looked).returned.bind ?_
  rintro r c' later hc' ⟨ret, _, pool, found⟩
  have tidy := hc'.sound.pool.tidy
  have normal' := normal.later later tidy
  refine Uniform.pure hc' fun d hd => ?_
  cases r with
  | none =>
    rw [List.mem_singleton.mp hd]
    exact ⟨normal', steady.repeats ret tidy (.refl c')⟩
  | some items =>
    obtain ⟨node, _⟩ := found
    rw [pool] at node
    obtain ⟨node', children, _⟩ := normal'
    cases node.symm.trans node'
    have apart : c'.pool.Apart .conj d := Pool.Flat.apart (hc'.sound.pool.formed node) d hd
    have alone := operands?_apart hc'.sound.pool (hc'.sound.pool.has_child node hd) apart
    exact ⟨children d hd, returns_onPool.mpr ⟨c'.pool, alone, rfl⟩⟩

structure Simplified (p : PathCondition) (ctx : Context) : Prop where
  canonical : ofList p.items = p
  alone : ∀ d ∈ p.items, ctx.Normal d ∧ Alone ctx d

theorem Simplified.valid (h : p.Simplified ctx) : p.Valid ctx := fun d hd => (h.alone d hd).1.has

theorem Simplified.later {ctx' : Context} (later : ctx.Later ctx') (tidy : ctx'.pool.Tidy) (h : p.Simplified ctx) :
    p.Simplified ctx' :=
  ⟨h.canonical, fun d hd => ⟨(h.alone d hd).1.later later tidy, (h.alone d hd).2.later later tidy⟩⟩

theorem ofList_ofList (cs : List Handle) : ofList (ofList cs).items = ofList cs := by
  unfold ofList
  dsimp only
  split
  · rfl
  · rename_i clean
    have proper : (Handle.sorted (cs.filter (· ≠ .tt))).filter (· ≠ .tt) = Handle.sorted (cs.filter (· ≠ .tt)) :=
      List.filter_eq_self.mpr fun d hd => (List.mem_filter.mp (Handle.mem_sorted.mp hd)).2
    have sorted : Handle.sorted (Handle.sorted (cs.filter (· ≠ .tt))) = Handle.sorted (cs.filter (· ≠ .tt)) :=
      SortedList.ofList_sorted (Handle.sorted_pairwise _)
    rw [proper, sorted, if_neg clean]

theorem ofList_simplified (hc : ctx.Sound) {cs : List Handle} (alone : ∀ d ∈ cs, ctx.Normal d ∧ Alone ctx d) :
    (ofList cs).Simplified ctx := by
  refine ⟨ofList_ofList cs, fun d hd => ?_⟩
  rcases mem_ofList hd with hd | rfl
  · exact alone d hd
  · exact ⟨(Normal.tt hc.pool).neg, returns_onPool.mpr ⟨ctx.pool, rfl, rfl⟩⟩

theorem simplify_simplified (hc : ctx.Reliable) (hp : p.Valid ctx) :
    Uniform p.simplify ctx fun q c => q.Simplified c := by
  refine (Uniform.mapM_all (P := fun parts c => ∀ d ∈ parts, c.Normal d ∧ Alone c d) p.items hc
    (fun later hc alone d hd => ?_) fun h hm c later hc => ?_).bind fun ls c _ hc alone => ?_
  · have tidy := hc.sound.pool.tidy
    exact ⟨(alone d hd).1.later later tidy, (alone d hd).2.later later tidy⟩
  · exact simplifiedParts_uniform hc (later.extends.has (hp h hm))
  · refine Uniform.pure hc (ofList_simplified hc.sound fun d hd => ?_)
    obtain ⟨l, hl, hd⟩ := List.mem_flatten.mp hd
    exact alone l hl d hd

theorem simplify_uniform (hc : ctx.Reliable) (hp : p.Valid ctx) : Uniform p.simplify ctx fun q c => q.Valid c :=
  (simplify_simplified hc hp).mono fun _ _ _ _ simplified => simplified.valid

theorem equivalent_uniform (hc : ctx.Reliable) (hp : p.Valid ctx) (hq : q.Valid ctx) :
    Uniform (equivalent p q) ctx fun _ _ => True := by
  unfold equivalent
  split
  · exact Uniform.pure hc trivial
  · refine (simplify_uniform hc hp).bind fun p' c later hc _ => ?_
    exact (simplify_uniform hc (hq.extends later.extends)).bind fun q' c' _ hc' _ => Uniform.pure hc' trivial

end PathCondition

/-! ## States -/

theorem Bindings.mem_ofList {bs : List (SymbolId × Handle)} {b : SymbolId × Handle} (h : b ∈ Bindings.ofList bs) :
    b ∈ bs := by
  have fold : ∀ (bs : List (SymbolId × Handle)) (m : Bindings),
      b ∈ bs.foldl (fun m b => Bindings.insert b.1 b.2 m) m → b ∈ bs ∨ b ∈ m := by
    intro bs
    induction bs with
    | nil => exact fun m h => .inr h
    | cons d bs ih =>
      intro m h
      rcases ih _ h with h | h
      · exact .inl (List.mem_cons_of_mem _ h)
      · rcases Bindings.mem_insert h with rfl | h
        · exact .inl List.mem_cons_self
        · exact .inr h
  exact (fold bs [] h).resolve_right (List.not_mem_nil)

theorem Store.mem_of_get?_ofBindings {bs : List (SymbolId × Handle)} {x : SymbolId} {h : Handle}
    (bound : (Store.ofBindings bs).get? x = some h) : (x, h) ∈ bs := by
  have found := (Store.get?_foldr (Bindings.ofList_increasing bs).nodup x).symm.trans bound
  exact Bindings.mem_ofList (Bindings.mem_of_find? found)

namespace State

variable {s : State} {states : List State}

def Bound (b : SymbolId × Handle) (ctx : Context) : Prop := ctx.Has b.2 ∧ b.1.number < ctx.symbols.size

theorem Bound.later {ctx' : Context} {b : SymbolId × Handle} (later : ctx.Later ctx') (h : Bound b ctx) :
    Bound b ctx' :=
  ⟨later.extends.has h.1, Nat.lt_of_lt_of_le h.2 later.symbols.size_le⟩

theorem Valid.flatten (hs : s.Valid ctx) : ∀ b ∈ s.store.flatten, Bound b ctx :=
  fun _ hb => hs.store (Store.mem_flatten hb)

theorem ofBindings_valid {path : PathCondition} {bs : List (SymbolId × Handle)} (hp : path.Valid ctx)
    (bound : ∀ b ∈ bs, Bound b ctx) : (⟨path, .ofBindings bs⟩ : State).Valid ctx :=
  ⟨hp, fun found => bound _ (Store.mem_of_get?_ofBindings found)⟩

structure Proper (b : SymbolId × Handle) (ctx : Context) : Prop where
  bound : Bound b ctx
  normal : ctx.Normal b.2
  other : ∃ r, ctx.asSymbol? b.2 = .ok r ∧ r ≠ some b.1

theorem Proper.later {ctx' : Context} {b : SymbolId × Handle} (later : ctx.Later ctx') (tidy : ctx'.pool.Tidy)
    (h : Proper b ctx) : Proper b ctx' := by
  obtain ⟨r, asked, other⟩ := h.other
  exact ⟨h.bound.later later, h.normal.later later tidy, r, (Lasts.asSymbol? b.2).later later asked, other⟩

theorem simplifyBinding_uniform (hc : ctx.Reliable) {b : SymbolId × Handle} (bound : Bound b ctx) :
    Uniform (simplifyBinding b) ctx fun r c => ∀ b', r = some b' → b'.1 = b.1 ∧ Proper b' c := by
  refine (ContextM.simplify_uniform hc bound.1).bind fun k c later hc normal => ?_
  refine (Uniform.asking (fun twin alike => (Lasts.alike (.asSymbol? k) alike).symm) hc).bind ?_
  rintro r _ _ _ ⟨rfl, asked⟩
  refine Uniform.pure hc fun b' made => ?_
  split at made
  · cases made
  · rename_i other
    cases made
    exact ⟨rfl, ⟨normal.has, (bound.later later).2⟩, normal, r, asked, other⟩

structure Simplified (s : State) (ctx : Context) : Prop where
  path : s.path.Simplified ctx
  store : ∃ bs : Bindings, s.store = .ofBindings bs ∧ bs.Increasing ∧ ∀ b ∈ bs, Proper b ctx

theorem Simplified.valid (h : s.Simplified ctx) : s.Valid ctx := by
  obtain ⟨path, store⟩ := s
  obtain ⟨simplified, bs, rfl, _, proper⟩ := h
  exact ofBindings_valid simplified.valid fun b hb => (proper b hb).bound

theorem Simplified.later {ctx' : Context} (later : ctx.Later ctx') (tidy : ctx'.pool.Tidy) (h : s.Simplified ctx) :
    s.Simplified ctx' := by
  obtain ⟨path, bs, store, inc, proper⟩ := h
  exact ⟨path.later later tidy, bs, store, inc, fun b hb => (proper b hb).later later tidy⟩

/-- Bindings that are kept under their symbols, or dropped, stay in order. -/
theorem kept_increasing {m : Bindings} {rs : List (Option (SymbolId × Handle))}
    (related : List.Forall₂ (fun b r => ∀ b', r = some b' → b'.1 = b.1) m rs) (inc : m.Increasing) :
    Bindings.Increasing (rs.filterMap id) := by
  have sub : ((rs.filterMap id).map (·.1)).Sublist (m.map (·.1)) := by
    clear inc
    induction related with
    | nil => exact .slnil
    | @cons b r m rs kept _ ih =>
      cases r with
      | none => exact ih.cons _
      | some b' =>
        rw [List.filterMap_cons_some (f := id) (a := some b') rfl, List.map_cons, List.map_cons, kept b' rfl]
        exact ih.cons_cons _
  have byKey : ∀ bs : Bindings, bs.Increasing ↔ (bs.map (·.1)).Pairwise (·.number < ·.number) := by
    intro bs
    rw [List.pairwise_map]
    exact Iff.rfl
  exact (byKey _).mpr (((byKey m).mp inc).sublist sub)

theorem simplify_simplified (hc : ctx.Reliable) (hs : s.Valid ctx) :
    Uniform s.simplify ctx fun t c => t.Simplified c := by
  refine (PathCondition.simplify_simplified hc hs.path).bind fun path c later hc hp => ?_
  refine (Uniform.mapM (P := fun b r c => ∀ b', r = some b' → b'.1 = b.1 ∧ Proper b' c) s.store.flatten hc
    (fun later hc kept b made => ?_) fun b hb c' later' hc => ?_).bind fun rs c' later' hc kept => ?_
  · exact ⟨(kept b made).1, (kept b made).2.later later hc.sound.pool.tidy⟩
  · exact simplifyBinding_uniform hc ((hs.flatten b hb).later (later.trans later'))
  · refine Uniform.pure hc ⟨hp.later later' hc.sound.pool.tidy, rs.filterMap id, rfl, ?_, fun b hb => ?_⟩
    · exact kept_increasing (kept.imp fun _ _ kept b made => (kept b made).1) s.store.flatten_increasing
    · obtain ⟨r, hr, made⟩ := List.mem_filterMap.mp hb
      obtain ⟨_, _, kept⟩ := Related.exists_left kept hr
      exact (kept b made).2

theorem simplify_uniform (hc : ctx.Reliable) (hs : s.Valid ctx) : Uniform s.simplify ctx fun t c => t.Valid c :=
  (simplify_simplified hc hs).mono fun _ _ _ _ simplified => simplified.valid

theorem valueIn_uniform (hc : ctx.Reliable) (hs : s.Valid ctx) {x : SymbolId}
    (registered : x.number < ctx.symbols.size) :
    Uniform (valueIn x s.store.flatten) ctx fun h c => c.Has h := by
  have steady : Steady (valueIn x s.store.flatten) := by
    unfold valueIn
    split
    · exact .pure _
    · exact intern_steady _
  exact (Uniform.steady steady hc (valueIn_yields hc.sound hs registered)).mono fun _ _ _ _ value => value.1

theorem value_uniform (hc : ctx.Reliable) (hs : s.Valid ctx) {x : SymbolId} (registered : x.number < ctx.symbols.size) :
    Uniform (s.value x) ctx fun h c => c.Has h := by
  have steady : Steady (s.value x) := by
    unfold State.value Store.value
    split
    · exact .pure _
    · exact intern_steady _
  exact (Uniform.steady steady hc (value_yields hc.sound hs registered)).mono fun _ _ _ _ value => value.1

/-- The merged value of a symbol does not depend on how the context is stored. -/
theorem mergeSymbol_uniform (hc : ctx.Reliable) {guards : List Handle} (hasGuards : ∀ g ∈ guards, ctx.Has g)
    (valid : ∀ s ∈ states, s.Valid ctx) {x : SymbolId} (registered : x.number < ctx.symbols.size) :
    Uniform (mergeSymbol guards (states.map (·.store.flatten)) x) ctx fun b c => Bound b c := by
  unfold mergeSymbol
  rw [List.mapM_map]
  refine (Uniform.mapM_all (P := fun h c => c.Has h) states hc (fun later _ has => later.extends.has has)
    fun s hs c later hc => ?_).bind fun values c later hc has => ?_
  · exact valueIn_uniform hc ((valid s hs).extends later.extends) (Nat.lt_of_lt_of_le registered later.symbols.size_le)
  · have registered := Nat.lt_of_lt_of_le registered later.symbols.size_le
    cases values with
    | nil => exact Uniform.throw hc
    | cons v rest =>
      dsimp only
      split
      · exact Uniform.pure hc ⟨has v List.mem_cons_self, registered⟩
      · have hasAll : c.pool.HasAll (guards.zip (v :: rest)) := fun b hb =>
          ⟨later.extends.has (hasGuards _ (List.of_mem_zip hb).1), has _ (List.of_mem_zip hb).2⟩
        refine (choice_uniform hc hasAll).bind fun h c' later' hc' hasH => Uniform.pure hc' ⟨hasH, ?_⟩
        exact Nat.lt_of_lt_of_le registered later'.symbols.size_le

theorem guards_uniform (hc : ctx.Reliable) (common : PathCondition) (valid : ∀ s ∈ states, s.Valid ctx) :
    Uniform (states.mapM fun s => (s.path.diff common).formula) ctx fun guards c => ∀ g ∈ guards, c.Has g := by
  refine Uniform.mapM_all (P := fun h c => c.Has h) states hc (fun later _ has => later.extends.has has)
    fun s hs c later hc => ?_
  refine PathCondition.formula_uniform hc fun h hm => later.extends.has ?_
  exact (valid s hs).path h (List.mem_filter.mp hm).1

/-- Merging does not depend on how the context is stored, and gives a valid state. -/
theorem mergeSeveral_uniform (hc : ctx.Reliable) {first : State} {others : List State}
    (valid : ∀ s ∈ first :: others, s.Valid ctx) :
    Uniform (mergeSeveral first others) ctx fun m c => m.Valid c := by
  unfold mergeSeveral
  dsimp only
  have commonValid : (others.foldl (fun p s => p.inter s.path) first.path).Valid ctx := fun c hm =>
    (valid first List.mem_cons_self).path c (mem_common.mp hm).1
  generalize others.foldl (fun p s => p.inter s.path) first.path = common at commonValid ⊢
  generalize first :: others = states at valid ⊢
  refine (guards_uniform hc common valid).bind fun guards c₁ later₁ hc₁ hasGuards => ?_
  refine (join_uniform hc₁ .disj hasGuards).bind fun d c₂ later₂ hc₂ hasD => ?_
  refine (ContextM.simplify_uniform hc₂ hasD).bind fun reached c₃ later₃ hc₃ normal => ?_
  have later₁₃ := later₂.trans later₃
  have path : (if reached = .tt then common else common.add reached).Valid c₃ := by
    have common := commonValid.extends (later₁.trans later₁₃).extends
    split
    · exact common
    · exact PathCondition.add_valid hc₃.sound common normal.has
  refine (Uniform.mapM_all (P := Bound) _ hc₃ (fun later _ bound => bound.later later)
    fun x hx c later hc => ?_).bind fun bindings c₄ later₄ hc₄ bound => ?_
  · have total := (later₁.trans later₁₃).trans later
    obtain ⟨s, hs, h, found⟩ := mem_boundSymbols.mp hx
    refine mergeSymbol_uniform hc (fun g hg => (later₁₃.trans later).extends.has (hasGuards g hg))
      (fun s hs => (valid s hs).extends total.extends) ?_
    exact Nat.lt_of_lt_of_le ((valid s hs).store found).2 total.symbols.size_le
  · exact Uniform.pure hc₄ (ofBindings_valid (path.extends later₄.extends) bound)

theorem merge_uniform (hc : ctx.Reliable) (valid : ∀ s ∈ states, s.Valid ctx) :
    Uniform (merge states) ctx fun m c => m.Valid c := by
  unfold merge
  split
  · exact Uniform.throw hc
  · exact Uniform.pure hc (valid _ List.mem_cons_self)
  · exact mergeSeveral_uniform hc valid

end State

/-! ## Rules -/

namespace Rule

variable {s : State}

theorem operandValue_uniform (hc : ctx.Reliable) (hs : s.Valid ctx) (o : Operand) :
    Uniform (operandValue s o) ctx fun h c => c.Has h := by
  cases o with
  | var name =>
    refine (lookup_uniform hc name).bind ?_
    rintro x _ _ _ ⟨rfl, registered⟩
    exact State.value_uniform hc hs registered
  | int n => exact literal_uniform hc _
  | bool b =>
    refine Uniform.pure hc ?_
    cases b
    exacts [hc.sound.pool.has_ff, hc.sound.pool.has_tt]
  | null => exact literal_uniform hc _

theorem arithmetic_uniform (hc : ctx.Reliable) (f : IntFunction) {args : List Handle} (has : ∀ a ∈ args, ctx.Has a) :
    Uniform (ContextM.arithmetic f args) ctx fun h c => c.Has h :=
  call_uniform hc _ has

theorem binaryValue_uniform (hc : ctx.Reliable) (op : BinaryOp) {a b : Handle} (ha : ctx.Has a) (hb : ctx.Has b) :
    Uniform (binaryValue op a b) ctx fun h c => c.Has h := by
  have has : ∀ x ∈ [a, b], ctx.Has x := by simp [ha, hb]
  cases op <;> exact arithmetic_uniform hc _ has

theorem comparisonValue_uniform (hc : ctx.Reliable) (op : Comparison) {a b : Handle} (ha : ctx.Has a) (hb : ctx.Has b) :
    Uniform (comparisonValue op a b) ctx fun h c => c.Has h := by
  have has : ∀ x ∈ [a, b], ctx.Has x := by simp [ha, hb]
  have swapped : ∀ x ∈ [b, a], ctx.Has x := by simp [ha, hb]
  cases op with
  | eq => exact equation_uniform hc ha hb
  | ne => exact (equation_uniform hc ha hb).map
  | lt | le => exact arithmetic_uniform hc _ has
  | gt | ge => exact arithmetic_uniform hc _ swapped

/-- Two operands, and what is made of their values. -/
theorem operands_uniform (hc : ctx.Reliable) (hs : s.Valid ctx) (a b : Operand) {f : Handle → Handle → ContextM Handle}
    (combine : ∀ {c x y}, c.Reliable → c.Has x → c.Has y → Uniform (f x y) c fun h c => c.Has h) :
    Uniform (do f (← operandValue s a) (← operandValue s b)) ctx fun h c => c.Has h := by
  refine (operandValue_uniform hc hs a).bind fun x c later hc hx => ?_
  refine (operandValue_uniform hc (hs.extends later.extends) b).bind fun y c' later' hc' hy => ?_
  exact combine hc' (later'.extends.has hx) hy

theorem rightSideValue_uniform (hc : ctx.Reliable) (hs : s.Valid ctx) (r : RightSide) :
    Uniform (rightSideValue s r) ctx fun h c => c.Has h := by
  cases r with
  | use a => exact operandValue_uniform hc hs a
  | neg a =>
    refine (operandValue_uniform hc hs a).bind fun x c _ hc hx => arithmetic_uniform hc _ ?_
    simpa using hx
  | binary op a b => exact operands_uniform hc hs a b fun hc => binaryValue_uniform hc op
  | compare op a b => exact operands_uniform hc hs a b fun hc => comparisonValue_uniform hc op

theorem conditionValue_uniform (hc : ctx.Reliable) (hs : s.Valid ctx) (c : Condition) :
    Uniform (conditionValue s c) ctx fun h c => c.Has h :=
  operands_uniform hc hs c.lhs c.rhs fun hc => comparisonValue_uniform hc c.op

theorem heap_registered (hc : ctx.Reliable) : Registry.heap.number < ctx.symbols.size :=
  Registry.get?_eq_some_lt hc.sound.symbols.heap

theorem heapOf_uniform (hc : ctx.Reliable) (hs : s.Valid ctx) : Uniform (heapOf s) ctx fun h c => c.Has h :=
  State.value_uniform hc hs (heap_registered hc)

theorem assignTo_uniform (hc : ctx.Reliable) (hs : s.Valid ctx) (target : String) {v : Handle} (has : ctx.Has v) :
    Uniform (assignTo s target v) ctx fun t c => t.Valid c := by
  refine (lookup_uniform hc target).bind ?_
  rintro x _ _ _ ⟨rfl, registered⟩
  exact Uniform.pure hc (State.assign_valid hs has registered)

theorem assign_uniform (hc : ctx.Reliable) (hs : s.Valid ctx) (target : String) (value : RightSide) :
    Uniform (assign s target value) ctx fun t c => t.Valid c :=
  (rightSideValue_uniform hc hs value).bind fun _ _ later hc has =>
    assignTo_uniform hc (hs.extends later.extends) target has

theorem readField_uniform (hc : ctx.Reliable) (hs : s.Valid ctx) (target : String) (base : Operand) (field : FieldRef) :
    Uniform (readField s target base field) ctx fun t c => t.Valid c := by
  refine (heapOf_uniform hc hs).bind fun heap c₁ later₁ hc₁ hasHeap => ?_
  refine (operandValue_uniform hc₁ (hs.extends later₁.extends) base).bind fun object c₂ later₂ hc₂ hasObject => ?_
  refine (literal_uniform hc₂ _).bind fun f c₃ later₃ hc₃ hasField => ?_
  have later := (later₁.trans later₂).trans later₃
  have has : ∀ a ∈ [heap, object, f], c₃.Has a := by
    simp [(later₂.trans later₃).extends.has hasHeap, later₃.extends.has hasObject, hasField]
  refine (call_uniform hc₃ _ has).bind fun v c₄ later₄ hc₄ hasV => ?_
  exact assignTo_uniform hc₄ (hs.extends (later.trans later₄).extends) target hasV

theorem writeField_uniform (hc : ctx.Reliable) (hs : s.Valid ctx) (base : Operand) (field : FieldRef)
    (value : Operand) :
    Uniform (writeField s base field value) ctx fun t c => t.Valid c := by
  refine (heapOf_uniform hc hs).bind fun heap c₁ later₁ hc₁ hasHeap => ?_
  refine (operandValue_uniform hc₁ (hs.extends later₁.extends) base).bind fun object c₂ later₂ hc₂ hasObject => ?_
  have later₁₂ := later₁.trans later₂
  refine (operandValue_uniform hc₂ (hs.extends later₁₂.extends) value).bind fun v c₃ later₃ hc₃ hasV => ?_
  refine (literal_uniform hc₃ _).bind fun f c₄ later₄ hc₄ hasField => ?_
  have later₃₄ := later₃.trans later₄
  have has : ∀ a ∈ [heap, object, f, v], c₄.Has a := by
    simp [(later₂.trans later₃₄).extends.has hasHeap, later₃₄.extends.has hasObject, hasField, later₄.extends.has hasV]
  refine (call_uniform hc₄ _ has).bind fun h c₅ later₅ hc₅ hasH => Uniform.pure hc₅ ?_
  exact State.assign_valid (hs.extends ((later₁₂.trans later₃₄).trans later₅).extends) hasH (heap_registered hc₅)

theorem slot_uniform (hc : ctx.Reliable) {i : Handle} (has : ctx.Has i) :
    Uniform (ContextM.slot i) ctx fun h c => c.Has h :=
  call_uniform hc _ (by simpa using has)

theorem readArray_uniform (hc : ctx.Reliable) (hs : s.Valid ctx) (target : String) (array index : Operand) :
    Uniform (readArray s target array index) ctx fun t c => t.Valid c := by
  refine (heapOf_uniform hc hs).bind fun heap c₁ later₁ hc₁ hasHeap => ?_
  refine (operandValue_uniform hc₁ (hs.extends later₁.extends) array).bind fun object c₂ later₂ hc₂ hasObject => ?_
  have later₁₂ := later₁.trans later₂
  refine (operandValue_uniform hc₂ (hs.extends later₁₂.extends) index).bind fun i c₃ later₃ hc₃ hasI => ?_
  refine (slot_uniform hc₃ hasI).bind fun f c₄ later₄ hc₄ hasField => ?_
  have later₃₄ := later₃.trans later₄
  have has : ∀ a ∈ [heap, object, f], c₄.Has a := by
    simp [(later₂.trans later₃₄).extends.has hasHeap, later₃₄.extends.has hasObject, hasField]
  refine (call_uniform hc₄ _ has).bind fun v c₅ later₅ hc₅ hasV => ?_
  exact assignTo_uniform hc₅ (hs.extends ((later₁₂.trans later₃₄).trans later₅).extends) target hasV

theorem writeArray_uniform (hc : ctx.Reliable) (hs : s.Valid ctx) (array index value : Operand) :
    Uniform (writeArray s array index value) ctx fun t c => t.Valid c := by
  refine (heapOf_uniform hc hs).bind fun heap c₁ later₁ hc₁ hasHeap => ?_
  refine (operandValue_uniform hc₁ (hs.extends later₁.extends) array).bind fun object c₂ later₂ hc₂ hasObject => ?_
  have later₁₂ := later₁.trans later₂
  refine (operandValue_uniform hc₂ (hs.extends later₁₂.extends) index).bind fun i c₃ later₃ hc₃ hasI => ?_
  have later₁₃ := later₁₂.trans later₃
  refine (operandValue_uniform hc₃ (hs.extends later₁₃.extends) value).bind fun v c₄ later₄ hc₄ hasV => ?_
  refine (slot_uniform hc₄ (later₄.extends.has hasI)).bind fun f c₅ later₅ hc₅ hasField => ?_
  have later₄₅ := later₄.trans later₅
  have later₃₅ := later₃.trans later₄₅
  have has : ∀ a ∈ [heap, object, f, v], c₅.Has a := by
    simp [(later₂.trans later₃₅).extends.has hasHeap, later₃₅.extends.has hasObject, hasField, later₅.extends.has hasV]
  refine (call_uniform hc₅ _ has).bind fun h c₆ later₆ hc₆ hasH => Uniform.pure hc₆ ?_
  exact State.assign_valid (hs.extends ((later₁₃.trans later₄₅).trans later₆).extends) hasH (heap_registered hc₆)

theorem measureArray_uniform (hc : ctx.Reliable) (hs : s.Valid ctx) (target : String) (array : Operand) :
    Uniform (measureArray s target array) ctx fun t c => t.Valid c := by
  refine (operandValue_uniform hc hs array).bind fun object c₁ later₁ hc₁ hasObject => ?_
  refine (lookup_uniform hc₁ target).bind ?_
  rintro x _ _ _ ⟨rfl, registered⟩
  refine (call_uniform hc₁ _ (by simpa using hasObject)).bind fun v c₂ later₂ hc₂ hasV => Uniform.pure hc₂ ?_
  exact State.assign_valid (hs.extends (later₁.trans later₂).extends) hasV
    (Nat.lt_of_lt_of_le registered later₂.symbols.size_le)

theorem callPure_uniform (hc : ctx.Reliable) (hs : s.Valid ctx) (target : String) (receiver? : Option Operand)
    (callee : Callee) (args : List Operand) :
    Uniform (callPure s target receiver? callee args) ctx fun t c => t.Valid c := by
  refine (Uniform.asking (fun twin alike => by rw [alike.symbols]) hc).bind ?_
  rintro f _ _ _ ⟨rfl, _⟩
  refine (heapOf_uniform hc hs).bind fun heap c₁ later₁ hc₁ hasHeap => ?_
  refine (Uniform.mapM_all (P := fun h c => c.Has h) _ hc₁ (fun later _ has => later.extends.has has)
    fun o _ c later hc => ?_).bind fun values c₂ later₂ hc₂ hasValues => ?_
  · exact operandValue_uniform hc (hs.extends (later₁.trans later).extends) o
  · have has : ∀ a ∈ heap :: values, c₂.Has a := List.forall_mem_cons.mpr ⟨later₂.extends.has hasHeap, hasValues⟩
    refine (apply_uniform hc₂ f has).bind fun v c₃ later₃ hc₃ hasV => ?_
    exact assignTo_uniform hc₃ (hs.extends ((later₁.trans later₂).trans later₃).extends) target hasV

theorem havoc_uniform (hc : ctx.Reliable) (hs : s.Valid ctx) (base : String) {x : SymbolId}
    (registered : x.number < ctx.symbols.size) : Uniform (havoc s base x) ctx fun t c => t.Valid c := by
  refine (Uniform.asking (fun twin alike => (Lasts.alike (.symbolSort x) alike).symm) hc).bind ?_
  rintro sort _ _ _ ⟨rfl, _⟩
  refine (fresh_uniform hc base sort).bind fun y c₁ later₁ hc₁ fresh => ?_
  refine (symbol_uniform hc₁ fresh).bind fun h c₂ later₂ hc₂ has => Uniform.pure hc₂ ?_
  have later := later₁.trans later₂
  exact State.assign_valid (hs.extends later.extends) has (Nat.lt_of_lt_of_le registered later.symbols.size_le)

theorem callImpure_uniform (hc : ctx.Reliable) (hs : s.Valid ctx) (target? : Option String) :
    Uniform (callImpure s target?) ctx fun t c => t.Valid c := by
  refine (havoc_uniform hc hs _ (heap_registered hc)).bind fun t c₁ later₁ hc₁ ht => ?_
  cases target? with
  | none => exact Uniform.pure hc₁ ht
  | some target =>
    refine (lookup_uniform hc₁ target).bind ?_
    rintro x _ _ _ ⟨rfl, registered⟩
    exact havoc_uniform hc₁ ht target registered

theorem returnWith_uniform (hc : ctx.Reliable) (hs : s.Valid ctx) (value : Operand) :
    Uniform (returnWith s value) ctx fun t c => t.Valid c := by
  refine (operandValue_uniform hc hs value).bind fun v c later hc hasV => ?_
  have hs := hs.extends later.extends
  refine Uniform.get (fun twin alike => by rw [alike.symbols]) ?_
  cases result : c.symbols.result? with
  | none => exact Uniform.pure hc hs
  | some x =>
    obtain ⟨sort, known⟩ := hc.sound.symbols.result result
    exact Uniform.pure hc (State.assign_valid hs hasV (Registry.get?_eq_some_lt known))

/-- Every statement is carried out, or refused, in the same way. -/
theorem run_uniform (hc : ctx.Reliable) (hs : s.Valid ctx) (r : Rule) (stmt : Statement) (edges : Nat) :
    Uniform (r.run stmt edges s) ctx fun outs c => ∀ t ∈ outs, t.Valid c := by
  have copies : ∀ {x : ContextM State}, Uniform x ctx (fun t c => t.Valid c) →
      Uniform (replicate edges <$> x) ctx fun outs c => ∀ t ∈ outs, t.Valid c := by
    intro x hx
    refine Uniform.map (hx.mono fun t c _ _ ht u hu => ?_)
    rw [List.eq_of_mem_replicate hu]
    exact ht
  unfold run
  split
  · exact copies (assign_uniform hc hs _ _)
  · exact copies (readField_uniform hc hs _ _ _)
  · exact copies (writeField_uniform hc hs _ _ _)
  · exact copies (readArray_uniform hc hs _ _ _)
  · exact copies (writeArray_uniform hc hs _ _ _)
  · exact copies (measureArray_uniform hc hs _ _)
  · exact copies (callPure_uniform hc hs _ _ _ _)
  · exact copies (callPure_uniform hc hs _ _ _ _)
  · exact copies (callImpure_uniform hc hs _)
  · refine (returnWith_uniform hc hs _).bind fun t c _ hc ht => Uniform.pure hc ?_
    simpa using ht
  · exact Uniform.pure hc (by simpa using hs)
  · refine (conditionValue_uniform hc hs _).bind fun guard c later hc has => Uniform.pure hc ?_
    have hs := hs.extends later.extends
    have refuted : (s.constrainNegated guard).Valid c := State.constrain_valid hc.sound hs (Pool.has_neg.mpr has)
    have assumed := State.constrain_valid hc.sound hs has
    exact List.forall_mem_cons.mpr ⟨refuted, by simpa using assumed⟩
  · exact Uniform.pure hc fun t ht => List.eq_of_mem_replicate ht ▸ hs
  · exact Uniform.pure hc fun t ht => List.eq_of_mem_replicate ht ▸ hs
  · exact Uniform.throw hc

theorem apply_uniform (hc : ctx.Reliable) {inputs : List State} (valid : ∀ s ∈ inputs, s.Valid ctx) (r : Rule)
    (stmt : Statement) (edges : Nat) : Uniform (r.apply stmt inputs edges) ctx fun outs c => ∀ t ∈ outs, t.Valid c :=
  (State.merge_uniform hc valid).bind fun _ _ _ hc merged => run_uniform hc merged r stmt edges

end Rule

end PathMerge
