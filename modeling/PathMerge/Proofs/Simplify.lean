/-
  PathMerge.Proofs.Simplify — simplification returns and preserves values.

  Every constructor rebuilds a node from refined operands into something that refines the node, every
  law refines the application it is used on, and the memory holds only refinements. None of them makes
  an expression heavier, and a law is applied to what is lighter than the application, so the weight of
  a handle bounds the depth of the recursion.
-/

import PathMerge.Proofs.Laws.Heap
import PathMerge.Proofs.Laws.Integers
import PathMerge.Proofs.Laws.Locations
import PathMerge.Simplify

namespace PathMerge

open Context ContextM

variable {ctx ctx' ctx'' : Context} {I : Interpretation} {v : Valuation}

/-! ## One step by the laws -/

structure Replaces (ctx : Context) (s : Symbol) (args : List Handle) (k : Handle) (ctx' : Context) : Prop where
  has : ctx'.Has k
  value : ∀ I v, Below (appliedSymbol ctx I v s args) (ctx'.eval I v k)
  weight : ctx'.weight k ≤ ctx.weights args
  decided : ∀ {I v}, (∀ a ∈ args, ctx.Decided I v a) → ctx'.Decided I v k

/-- A symbol that stands for an operation means what the operation means. -/
theorem appliedSymbol_names {op : Operation} {f : SymbolId} {s : Symbol} (hf : ctx.Names op f)
    (hs : ctx.symbols.get? f = some s) (args : List Handle) :
    appliedSymbol ctx I v s args = ctx.applied I v op args := by
  have : s.apply I = op.apply I := by
    funext xs
    have := hf.apply (I := I) (v := v) xs
    rw [← this]
    show _ = (ctx.symbols.get? f).bind _
    rw [hs]
    rfl
  unfold appliedSymbol Context.applied
  rw [this]

theorem Names.replaces {op : Operation} {f : SymbolId} {s : Symbol} (hf : ctx.Names op f)
    (hs : ctx.symbols.get? f = some s) {args : List Handle} {r : Option Handle} (h : Lawful ctx op args r ctx') :
    ∀ k, r = some k → Replaces ctx s args k ctx' := by
  intro k hk
  obtain ⟨has, value, weight, decided⟩ := h k hk
  refine ⟨has, fun I v => ?_, weight, decided⟩
  rw [appliedSymbol_names hf hs]
  exact value I v

/-- A symbol that is called like an operation of its theory has the arity of that operation, and its laws apply. -/
theorem lawful_yields (hc : ctx.Sound) (op : Operation) (provided : ctx.symbols.Provides op.theory) {f : SymbolId}
    {s : Symbol} {args : List Handle} {owner : String} (hs : ctx.symbols.get? f = some s)
    (called : op.decl.name = s.name) (kind : s.kind = .function args.length owner) {x : ContextM (Option Handle)}
    (law : args.length = op.decl.arity → Yields x ctx (Lawful ctx op args)) :
    Yields x ctx fun r ctx' => ∀ k, r = some k → Replaces ctx s args k ctx' := by
  obtain ⟨name, sort, k⟩ := s
  obtain rfl : op.decl.name = name := called
  obtain rfl : k = .function args.length owner := kind
  have names := hc.names_of_name provided hs
  have arity : args.length = op.decl.arity := by
    unfold Names at names
    rw [hs] at names
    have same := congrArg Symbol.kind (Option.some.inj names)
    simp only [SymbolKind.function.injEq] at same
    exact same.1
  exact (law arity).mono fun r ctx' _ _ h => Names.replaces names hs h

theorem Theory.rewrite_straight (t : Theory) (function : String) (args : List Handle) :
    Straight (t.rewrite function args) := by
  unfold Theory.rewrite
  split
  · split
    · exact (Integers.law_spec _ _).straight
    · exact .pure _
  · split
    · exact (Heap.law_spec _ _).straight
    · exact .pure _
  · cases LocFunction.ofName? function with
    | none => exact Locations.constants_straight fun _ _ => .pure _
    | some f => exact (Locations.law_spec f _).straight

theorem rewrite_straight (f : SymbolId) (args : List Handle) : Straight (rewrite f args) := by
  refine (asking_straight (.symbolName f)).bind fun name => (asking_straight (.theoryOf? f)).bind fun theory? => ?_
  split
  · exact Theory.rewrite_straight _ _ _
  · exact .pure _

/-- A rewrite replaces an application by a handle of the same value, whichever theory makes it. -/
theorem rewrite_yields (hc : ctx.Sound) {f : SymbolId} {s : Symbol} {args : List Handle} {owner : String}
    (hs : ctx.symbols.get? f = some s) (kind : s.kind = .function args.length owner)
    (has : ∀ a ∈ args, ctx.Has a) :
    Yields (ContextM.rewrite f args) ctx fun r ctx' => ∀ k, r = some k → Replaces ctx s args k ctx' := by
  have leave : Yields (pure none) ctx fun r ctx' => ∀ k, r = some k → Replaces ctx s args k ctx' := Yields.pure hc nofun
  unfold ContextM.rewrite
  refine (asking_yields hc (symbolName_eq hs)).bind ?_
  rintro _ _ _ _ ⟨rfl, rfl⟩
  refine (asking_yields hc (theoryOf?_eq hs kind)).bind ?_
  rintro _ _ _ _ ⟨rfl, rfl⟩
  cases found : ctx.theory? owner with
  | none => exact leave
  | some t =>
    have provided := hc.provides t (List.mem_of_find?_eq_some found)
    cases t with
    | integers =>
      show Yields (Theory.integers.rewrite s.name args) ctx _
      unfold Theory.rewrite
      dsimp only
      cases hf : IntFunction.ofName? s.name with
      | none => exact leave
      | some f =>
        have called := List.find?_some hf
        exact lawful_yields hc (.integer f) provided hs (eq_of_beq called) kind fun arity =>
          (Theory.Integers.law_spec f args).yields hc ⟨⟨provided, arity⟩, has⟩
    | heap =>
      show Yields (Theory.heap.rewrite s.name args) ctx _
      unfold Theory.rewrite
      dsimp only
      cases hf : HeapFunction.ofName? s.name with
      | none => exact leave
      | some f =>
        have called := List.find?_some hf
        exact lawful_yields hc (.memory f) provided hs (eq_of_beq called) kind fun arity =>
          (Theory.Heap.law_spec f args).yields hc ⟨⟨provided, arity⟩, has⟩
    | locations =>
      show Yields (Theory.Locations.law (LocFunction.ofName? s.name) args) ctx _
      cases hf : LocFunction.ofName? s.name with
      | none =>
        refine Theory.Locations.constants_yields hc provided fun _ _ ctx₁ _ hc₁ _ => ?_
        exact Yields.pure hc₁ nofun
      | some f =>
        have called := List.find?_some hf
        exact lawful_yields hc (.location f) provided hs (eq_of_beq called) kind fun arity =>
          (Theory.Locations.law_spec f args).yields hc ⟨⟨provided, arity⟩, has⟩

/-! ## Refined operands -/

theorem regular_negated (h : Handle) : h.regular.negated = false := rfl

theorem eq_signed_regular (h : Handle) : h = h.regular.signed h.negated := by
  obtain ⟨i, n⟩ := h
  cases n <;> rfl

/-- What refines a handle without its sign refines the handle, with the sign put back. -/
theorem Refined.signed (hc : ctx.Sound) (hc' : ctx'.Sound) {h k : Handle} (hh : ctx.Has h)
    (r : ctx.Refined h.regular k ctx') : ctx.Refined h (k.signed h.negated) ctx' := by
  have regular : ctx.Has h.regular := hh
  rcases sign : h.negated with _ | _
  · have : h.regular = h := by
      conv => rhs; rw [eq_signed_regular h, sign]
      rfl
    rw [this] at r
    exact r
  · have : h = -h.regular := by
      conv => lhs; rw [eq_signed_regular h, sign]
      rfl
    refine ⟨Pool.has_neg.mpr r.has, fun I v => ?_, ?_⟩
    · rw [this]
      exact Pool.below_neg hc.pool hc'.pool regular r.has (regular_negated h) (r.value I v)
    · have weight := r.weight
      rw [this]
      show ctx'.pool.weight (-k) ≤ ctx.pool.weight (-h.regular)
      rw [Pool.weight_neg hc'.pool r.has, Pool.weight_neg hc.pool regular]
      exact weight

abbrev RefinedAll (ctx : Context) (args args' : List Handle) (ctx' : Context) : Prop :=
  List.Forall₂ (fun a b => ctx.Refined a b ctx') args args'

namespace RefinedAll

variable {args args' : List Handle}

theorem has (h : RefinedAll ctx args args' ctx') : ∀ b ∈ args', ctx'.Has b := by
  intro b hb
  obtain ⟨a, _, r⟩ := Related.exists_left h hb
  exact r.has

theorem later (hc' : ctx'.Sound) (e : ctx'.Extends ctx'') (h : RefinedAll ctx args args' ctx') :
    RefinedAll ctx args args' ctx'' :=
  h.imp fun _ _ r => r.later hc' e

theorem weights (h : RefinedAll ctx args args' ctx') : ctx'.weights args' ≤ ctx.weights args := by
  induction h with
  | nil => exact Nat.le_refl 0
  | cons r _ ih =>
    have := r.weight
    simp only [Context.weights, List.map_cons, List.sum_cons] at ih ⊢
    omega

theorem largest (h : RefinedAll ctx args args' ctx') :
    largest (args'.map ctx'.weight) ≤ PathMerge.largest (args.map ctx.weight) := by
  induction h with
  | nil => exact Nat.le_refl 0
  | cons r _ ih =>
    have := r.weight
    simp only [List.map_cons, largest_cons] at ih ⊢
    omega

theorem mapM (h : RefinedAll ctx args args' ctx') (I : Interpretation) (v : Valuation) :
    Below (args.mapM (ctx.eval I v)) (args'.mapM (ctx'.eval I v)) :=
  Below.mapM (h.imp fun _ _ r => r.value I v)

theorem appliedSymbol (h : RefinedAll ctx args args' ctx') (s : Symbol) (I : Interpretation) (v : Valuation) :
    Below (appliedSymbol ctx I v s args) (ContextM.appliedSymbol ctx' I v s args') :=
  (h.mapM I v).bind fun _ _ => Below.refl _

theorem junction (h : RefinedAll ctx args args' ctx') (c : Connective) (I : Interpretation) (v : Valuation) :
    Below (c.value (args.map (ctx.holds I v))) (c.value (args'.map (ctx'.holds I v))) := by
  refine (Connective.Refines.of_forall₂ ?_).value
  rw [List.forall₂_map_left_iff, List.forall₂_map_right_iff]
  exact h.imp fun _ _ r => (r.value I v).truth?

end RefinedAll

def Simplifies (simplify : Handle → ContextM Handle) (bound : Nat) : Prop :=
  ∀ {ctx : Context} {h : Handle}, ctx.Sound → ctx.Has h → ctx.weight h ≤ bound →
    Yields (simplify h) ctx (ctx.Refined h)

theorem mapM_simplify_yields {simplify : Handle → ContextM Handle} {bound : Nat} (hs : Simplifies simplify bound)
    (hc : ctx.Sound) {args : List Handle} (has : ∀ a ∈ args, ctx.Has a) (le : ∀ a ∈ args, ctx.weight a ≤ bound) :
    Yields (args.mapM simplify) ctx (RefinedAll ctx args) := by
  refine Yields.mapM (P := fun a b c => ctx.Refined a b c) args ?_ hc ?_
  · exact fun a b c c' _ hc _ _ r => r.later hc (by assumption)
  · intro a ha ctx₁ e hc₁
    refine (hs hc₁ (e.has (has a ha)) ?_).mono fun b ctx₂ _ _ r => r.earlier hc e (has a ha)
    rw [weight_extends hc e (has a ha)]
    exact le a ha

/-- An application rebuilt from simplified arguments, and rewritten where a law applies, keeps its value. -/
theorem rebuild_app_yields {simplify : Handle → ContextM Handle} {bound : Nat} (hs : Simplifies simplify bound)
    (hc : ctx.Sound) {h : Handle} {f : SymbolId} {args : List Handle} (hn : ctx.pool.node? h = some (.app f args))
    (sign : h.negated = false) (le : ctx.weight h ≤ bound + 1) :
    Yields (rebuild simplify h (.app f args)) ctx (ctx.Refined h) := by
  obtain ⟨name, sort, owner, hf⟩ := hc.registered hn
  have weight : ctx.weight h = 1 + ctx.weights args := Pool.weight_eq hc.pool hn
  have value : ∀ I v, ctx.eval I v h = appliedSymbol ctx I v _ args := eval_app hc hf hn sign
  have has : ∀ a ∈ args, ctx.Has a := fun a ha => hc.pool.has_child hn ha
  have light : ∀ a ∈ args, ctx.weight a ≤ bound := by
    intro a ha
    have : ctx.weight a ≤ ctx.weights args := weight_le_weights ha
    omega
  refine (mapM_simplify_yields hs hc has light).bind fun args' ctx₁ e₁ hc₁ refined => ?_
  have length : args.length = args'.length := refined.length_eq
  have hf₁ := e₁.symbols.get hf
  rw [length] at hf₁
  refine (rewrite_yields hc₁ hf₁ rfl refined.has).bind fun r ctx₂ e₂ hc₂ replaced => ?_
  have weights := refined.weights
  cases r with
  | some result =>
    obtain ⟨hasR, valueR, weightR, _⟩ := replaced result rfl
    refine (hs hc₂ hasR (by omega)).mono fun k ctx₃ _ _ r => ⟨r.has, fun I v => ?_, ?_⟩
    · rw [value, length]
      exact ((refined.appliedSymbol _ I v).trans (valueR I v)).trans (r.value I v)
    · have := r.weight
      omega
  | none =>
    have refined₂ := refined.later hc₁ e₂
    refine (apply_yields hc₂ (e₂.symbols.get hf₁) rfl refined₂.has).mono ?_
    rintro k ctx₃ e₃ hc₃ ⟨sign, symbols, hk⟩
    have refined₃ := refined₂.later hc₂ e₃
    refine ⟨Pool.has_of_node hk, fun I v => ?_, ?_⟩
    · rw [value, length, eval_app hc₃ (e₃.symbols.get (e₂.symbols.get hf₁)) hk sign]
      exact refined₃.appliedSymbol _ I v
    · have heavy : ctx₃.weight k = 1 + ctx₃.weights args' := Pool.weight_eq hc₃.pool hk
      have := refined₃.weights
      omega

abbrev RefinedBranches (ctx : Context) (bs bs' : List Branch) (ctx' : Context) : Prop :=
  List.Forall₂ (fun b b' => ctx.Refined b.1 b'.1 ctx' ∧ ctx.Refined b.2 b'.2 ctx') bs bs'

theorem RefinedBranches.weight {bs bs' : List Branch} (h : RefinedBranches ctx bs bs' ctx') :
    ctx'.pool.branchWeight bs' ≤ ctx.pool.branchWeight bs := by
  induction h with
  | nil => exact Nat.le_refl 0
  | cons r _ ih =>
    have left := r.1.weight
    have right := r.2.weight
    simp only [Pool.branchWeight, List.map_cons, List.sum_cons, Context.weight] at ih left right ⊢
    omega

theorem RefinedBranches.pick {bs bs' : List Branch} (h : RefinedBranches ctx bs bs' ctx') (I : Interpretation)
    (v : Valuation) : Below (pick (branches ctx I v bs)) (PathMerge.pick (branches ctx' I v bs')) := by
  refine (Narrows.of_forall₂ ?_).value
  unfold branches
  rw [List.forall₂_map_left_iff, List.forall₂_map_right_iff]
  exact h.imp fun _ _ r => ⟨(r.1.value I v).truth?, r.2.value I v⟩

/-- A choice rebuilt from simplified branches keeps the value of its open branch. -/
theorem rebuild_summary_yields {simplify : Handle → ContextM Handle} {bound : Nat} (hs : Simplifies simplify bound)
    (hc : ctx.Sound) {h : Handle} {bs : List Branch} (hn : ctx.pool.node? h = some (.summary bs))
    (sign : h.negated = false) (le : ctx.weight h ≤ bound + 1) :
    Yields (rebuild simplify h (.summary bs)) ctx (ctx.Refined h) := by
  have weight : ctx.weight h = 1 + ctx.pool.branchWeight bs := Pool.weight_eq hc.pool hn
  have has : ∀ b ∈ bs, ctx.Has b.1 ∧ ctx.Has b.2 := fun b hb =>
    ⟨hc.pool.has_child hn (Node.mem_children_summary hb).1, hc.pool.has_child hn (Node.mem_children_summary hb).2⟩
  have light : ∀ b ∈ bs, ctx.weight b.1 ≤ bound ∧ ctx.weight b.2 ≤ bound := by
    intro b hb
    have := le_sum (List.mem_map_of_mem (f := fun b : Branch => ctx.pool.weight b.1 + ctx.pool.weight b.2) hb)
    unfold Pool.branchWeight at weight
    constructor <;> simp only [Context.weight] at * <;> omega
  have each : Yields (bs.mapM fun (b : Branch) => do
      let g ← simplify b.1
      let v ← simplify b.2
      return (g, v)) ctx (RefinedBranches ctx bs) := by
    refine Yields.mapM (P := fun (b b' : Branch) c => ctx.Refined b.1 b'.1 c ∧ ctx.Refined b.2 b'.2 c) bs ?_ hc ?_
    · exact fun b b' c c' _ hc e _ r => ⟨r.1.later hc e, r.2.later hc e⟩
    · intro b hb ctx₁ e hc₁
      have bound₁ : ctx₁.weight b.1 ≤ bound := by
        rw [weight_extends hc e (has b hb).1]
        exact (light b hb).1
      refine (hs hc₁ (e.has (has b hb).1) bound₁).bind fun g ctx₂ e₂ hc₂ rg => ?_
      have bound₂ : ctx₂.weight b.2 ≤ bound := by
        rw [weight_extends hc (e.trans e₂) (has b hb).2]
        exact (light b hb).2
      refine (hs hc₂ ((e.trans e₂).has (has b hb).2) bound₂).bind fun v ctx₃ e₃ hc₃ rv => ?_
      refine Yields.pure hc₃ ⟨?_, ?_⟩
      · exact (rg.later hc₂ e₃).earlier hc e (has b hb).1
      · exact rv.earlier hc (e.trans e₂) (has b hb).2
  refine each.bind fun bs' ctx₁ e₁ hc₁ refined => ?_
  have hasAll : ctx₁.pool.HasAll bs' := by
    intro b hb
    obtain ⟨a, _, r⟩ := Related.exists_left refined hb
    exact ⟨r.1.has, r.2.has⟩
  have nonempty : bs' ≠ [] := by
    have plain : bs ≠ [] := hc.registered hn
    rintro rfl
    exact plain (List.forall₂_nil_right_iff.mp refined)
  refine (ContextM.choice_yields hc₁ hasAll nonempty).mono ?_
  rintro k ctx₂ e₂ hc₂ ⟨hasK, valueK, weightK⟩
  refine ⟨hasK, fun I v => ?_, ?_⟩
  · have value : ctx.eval I v h = PathMerge.pick (branches ctx I v bs) := Pool.eval_summary hc.pool hn sign
    rw [value]
    exact (refined.pick I v).trans (valueK I v)
  · have := refined.weight
    omega

/-- An equation rebuilt from simplified sides keeps its truth. -/
theorem rebuild_eq_yields {simplify : Handle → ContextM Handle} {bound : Nat} (hs : Simplifies simplify bound)
    (hc : ctx.Sound) {h a b : Handle} (hn : ctx.pool.node? h = some (.eq a b)) (sign : h.negated = false)
    (le : ctx.weight h ≤ bound + 1) : Yields (rebuild simplify h (.eq a b)) ctx (ctx.Refined h) := by
  have weight : ctx.weight h = 1 + (ctx.weight a + ctx.weight b) := Pool.weight_eq hc.pool hn
  have ha : ctx.Has a := hc.pool.has_child hn (by simp [Node.children])
  have hb : ctx.Has b := hc.pool.has_child hn (by simp [Node.children])
  refine (hs hc ha (by omega)).bind fun a' ctx₁ e₁ hc₁ ra => ?_
  have same := weight_extends hc e₁ hb
  refine (hs hc₁ (e₁.has hb) (by omega)).bind fun b' ctx₂ e₂ hc₂ rb => ?_
  have ra := ra.later hc₁ e₂
  have rb := rb.earlier hc e₁ hb
  refine (ContextM.equation_yields hc₂ ra.has rb.has).mono ?_
  rintro k ctx₃ _ _ ⟨hasK, valueK, weightK⟩
  refine ⟨hasK, fun I v => ?_, ?_⟩
  · have value : ctx.eval I v h = ctx.pool.same (ctx.meaning I v) a b := Pool.eval_node hc.pool hn sign
    rw [value]
    refine Below.trans ?_ (valueK I v)
    exact (ra.value I v).bind fun _ _ => (rb.value I v).bind fun _ _ => Below.refl _
  · have := ra.weight
    have := rb.weight
    omega

/-- A junction rebuilt from simplified operands keeps its truth. -/
theorem rebuild_junction_yields {simplify : Handle → ContextM Handle} {bound : Nat} (hs : Simplifies simplify bound)
    (hc : ctx.Sound) {h : Handle} {c : Connective} {items : List Handle}
    (hn : ctx.pool.node? h = some (.junction c items)) (sign : h.negated = false) (le : ctx.weight h ≤ bound + 1) :
    Yields (rebuild simplify h (.junction c items)) ctx (ctx.Refined h) := by
  have weight : ctx.weight h = 1 + largest (items.map ctx.weight) := Pool.weight_eq hc.pool hn
  have light : ∀ a ∈ items, ctx.weight a ≤ bound := by
    intro a ha
    have := le_largest (List.mem_map_of_mem (f := ctx.weight) ha)
    omega
  have has : ∀ a ∈ items, ctx.Has a := fun a ha => hc.pool.has_child hn ha
  refine (mapM_simplify_yields hs hc has light).bind fun items' ctx₁ e₁ hc₁ refined => ?_
  refine (ContextM.join_yields hc₁ c refined.has).mono ?_
  rintro k ctx₂ _ _ ⟨hasK, valueK, weightK⟩
  refine ⟨hasK, fun I v x hx => ?_, ?_⟩
  · have value : ctx.eval I v h = (c.value (items.map (ctx.holds I v))).map .bool :=
      Pool.eval_node hc.pool hn sign
    rw [value] at hx
    obtain ⟨b, hb, rfl⟩ := Option.map_eq_some_iff.mp hx
    exact holds_eq_some.mp (valueK I v b (refined.junction c I v b hb))
  · have := refined.largest
    omega

theorem rebuild_yields {simplify : Handle → ContextM Handle} {bound : Nat} (hs : Simplifies simplify bound)
    (hc : ctx.Sound) {h : Handle} {n : Node} (hn : ctx.pool.node? h = some n) (sign : h.negated = false)
    (le : ctx.weight h ≤ bound + 1) : Yields (rebuild simplify h n) ctx (ctx.Refined h) := by
  cases n with
  | truth => exact Yields.pure hc (.refl (Pool.has_of_node hn))
  | literal l => exact Yields.pure hc (.refl (Pool.has_of_node hn))
  | symbol y => exact Yields.pure hc (.refl (Pool.has_of_node hn))
  | app f args => exact rebuild_app_yields hs hc hn sign le
  | summary bs => exact rebuild_summary_yields hs hc hn sign le
  | eq a b => exact rebuild_eq_yields hs hc hn sign le
  | junction c items => exact rebuild_junction_yields hs hc hn sign le

/-! ## The whole recursion -/

/-- Simplifying with the memo keeps the value of everything no heavier than the depth allows. -/
theorem simplifyWithin_simplifies (depth : Nat) : Simplifies (simplifyWithin depth) depth := by
  induction depth with
  | zero =>
    intro ctx h hc hh le
    have : 0 < ctx.weight h := Pool.weight_pos hc.pool hh
    omega
  | succ depth ih =>
    intro ctx h hc hh le
    have regular : ctx.Has h.regular := hh
    have weight : ctx.weight h.regular ≤ depth + 1 := by
      obtain ⟨n, hn⟩ := Pool.has_iff.mp hh
      have same : ctx.weight h.regular = ctx.weight h :=
        (Pool.weight_eq hc.pool (h := h.regular) hn).trans (Pool.weight_eq hc.pool hn).symm
      omega
    have finish : ∀ {ctx' k}, ctx'.Sound → ctx.Refined h.regular k ctx' →
        Yields (do let result ← pure k; return Handle.signed h.negated result) ctx' (ctx.Refined h) := by
      intro ctx' k hc' refined
      rw [pure_bind]
      exact Yields.pure hc' (Refined.signed hc hc' hh refined)
    unfold simplifyWithin
    refine (fetch_yields hc h.regular).bind ?_
    rintro r ctx₁ e₁ hc₁ rfl
    cases found : ctx.memo.find? h.regular with
    | some k => exact finish hc₁ ((hc.memo found).2.later hc e₁)
    | none =>
      obtain ⟨n, hn⟩ := Pool.has_iff.mp (e₁.has regular)
      refine (asking_yields hc₁ (a := n) (InternTable.value_eq_ok.mpr hn)).bind ?_
      rintro _ _ _ _ ⟨rfl, rfl⟩
      have le₁ : ctx₁.weight h.regular ≤ depth + 1 := by
        rw [weight_extends hc e₁ regular]
        exact weight
      refine (rebuild_yields ih hc₁ hn (regular_negated h) le₁).bind fun k ctx₂ e₂ hc₂ refined => ?_
      have key : ctx₂.Has h.regular := e₂.has (e₁.has regular)
      have refined := refined.earlier hc e₁ regular
      refine (remember_yields hc₂ key (refined.now hc (e₁.trans e₂) regular)).bind fun _ ctx₃ e₃ hc₃ _ => ?_
      have refined := refined.later hc₂ e₃
      by_cases new : k ≠ h.regular
      · rw [if_pos new]
        have self : ctx₃.Has k.regular := refined.has
        refine (remember_yields hc₃ self (.refl self)).bind fun _ ctx₄ e₄ hc₄ _ => ?_
        exact finish hc₄ (refined.later hc₃ e₄)
      · rw [if_neg new]
        exact finish hc₃ refined

/-- Simplification returns a handle that has the value of the one it was given. -/
theorem simplify_yields (hc : ctx.Sound) {h : Handle} (hh : ctx.Has h) :
    Yields (simplify h) ctx (ctx.Refined h) := by
  unfold simplify
  refine (get_yields hc).bind ?_
  rintro _ _ _ _ ⟨rfl, rfl⟩
  exact simplifyWithin_simplifies _ hc hh (Pool.weight_le_treeSize hc.pool hh)

end PathMerge
