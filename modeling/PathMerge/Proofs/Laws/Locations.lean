/-
  PathMerge.Proofs.Laws.Locations — the laws of location sets hold.

  The two constant sets are built before a law is asked, so that it can compare its arguments with them
  (`constants_law_spec`). Membership in a union becomes membership in one of its parts (`element_of_part`), which are
  lighter than the union.
-/

import PathMerge.Proofs.Laws
import PathMerge.Theory.Locations

namespace PathMerge

open Context ContextM

variable {ctx ctx' ctx'' : Context} {I : Interpretation} {v : Valuation}

namespace Theory.Locations

theorem eval_empty (hc : ctx.Sound) {h : Handle} (a : ctx.Applies (.location .empty) [] h) :
    ctx.eval I v h = some (.locations fun _ _ => false) :=
  a.eval hc

theorem eval_all (hc : ctx.Sound) {h : Handle} (a : ctx.Applies (.location .allLocs) [] h) :
    ctx.eval I v h = some (.locations fun _ _ => true) :=
  a.eval hc

theorem of_union {a b : Handle} {rest : List Handle} {x : Value}
    (h : ctx.applied I v (.location .union) (a :: b :: rest) = some x) :
    ∃ p q, ctx.eval I v a = some (.locations p) ∧ ctx.eval I v b = some (.locations q) ∧
      x = .locations fun o s => p o s || q o s := by
  obtain ⟨xs, hxs, hx⟩ := applied_eq_some.mp h
  obtain ⟨p, qs, hp, hqs, rfl⟩ := mapM_cons_eq_some.mp hxs
  obtain ⟨q, rs, hq, _, rfl⟩ := mapM_cons_eq_some.mp hqs
  obtain ⟨p, q, e, rfl⟩ := LocFunction.of_union hx
  cases e
  exact ⟨p, q, hp, hq, rfl⟩

theorem of_elementOf {o f a : Handle} {rest : List Handle} {x : Value}
    (h : ctx.applied I v (.location .elementOf) (o :: f :: a :: rest) = some x) :
    ∃ obj s p, ctx.eval I v o = some (.scalar obj) ∧ ctx.eval I v f = some (.selector s) ∧
      ctx.eval I v a = some (.locations p) ∧ x = .bool (p obj s) := by
  obtain ⟨xs, hxs, hx⟩ := applied_eq_some.mp h
  obtain ⟨p, qs, hp, hqs, rfl⟩ := mapM_cons_eq_some.mp hxs
  obtain ⟨q, rs, hq, hrs, rfl⟩ := mapM_cons_eq_some.mp hqs
  obtain ⟨r, ts, hr, _, rfl⟩ := mapM_cons_eq_some.mp hrs
  obtain ⟨obj, s, p, e, rfl⟩ := LocFunction.of_elementOf hx
  cases e
  exact ⟨obj, s, p, hp, hq, hr, rfl⟩

theorem applied_elementOf {o f a : Handle} {obj : Scalar} {s : Selector} {p : Scalar → Selector → Bool}
    (ho : ctx.eval I v o = some (.scalar obj)) (hf : ctx.eval I v f = some (.selector s))
    (ha : ctx.eval I v a = some (.locations p)) :
    ctx.applied I v (.location .elementOf) [o, f, a] = some (.bool (p obj s)) := by
  refine applied_eq_some.mpr ⟨[.scalar obj, .selector s, .locations p], ?_, rfl⟩
  simp [List.mapM_cons, ho, hf, ha]

theorem applied_singleton {o f : Handle} {obj : Scalar} {s : Selector}
    (ho : ctx.eval I v o = some (.scalar obj)) (hf : ctx.eval I v f = some (.selector s)) :
    ctx.applied I v (.location .singleton) [o, f] = some (.locations fun o' s' => o' = obj ∧ s' = s) := by
  refine applied_eq_some.mpr ⟨[.scalar obj, .selector s], ?_, rfl⟩
  simp [List.mapM_cons, ho, hf]

/-- The two constant sets, which are interned before any law is tried. -/
structure Constants (empty all : Handle) (ctx : Context) : Prop where
  empty : ctx.Applies (.location .empty) [] empty
  all : ctx.Applies (.location .allLocs) [] all

structure Arguments (f : LocFunction) (empty all : Handle) (args : List Handle) (ctx : Context) : Prop
    extends Constants empty all ctx where
  provided : ctx.symbols.Provides .locations
  arity : args.length = f.decl.arity

theorem Arguments.extends {f : LocFunction} {empty all : Handle} {args : List Handle} (e : ctx.Extends ctx')
    (given : Arguments f empty all args ctx) : Arguments f empty all args ctx' :=
  ⟨⟨given.empty.extends e, given.all.extends e⟩, given.provided.extends e.symbols, given.arity⟩

/-- A union with nothing, with everything or with itself is one of its parts. -/
theorem unionLaw_spec (empty all : Handle) (args : List Handle) :
    LawSpec (.location .union) args (Arguments .union empty all args) (unionLaw empty all args) := by
  unfold unionLaw
  split
  · rename_i a b rest
    refine .ite (fun left => .arg (by simp) fun hc given I v x h => ?_) fun _ =>
      .ite (fun right => .arg (by simp) fun hc given I v x h => ?_) fun _ =>
      .ite (fun full => .arg ?_ fun hc given I v x h => ?_) fun _ => .none
    · obtain ⟨p, q, hp, hq, rfl⟩ := of_union h
      rw [hq]
      rcases left with rfl | rfl
      · rw [eval_empty hc given.empty] at hp
        cases hp
        simp
      · rw [hq] at hp
        cases hp
        simp
    · obtain ⟨p, q, hp, hq, rfl⟩ := of_union h
      rw [right, eval_empty hc given.empty] at hq
      cases hq
      simp [hp]
    · rcases full with rfl | rfl <;> simp
    · obtain ⟨p, q, hp, hq, rfl⟩ := of_union h
      rw [eval_all hc given.all]
      rcases full with rfl | rfl
      · rw [eval_all hc given.all] at hp
        cases hp
        simp
      · rw [eval_all hc given.all] at hq
        cases hq
        simp
  · rename_i short
    refine .never _ fun _ given => ?_
    obtain ⟨a, b, rfl⟩ := List.length_eq_two.mp given.1.arity
    exact short a b [] rfl

theorem parts?_spec (h : Handle) :
    Asks (fun ctx => ctx.symbols.Provides .locations ∧ ctx.Has h) (parts? h) fun r ctx =>
      ∀ a b, r = some (a, b) → ctx.Applies (.location .union) [a, b] h := by
  refine (asApp?_spec (.location .union) h).ask fun r => ?_
  split
  · rename_i a b rest
    refine .answer fun hc given _ _ e => ?_
    cases e
    have applies := given.2 _ rfl
    obtain rfl : rest = [] := List.eq_nil_of_length_eq_zero (Nat.add_right_cancel (m := 2) (applies.length hc))
    exact applies
  · rename_i args short
    refine .never _ fun hc given => ?_
    obtain ⟨a, b, rfl⟩ := List.length_eq_two.mp ((given.2 args rfl).length hc)
    exact short a b [] rfl
  · exact .answer fun _ _ _ _ e => by cases e

section Split

variable {o f a b set h left right : Handle} (hc : ctx.Sound) (hc' : ctx'.Sound) (e : ctx.Extends ctx')
  (union : ctx.Applies (.location .union) [a, b] set) (has : ∀ x ∈ [o, f, set], ctx.Has x)

include hc union has in
theorem has_part (part : Handle) (hp : part ∈ [a, b]) : ∀ x ∈ [o, f, part], ctx.Has x := by
  intro x hx
  simp only [List.mem_cons, List.not_mem_nil, or_false] at hx
  rcases hx with rfl | rfl | rfl
  exacts [has x (by simp), has x (by simp), union.has_arg hc x hp]

include hc hc' e in
theorem holds_elementOf (has : ∀ x ∈ [o, f, a], ctx.Has x) (applies : ctx'.Applies (.location .elementOf) [o, f, a] h)
    {obj : Scalar} {s : Selector} {p : Scalar → Selector → Bool} (ho : ctx.eval I v o = some (.scalar obj))
    (hf : ctx.eval I v f = some (.selector s)) (ha : ctx.eval I v a = some (.locations p)) :
    ctx'.holds I v h = some (p obj s) := by
  refine holds_eq_some.mpr ?_
  rw [applies.eval hc', applied_extends hc e has, applied_elementOf ho hf ha]

include hc hc' e union has in
/-- Membership in a union is membership in one of its parts. -/
theorem element_of_part (hl : ctx'.Applies (.location .elementOf) [o, f, a] left)
    (hr : ctx'.Applies (.location .elementOf) [o, f, b] right) (joined : Joins ctx' .disj [left, right] h ctx'') :
    Rewritten ctx (.location .elementOf) [o, f, set] h ctx'' := by
  have hasA := has_part hc union has a (by simp)
  have hasB := has_part hc union has b (by simp)
  refine ⟨joined.has, fun I v x hx => ?_, ?_, fun {I v} inside => joined.decided ?_⟩
  · obtain ⟨obj, s, p, ho, hf, hset, rfl⟩ := of_elementOf hx
    rw [union.eval hc] at hset
    obtain ⟨pa, pb, ha, hb, same⟩ := of_union hset
    cases same
    refine holds_eq_some.mp (joined.value I v _ ?_)
    simp only [List.map_cons, List.map_nil, holds_elementOf hc hc' e hasA hl ho hf ha,
      holds_elementOf hc hc' e hasB hr ho hf hb]
    cases pa obj s <;> cases pb obj s <;> rfl
  · have weight := joined.weight
    have wl := hl.weight hc'
    have wr := hr.weight hc'
    have heavy := union.weight hc
    have wa : 0 < ctx.weight a := Pool.weight_pos hc.pool (hasA a (by simp))
    have wb : 0 < ctx.weight b := Pool.weight_pos hc.pool (hasB b (by simp))
    rw [weights_extends hc e hasA] at wl
    rw [weights_extends hc e hasB] at wr
    simp only [weights, List.map_cons, List.map_nil, List.sum_cons, List.sum_nil, largest_cons, largest_nil]
      at wl wr heavy weight ⊢
    omega
  · have parts := union.decided_arg (inside set (by simp))
    have decided : ∀ {part}, part ∈ [a, b] → ∀ x ∈ [o, f, part], ctx'.Decided I v x := by
      intro part hp x hx
      simp only [List.mem_cons, List.not_mem_nil, or_false] at hx
      rcases hx with rfl | rfl | rfl
      exacts [(inside x (by simp)).extends hc e, (inside x (by simp)).extends hc e, (parts x hp).extends hc e]
    simp only [List.mem_cons, List.not_mem_nil, or_false]
    rintro x (rfl | rfl)
    · exact hl.decided (decided (by simp))
    · exact hr.decided (decided (by simp))

end Split

theorem split_spec (o f a b set : Handle) : LawSpec (.location .elementOf) [o, f, set]
    (fun ctx => ctx.symbols.Provides .locations ∧ ctx.Applies (.location .union) [a, b] set) (do
      let left ← elementOf o f a
      let right ← elementOf o f b
      some <$> disj [left, right]) := by
  refine ⟨(call_straight _ _).bind fun _ => (call_straight _ _).bind fun _ => (join_straight _ _).map, ?_⟩
  rintro ctx hc ⟨⟨provided, union⟩, has⟩
  have hasA := has_part hc union has a (by simp)
  have hasB := has_part hc union has b (by simp)
  refine (call_yields hc (.location .elementOf) provided [o, f, a] rfl hasA).bind fun left ctx₁ e₁ hc₁ hl => ?_
  refine (call_yields hc₁ (.location .elementOf) (provided.extends e₁.symbols) [o, f, b] rfl
    fun x hx => e₁.has (hasB x hx)).bind fun right ctx₂ e₂ hc₂ hr => ?_
  have operands : ∀ x ∈ [left, right], ctx₂.Has x := by
    intro x hx
    simp only [List.mem_cons, List.not_mem_nil, or_false] at hx
    rcases hx with rfl | rfl
    exacts [(hl.extends e₂).has, hr.has]
  refine Yields.map ((ContextM.join_yields hc₂ .disj operands).mono ?_)
  rintro h ctx₃ _ _ joined k hk
  cases hk
  exact element_of_part hc hc₂ (e₁.trans e₂) union has (hl.extends e₂) hr joined

/-- Where a set is recognised as the singleton of a location, the location is an element of it. -/
theorem isLocation_spec (o f set : Handle) :
    Spec (fun ctx => ctx.symbols.Provides .locations ∧ ∀ x ∈ [o, f, set], ctx.Has x) (isLocation o f set)
      fun _ b ctx' => b = true → ∀ I v x, ctx'.applied I v (.location .elementOf) [o, f, set] = some x →
        x = .bool true := by
  refine ⟨(call_straight _ _).bind fun _ => .pure _, fun {ctx} hc given => ?_⟩
  obtain ⟨provided, has⟩ := given
  have args : ∀ x ∈ [o, f], ctx.Has x := fun x hx => has x (by
    rcases List.mem_cons.mp hx with rfl | hx
    · simp
    · simp [List.mem_singleton.mp hx])
  refine (call_yields hc (.location .singleton) provided [o, f] rfl args).bind fun single ctx₁ e₁ hc₁ hs => ?_
  refine Yields.pure hc₁ fun same I v x h => ?_
  have same : set = single := of_decide_eq_true same
  obtain ⟨obj, s, p, ho, hf, hp, rfl⟩ := of_elementOf h
  rw [same, hs.eval hc₁, applied_singleton ho hf] at hp
  cases hp
  simp

/-- Membership is decided for the constant sets and singletons, and goes through unions part by part. -/
theorem elementLaw_spec (empty all : Handle) (args : List Handle) :
    LawSpec (.location .elementOf) args (Arguments .elementOf empty all args) (elementLaw empty all args) := by
  unfold elementLaw
  split
  · rename_i o f set rest
    have first : Spec (fun ctx => Arguments .elementOf empty all (o :: f :: set :: rest) ctx ∧
        ∀ a ∈ o :: f :: set :: rest, ctx.Has a) (isLocation o f set) fun _ b ctx' =>
          Arguments .elementOf empty all (o :: f :: set :: rest) ctx' ∧ (b = true → ∀ I v x,
            ctx'.applied I v (.location .elementOf) (o :: f :: set :: rest) = some x → x = .bool true) := by
      refine ⟨(isLocation_spec o f set).straight, fun {ctx} hc given => ?_⟩
      obtain ⟨given, has⟩ := given
      obtain rfl : rest = [] := List.eq_nil_of_length_eq_zero (Nat.add_right_cancel (m := 3) given.arity)
      refine ((isLocation_spec o f set).yields hc ⟨given.provided, has⟩).mono fun _ _ e _ found => ?_
      exact ⟨given.extends e, found⟩
    refine .ite (fun none => .ofBool (fun _ => by simp) false fun hc given I v x h => ?_) fun _ =>
      .ite (fun full => .ofBool (fun _ => by simp) true fun hc given I v x h => ?_) fun _ =>
      .bind first fun found => .ite (fun yes => .ofBool (fun _ => by simp) true fun _ given => given.2 yes) fun _ =>
      .ask ((parts?_spec set).given fun _ given => ⟨given.1.1.provided, given.2 set (by simp)⟩) fun r => ?_
    · obtain ⟨obj, s, p, _, _, hp, rfl⟩ := of_elementOf h
      rw [none, eval_empty hc given.empty] at hp
      cases hp
      rfl
    · obtain ⟨obj, s, p, _, _, hp, rfl⟩ := of_elementOf h
      rw [full, eval_all hc given.all] at hp
      cases hp
      rfl
    · split
      · rename_i a b
        refine ⟨(split_spec o f a b set).straight, fun hc given => ?_⟩
        obtain ⟨⟨⟨given, -⟩, parts⟩, has⟩ := given
        obtain rfl : rest = [] := List.eq_nil_of_length_eq_zero (Nat.add_right_cancel (m := 3) given.arity)
        exact (split_spec o f a b set).yields hc ⟨⟨given.provided, parts a b rfl⟩, has⟩
      · exact .none
  · rename_i short
    refine .never _ fun _ given => ?_
    match args, given.1.arity with
    | [o, f, set], _ => exact short o f set [] rfl

section Constants

variable {α : Type} {next : Handle → Handle → ContextM α}

theorem constants_straight (h : ∀ empty all, Straight (next empty all)) : Straight (do
      let empty ← noLocations
      let all ← allLocations
      next empty all) :=
  (call_straight _ _).bind fun empty => (call_straight _ _).bind fun all => h empty all

theorem constants_yields (hc : ctx.Sound) (provided : ctx.symbols.Provides .locations) {Q : α → Context → Prop}
    (h : ∀ empty all ctx', ctx.Extends ctx' → ctx'.Sound → Constants empty all ctx' → Yields (next empty all) ctx' Q) :
    Yields (do
      let empty ← noLocations
      let all ← allLocations
      next empty all) ctx Q := by
  refine (call_yields hc (.location .empty) provided [] rfl (List.forall_mem_nil _)).bind
    fun empty ctx₁ e₁ hc₁ hempty => ?_
  refine (call_yields hc₁ (.location .allLocs) (provided.extends e₁.symbols) [] rfl (List.forall_mem_nil _)).bind
    fun all ctx₂ e₂ hc₂ hall => ?_
  exact h empty all ctx₂ (e₁.trans e₂) hc₂ ⟨hempty.extends e₂, hall⟩

end Constants

/-- A law is asked once the constant sets are there to compare with. -/
theorem constants_law_spec {f : LocFunction} {args : List Handle} {rule : Handle → Handle → ContextM (Option Handle)}
    (each : ∀ empty all, LawSpec (.location f) args (Arguments f empty all args) (rule empty all)) :
    LawSpec (.location f) args (fun ctx => ctx.symbols.Provides .locations ∧ args.length = f.decl.arity) (do
      let empty ← noLocations
      let all ← allLocations
      rule empty all) := by
  refine ⟨constants_straight fun empty all => (each empty all).straight, ?_⟩
  rintro ctx hc ⟨⟨provided, arity⟩, has⟩
  refine constants_yields hc provided fun empty all ctx₁ e₁ hc₁ constants => ?_
  have has₁ : ∀ a ∈ args, ctx₁.Has a := fun a ha => e₁.has (has a ha)
  refine ((each empty all).yields hc₁ ⟨⟨constants, provided.extends e₁.symbols, arity⟩, has₁⟩).mono ?_
  exact fun _ _ _ _ lawful => lawful.earlier hc e₁ has

/-- Every rewrite of a location operation keeps the value of the operation it replaces. -/
theorem law_spec (f : LocFunction) (args : List Handle) : LawSpec (.location f) args
    (fun ctx => ctx.symbols.Provides .locations ∧ args.length = f.decl.arity) (law (some f) args) := by
  cases f with
  | union => exact constants_law_spec fun empty all => unionLaw_spec empty all args
  | elementOf => exact constants_law_spec fun empty all => elementLaw_spec empty all args
  | empty => exact constants_law_spec fun _ _ => .none
  | allLocs => exact constants_law_spec fun _ _ => .none
  | singleton => exact constants_law_spec fun _ _ => .none

end Theory.Locations

end PathMerge
