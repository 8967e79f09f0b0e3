/-
  PathMerge.Proofs.Laws — what a law of a theory may return.

  What a law turns an application into has the value of the application, wherever that has one, weighs no
  more than its arguments and is decided where they are (`Rewritten`). All that is known of a law is one
  fact: it is straight, and what it yields is lawful (`Spec`). A law asks questions, which change nothing (`Asks`),
  and then leaves an operand, returns a constant or makes a new application. Here is what the laws of all theories
  share; the laws themselves are in `Proofs.Laws.Integers`, `Proofs.Laws.Heap` and `Proofs.Laws.Locations`.
-/

import PathMerge.Proofs.Building

namespace PathMerge

open Context ContextM

variable {ctx ctx' ctx'' : Context} {I : Interpretation} {v : Valuation}

/-- The handle `k` of `ctx'` may stand for `op` applied to `args` in `ctx`. -/
structure Rewritten (ctx : Context) (op : Operation) (args : List Handle) (k : Handle) (ctx' : Context) : Prop where
  has : ctx'.Has k
  value : ∀ I v, Below (ctx.applied I v op args) (ctx'.eval I v k)
  weight : ctx'.weight k ≤ ctx.weights args
  decided : ∀ {I v}, (∀ a ∈ args, ctx.Decided I v a) → ctx'.Decided I v k

def Lawful (ctx : Context) (op : Operation) (args : List Handle) (r : Option Handle) (ctx' : Context) : Prop :=
  ∀ k, r = some k → Rewritten ctx op args k ctx'

/-- What an action does: it is straight, and in a sound context of which `P` holds it yields what `Q` says. -/
structure Spec {α : Type} (P : Context → Prop) (x : ContextM α) (Q : Context → α → Context → Prop) : Prop where
  straight : Straight x
  yields : ∀ {ctx}, ctx.Sound → P ctx → Yields x ctx (Q ctx)

/-- What a question finds out: nothing has changed, and the answer is as `A` says. -/
abbrev Asks {α : Type} (P : Context → Prop) (x : ContextM α) (A : α → Context → Prop) : Prop :=
  Spec P x fun ctx a ctx' => ctx = ctx' ∧ A a ctx

abbrev LawSpec (op : Operation) (args : List Handle) (P : Context → Prop) (law : ContextM (Option Handle)) : Prop :=
  Spec (fun ctx => P ctx ∧ ∀ a ∈ args, ctx.Has a) law fun ctx => Lawful ctx op args

/-! ## Operands -/

theorem applied_eq_some {op : Operation} {args : List Handle} {x : Value} :
    ctx.applied I v op args = some x ↔ ∃ xs, args.mapM (ctx.eval I v) = some xs ∧ op.apply I xs = some x :=
  Option.bind_eq_some_iff

theorem mapM_cons_eq_some {α β : Type} {f : α → Option β} {a : α} {l : List α} {ys : List β} :
    (a :: l).mapM f = some ys ↔ ∃ y zs, f a = some y ∧ l.mapM f = some zs ∧ ys = y :: zs := by
  rw [List.mapM_cons]
  constructor
  · intro h
    obtain ⟨y, hy, h⟩ := Option.bind_eq_some_iff.mp h
    obtain ⟨zs, hzs, h⟩ := Option.bind_eq_some_iff.mp h
    exact ⟨y, zs, hy, hzs, (Option.some.inj h).symm⟩
  · rintro ⟨y, zs, hy, hzs, rfl⟩
    rw [hy, hzs]
    rfl

theorem mapM_nil_eq_some {α β : Type} {f : α → Option β} {ys : List β} :
    ([] : List α).mapM f = some ys ↔ ys = [] := by
  rw [List.mapM_nil]
  exact ⟨fun h => (Option.some.inj h).symm, fun h => by rw [h]; rfl⟩

theorem mapM_one {a : Handle} {xs : List Value} (h : [a].mapM (ctx.eval I v) = some xs) :
    ∃ x, ctx.eval I v a = some x ∧ xs = [x] := by
  obtain ⟨x, ys, hx, hys, rfl⟩ := mapM_cons_eq_some.mp h
  exact ⟨x, hx, by rw [mapM_nil_eq_some.mp hys]⟩

theorem weight_le_weights {args : List Handle} {a : Handle} (ha : a ∈ args) : ctx.weight a ≤ ctx.weights args :=
  le_sum (List.mem_map_of_mem ha)

theorem one_le_weights (hc : ctx.Sound) {args : List Handle} (ne : args ≠ []) (has : ∀ a ∈ args, ctx.Has a) :
    1 ≤ ctx.weights args := by
  obtain ⟨a, ha⟩ := List.exists_mem_of_ne_nil args ne
  exact Nat.le_trans (Pool.weight_pos hc.pool (has a ha)) (weight_le_weights ha)

/-! ## Putting specifications together -/

namespace Spec

variable {α β : Type} {P P' : Context → Prop} {x y : ContextM α} {f : α → ContextM β}
  {Q Q' : Context → α → Context → Prop} {R : Context → β → Context → Prop} {A B : α → Context → Prop}

theorem given (h : Spec P x Q) (imp : ∀ {ctx}, ctx.Sound → P' ctx → P ctx) : Spec P' x Q :=
  ⟨h.straight, fun hc given => h.yields hc (imp hc given)⟩

theorem ite {c : Prop} [Decidable c] (hx : c → Spec P x Q) (hy : ¬ c → Spec P y Q) : Spec P (if c then x else y) Q := by
  split
  · exact hx ‹c›
  · exact hy ‹¬ c›

/-- An action fails only where it is never asked for. -/
theorem never (e : Failure) (h : ∀ {ctx}, ctx.Sound → ¬ P ctx) : Spec P (throw e) Q :=
  ⟨.throw e, fun hc given => absurd given (h hc)⟩

theorem answer {a : α} (h : ∀ {ctx}, ctx.Sound → P ctx → A a ctx) : Asks P (pure a) A :=
  ⟨.pure a, fun hc given => Yields.pure hc ⟨rfl, h hc given⟩⟩

theorem asking {question : Context → Except Failure α} (lasts : Lasts question)
    (h : ∀ {ctx}, ctx.Sound → P ctx → ∃ a, question ctx = .ok a ∧ A a ctx) : Asks P (asking question) A := by
  refine ⟨asking_straight lasts, fun hc given => ?_⟩
  obtain ⟨a, answered, facts⟩ := h hc given
  refine (asking_yields hc answered).mono ?_
  rintro _ _ _ _ ⟨rfl, rfl⟩
  exact ⟨rfl, facts⟩

/-- After a question its answer is known. -/
theorem ask (asked : Asks P x A) (next : ∀ a, Spec (fun ctx => P ctx ∧ A a ctx) (f a) R) : Spec P (x >>= f) R := by
  refine ⟨asked.straight.bind fun a => (next a).straight, fun hc given => (asked.yields hc given).bind ?_⟩
  rintro a _ _ _ ⟨rfl, found⟩
  exact (next a).yields hc ⟨given, found⟩

theorem mono (h : Spec P x Q) (imp : ∀ {ctx a ctx'}, ctx.Sound → P ctx → ctx.Extends ctx' → ctx'.Sound →
    Q ctx a ctx' → Q' ctx a ctx') : Spec P x Q' :=
  ⟨h.straight, fun hc given => (h.yields hc given).mono fun _ _ e hc' found => imp hc given e hc' found⟩

theorem found (asked : Asks P x A) (imp : ∀ {ctx a}, ctx.Sound → P ctx → A a ctx → B a ctx) : Asks P x B := by
  refine asked.mono fun hc given _ _ found => ?_
  obtain ⟨rfl, found⟩ := found
  exact ⟨rfl, imp hc given found⟩

/-- The second of two checks is made where the first succeeds. -/
theorem both {x y : ContextM Bool} {A B : Context → Prop} (first : Asks P x fun b ctx => b = true → A ctx)
    (second : Asks P y fun b ctx => b = true → B ctx) :
    Asks P (do if ← x then y else return false) fun b ctx => b = true → A ctx ∧ B ctx := by
  refine first.ask fun b => .ite (fun yes => ?_) fun _ => .answer fun _ _ e => by cases e
  refine (second.given fun _ given => given.1).found fun _ given found e => ?_
  exact ⟨given.2 yes, found e⟩

end Spec

/-- What is recognised as an application of an operation is one. -/
theorem asApp?_spec (op : Operation) (h : Handle) :
    Asks (fun ctx => ctx.symbols.Provides op.theory ∧ ctx.Has h) (asking (·.asApp? h op.decl.name)) fun r ctx =>
      ∀ args, r = some args → ctx.Applies op args h := by
  refine .asking (.asApp? _ _) fun {ctx} hc given => ?_
  unfold asApp?
  by_cases sign : h.negated = true
  · rw [if_pos sign]
    exact ⟨none, rfl, fun _ e => by cases e⟩
  · rw [if_neg sign]
    obtain ⟨n, hn⟩ := Pool.has_iff.mp given.2
    have node : ctx.node h = .ok n := InternTable.value_eq_ok.mpr hn
    rw [node]
    cases n with
    | app f args =>
      obtain ⟨name, sort, owner, hf⟩ := hc.registered hn
      have named : ctx.symbolName f = .ok name := symbolName_eq hf
      show ∃ r, (do return if (← ctx.symbolName f) = op.decl.name then some args else none) = Except.ok r ∧ _
      rw [named]
      refine ⟨_, rfl, fun args' e => ?_⟩
      by_cases same : name = op.decl.name
      · rw [if_pos same] at e
        cases e
        subst same
        exact ⟨by simpa using sign, f, hc.names_of_name given.1 hf, hn⟩
      · rw [if_neg same] at e
        cases e
    | _ => exact ⟨none, rfl, fun _ e => by cases e⟩

/-! ## What a law may return -/

theorem Lawful.earlier (hc : ctx.Sound) (e : ctx.Extends ctx') {op : Operation} {args : List Handle}
    (has : ∀ a ∈ args, ctx.Has a) {r : Option Handle} (lawful : Lawful ctx' op args r ctx'') :
    Lawful ctx op args r ctx'' := by
  intro k hk
  obtain ⟨has', value, weight, decided⟩ := lawful k hk
  refine ⟨has', fun I v => ?_, ?_, fun inside => decided fun a ha => (inside a ha).extends hc e⟩
  · rw [← applied_extends hc e has]
    exact value I v
  · rw [← weights_extends hc e has]
    exact weight

namespace LawSpec

variable {α : Type} {op : Operation} {args : List Handle} {P : Context → Prop} {x : ContextM α}
  {f : α → ContextM (Option Handle)} {A : α → Context → Prop}

theorem none : LawSpec op args P (pure none) :=
  ⟨.pure _, fun hc _ => Yields.pure hc fun _ e => by cases e⟩

/-- A law may return what stands for the application already. -/
theorem some {k : Handle} (h : ∀ {ctx}, ctx.Sound → P ctx → (∀ a ∈ args, ctx.Has a) → Rewritten ctx op args k ctx) :
    LawSpec op args P (pure (some k)) := by
  refine ⟨.pure _, fun hc given => Yields.pure hc fun _ e => ?_⟩
  cases e
  exact h hc given.1 given.2

theorem arg {a : Handle} (ha : a ∈ args)
    (value : ∀ {ctx}, ctx.Sound → P ctx → ∀ I v, Below (ctx.applied I v op args) (ctx.eval I v a)) :
    LawSpec op args P (pure (.some a)) :=
  .some fun hc given has => ⟨has a ha, value hc given, weight_le_weights ha, fun inside => inside a ha⟩

/-- A law that answers a constant is sound when the operation has no other value on these arguments. -/
theorem ofBool (ne : ∀ {ctx}, P ctx → args ≠ []) (b : Bool)
    (value : ∀ {ctx}, ctx.Sound → P ctx → ∀ I v x, ctx.applied I v op args = .some x → x = .bool b) :
    LawSpec op args P (pure (.some (Handle.ofBool b))) := by
  refine .some fun hc given has => ?_
  have pos := one_le_weights hc (ne given) has
  cases b with
  | true =>
    refine ⟨hc.pool.has_tt, fun I v x hx => ?_, ?_, fun _ => decided_ofBool hc true⟩
    · rw [value hc given I v x hx]
      exact Pool.eval_tt hc.pool
    · exact Nat.le_trans (Nat.le_of_eq (Pool.weight_tt hc.pool)) pos
  | false =>
    refine ⟨hc.pool.has_ff, fun I v x hx => ?_, ?_, fun _ => decided_ofBool hc false⟩
    · rw [value hc given I v x hx]
      exact Pool.eval_ff hc.pool
    · exact Nat.le_trans (Nat.le_of_eq (Pool.weight_ff hc.pool)) pos

/-- A law that makes one new application. -/
theorem call (op' : Operation) (args' : List Handle) (arity : args'.length = op'.decl.arity)
    (given : ∀ {ctx}, ctx.Sound → P ctx → (∀ a ∈ args, ctx.Has a) →
      ctx.symbols.Provides op'.theory ∧ (∀ a ∈ args', ctx.Has a) ∧ ∀ {h ctx'}, ctx'.Sound → ctx.Extends ctx' →
        ctx'.Applies op' args' h → Rewritten ctx op args h ctx') :
    LawSpec op args P (.some <$> ContextM.call op'.decl.name args') := by
  refine ⟨(call_straight _ _).map, fun hc h => ?_⟩
  obtain ⟨provided, has, rewritten⟩ := given hc h.1 h.2
  refine Yields.map ((call_yields hc op' provided args' arity has).mono fun k ctx' e hc' applies k' hk => ?_)
  cases hk
  exact rewritten hc' e applies

theorem ite {c : Prop} [Decidable c] {x y : ContextM (Option Handle)} (hx : c → LawSpec op args P x)
    (hy : ¬ c → LawSpec op args P y) : LawSpec op args P (if c then x else y) := Spec.ite hx hy

/-- A law that returns one expression or nothing. -/
theorem pure_ite {c : Prop} [Decidable c] {a : Handle} (ha : c → LawSpec op args P (pure (.some a))) :
    LawSpec op args P (pure (if c then .some a else .none)) := by
  split
  · exact ha ‹c›
  · exact none

theorem ask (asked : Asks (fun ctx => P ctx ∧ ∀ a ∈ args, ctx.Has a) x A)
    (next : ∀ a, LawSpec op args (fun ctx => P ctx ∧ A a ctx) (f a)) : LawSpec op args P (x >>= f) :=
  Spec.ask asked fun a => (next a).given fun _ h => ⟨⟨h.1.1, h.2⟩, h.1.2⟩

/-- What a law builds first does not change what it is about. -/
theorem bind (first : Spec (fun ctx => P ctx ∧ ∀ a ∈ args, ctx.Has a) x fun _ a ctx' => A a ctx')
    (next : ∀ a, LawSpec op args (A a) (f a)) : LawSpec op args P (x >>= f) := by
  refine ⟨first.straight.bind fun a => (next a).straight, fun hc given => (first.yields hc given).bind ?_⟩
  intro a ctx₁ e₁ hc₁ found
  have has₁ : ∀ b ∈ args, ctx₁.Has b := fun b hb => e₁.has (given.2 b hb)
  refine ((next a).yields hc₁ ⟨found, has₁⟩).mono ?_
  exact fun _ _ _ _ lawful => lawful.earlier hc e₁ given.2

end LawSpec

end PathMerge
