/-
  PathMerge.Proofs.Simulation — rules do to states what statements do to machines.

  `Transfers` relates the states before a statement to those after it. If exactly one state before applies
  and represents a machine, the state on the edge that the machine takes applies and represents the machine
  after the statement, and those on the other edges are refuted. If all states before are refuted, so are
  all after. At a statement that ends the method, the one state after it gives the final values
  (`Concludes`). On every edge, a symbol that the statement does not bind keeps its value. Carrying out a
  statement that the registry supports always returns such states (`carryOut_yields`).

  What a call that is not pure leaves behind is given by two fresh symbols, its `Unknowns`.
-/

import PathMerge.Proofs.Denotation
import PathMerge.Proofs.Schedule

namespace PathMerge

open Context

/-- The symbols that stand for what a call leaves behind. -/
structure Unknowns where
  heap : SymbolId
  result : SymbolId

/-- The valuation gives the unknowns of a call that is not pure the values it leaves behind. -/
def Grants (v : Valuation) (u : Unknowns) (e : Effect) (stmt : Statement) : Prop :=
  stmt.isImpure = true → v u.heap = .heap e.heap ∧ (stmt.defined?.isSome → v u.result = .scalar e.result)

structure Statement.Supported (r : Registry) (stmt : Statement) : Prop where
  target : ∀ {x}, stmt.defined? = some x → ∃ id, r.locals.lookup x = some id
  operands : ∀ a ∈ stmt.operands, a.Known r
  function : ∀ {x receiver? callee args}, stmt = .call (some x) receiver? callee args →
    Purity.isPure callee.signature = true → ∃ f sort owner, r.functions.lookup callee.signature = some f ∧
      r.get? f = some ⟨callee.signature, sort, .function (1 + receiver?.toList.length + args.length) owner⟩ ∧
      operationOf? owner callee.signature = none
  result : ∀ {a}, stmt = .ret (some a) → ∃ id, r.result? = some id
  operations : ∀ t, r.Provides t

theorem Statement.Supported.extends {r r' : Registry} {stmt : Statement} (e : r.Extends r') (sup : stmt.Supported r) :
    stmt.Supported r' := by
  refine ⟨fun target => (sup.target target).imp fun _ => e.locals, fun a ha x var => ?_, fun same pure => ?_,
    fun returns => (sup.result returns).imp fun _ => e.result, fun t => (sup.operations t).extends e⟩
  · exact (sup.operands a ha x var).imp fun _ => e.locals
  · obtain ⟨f, sort, owner, found, get, free⟩ := sup.function same pure
    exact ⟨f, sort, owner, e.functions found, e.get get, free⟩

def Statement.changesHeap : Statement → Bool
  | writeField .. | writeArray .. => true
  | stmt => stmt.isImpure

/-- The statement binds the symbol: its target, the heap or the result. -/
def Statement.Binds (r : Registry) (stmt : Statement) (y : SymbolId) : Prop :=
  (∃ x, stmt.defined? = some x ∧ r.locals.lookup x = some y) ∨ (stmt.changesHeap = true ∧ y = Registry.heap) ∨
    ((∃ a, stmt = .ret (some a)) ∧ r.result? = some y)

namespace State

variable {r : Registry} {ctx ctx' : Context} {I : Interpretation} {v : Valuation} {s t : State} {m : Machine}
  {stmt : Statement}

/-- The values at the end of a method. Where a value is returned, a variable that is the result symbol itself gives
way to it. -/
structure Concludes (r : Registry) (ctx : Context) (I : Interpretation) (v : Valuation) (s : State)
    (stmt : Statement) (m : Machine) : Prop where
  heap : s.store.eval ctx I v Registry.heap = some (.heap m.heap)
  locals : ∀ {x id}, r.locals.lookup x = some id → ((∃ a, stmt = .ret (some a)) → r.result? ≠ some id) →
    s.store.eval ctx I v id = some (.scalar (m.locals x))
  result : ∀ {a}, stmt = .ret (some a) → ∃ id, r.result? = some id ∧
    s.store.eval ctx I v id = some (.scalar (a.value m))

theorem Concludes.mono (con : s.Concludes r ctx I v stmt m)
    (below : ∀ x, Below (s.store.eval ctx I v x) (t.store.eval ctx' I v x)) : t.Concludes r ctx' I v stmt m := by
  refine ⟨below _ _ con.heap, fun found other => below _ _ (con.locals found other), fun returns => ?_⟩
  obtain ⟨id, result, value⟩ := con.result returns
  exact ⟨id, result, below _ _ value⟩

theorem Represents.concludes (rep : s.Represents r ctx I v m) (nothing : ∀ a, stmt ≠ .ret (some a)) :
    s.Concludes r ctx I v stmt m :=
  ⟨rep.heap, fun found _ => rep.locals found, fun returns => absurd returns (nothing _)⟩

def Within (r : Registry) (s : State) : Prop := ∀ {x h}, s.store.get? x = some h → x.number < r.size

theorem Merges.within {states : List State} (h : Merges ctx states s ctx') (within : ∀ t ∈ states, t.Within r) :
    s.Within r := by
  intro x k bound
  obtain ⟨t, ht, _, bound⟩ := h.bound bound
  exact within t ht bound

structure Ready (r : Registry) (ctx : Context) (s : State) : Prop where
  registry : r.Sound
  sound : ctx.Sound
  ext : r.Extends ctx.symbols
  valid : s.Valid ctx
  within : s.Within r

theorem Ready.provides (ready : s.Ready r ctx) (e : ctx.Extends ctx') {t : Theory} (provided : r.Provides t) :
    ctx'.symbols.Provides t :=
  provided.extends (ready.ext.trans e.symbols)

theorem applies_extends (hc : ctx.Sound) (e : ctx.Extends ctx') (valid : s.Valid ctx) :
    s.Applies ctx' I v ↔ s.Applies ctx I v := by
  unfold Applies
  rw [PathCondition.truth_extends hc e valid.path]

theorem refuted_extends (hc : ctx.Sound) (e : ctx.Extends ctx') (valid : s.Valid ctx) :
    s.Refuted ctx' I v ↔ s.Refuted ctx I v := by
  unfold Refuted
  rw [PathCondition.truth_extends hc e valid.path]

theorem sole_extends (hc : ctx.Sound) (e : ctx.Extends ctx') {states : List State} (valid : ∀ s ∈ states, s.Valid ctx) :
    Sole ctx' I v s states ↔ Sole ctx I v s states := by
  constructor
  · rintro ⟨l, r, rfl, applies, rest⟩
    refine ⟨l, r, rfl, (applies_extends hc e (valid s (by simp))).mp applies, fun t ht => ?_⟩
    exact (refuted_extends hc e (valid t (by simp at ht ⊢; tauto))).mp (rest t ht)
  · rintro ⟨l, r, rfl, applies, rest⟩
    refine ⟨l, r, rfl, (applies_extends hc e (valid s (by simp))).mpr applies, fun t ht => ?_⟩
    exact (refuted_extends hc e (valid t (by simp at ht ⊢; tauto))).mpr (rest t ht)

end State

/-! ## States before and after a statement -/

structure Transfers (r : Registry) (ctx : Context) (stmt : Statement) (ins : List State) (u : Unknowns)
    (outs : List State) : Prop where
  refuted : ∀ {I v}, (∀ s ∈ ins, s.Refuted ctx I v) → ∀ o ∈ outs, o.Refuted ctx I v
  moves : ∀ {I v s m e m'}, State.Sole ctx I v s ins → s.Represents r ctx I v m → Grants v u e stmt →
    stmt.perform I e m = some m' → ∃ o, outs[stmt.edge m]? = some o ∧ o.Applies ctx I v ∧
      o.Represents r ctx I v m' ∧ ∀ k o', outs[k]? = some o' → k ≠ stmt.edge m → o'.Refuted ctx I v
  ends : ∀ {I v s m}, State.Sole ctx I v s ins → s.Represents r ctx I v m → stmt.isTerminal = true →
    ∃ o, outs = [o] ∧ o.Applies ctx I v ∧ o.Concludes r ctx I v stmt m
  keeps : ∀ {I v s}, State.Sole ctx I v s ins → ∀ o ∈ outs, ∀ {y}, ¬ stmt.Binds r y →
    Below (s.store.eval ctx I v y) (o.store.eval ctx I v y)

namespace Transfers

variable {r : Registry} {ctx ctx' : Context} {stmt : Statement} {ins outs outs' : List State} {u : Unknowns}

/-- The same in a context that grew. -/
theorem later (hc : ctx.Sound) (e : ctx.Extends ctx') (before : ∀ s ∈ ins, s.Valid ctx)
    (after : ∀ o ∈ outs, o.Valid ctx) (h : Transfers r ctx stmt ins u outs) : Transfers r ctx' stmt ins u outs := by
  refine ⟨fun {I v} all o ho => ?_, fun {I v s m effect m'} sole rep grants performed => ?_,
    fun {I v s m} sole rep terminal => ?_, fun {I v s} sole o ho y unbound => ?_⟩
  · refine (State.refuted_extends hc e (after o ho)).mpr (h.refuted (fun s hs => ?_) o ho)
    exact (State.refuted_extends hc e (before s hs)).mp (all s hs)
  · have sole := (State.sole_extends hc e before).mp sole
    have rep := (State.represents_extends hc e (before s sole.mem)).mp rep
    obtain ⟨o, at_, applies, after', others⟩ := h.moves sole rep grants performed
    have valid := after o (List.mem_of_getElem? at_)
    refine ⟨o, at_, (State.applies_extends hc e valid).mpr applies, (State.represents_extends hc e valid).mpr after',
      fun k o' at' ne => ?_⟩
    exact (State.refuted_extends hc e (after o' (List.mem_of_getElem? at'))).mpr (others k o' at' ne)
  · have sole := (State.sole_extends hc e before).mp sole
    have rep := (State.represents_extends hc e (before s sole.mem)).mp rep
    obtain ⟨o, rfl, applies, con⟩ := h.ends sole rep terminal
    have valid := after o List.mem_cons_self
    refine ⟨o, rfl, (State.applies_extends hc e valid).mpr applies, con.mono fun x => .of_eq ?_⟩
    exact (State.eval_extends hc e valid x).symm
  · have sole := (State.sole_extends hc e before).mp sole
    rw [State.eval_extends hc e (before s sole.mem), State.eval_extends hc e (after o ho)]
    exact h.keeps sole o ho unbound

/-- From the merged state to the states it was merged from. -/
theorem of_merged {s : State} (hc : ctx.Sound) (e : ctx.Extends ctx') (before : ∀ s ∈ ins, s.Valid ctx)
    {ctx₁ : Context} (hc₁ : ctx₁.Sound) (e₁ : ctx₁.Extends ctx') (merges : State.Merges ctx ins s ctx₁)
    (h : Transfers r ctx' stmt [s] u outs) : Transfers r ctx' stmt ins u outs := by
  have one : ∀ {I v t}, State.Sole ctx' I v t ins → State.Sole ctx' I v s [s] ∧
      ∀ x, Below (t.store.eval ctx' I v x) (s.store.eval ctx' I v x) := by
    intro I v t sole
    have sole := (State.sole_extends hc e before).mp sole
    refine ⟨State.sole_singleton ((State.applies_extends hc₁ e₁ merges.valid).mpr
      (merges.applies sole.mem sole.applies)), ?_⟩
    intro x
    rw [State.eval_extends hc e (before t sole.mem), State.eval_extends hc₁ e₁ merges.valid]
    exact merges.store sole x
  refine ⟨fun {I v} all o ho => ?_, fun {I v t m effect m'} sole rep grants performed => ?_,
    fun {I v t m} sole rep terminal => ?_, fun {I v t} sole o ho y unbound => ?_⟩
  · refine h.refuted (fun t ht => ?_) o ho
    rw [List.mem_singleton.mp ht]
    refine (State.refuted_extends hc₁ e₁ merges.valid).mpr (merges.refuted fun t ht => ?_)
    exact (State.refuted_extends hc e (before t ht)).mp (all t ht)
  · obtain ⟨sole, below⟩ := one sole
    exact h.moves sole (rep.mono below) grants performed
  · obtain ⟨sole, below⟩ := one sole
    exact h.ends sole (rep.mono below) terminal
  · obtain ⟨sole, below⟩ := one sole
    exact (below y).trans (h.keeps sole o ho unbound)

/-- On to the simplified states. -/
theorem refine_outs (hc : ctx.Sound) (e : ctx.Extends ctx') (before : ∀ s ∈ ins, s.Valid ctx)
    (refined : List.Forall₂ (fun o o' => State.Refined ctx o o' ctx') outs outs')
    (h : Transfers r ctx stmt ins u outs) :
    Transfers r ctx' stmt ins u outs' := by
  have path : ∀ {I v o o' b}, State.Refined ctx o o' ctx' → o.path.truth ctx I v = some b →
    o'.path.truth ctx' I v = some b :=
    fun ref truth => ref.path _ _ _ truth
  refine ⟨fun {I v} all o' ho' => ?_, fun {I v s m effect m'} sole rep grants performed => ?_,
    fun {I v s m} sole rep terminal => ?_, fun {I v s} sole o' ho' y unbound => ?_⟩
  · obtain ⟨o, ho, ref⟩ := Related.exists_left refined ho'
    refine path ref (h.refuted (fun s hs => ?_) o ho)
    exact (State.refuted_extends hc e (before s hs)).mp (all s hs)
  · have sole := (State.sole_extends hc e before).mp sole
    have rep := (State.represents_extends hc e (before s sole.mem)).mp rep
    obtain ⟨o, at_, applies, after', others⟩ := h.moves sole rep grants performed
    obtain ⟨o', at', ref⟩ := Related.getElem?_right refined at_
    refine ⟨o', at', path ref applies, after'.mono (ref.store _ _), fun k p' hp' ne => ?_⟩
    obtain ⟨p, hp, ref⟩ := Related.getElem?_left refined hp'
    exact path ref (others k p hp ne)
  · have sole := (State.sole_extends hc e before).mp sole
    have rep := (State.represents_extends hc e (before s sole.mem)).mp rep
    obtain ⟨o, rfl, applies, con⟩ := h.ends sole rep terminal
    cases refined with
    | cons ref rest =>
      cases rest
      exact ⟨_, rfl, path ref applies, con.mono (ref.store _ _)⟩
  · obtain ⟨o, ho, ref⟩ := Related.exists_left refined ho'
    have sole := (State.sole_extends hc e before).mp sole
    rw [State.eval_extends hc e (before s sole.mem)]
    exact (h.keeps sole o ho unbound).trans (ref.store _ _ y)

end Transfers

end PathMerge
