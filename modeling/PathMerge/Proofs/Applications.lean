/-
  PathMerge.Proofs.Applications — functions applied to as many arguments as they take, or to others.

  A pure call whose result is used applies a function to the heap, the receiver and the arguments
  (`Statement.applied?`). If the function is registered with as many arguments, the statement is supported and can be
  carried out. If it is registered with another number, carrying the statement out fails, and nothing else can fail
  (`carryOut_misfit`, `step_attempts`).
-/

import PathMerge.Proofs.Visits

namespace PathMerge

open Context

/-! ## Applications and arities -/

/-- The function that a statement applies, and to how many arguments. -/
def Statement.applied? : Statement → Option (String × Nat)
  | call (some _) receiver? callee args =>
    if Purity.isPure callee.signature then some (callee.signature, 1 + receiver?.toList.length + args.length) else none
  | _ => none

theorem Statement.applied?_eq_some {stmt : Statement} {name : String} {n : Nat} (h : stmt.applied? = some (name, n)) :
    ∃ x receiver? callee args, stmt = call (some x) receiver? callee args ∧ Purity.isPure callee.signature = true ∧
      callee.signature = name ∧ 1 + receiver?.toList.length + args.length = n := by
  unfold applied? at h
  split at h
  · rename_i x receiver? callee args
    split at h
    · rename_i pure
      cases h
      exact ⟨x, receiver?, callee, args, rfl, pure, rfl, rfl⟩
    · cases h
  · cases h

theorem Statement.applied?_call {x : String} {receiver? : Option Operand} {callee : Callee} {args : List Operand}
    (pure : Purity.isPure callee.signature = true) : (call (some x) receiver? callee args).applied? =
      some (callee.signature, 1 + receiver?.toList.length + args.length) :=
  if_pos pure

def Registry.arity? (r : Registry) (name : String) : Option Nat :=
  match (r.functions.lookup name).bind r.get? with
  | some ⟨_, _, .function arity _⟩ => some arity
  | _ => none

theorem Registry.arity?_eq {r : Registry} {name name' owner : String} {f : SymbolId} {sort : ValueSort} {arity : Nat}
    (found : r.functions.lookup name = some f) (get : r.get? f = some ⟨name', sort, .function arity owner⟩) :
    r.arity? name = some arity := by
  unfold arity?
  rw [found, Option.bind_some, get]

structure Statement.Named (r : Registry) (stmt : Statement) : Prop where
  target : ∀ {x}, stmt.defined? = some x → ∃ id, r.locals.lookup x = some id
  operands : ∀ a ∈ stmt.operands, a.Known r
  function : ∀ {name n}, stmt.applied? = some (name, n) → ∃ f sort arity owner, r.functions.lookup name = some f ∧
    r.get? f = some ⟨name, sort, .function arity owner⟩ ∧ operationOf? owner name = none
  result : ∀ {a}, stmt = .ret (some a) → ∃ id, r.result? = some id
  operations : ∀ t, r.Provides t

/-- If the statement applies a function, it gives as many arguments as are registered. -/
def Statement.Fits (r : Registry) (stmt : Statement) : Prop :=
  ∀ {name n}, stmt.applied? = some (name, n) → r.arity? name = some n

theorem Statement.Named.supported {r : Registry} {stmt : Statement} (named : stmt.Named r) (fits : stmt.Fits r) :
    stmt.Supported r := by
  refine ⟨named.target, named.operands, fun {x receiver? callee args} same pure => ?_, named.result, named.operations⟩
  subst same
  have applied : (call (some x) receiver? callee args).applied? =
      some (callee.signature, 1 + receiver?.toList.length + args.length) := applied?_call pure
  obtain ⟨f, sort, arity, owner, found, get, free⟩ := named.function applied
  have same := fits applied
  rw [Registry.arity?_eq found get] at same
  rw [Option.some.inj same] at get
  exact ⟨f, sort, owner, found, get, free⟩

/-! ## Applying a function to another number of arguments -/

variable {F : Failure → Prop} {r : Registry} {ctx : Context}

theorem ContextM.apply_misfit {f : SymbolId} {args : List Handle} {name owner : String} {sort : ValueSort} {arity : Nat}
    (hc : ctx.Sound) (get : ctx.symbols.get? f = some ⟨name, sort, .function arity owner⟩)
    (misfit : arity ≠ args.length) (allowed : F (.defect (.wrongArity name args.length))) :
    Attempts F (ContextM.apply f args) ctx fun _ _ => False := by
  unfold ContextM.apply
  refine Attempts.bind (.inl (ContextM.asking_yields hc (Registry.get_eq_ok get))) ?_
  rintro _ _ _ _ ⟨rfl, rfl⟩
  dsimp only
  rw [if_neg misfit]
  exact Attempts.throw allowed

/-- A pure call whose operands do not fit the registered arity is stopped with the arity defect. -/
theorem callPure_misfit {s : State} {x : String} {receiver? : Option Operand} {callee : Callee} {args : List Operand}
    (ready : s.Ready r ctx) (named : (Statement.call (some x) receiver? callee args).Named r)
    (pure : Purity.isPure callee.signature = true)
    (misfit : r.arity? callee.signature ≠ some (1 + receiver?.toList.length + args.length))
    (allowed : F (.defect (.wrongArity callee.signature (1 + receiver?.toList.length + args.length)))) :
    Attempts F (Rule.callPure s x receiver? callee args) ctx fun _ _ => False := by
  obtain ⟨f, sort, arity, owner, found, registered, _⟩ := named.function (Statement.applied?_call pure)
  have known : ctx.symbols.function callee.signature = .ok f := by
    unfold Registry.function
    rw [ready.ext.functions found]
  refine Attempts.bind (.inl (ContextM.asking_yields ready.sound known)) ?_
  rintro _ _ _ _ ⟨rfl, rfl⟩
  refine Attempts.bind (.inl (known_heap ready (.refl ctx) ready.sound)) fun heap ctx₁ e₁ hc₁ _ => ?_
  refine Attempts.bind
    (.inl (operandValues_yields ready.sound ready.valid ready.ext ready.registry hc₁ e₁ named.operands))
    fun values ctx₂ e₂ hc₂ dvalues => ?_
  have given : (heap :: values).length = 1 + receiver?.toList.length + args.length := by
    rw [List.length_cons, ← dvalues.length_eq, List.length_append]
    omega
  have other : arity ≠ (heap :: values).length := by
    intro same
    rw [Registry.arity?_eq found registered, same, given] at misfit
    exact misfit rfl
  refine Attempts.bind (ContextM.apply_misfit hc₂ ((e₁.trans e₂).symbols.get (ready.ext.get registered)) other ?_)
    fun _ _ _ _ no => no.elim
  rw [given]
  exact allowed

/-- A statement that applies a function to another number of arguments than are registered cannot be carried out. -/
theorem carryOut_misfit {lay : Layout} {i : Nat} {stmt : Statement} {ins : List State} {name : String} {n : Nat}
    (here : lay.body[i]? = some stmt) (named : stmt.Named r) (ne : ins ≠ []) (hr : r.Sound) (hc : ctx.Sound)
    (ext : r.Extends ctx.symbols) (valid : ∀ s ∈ ins, s.Valid ctx) (within : ∀ s ∈ ins, s.Within r)
    (applied : stmt.applied? = some (name, n)) (misfit : r.arity? name ≠ some n)
    (allowed : F (.defect (.wrongArity name n))) :
    ∃ e ctx', Fails (Walk.carryOut lay i ins) ctx e ctx' ∧ F e := by
  have statement : lay.statement i = .ok stmt := Layout.statement_eq_ok.mpr here
  obtain ⟨x, receiver?, callee, args, rfl, pure, rfl, rfl⟩ := Statement.applied?_eq_some applied
  have rule : (Statement.call (some x) receiver? callee args).rule = .ofPureCall (some x) receiver? := if_pos pure
  have ran : ∀ {s : State} {ctx₁ : Context} (edges : Nat), s.Ready r ctx₁ →
      Attempts F (Rule.run (.ofPureCall (some x) receiver?) (.call (some x) receiver? callee args) edges s) ctx₁
        fun _ _ => False := by
    intro s ctx₁ edges ready
    have called := callPure_misfit ready named pure misfit allowed
    have mapped : Attempts F (Rule.replicate edges <$> Rule.callPure s x receiver? callee args) ctx₁ fun _ _ =>
      False := by
      rw [map_eq_pure_bind]
      exact called.bind fun _ _ _ _ no => no.elim
    cases receiver? with
    | none => exact mapped
    | some receiver => exact mapped
  have all : Attempts F (Walk.carryOut lay i ins) ctx fun _ _ => False := by
    unfold Walk.carryOut
    refine Attempts.bind (.inl (ContextM.ofExcept_yields hc statement)) ?_
    rintro _ _ _ _ ⟨rfl, rfl⟩
    refine Attempts.bind (.inl (ContextM.ofExcept_yields hc (select_eq ne _))) ?_
    rintro _ _ _ _ ⟨rfl, rfl⟩
    rw [rule]
    unfold Rule.apply
    refine Attempts.bind (Q := fun _ _ => False) ?_ fun _ _ _ _ no => no.elim
    refine Attempts.bind (.inl (State.merge_yields hc ne valid)) fun s ctx₁ e₁ hc₁ merges => ?_
    exact ran _ ⟨hr, hc₁, ext.trans e₁.symbols, merges.valid, merges.within within⟩
  rcases all with ⟨_, _, _, _, _, no⟩ | failed
  · exact no.elim
  · exact failed

/-! ## Carrying out any statement -/

namespace Walk

variable {lay : Layout} {region : Region} {w : Walk} {i : Nat}

structure Names (lay : Layout) (r : Registry) : Prop where
  registry : r.Sound
  operations : ∀ t, r.Provides t
  statement : ∀ {i}, lay.flow.Live i → ∃ stmt, lay.body[i]? = some stmt ∧ lay.flow.succs i = stmt.successors i ∧
    stmt.Named r

def FitsAt (lay : Layout) (r : Registry) (i : Nat) : Prop := ∀ stmt, lay.body[i]? = some stmt → stmt.Fits r

def Misapplied (lay : Layout) (r : Registry) (e : Failure) : Prop :=
  ∃ i stmt name n, lay.flow.Live i ∧ lay.body[i]? = some stmt ∧ stmt.applied? = some (name, n) ∧
    r.arity? name ≠ some n ∧ e = .defect (.wrongArity name n)

/-- One step of a walk either records as many outputs as the position has edges, or stops on a call registered with
another arity. -/
theorem step_attempts (names : Names lay r) (hc : ctx.Sound) (ext : r.Extends ctx.symbols) (live : lay.flow.Live i)
    (ins : Startable r ctx (w.inputs.get i)) :
    Attempts (Misapplied lay r) (step lay region w i) ctx fun p ctx' => ∃ outs, p = recorded lay region w i outs ∧
      outs.length = max (lay.flow.succs i).length 1 ∧ (∀ o ∈ outs, o.Valid ctx' ∧ o.Within r) ∧ FitsAt lay r i := by
  obtain ⟨stmt, here, edges, named⟩ := names.statement live
  by_cases fits : stmt.Fits r
  · refine .inl ((step_supported names.registry hc ext here edges (named.supported fits) ins).mono ?_)
    intro p ctx' _ _ stepped
    obtain ⟨_, outs, out, _, same⟩ := stepped
    refine ⟨outs, same, out.length, fun o ho => ⟨out.valid o ho, out.within o ho⟩, fun stmt' here' => ?_⟩
    rw [here] at here'
    cases here'
    exact fits
  · unfold Statement.Fits at fits
    simp only [not_forall, exists_prop] at fits
    obtain ⟨name, n, applied, misfit⟩ := fits
    obtain ⟨e, ctx', failed, misapplied⟩ :=
      carryOut_misfit (F := Misapplied lay r) here named ins.some names.registry hc ext
      ins.valid ins.within applied misfit ⟨i, stmt, name, n, live, here, applied, misfit, rfl⟩
    exact .inr ⟨e, ctx', step_fails failed, misapplied⟩

end Walk

end PathMerge
