/-
  PathMerge.Proofs.Registered — what is registered for a method.

  When an analysis is created, the result, the declared variables and a function for each pure method whose
  result is used are registered one after the other (`registerSymbols_spec`). The method has passed its check, so
  every statement finds what it names (`Created.names`), and finds functions with the arity it uses provided that
  all calls of a pure method have one arity (`Created.supports`). Then the analysis can be executed
  (`Created.executes`).
-/

import PathMerge.Proofs.Applications
import PathMerge.Proofs.Created
import PathMerge.Proofs.Passes
import PathMerge.Proofs.Creation

namespace PathMerge

open Context

/-- All calls of a pure method have as many arguments, the receiver counted as one. -/
def Method.OneArity (m : Method) : Prop :=
  ∀ {target₁ receiver₁ callee₁ args₁ target₂ receiver₂ callee₂ args₂},
    Statement.call target₁ receiver₁ callee₁ args₁ ∈ m.body → Statement.call target₂ receiver₂ callee₂ args₂ ∈ m.body →
    Purity.isPure callee₁.signature = true → callee₁.signature = callee₂.signature →
    receiver₁.toList.length + args₁.length = receiver₂.toList.length + args₂.length

/-! ## Functions that the registry has -/

namespace Registry

variable {r r' : Registry} {id : SymbolId} {sort : ValueSort} {name : String}

theorem addResult_functions (h : r.addResult sort = .ok (id, r')) : r'.functions = r.functions := by
  unfold addResult at h
  split at h
  · rename_i old _
    rcases confirmed : r.confirmSort old sort with e | _
    · simp only [confirmed] at h
      cases h
    · simp only [confirmed] at h
      cases h
      rfl
  · cases h
    rfl

theorem addLocal_functions (h : r.addLocal name sort = .ok (id, r')) : r'.functions = r.functions := by
  unfold addLocal at h
  split at h
  · rename_i old _
    rcases confirmed : r.confirmSort old sort with e | _
    · simp only [confirmed] at h
      cases h
    · simp only [confirmed] at h
      cases h
      rfl
  · dsimp only at h
    split at h
    · cases h
      rfl
    · cases h
      rfl

theorem addFunction_functions {theory : String} {arity : Nat}
    (h : r.addFunction theory name arity sort = .ok (id, r')) :
    r'.functions = (name, id) :: r.functions := by
  unfold addFunction at h
  split at h
  · cases h
  · cases h
    rfl

end Registry

namespace Analysis

def PureCalls (m : Method) (r : Registry) : Prop :=
  ∀ {name f}, Purity.isPure name = true → r.functions.lookup name = some f →
    ∃ x receiver? callee args sort, Statement.call (some x) receiver? callee args ∈ m.body ∧ callee.signature = name ∧
      r.get? f = some ⟨name, sort, .function (1 + receiver?.toList.length + args.length) programTheory⟩

variable {m : Method} {r r' : Registry}

theorem PureCalls.extends (h : PureCalls m r) (e : r.Extends r') (same : r'.functions = r.functions) :
    PureCalls m r' := by
  intro name f isPure found
  rw [same] at found
  obtain ⟨x, receiver?, callee, args, sort, here, named, get⟩ := h isPure found
  exact ⟨x, receiver?, callee, args, sort, here, named, e.get get⟩

theorem no_pure_builtin : (Theory.all.foldlM Context.declare Registry.initial).toOption.map
    (fun r => Purity.signatures.all fun name => (r.functions.lookup name).isNone) = some true := by
  cbv

theorem pureCalls_create {bits : Nat} {ctx : Context} (created : Context.create bits Theory.all = .ok ctx) :
    PureCalls m ctx.symbols := by
  have none := no_pure_builtin
  obtain ⟨_, r, declared, rfl⟩ := Context.create_ok created
  rw [declared] at none
  intro name f isPure found
  have free := List.all_eq_true.mp (Option.some.inj none) name (List.contains_iff_mem.mp isPure)
  rw [show r.functions.lookup name = some f from found] at free
  cases free

/-! ## Registering -/

variable {ctx ctx' : Context}

def Registers {α : Type} (m : Method) (x : ContextM α) (P : Registry → Prop) : Prop :=
  ∀ ctx a ctx', ctx.Sound → PureCalls m ctx.symbols → Returns x ctx a ctx' →
    ctx.Extends ctx' ∧ ctx'.Sound ∧ PureCalls m ctx'.symbols ∧ P ctx'.symbols

variable {α β : Type} {P Q : Registry → Prop}

theorem Registers.bind {x : ContextM α} {f : α → ContextM β} (stable : ∀ {r r'}, r.Extends r' → P r → P r')
    (hx : Registers m x P) (hf : ∀ a, Registers m (f a) Q) : Registers m (x >>= f) fun r => P r ∧ Q r := by
  intro ctx b ctx'' hc calls h
  obtain ⟨a, ctx', h₁, h₂⟩ := returns_of_bind h
  obtain ⟨e₁, hc₁, calls₁, p⟩ := hx _ _ _ hc calls h₁
  obtain ⟨e₂, hc₂, calls₂, q⟩ := hf a _ _ _ hc₁ calls₁ h₂
  exact ⟨e₁.trans e₂, hc₂, calls₂, stable e₂.symbols p, q⟩

theorem registers_pure (a : α) : Registers m (pure a) fun _ => True := by
  intro ctx b ctx' hc calls h
  cases h
  exact ⟨.refl ctx, hc, calls, trivial⟩

/-- Registering the members of a list one after another registers all of them. -/
theorem registers_forM {f : α → ContextM Unit} {P : α → Registry → Prop} (l : List α)
    (stable : ∀ {a r r'}, r.Extends r' → P a r → P a r') (each : ∀ a ∈ l, Registers m (f a) (P a)) :
    Registers m (l.forM f) fun r => ∀ a ∈ l, P a r := by
  induction l with
  | nil =>
    intro ctx a ctx' hc calls h
    obtain ⟨e, hc', calls', _⟩ := registers_pure () _ _ _ hc calls h
    exact ⟨e, hc', calls', nofun⟩
  | cons a l ih =>
    have rest := ih fun b hb => each b (List.mem_cons_of_mem _ hb)
    intro ctx b ctx' hc calls h
    obtain ⟨e, hc', calls', first, others⟩ :=
      Registers.bind (x := f a) stable (each a List.mem_cons_self) (fun _ => rest) _ _ _ hc calls h
    refine ⟨e, hc', calls', fun b hb => ?_⟩
    rcases List.mem_cons.mp hb with rfl | hb
    · exact first
    · exact others b hb

theorem register_adds {add : Registry → Except Failure (SymbolId × Registry)} {id : SymbolId}
    (h : Returns (ContextM.register add) ctx id ctx') : add ctx.symbols = .ok (id, ctx'.symbols) := by
  obtain ⟨p, ctx₁, asked, h⟩ := returns_of_bind h
  obtain ⟨_, _, got, asked⟩ := returns_of_bind asked
  cases got
  obtain ⟨added, rfl⟩ := ContextM.returns_ofExcept.mp asked
  cases h
  exact added

theorem returns_register {add : Registry → Except Failure (SymbolId × Registry)} {id : SymbolId} (hc : ctx.Sound)
    (grown : ∀ {id r}, add ctx.symbols = .ok (id, r) → ctx.symbols.Grown r)
    (h : Returns (ContextM.register add) ctx id ctx') :
    add ctx.symbols = .ok (id, ctx'.symbols) ∧ ctx.Extends ctx' ∧ ctx'.Sound := by
  have added := register_adds h
  obtain ⟨id', ctx'', returns, e, hc', _⟩ := ContextM.register_yields hc added (grown added)
  obtain ⟨rfl, rfl⟩ := returns_unique h returns
  exact ⟨added, e, hc'⟩

theorem registers_result (sort : ValueSort) :
    Registers m (ContextM.register (·.addResult sort)) fun r => ∃ id, r.result? = some id := by
  intro ctx id ctx' hc calls h
  obtain ⟨added, e, hc'⟩ := returns_register hc (fun added => (Registry.addResult_ok hc.symbols added).1) h
  refine ⟨e, hc', calls.extends e.symbols (Registry.addResult_functions added), id, ?_⟩
  exact (Registry.addResult_ok hc.symbols added).2

theorem registers_local (name : String) (sort : ValueSort) :
    Registers m (ContextM.register (·.addLocal name sort)) fun r => ∃ id, r.locals.lookup name = some id := by
  intro ctx id ctx' hc calls h
  obtain ⟨added, e, hc'⟩ := returns_register hc (fun added => (Registry.addLocal_ok hc.symbols added).1) h
  refine ⟨e, hc', calls.extends e.symbols (Registry.addLocal_functions added), id, ?_⟩
  exact (Registry.addLocal_ok hc.symbols added).2

def Callable (stmt : Statement) (r : Registry) : Prop :=
  ∀ {x receiver? callee args}, stmt = .call (some x) receiver? callee args → Purity.isPure callee.signature = true →
    ∃ f, r.functions.lookup callee.signature = some f

theorem registers_function {x : String} {receiver? : Option Operand} {callee : Callee} {args : List Operand}
    (here : Statement.call (some x) receiver? callee args ∈ m.body) (sort : ValueSort) :
    Registers m (ContextM.register (·.addFunction programTheory callee.signature
      (1 + receiver?.toList.length + args.length) sort)) fun _ => True := by
  intro ctx id ctx' hc calls h
  obtain ⟨added, e, hc'⟩ := returns_register hc (fun added => (Registry.addFunction_ok hc.symbols added).1) h
  have functions := Registry.addFunction_functions added
  have get := (Registry.addFunction_ok hc.symbols added).2
  refine ⟨e, hc', fun {name f} isPure found => ?_, trivial⟩
  rw [functions] at found
  rcases Registry.lookup_cons found with ⟨rfl, rfl⟩ | found
  · exact ⟨x, receiver?, callee, args, sort, here, rfl, get⟩
  · obtain ⟨x, receiver?, callee, args, sort, here, named, get⟩ := calls isPure found
    exact ⟨x, receiver?, callee, args, sort, here, named, e.symbols.get get⟩

/-- A call whose result is used is callable once it is registered. -/
theorem registerCall_callable {stmt : Statement} (h : Returns (registerCall stmt) ctx () ctx') :
    Callable stmt ctx'.symbols := by
  intro x receiver? callee args same isPure
  subst same
  obtain ⟨_, _, got, h⟩ := returns_of_bind h
  cases got
  dsimp only at h
  split at h
  · obtain ⟨id, ctx₁, registered, h⟩ := returns_of_bind h
    cases h
    rw [Registry.addFunction_functions (register_adds registered)]
    exact ⟨id, List.lookup_cons_self⟩
  · rename_i skipped
    cases h
    rw [isPure, Bool.true_and, Bool.not_eq_true', Bool.not_eq_false] at skipped
    exact Option.isSome_iff_exists.mp skipped

theorem registers_call {stmt : Statement} (here : stmt ∈ m.body) : Registers m (registerCall stmt) (Callable stmt) := by
  intro ctx a ctx' hc calls h
  have callable : Callable stmt ctx'.symbols := registerCall_callable h
  unfold registerCall at h
  split at h
  · obtain ⟨_, _, got, h⟩ := returns_of_bind h
    cases got
    dsimp only at h
    split at h
    · obtain ⟨id, ctx₁, registered, h⟩ := returns_of_bind h
      cases h
      obtain ⟨e, hc', calls', _⟩ := registers_function here _ _ _ _ hc calls registered
      exact ⟨e, hc', calls', callable⟩
    · cases h
      exact ⟨.refl ctx, hc, calls, callable⟩
  · cases h
    exact ⟨.refl ctx, hc, calls, callable⟩

structure Registered (m : Method) (r : Registry) : Prop where
  result : m.result?.isSome → ∃ id, r.result? = some id
  locals : ∀ {name}, m.declared name = true → ∃ id, r.locals.lookup name = some id
  functions : ∀ stmt ∈ m.body, Callable stmt r
  operations : ∀ t, r.Provides t

def registerDeclared (m : Method) : ContextM Unit := do
  if let some t := m.result? then
    let _ ← ContextM.register (·.addResult t.sort)
  m.declarations.forM fun (name, type) => do
    let _ ← ContextM.register (·.addLocal name type.sort)

theorem registerSymbols_eq (m : Method) : registerSymbols m = (do
    registerDeclared m
    m.body.forM registerCall) := by
  unfold registerSymbols registerDeclared
  cases m.result? with
  | none => rfl
  | some t => exact (bind_assoc ..).symm

/-- The result and every declared local have a symbol once the declarations are registered. -/
theorem registers_declared : Registers m (registerDeclared m) fun r =>
    (m.result?.isSome → ∃ id, r.result? = some id) ∧ ∀ d ∈ m.declarations, ∃ id, r.locals.lookup d.1 = some id := by
  have locals : Registers m (m.declarations.forM fun d => do
      let _ ← ContextM.register (·.addLocal d.1 d.2.sort)) fun r =>
        ∀ d ∈ m.declarations, ∃ id, r.locals.lookup d.1 = some id := by
    refine registers_forM m.declarations (fun e found => ?_) fun d _ => ?_
    · obtain ⟨id, found⟩ := found
      exact ⟨id, e.locals found⟩
    · intro ctx a ctx' hc calls h
      obtain ⟨id, ctx₁, registered, h⟩ := returns_of_bind h
      cases h
      exact registers_local d.1 d.2.sort _ _ _ hc calls registered
  intro ctx a ctx' hc calls h
  unfold registerDeclared at h
  cases result : m.result? with
  | none =>
    rw [result] at h
    obtain ⟨e, hc', calls', found⟩ := locals _ _ _ hc calls h
    exact ⟨e, hc', calls', nofun, found⟩
  | some t =>
    rw [result] at h
    obtain ⟨id, ctx₁, registered, h⟩ := returns_of_bind h
    obtain ⟨e₁, hc₁, calls₁, id, found₁⟩ := registers_result t.sort _ _ _ hc calls registered
    obtain ⟨e, hc', calls', found⟩ := locals _ _ _ hc₁ calls₁ h
    exact ⟨e₁.trans e, hc', calls', fun _ => ⟨id, e.symbols.result found₁⟩, found⟩

/-- After registration every name the method uses has a symbol. -/
theorem registerSymbols_spec (hc : ctx.Sound) (provided : ∀ t, ctx.symbols.Provides t) (calls : PureCalls m ctx.symbols)
    (h : Returns (registerSymbols m) ctx () ctx') :
    ctx'.Sound ∧ PureCalls m ctx'.symbols ∧ Registered m ctx'.symbols := by
  rw [registerSymbols_eq] at h
  obtain ⟨⟨⟩, ctx₁, declared, h⟩ := returns_of_bind h
  obtain ⟨e₁, hc₁, calls₁, result, locals⟩ := registers_declared _ _ _ hc calls declared
  have called : Registers m (m.body.forM registerCall) fun r => ∀ stmt ∈ m.body, Callable stmt r := by
    refine registers_forM m.body (fun e callable => ?_) fun stmt here => registers_call here
    intro x receiver? callee args same isPure
    obtain ⟨f, found⟩ := callable same isPure
    exact ⟨f, e.functions found⟩
  obtain ⟨e, hc', calls', functions⟩ := called _ _ _ hc₁ calls₁ h
  refine ⟨hc', calls', fun some => ?_, fun {name} hd => ?_, functions,
    fun t => (provided t).extends (e₁.trans e).symbols⟩
  · obtain ⟨id, found⟩ := result some
    exact ⟨id, e.symbols.result found⟩
  · obtain ⟨d, hd, same⟩ := List.any_eq_true.mp hd
    obtain ⟨id, found⟩ := locals d hd
    rw [← eq_of_beq same]
    exact ⟨id, e.symbols.locals found⟩

end Analysis

/-! ## Methods that have passed their check -/

namespace Method

variable {m : Method} {stmt : Statement} {i : Nat}

theorem fault?_of_validate (valid : m.validate = .ok ()) (here : m.body[i]? = some stmt) : m.fault? i stmt = none := by
  unfold validate at valid
  split at valid
  · cases valid
  · rename_i clean
    unfold firstFault? at clean
    split at clean
    · cases clean
    · refine List.findSome?_eq_none_iff.mp clean (stmt, i) ?_
      rw [List.mem_iff_getElem?]
      exact ⟨i, by rw [List.getElem?_zipIdx, here]; simp⟩

theorem declared_of_fault? (clean : m.fault? i stmt = none) :
    ∀ name ∈ stmt.defined?.toList ++ stmt.used, m.declared name = true := by
  unfold fault? at clean
  dsimp only at clean
  split at clean
  · cases clean
  · cases clean
  · rename_i none
    intro name hn
    simpa using List.find?_eq_none.mp none name hn

theorem returns_of_fault? {a : Operand} (clean : m.fault? i (.ret (some a)) = none) : m.result?.isSome = true := by
  unfold fault? at clean
  dsimp only at clean
  split at clean
  · cases clean
  · cases clean
  · split at clean
    · cases clean
    · rename_i fits
      simpa [Option.isSome_iff_ne_none] using fits

end Method

namespace Analysis

variable {m : Method} {settings : Settings} {a a' : Analysis}

theorem named_of_registered {r : Registry} {stmt : Statement} {i : Nat} (valid : m.validate = .ok ())
    (calls : PureCalls m r) (registered : Registered m r) (here : m.body[i]? = some stmt) : stmt.Named r := by
  have inside : stmt ∈ m.body := List.mem_of_getElem? here
  have clean := Method.fault?_of_validate valid here
  have declared := Method.declared_of_fault? clean
  refine ⟨fun {x} target => ?_, fun a ha x var => ?_, fun {name n} applied => ?_, fun {a} same => ?_,
    registered.operations⟩
  · exact registered.locals (declared x (List.mem_append.mpr (.inl (Option.mem_toList.mpr target))))
  · exact registered.locals (declared x (List.mem_append.mpr (.inr (List.mem_filterMap.mpr ⟨a, ha, var⟩))))
  · obtain ⟨x, receiver?, callee, args, same, isPure, rfl, _⟩ := Statement.applied?_eq_some applied
    obtain ⟨f, found⟩ := registered.functions stmt inside same isPure
    obtain ⟨_, _, _, _, sort, _, _, get⟩ := calls isPure found
    exact ⟨f, sort, _, programTheory, found, get, rfl⟩
  · subst same
    exact registered.result (Method.returns_of_fault? clean)

theorem fits_of_oneArity {r : Registry} {stmt : Statement} (arity : m.OneArity) (calls : PureCalls m r)
    (named : stmt.Named r) (here : stmt ∈ m.body) : stmt.Fits r := by
  intro name n applied
  obtain ⟨f, _, _, _, found, _, _⟩ := named.function applied
  obtain ⟨x, receiver?, callee, args, rfl, isPure, rfl, rfl⟩ := Statement.applied?_eq_some applied
  obtain ⟨x', receiver', callee', args', sort, here', same, get⟩ := calls isPure found
  rw [Registry.arity?_eq found get, Nat.add_assoc, Nat.add_assoc, arity here here' isPure same.symm]

theorem Created.sound (created : Created m settings a) :
    a.context.Sound ∧ PureCalls m a.context.symbols ∧ Registered m a.context.symbols := by
  obtain ⟨ctx, made, returned⟩ := created.context
  have hc := Context.create_sound made
  have provided : ∀ t, ctx.symbols.Provides t := by
    obtain ⟨_, r, _, rfl⟩ := Context.create_ok made
    exact fun t => hc.provides t t.mem_all
  exact registerSymbols_spec hc provided (pureCalls_create made) returned

theorem Created.getElem?_body (created : Created m settings a) (i : Nat) : a.layout.body[i]? = m.body[i]? := by
  rw [created.body]
  exact List.getElem?_toArray

theorem Created.names (created : Created m settings a) : Walk.Names a.layout a.context.symbols := by
  obtain ⟨sound, calls, registered⟩ := created.sound
  refine ⟨sound.symbols, registered.operations, fun {i} live => ?_⟩
  have lt : i < m.body.length := by
    rw [← Flow.size_of_ofBody created.flow]
    exact live.lt created.regular.filled
  have here : m.body[i]? = some m.body[i] := List.getElem?_eq_getElem lt
  exact ⟨m.body[i], by rw [created.getElem?_body, here], Flow.succs_of_ofBody created.flow here,
    named_of_registered created.valid calls registered here⟩

theorem Created.supports (created : Created m settings a) (arity : m.OneArity) :
    Walk.Supports a.layout a.context.symbols := by
  have names := created.names
  refine ⟨names.registry, names.operations, fun {i} live => ?_⟩
  obtain ⟨stmt, here, edges, named⟩ := names.statement live
  have inside : stmt ∈ m.body := List.mem_of_getElem? ((created.getElem?_body i).symm.trans here)
  exact ⟨stmt, here, edges, named.supported (fits_of_oneArity arity created.sound.2.1 named inside)⟩

/-- An analysis of a reducible method without unreachable statements is executed. -/
theorem Created.executes (created : Created m settings a) (unstopped : settings.stops = []) (arity : m.OneArity)
    (tame : a.layout.Tame) : ∃ a' w, a.execute = .ok a' ∧ a'.walk? = some w ∧ a'.layout = a.layout ∧
      a.context.Extends a'.context ∧ a'.context.Sound ∧
      Walk.Through a.layout (.whole []) a.context.symbols a.context.symbols.size [.initial] w a'.context := by
  obtain ⟨w, ctx, returns, e, hc, through⟩ :=
    Walk.ofMethod_solves tame (created.supports arity) created.sound.1 (.refl a.context.symbols)
  refine ⟨{ a with context := ctx, walk? := some w }, w, ?_, rfl, rfl, e, hc, through⟩
  refine (execute_ok created.unexecuted).mpr ⟨w, ctx, ?_, rfl⟩
  rw [created.settings_eq, unstopped]
  exact returns

end Analysis

end PathMerge
