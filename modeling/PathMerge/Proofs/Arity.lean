/-
  PathMerge.Proofs.Arity — with how many arguments a pure method is registered.

  A pure method is registered for the first call in the body whose result is used, with as many arguments as that call
  gives (`Created.arity_eq`); later calls are not looked at, and neither does the check of the method look at the
  arguments. So an analysis can be executed exactly if every live call that uses the result gives as many arguments as
  the first one, dead or not (`executes_iff_arities_agree`). Otherwise it stops at the first such call it comes to.
-/

import PathMerge.Proofs.Execution

namespace PathMerge

open Context

/-- How many arguments the first call of the pure method `name` gives whose result is used. -/
def Method.arity? (m : Method) (name : String) : Option Nat := (m.body.filterMap Statement.applied?).lookup name

namespace Registry

variable {r r' : Registry} {name : String} {n : Nat}

theorem arity?_extends (e : r.Extends r') (h : r.arity? name = some n) : r'.arity? name = some n := by
  unfold arity? at h
  split at h
  · rename_i found
    obtain ⟨f, named, get⟩ := Option.bind_eq_some_iff.mp found
    cases h
    exact arity?_eq (e.functions named) (e.get get)
  · cases h

theorem arity?_none (h : r.functions.lookup name = none) : r.arity? name = none := by
  unfold arity?
  rw [h]
  rfl

end Registry

namespace Analysis

variable {m : Method} {settings : Settings} {a : Analysis} {r : Registry} {ctx ctx' : Context}
  {seen stmts : List Statement}

def Arities (seen : List Statement) (r : Registry) : Prop :=
  ∀ name n, (seen.filterMap Statement.applied?).lookup name = some n → r.arity? name = some n

/-- If no statement applies a pure method, it is not registered. -/
theorem PureCalls.unregistered (calls : PureCalls m r) {name : String} (isPure : Purity.isPure name = true)
    (unused : (m.body.filterMap Statement.applied?).lookup name = none) : r.functions.lookup name = none := by
  cases found : r.functions.lookup name with
  | none => rfl
  | some f =>
    obtain ⟨x, receiver?, callee, args, _, here, rfl, _⟩ := calls isPure found
    have applies :
      (callee.signature, 1 + receiver?.toList.length + args.length) ∈ m.body.filterMap Statement.applied? :=
      List.mem_filterMap.mpr ⟨_, here, Statement.applied?_call isPure⟩
    simpa using List.lookup_eq_none_iff.mp unused _ applies

theorem PureCalls.mono {m' : Method} (calls : PureCalls m r) (sub : ∀ stmt ∈ m.body, stmt ∈ m'.body) :
    PureCalls m' r := by
  intro name f isPure found
  obtain ⟨x, receiver?, callee, args, sort, here, registered⟩ := calls isPure found
  exact ⟨x, receiver?, callee, args, sort, sub _ here, registered⟩

theorem registers_next {stmt : Statement} (hc : ctx.Sound) (calls : PureCalls { m with body := seen } ctx.symbols)
    (h : Returns (registerCall stmt) ctx () ctx') :
    ctx.Extends ctx' ∧ ctx'.Sound ∧ PureCalls { m with body := seen ++ [stmt] } ctx'.symbols := by
  have more : PureCalls { m with body := seen ++ [stmt] } ctx.symbols := calls.mono fun _ => List.mem_append_left _
  obtain ⟨e, hc', calls', _⟩ := registers_call (List.mem_append_right _ List.mem_cons_self) _ _ _ hc more h
  exact ⟨e, hc', calls'⟩

/-- Registering one more call keeps every earlier call at the arity its first occurrence gave it. -/
theorem arities_call {stmt : Statement} (hc : ctx.Sound) (calls : PureCalls { m with body := seen } ctx.symbols)
    (arities : Arities seen ctx.symbols) (h : Returns (registerCall stmt) ctx () ctx') :
    Arities (seen ++ [stmt]) ctx'.symbols := by
  obtain ⟨e, _, _⟩ := registers_next hc calls h
  intro name n found
  rw [List.filterMap_append, List.lookup_append] at found
  cases old : (seen.filterMap Statement.applied?).lookup name with
  | some k =>
    rw [old, Option.some_or] at found
    cases found
    exact Registry.arity?_extends e.symbols (arities name _ old)
  | none =>
    -- The first statement to apply this method.
    rw [old, Option.none_or] at found
    have applied : stmt.applied? = some (name, n) := by
      cases applies : stmt.applied? with
      | none => simp [applies] at found
      | some p =>
        rw [List.filterMap_cons_some applies, List.filterMap_nil] at found
        rcases Registry.lookup_cons found with ⟨rfl, rfl⟩ | no
        · rfl
        · cases no
    obtain ⟨x, receiver?, callee, args, rfl, isPure, rfl, rfl⟩ := Statement.applied?_eq_some applied
    have free := calls.unregistered isPure old
    unfold registerCall at h
    obtain ⟨_, _, got, h⟩ := returns_of_bind h
    cases got
    dsimp only at h
    rw [free, isPure] at h
    obtain ⟨id, ctx₁, registered, h⟩ := returns_of_bind h
    cases h
    obtain ⟨added, _, _⟩ := returns_register hc (fun added => (Registry.addFunction_ok hc.symbols added).1) registered
    refine Registry.arity?_eq ?_ (Registry.addFunction_ok hc.symbols added).2
    rw [Registry.addFunction_functions added]
    exact List.lookup_cons_self

theorem arities_body (hc : ctx.Sound) (calls : PureCalls { m with body := seen } ctx.symbols)
    (arities : Arities seen ctx.symbols) (h : Returns (stmts.forM registerCall) ctx () ctx') :
    Arities (seen ++ stmts) ctx'.symbols := by
  induction stmts generalizing seen ctx with
  | nil =>
    cases h
    rw [List.append_nil]
    exact arities
  | cons stmt rest ih =>
    obtain ⟨⟨⟩, ctx₁, first, h⟩ := returns_of_bind h
    obtain ⟨_, hc₁, calls₁⟩ := registers_next hc calls first
    have all := ih hc₁ calls₁ (arities_call hc calls arities first) h
    rwa [List.append_assoc] at all

theorem arities_registerSymbols (hc : ctx.Sound) (calls : PureCalls { m with body := [] } ctx.symbols)
    (h : Returns (registerSymbols m) ctx () ctx') : Arities m.body ctx'.symbols := by
  rw [registerSymbols_eq] at h
  obtain ⟨⟨⟩, ctx₁, declared, h⟩ := returns_of_bind h
  have none : Registers { m with body := [] } (registerDeclared m) _ := registers_declared
  obtain ⟨_, hc₁, calls₁, _⟩ := none _ _ _ hc calls declared
  have all : Arities ([] ++ m.body) ctx'.symbols := arities_body hc₁ calls₁ (fun _ _ found => by cases found) h
  exact all

/-- A pure method is registered with as many arguments as the first call gives whose result is used. -/
theorem Created.arity_eq (created : Created m settings a) {name : String} (isPure : Purity.isPure name = true) :
    a.context.symbols.arity? name = m.arity? name := by
  cases first : m.arity? name with
  | none => exact Registry.arity?_none (PureCalls.unregistered created.sound.2.1 isPure first)
  | some n =>
    obtain ⟨ctx, made, returned⟩ := created.context
    exact arities_registerSymbols (Context.create_sound made) (pureCalls_create made) returned name n first

/-- A method that is registered already is not registered again. -/
theorem registerCall_known {x : String} {receiver? : Option Operand} {callee : Callee} {args : List Operand}
    (known : Callable (.call (some x) receiver? callee args) ctx.symbols) :
    Returns (registerCall (.call (some x) receiver? callee args)) ctx () ctx := by
  have skipped :
    ¬ (Purity.isPure callee.signature && !(ctx.symbols.functions.lookup callee.signature).isSome) = true := by
    intro registers
    rw [Bool.and_eq_true, Bool.not_eq_true'] at registers
    obtain ⟨f, found⟩ := known rfl registers.1
    rw [found] at registers
    cases registers.2
  change Returns (if _ then _ else _) ctx () ctx
  rw [if_neg skipped]
  rfl

theorem registerCall_again (x x' : String) (receiver? receiver?' : Option Operand) (callee : Callee)
    (args args' : List Operand) : (do
      registerCall (.call (some x) receiver? callee args)
      registerCall (.call (some x') receiver?' callee args')) = registerCall
      (.call (some x) receiver? callee args) := by
  refine ExceptT.ext (StateT.ext fun ctx => ?_)
  rcases first : (registerCall (.call (some x) receiver? callee args)).run.run ctx with ⟨e | ⟨⟩, ctx'⟩
  · exact fails_bind_left first
  · have callable : Callable (.call (some x) receiver? callee args) ctx'.symbols := registerCall_callable first
    refine returns_bind first (registerCall_known fun same isPure => ?_)
    cases same
    exact callable rfl isPure

theorem Created.arity_applied (created : Created m settings a) {stmt : Statement} {name : String} {n : Nat}
    (applied : stmt.applied? = some (name, n)) : a.context.symbols.arity? name = m.arity? name := by
  obtain ⟨_, _, _, _, _, isPure, rfl, _⟩ := Statement.applied?_eq_some applied
  exact created.arity_eq isPure

end Analysis

/-- An analysis that stops nowhere is executed exactly if every live call of a pure method that uses the result gives
as many arguments as the method is registered with, which are those of the first such call in the body. If not, it
fails because a method is applied to another number of arguments. -/
theorem executes_iff_arities_agree {m : Method} {settings : Settings} {a : Analysis}
    (created : Analysis.create m settings = .ok a) (unstopped : settings.stops = []) :
    (∀ name, Purity.isPure name = true → a.context.symbols.arity? name = m.arity? name) ∧
      ((∃ a', a.execute = .ok a') ↔ ∀ i stmt name n, a.layout.flow.Live i → m.body[i]? = some stmt →
        stmt.applied? = some (name, n) → m.arity? name = some n) ∧
      ((¬ ∃ a', a.execute = .ok a') → ∃ i stmt name n, a.layout.flow.Live i ∧ m.body[i]? = some stmt ∧
        stmt.applied? = some (name, n) ∧ m.arity? name ≠ some n ∧
        a.execute = .error (.defect (.wrongArity name n))) := by
  have made := Analysis.created_of_create created
  have failing : (∃ a', a.execute = .ok a') ∨ ∃ i stmt name n, a.layout.flow.Live i ∧ m.body[i]? = some stmt ∧
      stmt.applied? = some (name, n) ∧ m.arity? name ≠ some n ∧ a.execute = .error (.defect (.wrongArity name n)) := by
    refine made.attempt.imp_right fun failed => ?_
    obtain ⟨i, stmt, name, n, live, here, applied, misfit, failed⟩ := failed
    rw [made.arity_applied applied] at misfit
    exact ⟨i, stmt, name, n, live, here, applied, misfit, failed⟩
  refine ⟨fun name isPure => made.arity_eq isPure, ⟨fun executed => ?_, fun agree => ?_⟩, failing.resolve_left⟩
  · obtain ⟨a', executed⟩ := executed
    obtain ⟨w, _, _, covers⟩ := made.covers unstopped executed
    intro i stmt name n live here applied
    rw [← made.arity_applied applied]
    exact covers.fits (covers.ran_iff.mpr live) stmt ((made.getElem?_body i).trans here) applied
  · refine failing.resolve_right fun failed => ?_
    obtain ⟨i, stmt, name, n, live, here, applied, misfit, _⟩ := failed
    exact misfit (agree i stmt name n live here applied)

def Callee.abs : Callee := ⟨"java.lang.Math", "abs", [.int], some .int⟩

/-- Takes the absolute value of its parameter twice, the second time by a call on `receiver?`. -/
def methodTakingAbsTwice (receiver? : Option Operand) : Method where
  owner := "Demo"
  name := "distance"
  params := [("x", .int), ("o", .object "Node")]
  locals := [("r", .int)]
  result? := some .int
  body := [
    .call (some "r") none .abs [.var "x"],
    .call (some "r") receiver? .abs [.var "x"],
    .ret (some (.var "r"))]

/-- Of the two calls only the first registers anything. -/
theorem registerSymbols_abs_twice (receiver? : Option Operand) :
    Analysis.registerSymbols (methodTakingAbsTwice receiver?) = (do
      Analysis.registerDeclared (methodTakingAbsTwice none)
      Analysis.registerCall (.call (some "r") none .abs [.var "x"])) := by
  have body : (methodTakingAbsTwice receiver?).body.forM Analysis.registerCall =
      Analysis.registerCall (.call (some "r") none .abs [.var "x"]) := by
    change (do
      Analysis.registerCall (.call (some "r") none .abs [.var "x"])
      Analysis.registerCall (.call (some "r") receiver? .abs [.var "x"])
      pure ()) = _
    rw [← bind_assoc, Analysis.registerCall_again]
    exact bind_pure _
  rw [Analysis.registerSymbols_eq, body]
  rfl

/-- Two static calls agree, so the analysis is executed. -/
theorem executes_iff_arities_agree_static : ∃ a a', Analysis.create (methodTakingAbsTwice none) ⟨4, []⟩ = .ok a ∧
    a.execute = .ok a' ∧ a.context.symbols.arity? "<java.lang.Math: int abs(int)>" = some 2 := by
  have made : (Analysis.create (methodTakingAbsTwice none) ⟨4, []⟩).map (fun _ => ()) = .ok () := by
    unfold Analysis.create
    rw [registerSymbols_abs_twice]
    cbv
  obtain ⟨a, created, _⟩ := Analysis.exists_of_map made
  obtain ⟨registered, executes, _⟩ := executes_iff_arities_agree created rfl
  have arity : (methodTakingAbsTwice none).arity? "<java.lang.Math: int abs(int)>" = some 2 := by cbv
  have applications : ∀ stmt ∈ (methodTakingAbsTwice none).body,
      stmt.applied? = some ("<java.lang.Math: int abs(int)>", 2) ∨ stmt.applied? = none := by
    simp only [methodTakingAbsTwice, List.forall_mem_cons]
    exact ⟨.inl (by cbv), .inl (by cbv), .inr (by cbv), List.forall_mem_nil _⟩
  obtain ⟨a', executed⟩ := executes.mpr fun i stmt name n _ here applied => by
    rcases applications stmt (List.mem_of_getElem? here) with same | none
    · cases same.symm.trans applied
      exact arity
    · cases none.symm.trans applied
  exact ⟨a, a', created, executed, (registered _ (by cbv)).trans arity⟩

/-- A static call and a call on an object apply the same method to two arguments and to three: the method passes its
check, but the analysis cannot be executed. -/
theorem calls_disagree_on_arity : ∃ a, Analysis.create (methodTakingAbsTwice (some (.var "o"))) ⟨4, []⟩ = .ok a ∧
    a.execute = .error (.defect (.wrongArity "<java.lang.Math: int abs(int)>" 3)) := by
  have run : (Analysis.create (methodTakingAbsTwice (some (.var "o"))) ⟨4, []⟩).map (·.execute.map fun _ => ()) =
      .ok (.error (.defect (.wrongArity "<java.lang.Math: int abs(int)>" 3))) := by
    unfold Analysis.create
    rw [registerSymbols_abs_twice]
    cbv
  obtain ⟨a, created, failed⟩ := Analysis.exists_of_map run
  refine ⟨a, created, ?_⟩
  cases executed : a.execute with
  | ok a' =>
    rw [executed] at failed
    cases failed
  | error e =>
    rw [executed] at failed
    cases failed
    rfl

end PathMerge
