/-
  PathMerge.Proofs.Uniform — actions that do the same in every context that looks the same.

  A context is reliable when it is sound and its memory is faithful. `Uniform x ctx Q` is about one run of
  `x` and about all runs beside it: started in `ctx`, whether it returns or fails, `x` leaves a reliable
  context in which nothing that was there has changed, with `Q` of what it returned; and started in any
  other reliable context with the same nodes, symbols and theories it returns or fails in the same way and
  leaves the same nodes, symbols and theories. Tables and memories do not matter.

  The rules follow the shape of actions; here are those for the actions of a context.
-/

import PathMerge.Proofs.Memory
import PathMerge.Proofs.Creation

namespace PathMerge

open Context ContextM

variable {α β : Type} {ctx ctx' : Context}

structure Context.Reliable (ctx : Context) : Prop where
  sound : ctx.Sound
  faithful : ctx.Faithful

structure Uniform (x : ContextM α) (ctx : Context) (Q : α → Context → Prop) : Prop where
  reliable : (x.run.run ctx).2.Reliable
  later : ctx.Later (x.run.run ctx).2
  result : ∀ {a ctx'}, Returns x ctx a ctx' → Q a ctx'
  same : ∀ {twin}, ctx.Alike twin → twin.Reliable → (x.run.run ctx).1 = (x.run.run twin).1 ∧
    (x.run.run ctx).2.Alike (x.run.run twin).2 ∧ (x.run.run twin).2.Reliable

/-! ## Sound contexts that look the same -/

theorem Pool.Alike.sound {p q : Pool} (h : p.Alike q) (hp : p.Sound) (hq : q.Tidy) : q.Sound := by
  have node : ∀ {h n}, q.node? h = some n → p.node? h = some n := fun {k n} hn => by rwa [h.node? k]
  have shown : p.Extends q := fun {k n} hn => by rwa [← h.node? k]
  refine ⟨hq.table, h.node? .tt ▸ hp.truth, fun hn => hp.below (node hn), hq.sizes, fun {k n} hn => ?_, fun hn => ?_⟩
  · rw [← h.treeSize, hp.tree (node hn), funext h.treeSize]
  · exact Pool.formed_extends shown (fun c hc => hp.has_child (node hn) hc) (hp.formed (node hn))

/-- Of two runs that leave contexts that look the same, one that was sound before is sound after. -/
theorem Context.Alike.sound {twin twin' : Context} (alike : ctx'.Alike twin') (sound' : ctx'.Sound) (sound : twin.Sound)
    (grown : twin.Grown twin') (tidy : twin'.pool.Tidy) : twin'.Sound := by
  have pool := alike.pool.sound sound'.pool tidy
  refine sound.grow grown.later.extends pool ?_ grown.theories (fun found => ?_) fun {h n} hn => ?_
  · rw [grown.symbols]
    exact sound.symbols
  · rwa [grown.memo] at found
  · rw [← alike.symbols]
    exact sound'.registered (alike.pool.node? h ▸ hn)

/-! ## Rules -/

namespace Uniform

variable {Q : α → Context → Prop} {R : β → Context → Prop}

theorem pure {a : α} (hc : ctx.Reliable) (h : Q a ctx) : Uniform (Pure.pure a) ctx Q where
  reliable := hc
  later := .refl ctx
  result ret := by
    cases ret
    exact h
  same alike twin := ⟨rfl, alike, twin⟩

theorem throw {e : Failure} (hc : ctx.Reliable) : Uniform (MonadExcept.throw e) ctx Q where
  reliable := hc
  later := .refl ctx
  result ret := by cases ret
  same alike twin := ⟨rfl, alike, twin⟩

/-- Uniformity composes along the growth of the context. -/
theorem bind {x : ContextM α} {f : α → ContextM β} (hx : Uniform x ctx Q)
    (hf : ∀ a ctx', ctx.Later ctx' → ctx'.Reliable → Q a ctx' → Uniform (f a) ctx' R) : Uniform (x >>= f) ctx R := by
  obtain ⟨reliable, later, result, same⟩ := hx
  rcases run : x.run.run ctx with ⟨e | a, ctx₁⟩
  · rw [run] at reliable later same
    have stopped := run_bind_error (f := f) run
    refine ⟨?_, ?_, fun {b c} ret => ?_, fun {twin} alike reliable' => ?_⟩
    · rwa [stopped]
    · rwa [stopped]
    · cases stopped.symm.trans ret
    · obtain ⟨same, alike', twin'⟩ := same alike reliable'
      rcases run' : x.run.run twin with ⟨r, twin₁⟩
      rw [run'] at same alike' twin'
      dsimp only at same
      subst same
      rw [stopped, run_bind_error run']
      exact ⟨rfl, alike', twin'⟩
  · rw [run] at reliable later same
    have went := run_bind_ok (f := f) run
    have rest := hf a ctx₁ later reliable (result run)
    refine ⟨?_, ?_, fun {b c} ret => rest.result (went.symm.trans ret), fun {twin} alike reliable' => ?_⟩
    · rw [went]
      exact rest.reliable
    · rw [went]
      exact later.trans rest.later
    · obtain ⟨same, alike', twin'⟩ := same alike reliable'
      rcases run' : x.run.run twin with ⟨r, twin₁⟩
      rw [run'] at same alike' twin'
      dsimp only at same
      subst same
      rw [went, run_bind_ok run']
      exact rest.same alike' twin'

theorem mono {x : ContextM α} {Q' : α → Context → Prop} (hx : Uniform x ctx Q)
    (h : ∀ a ctx', ctx.Later ctx' → ctx'.Reliable → Q a ctx' → Q' a ctx') : Uniform x ctx Q' := by
  obtain ⟨reliable, later, result, same⟩ := hx
  refine ⟨reliable, later, fun {a ctx'} ret => ?_, same⟩
  rw [show x.run.run ctx = _ from ret] at reliable later
  exact h a ctx' later reliable (result ret)

theorem returned {x : ContextM α} (hx : Uniform x ctx Q) :
    Uniform x ctx fun a ctx' => Returns x ctx a ctx' ∧ Q a ctx' :=
  ⟨hx.reliable, hx.later, fun ret => ⟨ret, hx.result ret⟩, hx.same⟩

theorem of_returns {x : ContextM α} {a : α} (hx : Uniform x ctx Q) (ret : Returns x ctx a ctx') :
    ctx'.Reliable ∧ Q a ctx' := by
  have reliable := hx.reliable
  rw [show x.run.run ctx = _ from ret] at reliable
  exact ⟨reliable, hx.result ret⟩

theorem map {x : ContextM α} {f : α → β} (hx : Uniform x ctx fun a ctx' => R (f a) ctx') : Uniform (f <$> x) ctx R := by
  rw [map_eq_pure_bind]
  exact hx.bind fun a ctx' _ hc h => Uniform.pure hc h

theorem mapM {f : α → ContextM β} {P : α → β → Context → Prop} (l : List α) (hc : ctx.Reliable)
    (stable : ∀ {a b c c'}, c.Later c' → c'.Reliable → P a b c → P a b c')
    (each : ∀ a ∈ l, ∀ c, ctx.Later c → c.Reliable → Uniform (f a) c (P a)) :
    Uniform (l.mapM f) ctx fun bs c => List.Forall₂ (fun a b => P a b c) l bs := by
  induction l generalizing ctx with
  | nil => exact Uniform.pure hc .nil
  | cons a l ih =>
    rw [List.mapM_cons]
    refine (each a (by simp) ctx (.refl ctx) hc).bind fun b c later hc' hb => ?_
    have rest := ih hc' fun a' ha' c' later' => each a' (List.mem_cons_of_mem _ ha') c' (later.trans later')
    exact rest.bind fun bs c' later' hc'' hbs => Uniform.pure hc'' (.cons (stable later' hc'' hb) hbs)

/-- As `mapM`, where it does not matter which element a result is from. -/
theorem mapM_all {f : α → ContextM β} {P : β → Context → Prop} (l : List α) (hc : ctx.Reliable)
    (stable : ∀ {b c c'}, c.Later c' → c'.Reliable → P b c → P b c')
    (each : ∀ a ∈ l, ∀ c, ctx.Later c → c.Reliable → Uniform (f a) c P) :
    Uniform (l.mapM f) ctx fun bs c => ∀ b ∈ bs, P b c := by
  refine (Uniform.mapM (P := fun _ b c => P b c) l hc stable each).mono fun bs c _ _ related b hb => ?_
  obtain ⟨_, _, h⟩ := Related.exists_left related hb
  exact h

/-- An action that looks at the context, but not at its tables and its memory. -/
theorem get {f : Context → ContextM α} (blind : ∀ twin, ctx.Alike twin → f twin = f ctx) (h : Uniform (f ctx) ctx Q) :
    Uniform (MonadState.get >>= f) ctx Q := by
  have run : ∀ c : Context, (MonadState.get >>= f).run.run c = (f c).run.run c := fun c => run_bind_ok rfl
  obtain ⟨reliable, later, result, same⟩ := h
  refine ⟨?_, ?_, fun {a c} ret => result ((run ctx).symm.trans ret), fun {twin} alike twin' => ?_⟩
  · rwa [run]
  · rwa [run]
  · rw [run, run, blind twin alike]
    exact same alike twin'

theorem asking {question : Context → Except Failure α} (blind : ∀ twin, ctx.Alike twin → question twin = question ctx)
    (hc : ctx.Reliable) : Uniform (ContextM.asking question) ctx fun a c => ctx = c ∧ question ctx = .ok a := by
  refine ⟨?_, ?_, fun {a c} ret => ?_, fun {twin} alike twin' => ?_⟩
  · rwa [asking_run]
  · rw [asking_run]
    exact .refl ctx
  · obtain ⟨asked, rfl⟩ := Prod.mk.inj ((asking_run question ctx).symm.trans ret)
    exact ⟨rfl, asked⟩
  · rw [asking_run, asking_run, blind twin alike]
    exact ⟨rfl, alike, twin'⟩

theorem ofExcept {answer : Except Failure α} (hc : ctx.Reliable) :
    Uniform (ContextM.ofExcept answer) ctx fun a c => ctx = c ∧ answer = .ok a := by
  cases answer with
  | error e => exact Uniform.throw hc
  | ok a => exact Uniform.pure hc ⟨rfl, rfl⟩

/-- A steady action that keeps the context sound. -/
theorem steady {x : ContextM α} (hx : Steady x) (hc : ctx.Reliable) (h : Yields x ctx Q) : Uniform x ctx Q := by
  obtain ⟨a, ctx', ret, _, sound', qa⟩ := h
  have run : x.run.run ctx = (.ok a, ctx') := ret
  have grown := hx.of_returns ret
  have faithful : ∀ {c c' : Context}, c.Faithful → c.Grown c' → c'.pool.Tidy → c'.Faithful := by
    intro c c' faithful grown tidy
    refine faithful.later grown.later tidy fun key k found => ?_
    rwa [grown.memo] at found
  refine ⟨?_, ?_, fun {b c} ret' => ?_, fun {twin} alike twin' => ?_⟩
  · rw [run]
    exact ⟨sound', faithful hc.faithful grown sound'.pool.tidy⟩
  · rw [run]
    exact grown.later
  · obtain ⟨rfl, rfl⟩ := returns_unique ret ret'
    exact qa
  · obtain ⟨same, alike'⟩ := hx.blind hc.sound.pool.tidy twin'.sound.pool.tidy alike
    have tidy := hx.tidies twin'.sound.pool.tidy
    have grown' := hx.grows twin
    refine ⟨same, alike', ?_, faithful twin'.faithful grown' tidy⟩
    rw [run] at alike'
    exact alike'.sound sound' twin'.sound grown' tidy

end Uniform

theorem Registry.get?_of_get {r : Registry} {id : SymbolId} {s : Symbol} (h : r.get id = .ok s) :
    r.get? id = some s := by
  unfold Registry.get at h
  cases found : r.get? id with
  | none =>
    rw [found] at h
    cases h
  | some t =>
    rw [found] at h
    cases h
    rfl

/-- What is recognised as an application has an application's node. -/
theorem Context.asApp?_node {h : Handle} {name : String} {args : List Handle}
    (found : ctx.asApp? h name = .ok (some args)) : ∃ f, ctx.pool.node? h = some (.app f args) := by
  unfold Context.asApp? at found
  split at found
  · cases found
  · cases node : ctx.node h with
    | error e =>
      rw [node] at found
      cases found
    | ok n =>
      rw [node] at found
      cases n with
      | app f args' =>
        have found :
          (ctx.symbolName f >>= fun n => pure (if n = name then some args' else none)) = .ok (some args) := found
        cases named : ctx.symbolName f with
        | error e =>
          rw [named] at found
          cases found
        | ok n =>
          rw [named] at found
          have found : (if n = name then some args' else none) = some args := Except.ok.inj found
          split at found
          · cases found
            exact ⟨f, InternTable.value_eq_ok.mp node⟩
          · cases found
      | _ => cases found

/-! ## Building expressions -/

namespace ContextM

theorem intern_uniform (hc : ctx.Reliable) {n : Node} (children : ∀ c ∈ n.children, ctx.Has c)
    (formed : n.Formed ctx.pool) (named : n.Registered ctx.symbols) : Uniform (intern n) ctx fun h c => c.Has h :=
  (Uniform.steady (intern_steady n) hc (intern_named_yields hc.sound children formed named)).mono
    fun _ _ _ _ made => Pool.has_of_node made.2.2

theorem literal_uniform (hc : ctx.Reliable) (l : Literal) : Uniform (intern (.literal l)) ctx fun h c => c.Has h :=
  intern_uniform hc (List.forall_mem_nil _) trivial trivial

theorem symbol_uniform (hc : ctx.Reliable) {y : SymbolId} (registered : y.number < ctx.symbols.size) :
    Uniform (symbol y) ctx fun h c => c.Has h :=
  intern_uniform hc (List.forall_mem_nil _) trivial (Registry.get?_of_lt registered)

/-- Applying a symbol that is no function, or to the wrong number of arguments, fails and changes nothing. -/
theorem apply_uniform (hc : ctx.Reliable) (f : SymbolId) {args : List Handle} (has : ∀ a ∈ args, ctx.Has a) :
    Uniform (apply f args) ctx fun h c => c.Has h := by
  unfold apply
  refine (Uniform.asking (fun twin alike => by rw [alike.symbols]) hc).bind ?_
  rintro ⟨name, sort, kind⟩ _ _ _ ⟨rfl, known⟩
  cases kind with
  | function arity owner =>
    dsimp only
    split
    · rename_i right
      subst right
      exact intern_uniform hc has trivial ⟨name, sort, owner, Registry.get?_of_get known⟩
    · exact Uniform.throw hc
  | _ => exact Uniform.throw hc

theorem builtin_uniform (hc : ctx.Reliable) (name : String) : Uniform (builtin name) ctx fun _ c => ctx = c := by
  unfold builtin
  refine Uniform.get (fun twin alike => by rw [alike.symbols]) ?_
  cases ctx.symbols.functions.lookup name with
  | none => exact Uniform.throw hc
  | some id => exact Uniform.pure hc rfl

theorem call_uniform (hc : ctx.Reliable) (name : String) {args : List Handle} (has : ∀ a ∈ args, ctx.Has a) :
    Uniform (call name args) ctx fun h c => c.Has h := by
  refine (builtin_uniform hc name).bind ?_
  rintro f _ _ _ rfl
  exact apply_uniform hc f has

theorem equation_uniform (hc : ctx.Reliable) {a b : Handle} (ha : ctx.Has a) (hb : ctx.Has b) :
    Uniform (equation a b) ctx fun h c => c.Has h :=
  (Uniform.steady (equation_straight a b).toSteady hc (equation_yields hc.sound ha hb)).mono fun _ _ _ _ made => made.1

theorem join_uniform (hc : ctx.Reliable) (c : Connective) {items : List Handle} (has : ∀ h ∈ items, ctx.Has h) :
    Uniform (onPool (PoolM.join c items)) ctx fun h c => c.Has h :=
  (Uniform.steady (join_straight c items).toSteady hc (join_yields hc.sound c has)).mono fun _ _ _ _ made => made.1

theorem choice_uniform (hc : ctx.Reliable) {bs : List Branch} (has : ctx.pool.HasAll bs) :
    Uniform (choice bs) ctx fun h c => c.Has h := by
  by_cases some : bs = []
  · subst some
    exact Uniform.throw hc
  · exact (Uniform.steady (choice_steady bs) hc (choice_yields hc.sound has some)).mono fun _ _ _ _ made => made.1

/-! ## Symbols -/

/-- A registration, refused or not. -/
theorem register_uniform (hc : ctx.Reliable) {add : Registry → Except Failure (SymbolId × Registry)}
    (grown : ∀ {id r}, add ctx.symbols = .ok (id, r) → ctx.symbols.Grown r) :
    Uniform (register add) ctx fun id c => ∃ r, add ctx.symbols = .ok (id, r) ∧ c.symbols = r := by
  unfold register
  refine (Uniform.asking (fun twin alike => by rw [alike.symbols]) hc).bind ?_
  rintro ⟨id, r⟩ _ _ _ ⟨rfl, added⟩
  have extended := (grown added).2
  -- The memory and the pool are untouched, on both sides.
  have reliable : ∀ {c : Context}, c.Reliable → c.symbols = ctx.symbols → Context.Reliable { c with symbols := r } := by
    intro c hc same
    have extended' : c.symbols.Extends r := same ▸ extended
    have later : c.Later { c with symbols := r } := ⟨.refl _, extended', rfl⟩
    have sound : Context.Sound { c with symbols := r } :=
      hc.sound.grow later.extends hc.sound.pool (grown added).1 rfl (fun h => h)
        fun hn => (hc.sound.registered hn).extends extended'
    exact ⟨sound, hc.faithful.later later hc.sound.pool.tidy fun _ _ found => found⟩
  refine ⟨reliable hc rfl, ⟨.refl _, extended, rfl⟩, fun {id' c} ret => ?_, fun {twin} alike twin' => ?_⟩
  · cases ret
    exact ⟨r, added, rfl⟩
  · exact ⟨rfl, ⟨alike.pool, rfl, alike.theories⟩, reliable twin' alike.symbols.symm⟩

theorem fresh_uniform (hc : ctx.Reliable) (base : String) (sort : ValueSort) :
    Uniform (fresh base sort) ctx fun id c => id.number < c.symbols.size := by
  refine (register_uniform hc fun added => ?_).mono ?_
  · cases added
    exact Registry.addFresh_grown hc.sound.symbols base sort
  · rintro id c _ _ ⟨r, added, symbols⟩
    have made : ctx.symbols.addFresh base sort = (id, r) := Except.ok.inj added
    have number : id = ⟨ctx.symbols.size⟩ := (congrArg Prod.fst made).symm
    have size : r.size = ctx.symbols.size + 1 := by
      rw [← Registry.addFresh_size ctx.symbols base sort, made]
    rw [symbols, size, number]
    exact Nat.lt_succ_self _

/-- A name resolves only to a registered symbol. -/
theorem lookup_registered {r : Registry} (hr : r.Sound) {name : String} {id : SymbolId} (h : r.lookup name = .ok id) :
    id.number < r.size := by
  unfold Registry.lookup at h
  dsimp only at h
  cases found : (r.locals.lookup name).or
      (if name == Registry.heapName then some Registry.heap
        else if name == Registry.resultName then r.result? else none) with
  | none =>
    rw [found] at h
    cases h
  | some id' =>
    rw [found] at h
    cases h
    rcases Option.or_eq_some_iff.mp found with known | ⟨_, known⟩
    · obtain ⟨s, hs, _⟩ := hr.locals known
      exact Registry.get?_eq_some_lt hs
    · split at known
      · cases known
        exact Registry.get?_eq_some_lt hr.heap
      · split at known
        · obtain ⟨sort, hs⟩ := hr.result known
          exact Registry.get?_eq_some_lt hs
        · cases known

theorem lookup_uniform (hc : ctx.Reliable) (name : String) :
    Uniform (lookup name) ctx fun id c => ctx = c ∧ id.number < ctx.symbols.size := by
  refine (Uniform.asking (fun twin alike => by rw [alike.symbols]) hc).mono ?_
  rintro id c _ _ ⟨rfl, found⟩
  exact ⟨rfl, lookup_registered hc.sound.symbols found⟩

/-! ## Simplification -/

/-- What simplification without a memory returns is what the simplifier returns, and a normal form. -/
theorem simplify_settled (hc : ctx.Reliable) {h : Handle} (hh : ctx.Has h) : ∃ k ref,
    Returns (plainWithin (ctx.pool.treeSize h) h) ctx k ref ∧ ctx.Later ref ∧ ref.Normal k ∧
      ∀ twin, twin.Reliable → twin.Alike ctx → ∃ twin', Returns (simplify h) twin k twin' ∧ twin'.Reliable ∧
        twin'.Alike ref := by
  obtain ⟨k, ref, plain, _⟩ := plainWithin_simplifies _ hc.sound hh (Pool.weight_le_treeSize hc.sound.pool hh)
  obtain ⟨later, _, normal, mirrored⟩ := simplifyWithin_settles _ ctx h hc.sound hh k ref plain
  refine ⟨k, ref, plain, later, normal, fun twin reliable alike => ?_⟩
  obtain ⟨twin', ret, reflects⟩ := mirrored twin ⟨alike, reliable.sound.pool.tidy, reliable.faithful⟩
  have run : Returns (simplify h) twin k twin' := by
    unfold simplify
    refine returns_bind (show Returns (MonadState.get : ContextM Context) twin twin twin from rfl) ?_
    rw [alike.pool.treeSize]
    exact ret
  have has : twin.Has h := alike.symm.later.extends.has hh
  obtain ⟨_, sound, _⟩ := (simplify_yields reliable.sound has).of_returns run
  exact ⟨twin', run, ⟨sound, reflects.faithful⟩, reflects.alike⟩

theorem simplify_uniform (hc : ctx.Reliable) {h : Handle} (hh : ctx.Has h) :
    Uniform (simplify h) ctx fun k c => c.Normal k := by
  obtain ⟨k, ref, _, later, normal, settled⟩ := simplify_settled hc hh
  obtain ⟨ctx', ret, reliable, alike⟩ := settled ctx hc ⟨⟨rfl, rfl⟩, rfl, rfl⟩
  have run : (simplify h).run.run ctx = (.ok k, ctx') := ret
  refine ⟨?_, ?_, fun {k' c} ret' => ?_, fun {twin} same twin' => ?_⟩
  · rwa [run]
  · rw [run]
    exact later.trans alike.symm.later
  · obtain ⟨rfl, rfl⟩ := returns_unique ret ret'
    exact normal.later alike.symm.later reliable.sound.pool.tidy
  · obtain ⟨c, ret', reliable', alike'⟩ := settled twin twin' same.symm
    rw [run, show (simplify h).run.run twin = _ from ret']
    exact ⟨rfl, alike.trans alike'.symm, reliable'⟩

end ContextM

end PathMerge
