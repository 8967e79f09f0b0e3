/-
  PathMerge.Proofs.Building — what the actions that build expressions return.

  For each action of a context, two facts side by side. On its own it is straight, or at least steady.
  Started in a sound context on handles that are there, it returns, the context only grows, and the handle
  it returns has the value one expects and is decided where its operands are.
-/

import PathMerge.Proofs.Decided

namespace PathMerge

namespace ContextM

open Context

variable {α : Type} {ctx : Context}

/-! ## Asking, and acting on a part -/

theorem asking_yields (hc : ctx.Sound) {question : Context → Except Failure α} {a : α}
    (h : question ctx = .ok a) : Yields (asking question) ctx fun b ctx' => a = b ∧ ctx = ctx' := by
  refine ⟨a, ctx, ?_, .refl ctx, hc, rfl, rfl⟩
  unfold Returns asking
  rw [run_bind]
  show (ofExcept (question ctx)).run.run ctx = _
  rw [h]
  rfl

theorem ofExcept_yields (hc : ctx.Sound) {answer : Except Failure α} {a : α} (h : answer = .ok a) :
    Yields (ofExcept answer) ctx fun b ctx' => a = b ∧ ctx = ctx' := by
  subst h
  exact Yields.pure hc ⟨rfl, rfl⟩

theorem get_yields (hc : ctx.Sound) : Yields (get : ContextM Context) ctx fun c ctx' => ctx = c ∧ ctx = ctx' :=
  ⟨ctx, ctx, rfl, .refl ctx, hc, rfl, rfl⟩

theorem onPool_yields (hc : ctx.Sound) {x : PoolM α} {Q : α → Pool → Prop} (h : Yields x ctx.pool Q) :
    Yields (onPool x) ctx fun a ctx' => ctx'.symbols = ctx.symbols ∧ Q a ctx'.pool := by
  obtain ⟨a, p, ret, ⟨ext, plain⟩, sound, hQ⟩ := h
  have e : ctx.Extends ⟨p, ctx.symbols, ctx.memo, ctx.theories⟩ := ⟨ext, .refl _⟩
  refine ⟨a, ⟨p, ctx.symbols, ctx.memo, ctx.theories⟩, ?_, e, ?_, rfl, hQ⟩
  · have : x ctx.pool = (.ok a, p) := ret
    show ((x ctx.pool).1, (⟨(x ctx.pool).2, ctx.symbols, ctx.memo, ctx.theories⟩ : Context)) = _
    rw [this]
  · refine hc.grow e sound hc.symbols rfl (fun h => h) fun {h n} hn => ?_
    exact (plain hn).elim hc.registered (Node.Plain.registered _)

theorem intern_steady (n : Node) : Steady (intern n) := onPool_steady (PoolM.intern_steady n)

theorem intern_straight {n : Node} (single : ∀ bs, n ≠ .summary bs) : Straight (intern n) :=
  onPool_straight (PoolM.intern_straight single)

/-- Interning a node whose operands are there and whose symbols are registered. -/
theorem intern_named_yields (hc : ctx.Sound) {n : Node} (children : ∀ c ∈ n.children, ctx.Has c)
    (formed : n.Formed ctx.pool) (named : n.Registered ctx.symbols) :
    Yields (intern n) ctx fun h ctx' => ctx'.symbols = ctx.symbols ∧ h.negated = false ∧
      ctx'.pool.node? h = some n := by
  have e : ctx.Extends ⟨(ctx.pool.put n).2, ctx.symbols, ctx.memo, ctx.theories⟩ :=
    ⟨Pool.extends_put _ n, .refl _⟩
  refine ⟨(ctx.pool.put n).1, ⟨(ctx.pool.put n).2, ctx.symbols, ctx.memo, ctx.theories⟩, rfl, e, ?_, rfl, rfl,
    Pool.node?_put _ n⟩
  refine hc.grow e (Pool.put_sound hc.pool children formed) hc.symbols rfl (fun h => h) fun {h m} hm => ?_
  rcases Pool.node?_of_put hm with old | ⟨_, rfl⟩
  · exact hc.registered old
  · exact named

/-! ## Symbols -/

theorem register_yields (hc : ctx.Sound) {add : Registry → Except Failure (SymbolId × Registry)} {id : SymbolId}
    {r : Registry} (h : add ctx.symbols = .ok (id, r)) (grown : ctx.symbols.Grown r) :
    Yields (register add) ctx fun id' ctx' => id = id' ∧ ctx'.symbols = r ∧ ctx'.pool = ctx.pool := by
  have e : ctx.Extends { ctx with symbols := r } := ⟨fun h => h, grown.2⟩
  have hc' : Context.Sound { ctx with symbols := r } :=
    hc.grow e hc.pool grown.1 rfl (fun h => h) fun hn => (hc.registered hn).extends grown.2
  unfold register
  refine (asking_yields hc h).bind ?_
  rintro _ _ _ _ ⟨rfl, rfl⟩
  exact ⟨id, _, rfl, e, hc', rfl, rfl, rfl⟩

/-- A fresh symbol has the next number. -/
theorem fresh_yields (hc : ctx.Sound) (base : String) (sort : ValueSort) :
    Yields (fresh base sort) ctx fun id ctx' => id = ⟨ctx.symbols.size⟩ ∧
      ctx'.symbols.size = ctx.symbols.size + 1 ∧ ctx'.pool = ctx.pool ∧
      ctx'.symbols.get? id = some ⟨ctx.symbols.freshName base, sort, .fresh⟩ := by
  refine (register_yields hc rfl (Registry.addFresh_grown hc.symbols base sort)).mono ?_
  rintro id ctx' _ _ ⟨rfl, symbols, pool⟩
  refine ⟨rfl, by rw [symbols, Registry.addFresh_size], pool, ?_⟩
  rw [symbols]
  exact Registry.get?_push_new ctx.symbols _

theorem lookup_yields (hc : ctx.Sound) {name : String} {id : SymbolId}
    (h : ctx.symbols.locals.lookup name = some id) :
    Yields (lookup name) ctx fun id' ctx' => id = id' ∧ ctx = ctx' := by
  refine asking_yields hc ?_
  show ctx.symbols.lookup name = _
  unfold Registry.lookup
  rw [h]
  rfl

/-! ## Leaves -/

structure Constant (x : Value) (h : Handle) (ctx : Context) : Prop where
  has : ctx.Has h
  eval : ∀ I v, ctx.eval I v h = some x
  weight : ctx.weight h = 1
  decided : ∀ I v, ctx.Decided I v h

theorem literal_straight (l : Literal) : Straight (intern (.literal l)) := intern_straight fun _ e => by cases e

theorem literal_yields (hc : ctx.Sound) (l : Literal) :
    Yields (intern (.literal l)) ctx (Constant l.value) := by
  refine (intern_named_yields hc (n := .literal l) (fun _ h => by cases h) trivial trivial).mono ?_
  rintro h ctx' _ hc' ⟨_, sign, hn⟩
  refine ⟨Pool.has_of_node hn, fun I v => Pool.eval_node hc'.pool hn sign, Pool.weight_eq hc'.pool hn, fun I v => ?_⟩
  exact .intro hn (List.forall_mem_nil _) fun _ e => by cases e

theorem integer_yields (hc : ctx.Sound) (n : Int) : Yields (integer n) ctx (Constant (.int n)) :=
  literal_yields hc (.int n)

theorem null_yields (hc : ctx.Sound) : Yields null ctx (Constant (.scalar (.ref .null))) :=
  literal_yields hc .null

theorem field_yields (hc : ctx.Sound) (name : String) :
    Yields (field name) ctx (Constant (.selector (.field name))) :=
  literal_yields hc (.field name)

structure Stands (ctx : Context) (y : SymbolId) (h : Handle) : Prop where
  sign : h.negated = false
  node : ctx.pool.node? h = some (.symbol y)

theorem Stands.has {y : SymbolId} {h : Handle} (s : Stands ctx y h) : ctx.Has h := Pool.has_of_node s.node

theorem Stands.eval (hc : ctx.Sound) {y : SymbolId} {h : Handle} (s : Stands ctx y h) (I : Interpretation)
    (v : Valuation) : ctx.eval I v h = some (v y) :=
  Pool.eval_node hc.pool s.node s.sign

theorem Stands.decided {y : SymbolId} {h : Handle} (s : Stands ctx y h) (I : Interpretation) (v : Valuation) :
    ctx.Decided I v h :=
  .intro s.node (List.forall_mem_nil _) fun _ e => by cases e

theorem symbol_straight (y : SymbolId) : Straight (symbol y) := intern_straight fun _ e => by cases e

theorem symbol_yields (hc : ctx.Sound) {y : SymbolId} (registered : y.number < ctx.symbols.size) :
    Yields (symbol y) ctx fun h ctx' => Stands ctx' y h := by
  refine (intern_named_yields hc (n := .symbol y) (fun _ h => by cases h) trivial
    (Registry.get?_of_lt registered)).mono ?_
  rintro h ctx' _ hc' ⟨_, sign, hn⟩
  exact ⟨sign, hn⟩

/-! ## Applications -/

noncomputable def appliedSymbol (ctx : Context) (I : Interpretation) (v : Valuation) (s : Symbol)
    (args : List Handle) : Option Value :=
  (args.mapM (ctx.eval I v)).bind (s.apply I)

theorem apply_straight (f : SymbolId) (args : List Handle) : Straight (apply f args) := by
  unfold apply
  refine (asking_straight (.symbol f)).bind fun s => ?_
  split
  · exact .ite (intern_straight fun _ e => by cases e) (.throw _)
  · exact .throw _

/-- An application of a registered function denotes that function at the values of its arguments. -/
theorem apply_yields (hc : ctx.Sound) {f : SymbolId} {s : Symbol} {args : List Handle} {owner : String}
    (hf : ctx.symbols.get? f = some s) (kind : s.kind = .function args.length owner)
    (has : ∀ a ∈ args, ctx.Has a) :
    Yields (apply f args) ctx fun h ctx' => h.negated = false ∧ ctx'.symbols = ctx.symbols ∧
      ctx'.pool.node? h = some (.app f args) := by
  unfold apply
  refine (asking_yields hc (a := s) (Registry.get_eq_ok hf)).bind ?_
  rintro _ _ _ _ ⟨rfl, rfl⟩
  rw [kind]
  dsimp only
  rw [if_pos rfl]
  refine (intern_named_yields hc (n := .app f args) has trivial ?_).mono ?_
  · obtain ⟨name, sort, _⟩ := s
    cases kind
    exact ⟨name, sort, owner, hf⟩
  · rintro h ctx' _ hc' ⟨symbols, sign, hn⟩
    exact ⟨sign, symbols, hn⟩

theorem eval_app (hc : ctx.Sound) {f : SymbolId} {s : Symbol} {args : List Handle} {h : Handle}
    (hf : ctx.symbols.get? f = some s) (hn : ctx.pool.node? h = some (.app f args)) (sign : h.negated = false)
    (I : Interpretation) (v : Valuation) : ctx.eval I v h = appliedSymbol ctx I v s args := by
  unfold Context.eval
  rw [Pool.eval_node hc.pool hn sign]
  show (args.mapM (ctx.eval I v)).bind (fun xs => (ctx.symbols.get? f).bind _) = _
  rw [hf]
  rfl

theorem builtin_run (name : String) (ctx : Context) : (builtin name).run.run ctx =
    ((ctx.symbols.functions.lookup name).elim (.error (.defect (.unknownBuiltin name))) .ok, ctx) := by
  unfold builtin
  have got : (get : ContextM Context).run.run ctx = (.ok ctx, ctx) := rfl
  rw [run_bind_ok got]
  cases ctx.symbols.functions.lookup name <;> rfl

/-- A built-in that was found is found again, however far the registry grows. -/
theorem builtin_straight (name : String) : Straight (builtin name) where
  grows ctx := by
    rw [builtin_run]
    exact Lasting.grown_refl ctx
  tidies hs := by
    rw [builtin_run]
    exact hs
  repeats {ctx id ctx' later} ret _ grown := by
    have run := (builtin_run name ctx).symm.trans ret
    obtain ⟨found, rfl⟩ := Prod.mk.inj run
    show (builtin name).run.run later = _
    rw [builtin_run]
    rcases known : ctx.symbols.functions.lookup name with _ | f
    · rw [known] at found
      cases found
    · rw [known] at found
      rw [grown.symbols.functions known]
      exact Prod.ext found rfl
  blind {ctx ctx'} _ _ alike := by
    rw [builtin_run, builtin_run, alike.symbols]
    exact ⟨rfl, alike⟩
  unforked ctx h bs hn := by
    rwa [builtin_run] at hn

theorem builtin_yields (hc : ctx.Sound) {name : String} {f : SymbolId}
    (hf : ctx.symbols.functions.lookup name = some f) :
    Yields (builtin name) ctx fun g ctx' => f = g ∧ ctx = ctx' := by
  unfold builtin
  refine (get_yields hc).bind ?_
  rintro _ _ _ _ ⟨rfl, rfl⟩
  rw [hf]
  exact Yields.pure hc ⟨rfl, rfl⟩

theorem call_straight (name : String) (args : List Handle) : Straight (call name args) :=
  (builtin_straight name).bind fun f => apply_straight f args

theorem call_yields (hc : ctx.Sound) (op : Operation) (provided : ctx.symbols.Provides op.theory) (args : List Handle)
    (arity : args.length = op.decl.arity) (has : ∀ a ∈ args, ctx.Has a) :
    Yields (call op.decl.name args) ctx fun h ctx' => ctx'.Applies op args h := by
  obtain ⟨f, hf⟩ : ∃ f, ctx.Names op f := provided op rfl
  unfold call
  refine (builtin_yields hc (hf.lookup hc)).bind ?_
  rintro _ _ _ _ ⟨rfl, rfl⟩
  refine (apply_yields hc hf (by rw [arity]) has).mono ?_
  rintro h ctx' _ _ ⟨sign, symbols, hn⟩
  refine ⟨sign, f, ?_, hn⟩
  unfold Names
  rw [symbols]
  exact hf

/-! ## Connectives, equations, choices -/

noncomputable def branches (ctx : Context) (I : Interpretation) (v : Valuation) (bs : List Branch) :
    List (Option Bool × Option Value) :=
  bs.map fun b => (ctx.holds I v b.1, ctx.eval I v b.2)

theorem meaning_eq {ctx ctx' : Context} (symbols : ctx'.symbols = ctx.symbols) (I : Interpretation)
    (v : Valuation) : ctx'.meaning I v = ctx.meaning I v := by
  unfold meaning
  rw [symbols]

structure Joins (ctx : Context) (c : Connective) (items : List Handle) (h : Handle) (ctx' : Context) : Prop where
  has : ctx'.Has h
  value : ∀ I v, Below (c.value (items.map (ctx.holds I v))) (ctx'.holds I v h)
  weight : ctx'.weight h ≤ 1 + largest (items.map ctx.weight)
  decided : ∀ {I v}, (∀ a ∈ items, ctx.Decided I v a) → ctx'.Decided I v h

structure Equates (ctx : Context) (a b h : Handle) (ctx' : Context) : Prop where
  has : ctx'.Has h
  value : ∀ I v, Below (ctx.pool.same (ctx.meaning I v) a b) (ctx'.eval I v h)
  weight : ctx'.weight h ≤ 1 + (ctx.weight a + ctx.weight b)
  decided : ∀ {I v}, ctx.Decided I v a → ctx.Decided I v b → ctx'.Decided I v h

theorem join_straight (c : Connective) (items : List Handle) : Straight (onPool (PoolM.join c items)) :=
  onPool_straight (PoolM.join_straight c items)

theorem equation_straight (a b : Handle) : Straight (equation a b) := onPool_straight (PoolM.equation_straight a b)

theorem choice_steady (branches : List Branch) : Steady (choice branches) :=
  onPool_steady (PoolM.choice_steady branches)

section OnPool

variable (hc : ctx.Sound)

include hc

theorem join_yields (c : Connective) {items : List Handle} (has : ∀ h ∈ items, ctx.Has h) :
    Yields (onPool (PoolM.join c items)) ctx fun h ctx' => Joins ctx c items h ctx' := by
  obtain ⟨h, ctx', ret, e, hc', symbols, joined⟩ := onPool_yields hc (PathMerge.join_yields hc.pool has)
  refine ⟨h, ctx', ret, e, hc', joined.has, fun I v => ?_, joined.weight, fun {I v} inside => ?_⟩
  · unfold Context.holds
    rw [meaning_eq symbols]
    exact joined.value _
  · obtain ⟨p, made, rfl⟩ := returns_onPool.mp ret
    exact PoolM.join_decided hc.pool inside made

theorem equation_yields {a b : Handle} (ha : ctx.Has a) (hb : ctx.Has b) :
    Yields (equation a b) ctx fun h ctx' => Equates ctx a b h ctx' := by
  obtain ⟨h, ctx', ret, e, hc', symbols, equated⟩ := onPool_yields hc (PathMerge.equation_yields hc.pool ha hb)
  refine ⟨h, ctx', ret, e, hc', equated.has, fun I v => ?_, equated.weight, fun {I v} left right => ?_⟩
  · unfold Context.eval
    rw [meaning_eq symbols]
    exact equated.value _
  · obtain ⟨p, made, rfl⟩ := returns_onPool.mp ret
    exact PoolM.equation_decided hc.pool left right made

theorem choice_yields {bs : List Branch} (has : ctx.pool.HasAll bs) (ne : bs ≠ []) :
    Yields (choice bs) ctx fun h ctx' => ctx'.Has h ∧
      (∀ I v, Below (pick (branches ctx I v bs)) (ctx'.eval I v h)) ∧
      ctx'.weight h ≤ 1 + ctx.pool.branchWeight bs := by
  refine (onPool_yields hc (PathMerge.choice_yields hc.pool has ne)).mono ?_
  rintro h ctx' _ _ ⟨symbols, chosen⟩
  refine ⟨chosen.has, fun I v => ?_, chosen.weight⟩
  unfold Context.eval
  rw [meaning_eq symbols]
  exact chosen.value _

end OnPool

/-! ## The memory of the simplifier -/

/-- What the memo answers is what was just remembered, or what it answered before. -/
theorem find?_remember {m : Memo} {key value key' k : Handle} (h : (m.remember key value).find? key' = some k) :
    (key' = key ∧ k = value) ∨ m.find? key' = some k := by
  unfold Memo.find? Memo.remember at *
  dsimp only at h
  rw [Slots.get?_set] at h
  split at h
  · rename_i slot e
    split at e
    · cases e
      split at h
      · rename_i same
        exact .inl ⟨same.symm, (Option.some.inj h).symm⟩
      · cases h
    · rw [e]
      exact .inr h
  · cases h

/-- Looking something up counts, and forgets nothing. -/
theorem memo_fetch (m : Memo) (key : Handle) :
    (m.fetch key).1 = m.find? key ∧ ∀ k, (m.fetch key).2.find? k = m.find? k := by
  unfold Memo.fetch
  cases m.find? key <;> exact ⟨rfl, fun _ => rfl⟩

theorem fetch_yields (hc : ctx.Sound) (key : Handle) :
    Yields (fetch key) ctx fun r _ => r = ctx.memo.find? key := by
  have same := memo_fetch ctx.memo key
  have e : ctx.Extends { ctx with memo := (ctx.memo.fetch key).2 } := ⟨fun h => h, .refl _⟩
  refine ⟨_, _, rfl, e, ?_, same.1⟩
  exact hc.grow e hc.pool hc.symbols rfl (fun h => by rwa [← same.2]) hc.registered

theorem remember_yields (hc : ctx.Sound) {key value : Handle} (has : ctx.Has key)
    (refined : ctx.Refined key value ctx) : Yields (remember key value) ctx fun _ _ => True := by
  have e : ctx.Extends { ctx with memo := ctx.memo.remember key value } := ⟨fun h => h, .refl _⟩
  refine ⟨(), _, rfl, e, ?_, trivial⟩
  refine ⟨hc.pool, hc.symbols, hc.provides, hc.registered, fun hm => ?_⟩
  rcases find?_remember hm with ⟨rfl, rfl⟩ | old
  · exact ⟨has, refined.extends hc e has⟩
  · exact ⟨(hc.memo old).1, (hc.memo old).2.extends hc e (hc.memo old).1⟩

end ContextM

end PathMerge
