/-
  PathMerge.Proofs.Becomes — what an expression becomes when it is simplified.

  `ctx.Becomes h k` says that simplification turns `h` into `k` in a context that already has every node it makes on the
  way. There is at most one such `k` (`unique`), it is in normal form, and it stays what `h` becomes in all later
  contexts. An application becomes what a law takes it to (`step`), and it does not matter whether its operands are
  simplified before (`congr`). So what a nested term is simplified to is found node by node, and the nodes that an
  argument needs are made in a later context.

  Two expressions that become the same in some context after every context are simplified alike (`SimplifyAlike`),
  whichever comes first.
-/

import PathMerge.Proofs.Repetition

namespace PathMerge

open Context ContextM

variable {ctx ctx' : Context} {op : Operation} {h k k' s s' t : Handle} {args args' : List Handle}

/-! ## Functions of the theories -/

theorem Context.theory?_of_mem {t : Theory} (installed : t ∈ ctx.theories) : ctx.theory? t.name = some t := by
  have found : (ctx.theories.find? (·.name == t.name)).isSome := by
    rw [List.find?_isSome]
    exact ⟨t, installed, by simp⟩
  obtain ⟨u, hu⟩ := Option.isSome_iff_exists.mp found
  have called := List.find?_some hu
  have same : u = t := by
    cases u <;> cases t <;> first | rfl | exact absurd called (by decide)
  exact same ▸ hu

/-- A function of an installed theory is rewritten by the laws of that theory. -/
theorem Context.Names.rewrite_run {op : Operation} {f : SymbolId} (names : ctx.Names op f)
    (installed : op.theory ∈ ctx.theories) (args : List Handle) :
    (ContextM.rewrite f args).run.run ctx = (op.theory.rewrite op.decl.name args).run.run ctx := by
  have named : Returns (asking (·.symbolName f)) ctx op.decl.name ctx := by
    unfold Returns
    rw [asking_run, symbolName_eq names]
  have owned : Returns (asking (·.theoryOf? f)) ctx (some op.theory) ctx := by
    unfold Returns
    rw [asking_run, theoryOf?_eq names rfl, theory?_of_mem installed]
  unfold ContextM.rewrite
  rw [run_bind_ok named, run_bind_ok owned]

theorem ContextM.call_found (hc : ctx.Sound) (app : ctx.Applies op args h) :
    Returns (call op.decl.name args) ctx h ctx := by
  obtain ⟨f, names, node⟩ := app.node
  obtain ⟨_, _, found, _, _, rfl, rfl⟩ := builtin_yields hc (names.lookup hc)
  exact returns_bind found (apply_found hc node app.sign)

/-- `h` is known to be an application of `op`, or known not to be one. -/
theorem ContextM.exists_asApp? (hc : ctx.Sound) (op : Operation) (provided : ctx.symbols.Provides op.theory)
    (has : ctx.Has h) :
    ∃ r, Returns (asking (·.asApp? h op.decl.name)) ctx r ctx ∧ ∀ args, r = some args ↔ ctx.Applies op args h := by
  obtain ⟨r, _, ret, _, _, rfl, only⟩ := (asApp?_spec op h).yields hc ⟨provided, has⟩
  refine ⟨r, ret, fun args => ⟨only args, fun app => ?_⟩⟩
  obtain ⟨f, names, node⟩ := app.node
  have found : ctx.asApp? h op.decl.name = .ok (some args) := by
    unfold asApp? symbolName
    rw [if_neg (by simp [app.sign]), show ctx.node h = _ from InternTable.value_eq_ok.mpr node]
    show (do return if (← (do return (← ctx.symbols.get f).name)) = op.decl.name then some args else none) = _
    rw [Registry.get_eq_ok names]
    exact congrArg Except.ok (if_pos rfl)
  have same := ret.symm.trans ((asking_run _ ctx).trans (congrArg (·, ctx) found))
  exact Except.ok.inj (Prod.mk.inj same).1

/-! ## What an expression becomes -/

/-- Simplification turns `h` into `k`, and everything it makes is there already. -/
def Context.Becomes (ctx : Context) (h k : Handle) : Prop := ∃ depth, Returns (plainWithin depth h) ctx k ctx

namespace Context.Becomes

theorem unique (b : ctx.Becomes h k) (b' : ctx.Becomes h k') : k = k' := by
  obtain ⟨_, ret⟩ := b
  obtain ⟨_, ret'⟩ := b'
  exact (plainWithin_unique ret ret').1

theorem later (later : ctx.Later ctx') (hc : ctx'.Reliable) (b : ctx.Becomes h k) : ctx'.Becomes h k := by
  obtain ⟨depth, ret⟩ := b
  exact ⟨depth, (plainWithin_steady depth h).repeats ret hc.sound.pool.tidy later⟩

theorem normal (hc : ctx.Sound) (has : ctx.Has h) (b : ctx.Becomes h k) : ctx.Normal k := by
  obtain ⟨depth, ret⟩ := b
  exact (simplifyWithin_settles depth ctx h hc has k ctx ret).2.2.1

theorem of_normal (hc : ctx.Sound) (n : ctx.Normal k) : ctx.Becomes k k := ⟨_, n.plain hc (Nat.le_refl _)⟩

theorem all_normal (hc : ctx.Sound) (normal : ∀ a ∈ args, ctx.Normal a) : List.Forall₂ ctx.Becomes args args :=
  List.forall₂_same.mpr fun a ha => of_normal hc (normal a ha)

/-- What was simplified stays what it became. -/
theorem of_simplify (hc : ctx.Reliable) (has : ctx.Has h) (ret : Returns (simplify h) ctx k ctx') :
    ctx'.Becomes h k := by
  obtain ⟨k₁, ref, plain, _, _, settled⟩ := simplify_settled hc has
  obtain ⟨twin, ret₁, reliable, alike⟩ := settled ctx hc (.refl ctx)
  obtain ⟨rfl, rfl⟩ := returns_unique ret ret₁
  exact ⟨_, (plainWithin_steady _ h).repeats plain reliable.sound.pool.tidy alike.symm.later⟩

theorem exists_simplify (hc : ctx.Reliable) (has : ctx.Has h) :
    ∃ k c, Returns (simplify h) ctx k c ∧ ctx.Later c ∧ c.Reliable ∧ c.Becomes h k := by
  obtain ⟨k, c, ret, _⟩ := simplify_yields hc.sound has
  have uniform := simplify_uniform hc has
  exact ⟨k, c, ret, uniform.later_of_returns ret, (uniform.of_returns ret).1, of_simplify hc has ret⟩

/-- Operands become what they become within one depth. -/
theorem exists_depth (all : List.Forall₂ ctx.Becomes args args') :
    ∃ least, ∀ depth, least ≤ depth → Returns (args.mapM (plainWithin depth)) ctx args' ctx := by
  induction all with
  | nil => exact ⟨0, fun _ _ => rfl⟩
  | @cons a a' args args' first _ ih =>
    obtain ⟨d, ret⟩ := first
    obtain ⟨d', rest⟩ := ih
    refine ⟨max d d', fun depth le => ?_⟩
    rw [List.mapM_cons]
    have within := plainWithin_covers (Nat.le_trans (Nat.le_max_left d d') le) a _ _ _ ret
    exact returns_bind within (returns_bind (rest depth (Nat.le_trans (Nat.le_max_right d d') le)) rfl)

end Context.Becomes

def ContextM.reduce (depth : Nat) (f : SymbolId) (args : List Handle) : ContextM Handle := do
  match ← rewrite f args with
  | some result => plainWithin depth result
  | none => apply f args

theorem plainWithin_app {f : SymbolId} {depth : Nat} (node : ctx.pool.node? h = some (.app f args))
    (sign : h.negated = false) (operands : Returns (args.mapM (plainWithin depth)) ctx args' ctx) :
    (plainWithin (depth + 1) h).run.run ctx = (reduce depth f args').run.run ctx := by
  have regular : h.regular = h := by
    conv => rhs; rw [eq_signed_regular h, sign]
    rfl
  have found : Returns (asking (·.node h.regular)) ctx (.app f args) ctx := by
    unfold Returns
    rw [asking_run, regular, show ctx.node h = _ from InternTable.value_eq_ok.mpr node]
  show (asking (·.node h.regular) >>= fun n => rebuild (plainWithin depth) h.regular n >>= fun k =>
    pure (k.signed h.negated)).run.run ctx = _
  rw [run_bind_ok found, sign]
  show ((args.mapM (plainWithin depth) >>= reduce depth f) >>= pure).run.run ctx = _
  rw [bind_pure, run_bind_ok operands]

namespace Context.Becomes

/-- A law takes an application to `t`, and `t` becomes `k`. -/
theorem step (hc : ctx.Sound) (app : ctx.Applies op args s) (normal : ∀ a ∈ args, ctx.Normal a)
    (law : ∀ f, ctx.Names op f → Returns (ContextM.rewrite f args) ctx (some t) ctx) (rest : ctx.Becomes t k) :
    ctx.Becomes s k := by
  obtain ⟨f, names, node⟩ := app.node
  obtain ⟨least, operands⟩ := exists_depth (all_normal hc normal)
  obtain ⟨depth, ret⟩ := rest
  refine ⟨max least depth + 1, ?_⟩
  unfold Returns
  rw [plainWithin_app node app.sign (operands _ (Nat.le_max_left least depth))]
  exact returns_bind (law f names) (plainWithin_covers (Nat.le_max_right least depth) t _ _ _ ret)

/-- It does not matter whether the operands are simplified before. -/
theorem congr (hc : ctx.Sound) (app : ctx.Applies op args s) (app' : ctx.Applies op args' s')
    (all : List.Forall₂ ctx.Becomes args args') (normal : ∀ a ∈ args', ctx.Normal a) (b : ctx.Becomes s' k) :
    ctx.Becomes s k := by
  obtain ⟨f, names, node⟩ := app.node
  obtain ⟨f', names', node'⟩ := app'.node
  obtain rfl := names.unique hc names'
  obtain ⟨least, operands⟩ := exists_depth all
  obtain ⟨least', operands'⟩ := exists_depth (all_normal hc normal)
  obtain ⟨depth, ret⟩ := b
  have within : depth ≤ max (max least least') depth + 1 := by omega
  refine ⟨max (max least least') depth + 1, ?_⟩
  have same := plainWithin_covers within s' _ _ _ ret
  unfold Returns at same ⊢
  rw [plainWithin_app node' app'.sign (operands' _ (by omega))] at same
  rw [plainWithin_app node app.sign (operands _ (by omega)), same]

end Context.Becomes

/-! ## Simplified alike -/

/-- Whichever of the two is simplified first, from then on both are simplified to what it became. -/
def Context.SimplifyAlike (ctx : Context) (a b : Handle) : Prop :=
  ∀ requests, ctx.Allows requests → ∀ x ∈ [a, b], ∃ k c, Returns (simplify x) (ctx.after requests) k c ∧
    ∀ y ∈ [a, b], c.Always (simplify y) k

/-- Two formulas that meet in one normal form, however far the context has grown, simplify alike. -/
theorem Context.SimplifyAlike.of_agree {a b : Handle} (hc : ctx.Reliable) (has : ∀ x ∈ [a, b], ctx.Has x)
    (agree : ∀ c, ctx.Later c → c.Reliable → ∃ d k, c.Later d ∧ d.Reliable ∧ ∀ x ∈ [a, b], d.Becomes x k) :
    ctx.SimplifyAlike a b := by
  intro requests valid x hx
  obtain ⟨later, reliable⟩ := after_later hc valid
  generalize ctx.after requests = c at later reliable
  have has : ∀ x ∈ [a, b], c.Has x := fun x hx => later.extends.has (has x hx)
  obtain ⟨k, c₁, ret, later₁, reliable₁, became⟩ := Becomes.exists_simplify reliable (has x hx)
  refine ⟨k, c₁, ret, fun y hy requests' kept valid' from_ => ?_⟩
  obtain ⟨later₂, reliable₂⟩ := after_later reliable₁ valid'
  have forgotten := reliable₂.forget from_
  have later₂ : c₁.Later { c₁.after requests' with memo := kept } := later₂.trans ⟨.refl _, .refl _, rfl⟩
  generalize { c₁.after requests' with memo := kept } = c₂ at forgotten later₂
  have hasY := (later₁.trans later₂).extends.has (has y hy)
  obtain ⟨k', c₃, ret', later₃, reliable₃, became'⟩ := Becomes.exists_simplify forgotten hasY
  -- both results are what the common form of the two is
  have until_ := later₂.trans later₃
  obtain ⟨d, common, later₄, reliable₄, both⟩ := agree c₃ ((later.trans later₁).trans until_) reliable₃
  have first := (became.later (until_.trans later₄) reliable₄).unique (both x hx)
  have second := (became'.later later₄ reliable₄).unique (both y hy)
  exact ⟨c₃, (second.trans first.symm) ▸ ret'⟩

end PathMerge
