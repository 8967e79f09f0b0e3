/-
  PathMerge.Proofs.Leaf — the state at the head of an arbitrary iteration.

  The leaf of a loop knows nothing but the store. It is what the states that enter the loop merge into, with the
  modified symbols bound to fresh ones. The fresh symbols were registered after the loop was entered, so they
  occur in none of the states that entered it (`Context.Mentions.registered`). Simplifying the leaf changes
  nothing in it: a symbol is as simple as can be, and the rest is simplified already (`Closes.leaf`).
-/

import PathMerge.Proofs.Unwritten

namespace PathMerge

/-! ## Where a symbol occurs -/

inductive Context.Mentions (ctx : Context) (y : SymbolId) : Handle → Prop
  | symbol {h : Handle} (node : ctx.pool.node? h = some (.symbol y)) : Mentions ctx y h
  | function {h : Handle} {args : List Handle} (node : ctx.pool.node? h = some (.app y args)) : Mentions ctx y h
  | operand {h c : Handle} {n : Node} (node : ctx.pool.node? h = some n) (child : c ∈ n.children)
      (inside : Mentions ctx y c) : Mentions ctx y h

/-- The symbol occurs in the state: it is bound, or occurs in a constraint or in what another one is bound to. -/
def State.Mentions (ctx : Context) (s : State) (y : SymbolId) : Prop :=
  (∃ h, s.store.get? y = some h) ∨ (∃ h ∈ s.path.items, ctx.Mentions y h) ∨
    ∃ x h, s.store.get? x = some h ∧ ctx.Mentions y h

/-- What occurs in an expression was registered when the expression was built, or before. -/
theorem Context.Mentions.registered {ctx ctx' : Context} {y : SymbolId} {h : Handle} (hc : ctx.Sound)
    (e : ctx.Extends ctx') (has : ctx.Has h) (mentions : ctx'.Mentions y h) : y.number < ctx.symbols.size := by
  induction mentions with
  | symbol node =>
    rw [Pool.Extends.node? e.pool has] at node
    obtain ⟨s, get⟩ := hc.registered node
    exact Registry.get?_eq_some_lt get
  | function node =>
    rw [Pool.Extends.node? e.pool has] at node
    obtain ⟨_, _, _, get⟩ := hc.registered node
    exact Registry.get?_eq_some_lt get
  | operand node child _ ih =>
    rw [Pool.Extends.node? e.pool has] at node
    exact ih (hc.pool.has_child node child)

theorem State.Mentions.registered {ctx ctx' : Context} {y : SymbolId} {s : State} (hc : ctx.Sound)
    (e : ctx.Extends ctx') (valid : s.Valid ctx) (mentions : s.Mentions ctx' y) : y.number < ctx.symbols.size := by
  rcases mentions with ⟨h, bound⟩ | ⟨h, hh, inside⟩ | ⟨x, h, bound, inside⟩
  · exact (valid.store bound).2
  · exact inside.registered hc e (valid.path h hh)
  · exact inside.registered hc e (valid.store bound).1

/-! ## Leaves -/

namespace Walk

variable {lay : Layout} {r : Registry} {base ctx ctx' : Context} {nesting id : Nat} {l : Loop} {states : List State}
  {store : Store} {rd : Round} {p : Pass} {before after : Context}

theorem Round.Made.located {modifies : Handle} (h : rd.Made lay r base nesting id l states store p before after ctx)
    (ret : Returns (if rd.modified.contains Registry.heap then writtenLocations p.seed.store (p.back l.head)
      else ContextM.noLocations) ctx modifies ctx') : ctx'.Reliable ∧ ctx.Later ctx' := by
  have uniform : Uniform (if rd.modified.contains Registry.heap then writtenLocations p.seed.store (p.back l.head)
      else ContextM.noLocations) ctx fun h c => c.Has h := by
    split
    · exact writtenLocations_uniform h.reliable (h.started.simplified.valid.extends (h.later.trans h.later').extends)
        fun b hb => (h.toured.back b hb).1.extends h.later'.extends
    · exact ContextM.call_uniform h.reliable _ (List.forall_mem_nil _)
  exact ⟨(uniform.of_returns ret).1, uniform.later_of_returns ret⟩

/-- A modified symbol that is bound to its fresh one is bound to something simplified. -/
theorem fresh_proper {x y : SymbolId} {h : Handle} (stands : ContextM.Stands ctx y h)
    (registered : x.number < ctx.symbols.size) (ne : y ≠ x) : State.Proper (x, h) ctx := by
  refine ⟨⟨stands.has, registered⟩, .intro stands.node (List.forall_mem_nil _) (fun f args app => by cases app), some y,
    stands.asSymbol?, fun same => ne (Option.some.inj same)⟩

structure Concluded (entry : LoopEntry) (rd : Round) (p : Pass) (summary : LoopSummary) (leaf : State)
    (names : Renaming) (ctx c c₁ ctx' : Context) : Prop where
  located : Returns (if rd.modified.contains Registry.heap then writtenLocations p.seed.store (p.back entry.head)
    else ContextM.noLocations) ctx summary.modifies c
  reliable : c.Reliable
  later : ctx.Later c
  renamed : Returns (anonymize rd.modified p.names ⟨.empty, entry.store⟩) c (leaf, names) c₁
  reliable₁ : c₁.Reliable
  later₁ : c.Later c₁
  valid : leaf.Valid c₁
  simplifies : Returns leaf.simplify c₁ summary.leaf ctx'
  later₂ : c₁.Later ctx'

/-- The round that closes a loop concludes with the summary of the run. -/
theorem Closes.concluded {d : Digest} {compared : Context} {run : LoopRun} (since : r.Extends ctx.symbols)
    (h : Closes lay r nesting id l states ctx d before after compared run ctx') :
    ∃ leaf names c c₁, Concluded ⟨l.head, states, d.entered.store⟩ d.round d.last run.summary leaf names
      compared c c₁ ctx' := by
  obtain ⟨modifies, c, leaf, names, c₁, simplified, located, renamed, simplifies, summary⟩ := returns_summaryOf h.summed
  obtain ⟨hc, later⟩ := h.made.located located
  have total := (h.made.started.later.trans h.made.later).trans (h.made.later'.trans later)
  have ren := h.made.started.fresh.extends (h.made.later.trans (h.made.later'.trans later)).extends
  have known : ∀ x ∈ d.round.modified, x.number < c.symbols.size := fun x hx =>
    Nat.lt_of_lt_of_le (h.fit.assigned x hx) (since.trans (h.fit.since.trans total).symbols).size_le
  have uniform := anonymize_uniform hc (fun x y found => (ren.new found).2) known
    (s := ⟨.empty, d.entered.store⟩) (h.fit.store.valid.extends total.extends)
  obtain ⟨hc₁, valid, _⟩ := uniform.of_returns renamed
  rw [summary]
  exact ⟨leaf, names, c, c₁, located, hc, later, renamed, hc₁, uniform.later_of_returns renamed, valid, simplifies,
    (State.simplify_uniform hc₁ valid).later_of_returns simplifies⟩

/-- The leaf binds the modified symbols to fresh ones, and all others as the merged and simplified states that enter.
-/
theorem Closes.leaf {d : Digest} {compared : Context} {run : LoopRun} (since : r.Extends ctx.symbols)
    (h : Closes lay r nesting id l states ctx d before after compared run ctx') :
    ∃ names, Renames ctx.symbols.size ctx' names ∧ Rebound names d.round.modified ctx'
      ⟨.empty, d.entered.store⟩ run.summary.leaf := by
  obtain ⟨leaf, names, c, c₁, concluded⟩ := h.concluded since
  obtain ⟨_, hc, later, renamed, hc₁, later₁, valid, simplifies, later₂⟩ := concluded
  have total := (h.made.started.later.trans h.made.later).trans (h.made.later'.trans later)
  have ren := h.made.started.fresh.extends (h.made.later.trans (h.made.later'.trans later)).extends
  have small : ∀ x ∈ d.round.modified, x.number < ctx.symbols.size := fun x hx =>
    Nat.lt_of_lt_of_le (h.fit.assigned x hx) since.size_le
  have known : ∀ x ∈ d.round.modified, x.number < c.symbols.size := fun x hx =>
    Nat.lt_of_lt_of_le (small x hx) (h.fit.since.trans total).symbols.size_le
  obtain ⟨_, _, ren₁, _, rebound⟩ := (anonymize_rebinds hc.sound ren (h.fit.since.trans total).symbols.size_le known
    ⟨.empty, d.entered.store⟩).of_returns renamed
  have same : ∀ x, run.summary.leaf.store.get? x = leaf.store.get? x := by
    intro x
    refine State.simplify_keeps hc₁ valid simplifies ?_
    by_cases hx : x ∈ d.round.modified
    · obtain ⟨y, k, found, bound, stands⟩ := rebound.fresh x hx
      intro v hv
      rw [bound] at hv
      cases hv
      refine fresh_proper stands (Nat.lt_of_lt_of_le (known x hx) later₁.symbols.size_le) fun same => ?_
      exact Nat.not_lt.mpr (ren₁.new found).1 (same ▸ small x hx)
    · rw [rebound.others x hx]
      exact (h.fit.store.fixed x).later (total.trans later₁) hc₁.sound.pool.tidy
  have path : run.summary.leaf.path = .empty := by
    obtain ⟨q, _, simplifiedPath, simplifies⟩ := returns_of_bind simplifies
    obtain ⟨bs, _, _, simplifies⟩ := returns_of_bind simplifies
    obtain ⟨made, _⟩ := Prod.mk.inj simplifies
    rw [rebound.path] at simplifiedPath
    cases simplifiedPath
    rw [← Except.ok.inj made]
    rfl
  refine ⟨names, ren₁.extends later₂.extends, path, fun x hx => ?_, fun x hx => (same x).trans (rebound.others x hx)⟩
  obtain ⟨y, k, found, bound, stands⟩ := rebound.fresh x hx
  exact ⟨y, k, found, (same x).trans bound, stands.sign, later₂.extends.pool stands.node⟩

end Walk

/-- The leaf of a loop has no constraints. It binds each modified symbol to a fresh symbol of the same sort; these
are pairwise different, no declared locals, and occur in none of the states that enter the loop. Every other symbol
has the very handle that it has in the merged and simplified states that enter. This is so of every loop that is
summarised in a run of an accepted method. -/
theorem leaf_shape {m : Method} {settings : Settings} {a : Analysis} (created : Analysis.create m settings = .ok a)
    {nesting id : Nat} {l : Loop} {states : List State} {ctx : Context} {run : LoopRun} {ctx' : Context}
    (summarised : Walk.Summarised a.layout settings.stops a.context nesting id l states ctx run ctx') :
    ∃ n d, nesting = n + 1 ∧ Walk.Digests a.layout n id l states ctx d run ctx' ∧ run.summary.leaf.path = .empty ∧
      (∃ fresh : SymbolId → SymbolId, Set.InjOn fresh {x | x ∈ run.summary.modified} ∧ ∀ x ∈ run.summary.modified,
        (∃ h, run.summary.leaf.store.get? x = some h ∧ ContextM.Stands ctx' (fresh x) h) ∧
        (∃ old name, ctx'.symbols.get? x = some old ∧ ctx'.symbols.get? (fresh x) = some ⟨name, old.sort, .fresh⟩) ∧
        (∀ name z, a.context.symbols.locals.lookup name = some z → fresh x ≠ z) ∧
        ∀ s ∈ states, ¬ s.Mentions ctx' (fresh x)) ∧
      ∀ x, x ∉ run.summary.modified → run.summary.leaf.store.get? x = d.entered.store.get? x := by
  have made := Analysis.created_of_create created
  have entrance := summarised.entered.entrance made.regular made.names made.reached.reliable
  obtain ⟨n, d, rfl, digests⟩ := summarised.digests
  obtain ⟨before, after, compared, closes⟩ := digests.closes made.regular made.names entrance
  obtain ⟨names, ren, rebound⟩ := closes.leaf entrance.ext
  have modified := Walk.modified_of_summaryOf closes.summed
  obtain ⟨_, later⟩ := closes.made.summed closes.fit closes.summed
  have total :=
    closes.fit.since.trans (closes.made.started.later.trans (closes.made.later.trans (closes.made.later'.trans later)))
  have named : ∀ x ∈ d.round.modified, names.lookup x = some ((names.lookup x).getD x) := by
    intro x hx
    obtain ⟨y, _, found, _⟩ := rebound.fresh x hx
    rw [found, Option.getD_some]
  rw [modified]
  refine ⟨n, d, rfl, digests, rebound.path,
    ⟨fun x => (names.lookup x).getD x, ?_, fun x hx => ⟨?_, ren.sorts (named x hx), ?_, ?_⟩⟩,
    rebound.others⟩
  · intro x hx x' hx' same
    exact ren.injective (named x hx) ((named x' hx').trans (congrArg some same.symm))
  · obtain ⟨y, h, found, bound, stands⟩ := rebound.fresh x hx
    cases found.symm.trans (named x hx)
    exact ⟨h, bound, stands⟩
  · intro name z declared same
    obtain ⟨_, get, _⟩ := made.sound.1.symbols.locals declared
    have old := Nat.lt_of_lt_of_le (Registry.get?_eq_some_lt get) entrance.ext.size_le
    rw [← same] at old
    exact Nat.not_lt.mpr (ren.new (named x hx)).1 old
  · intro s hs mentions
    have old := mentions.registered entrance.reliable.sound total.extends (entrance.ins.valid s hs)
    exact Nat.not_lt.mpr (ren.new (named x hx)).1 old

def transferMethod : Method where
  owner := "Counter"
  name := "transfer"
  params := [("x", .int), ("y", .int)]
  locals := []
  result? := none
  body := [
    .branch ⟨.le, .var "x", .int 0⟩ 4,
    .assign "x" (.binary .sub (.var "x") (.int 1)),
    .assign "y" (.binary .add (.var "y") (.int 1)),
    .jump 0,
    .ret none]

/-- Both counters are modified, and in the leaf they are two different fresh symbols. -/
theorem leaf_shape_transfer :
    ∃ a a' x y s, ∃ ctx : Context, ∃ u v, Analysis.create transferMethod ⟨4, []⟩ = .ok a ∧ a.execute = .ok a' ∧
    (0, s) ∈ a'.summaries ∧ s.modified = [x, y] ∧ s.leaf.path = .empty ∧
    (s.leaf.store.get? x).map ctx.asSymbol? = some (.ok (some u)) ∧
    (s.leaf.store.get? y).map ctx.asSymbol? = some (.ok (some v)) ∧ u ≠ v := by
  have shape : (Analysis.create transferMethod ⟨4, []⟩ >>= Analysis.execute).map
      (fun a => a.summaries.map fun e => (e.1, e.2.modified)) = .ok [(0, [⟨18⟩, ⟨19⟩])] := by cbv
  obtain ⟨a, a', created, executed, shape⟩ := Analysis.exists_of_execute shape
  obtain ⟨⟨_, s⟩, held, same⟩ := List.mem_map.mp (shape ▸ List.mem_singleton_self (0, [(⟨18⟩ : SymbolId), ⟨19⟩]))
  obtain ⟨rfl, modified⟩ := Prod.mk.inj same
  have made := Analysis.created_of_create created
  obtain ⟨w, ctx, walked, rfl⟩ := (Analysis.execute_ok made.unexecuted).mp executed
  rw [made.settings_eq] at walked
  obtain ⟨_, _, _, _, run, ctx', summarised, rfl⟩ := Walk.summarised_of_mem walked _ held
  obtain ⟨_, _, _, _, path, ⟨fresh, distinct, each⟩, _⟩ := leaf_shape created summarised
  rw [modified] at distinct each
  obtain ⟨⟨h, bound, stands⟩, _⟩ := each ⟨18⟩ (by simp)
  obtain ⟨⟨k, bound', stands'⟩, _⟩ := each ⟨19⟩ (by simp)
  refine ⟨a, _, ⟨18⟩, ⟨19⟩, run.summary, ctx', fresh ⟨18⟩, fresh ⟨19⟩, created, executed, held, modified,
    path, ?_, ?_, fun same => ?_⟩
  · rw [bound, Option.map_some, stands.asSymbol?]
  · rw [bound', Option.map_some, stands'.asSymbol?]
  · cases distinct (by simp) (by simp) same

end PathMerge
