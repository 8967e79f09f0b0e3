/-
  PathMerge.Proofs.MergeOrder — it does not matter in which order states are merged.

  Two runs of `merge`, one later than the other, are held against each other in the context that the second one leaves.
  Each piece of the outcome is determined there by the states themselves: a guard by what is left of the state's
  constraints (`guards_joinOf`), the value of a symbol by the store (`Stored`). So what the runs make of permuted
  states is permuted in the same way, and it is put together by operations that do not see the order: joining
  guards, and choosing among the values (`mergeSymbol_eq`).

  A choice needs one value to be selected. An assignment that satisfies the constraints of one state and of no
  other makes that state's guard true and no other (`guards_select`).
-/

import PathMerge.Proofs.ChoiceOrder
import PathMerge.Proofs.Repetition

namespace PathMerge

open Context ContextM

section Related

variable {α β : Type} {R R' : α → β → Prop} {l : List α} {bs bs' : List β}

/-- A list that is related to another one by a function is its image. -/
theorem Related.eq_map [Nonempty β] (unique : ∀ a b b', R a b → R a b' → b = b') (h : List.Forall₂ R l bs) :
    bs = l.map fun a => Classical.epsilon (R a) := by
  induction h with
  | nil => rfl
  | cons r _ ih => rw [List.map_cons, ← ih, unique _ _ _ r (Classical.epsilon_spec ⟨_, r⟩)]

theorem Related.eq_of_agree (agree : ∀ a b b', R a b → R' a b' → b = b') (h : List.Forall₂ R l bs)
    (h' : List.Forall₂ R' l bs') : bs = bs' := by
  induction h generalizing bs' with
  | nil =>
    cases h'
    rfl
  | cons r _ ih =>
    cases h' with
    | cons r' rest => rw [agree _ _ _ r r', ih rest]

end Related

variable {α β : Type} {ctx ctx' fin : Context}

def Ran (ctx : Context) (x : ContextM α) (a : α) (ctx' : Context) : Prop :=
  ∃ t t', ctx.Later t ∧ t.Reliable ∧ Returns x t a t' ∧ t'.Later ctx'

theorem Ran.widen {x : ContextM α} {a : α} {c c' : Context} (ran : Ran ctx x a ctx') (earlier : c.Later ctx)
    (later : ctx'.Later c') : Ran c x a c' := by
  obtain ⟨t, t', since, hc, ret, until_⟩ := ran
  exact ⟨t, t', earlier.trans since, hc, ret, until_.trans later⟩

theorem Uniform.mapM_ran {f : α → ContextM β} {Q : α → β → Context → Prop} (l : List α) (hc : ctx.Reliable)
    (each : ∀ a ∈ l, ∀ c, ctx.Later c → c.Reliable → Uniform (f a) c (Q a)) :
    Uniform (l.mapM f) ctx fun bs c => List.Forall₂ (fun a b => a ∈ l ∧ Ran ctx (f a) b c) l bs := by
  refine Uniform.mapM (P := fun a b c => a ∈ l ∧ Ran ctx (f a) b c) l hc ?_ fun a ha c later hc => ?_
  · intro a b c c' later _ ran
    exact ⟨ran.1, ran.2.widen (.refl ctx) later⟩
  · refine (each a ha c later hc).returned.mono ?_
    rintro b c' _ _ ⟨ret, _⟩
    exact ⟨ha, c, c', later, hc, ret, .refl c'⟩

namespace State

variable {common : PathCondition} {states states' : List State} {G : State → Handle} {x : SymbolId}

/-- The constraints of a path condition increase. -/
theorem ofList_increasing (cs : List Handle) :
    (PathCondition.ofList cs).items.Pairwise (Handle.lt · · = true) := by
  unfold PathCondition.ofList
  dsimp only
  split
  · exact List.pairwise_singleton _ _
  · exact Handle.sorted_pairwise _

/-! ## Guards -/

/-- The guard of each state is the conjunction of what the state assumes beyond the common part. -/
theorem guards_joinOf (hc : ctx.Reliable) (valid : ∀ s ∈ states, s.Valid ctx)
    (normal : ∀ s ∈ states, ∀ h ∈ s.path.items, fin.pool.NegationNormal h) {guards : List Handle}
    (ret : Returns (states.mapM fun s => (s.path.diff common).formula) ctx guards ctx') (later : ctx'.Later fin)
    (hf : fin.Reliable) :
    List.Forall₂ (fun s g => fin.pool.JoinOf .conj (s.path.diff common).items g) states guards := by
  have each : Uniform (states.mapM fun s => (s.path.diff common).formula) ctx fun gs c => List.Forall₂
      (fun s g => s ∈ states ∧ Ran ctx (s.path.diff common).formula g c) states gs := by
    refine Uniform.mapM_ran (Q := fun _ h c => c.Has h) states hc fun s hs c later hc => ?_
    refine PathCondition.formula_uniform hc fun h hm => later.extends.has ?_
    exact (valid s hs).path h (List.mem_filter.mp hm).1
  refine (each.of_returns ret).2.imp ?_
  rintro s g ⟨hs, t, t', since, ht, made, until_⟩
  obtain ⟨p, run, rfl⟩ := returns_onPool.mp made
  refine .of_returns ht.sound.pool (fun h hm => since.extends.has ?_) run hf.sound.pool
    (until_.trans later).extends.pool
    fun h hm => normal s hs h (List.mem_filter.mp hm).1
  exact (valid s hs).path h (List.mem_filter.mp hm).1

/-- The guard of the one state whose constraints hold is true, and no other guard is. -/
theorem guards_select {q : Pool} {assigned : Node → Bool} {s₀ : State} (mem : s₀ ∈ states)
    (shared : ∀ h ∈ common.items, h ∈ s₀.path.items) (holds : ∀ h ∈ s₀.path.items, q.assigns assigned h = true)
    (sole : ∀ s ∈ states, (∀ h ∈ s.path.items, q.assigns assigned h = true) → s = s₀)
    (guards : ∀ s ∈ states, q.JoinOf .conj (s.path.diff common).items (G s)) (V : State → Handle) :
    Selects q (states.map fun s => (G s, V s)) := by
  have truth : ∀ s ∈ states, q.assigns assigned (G s) = true ↔
      ∀ h ∈ (s.path.diff common).items, q.assigns assigned h = true := by
    intro s hs
    rw [(guards s hs).truth]
    simp [Connective.combine]
  refine ⟨assigned, (G s₀, V s₀), List.mem_map_of_mem mem, ?_, ?_⟩
  · exact (truth s₀ mem).mpr fun h hm => holds h (List.mem_filter.mp hm).1
  · intro b hb yes
    obtain ⟨s, hs, rfl⟩ := List.mem_map.mp hb
    have all : ∀ h ∈ s.path.items, q.assigns assigned h = true := by
      intro h hm
      by_cases both : h ∈ common.items
      · exact holds h (shared h both)
      · refine (truth s hs).mp yes h (List.mem_filter.mpr ⟨hm, ?_⟩)
        simp [both]
    rw [sole s hs all]

/-! ## Values -/

def Stored (q : Pool) (x : SymbolId) (m : Bindings) (v : Handle) : Prop :=
  m.find? x = some v ∨ m.find? x = none ∧ v.negated = false ∧ q.node? v = some (.symbol x)

theorem Stored.unique {q : Pool} (hq : q.Sound) {m : Bindings} {v w : Handle} (h : Stored q x m v)
    (h' : Stored q x m w) : v = w := by
  rcases h with bound | ⟨free, sign, hn⟩ <;> rcases h' with bound' | ⟨free', sign', hn'⟩
  · exact Option.some.inj (bound.symm.trans bound')
  · cases bound.symm.trans free'
  · cases free.symm.trans bound'
  · exact hq.eq_of_node hn hn' (sign.trans sign'.symm)

theorem valueIn_stored {m : Bindings} {v : Handle} (ret : Returns (valueIn x m) ctx v ctx') (later : ctx'.Later fin) :
    Stored fin.pool x m v := by
  unfold valueIn at ret
  cases found : m.find? x with
  | some w =>
    rw [found] at ret
    cases ret
    exact .inl found
  | none =>
    rw [found] at ret
    change Returns (onPool (PoolM.intern (.symbol x))) ctx v ctx' at ret
    obtain ⟨p, made, rfl⟩ := returns_onPool.mp ret
    obtain ⟨sign, hn, _⟩ := returns_intern made
    exact .inr ⟨found, sign, later.extends.pool hn⟩

noncomputable def valueAt (q : Pool) (x : SymbolId) (s : State) : Handle :=
  Classical.epsilon (Stored q x s.store.flatten)

theorem values_eq (hc : ctx.Reliable) (valid : ∀ s ∈ states, s.Valid ctx) (registered : x.number < ctx.symbols.size)
    {values : List Handle} (ret : Returns ((states.map (·.store.flatten)).mapM (valueIn x)) ctx values ctx')
    (later : ctx'.Later fin) (hf : fin.Reliable) :
    values = states.map (valueAt fin.pool x) ∧ ctx'.Reliable ∧ ctx.Later ctx' ∧ ∀ v ∈ values, ctx'.Has v := by
  rw [List.mapM_map] at ret
  have each : Uniform (states.mapM fun s => valueIn x s.store.flatten) ctx fun vs c => List.Forall₂
      (fun s v => c.Has v ∧ ∀ fin, c.Later fin → Stored fin.pool x s.store.flatten v) states vs := by
    refine Uniform.mapM (P := fun s v c => c.Has v ∧ ∀ fin, c.Later fin → Stored fin.pool x s.store.flatten v) states hc
      ?_ fun s hs c later hc => ?_
    · rintro s v c c' later _ ⟨has, stored⟩
      exact ⟨later.extends.has has, fun fin later' => stored fin (later.trans later')⟩
    · have known := Nat.lt_of_lt_of_le registered later.symbols.size_le
      refine (valueIn_uniform hc ((valid s hs).extends later.extends) known).returned.mono ?_
      rintro v c' _ _ ⟨ret, has⟩
      exact ⟨has, fun fin later' => valueIn_stored ret later'⟩
  obtain ⟨hc', stored⟩ := each.of_returns ret
  refine ⟨?_, hc', each.later_of_returns ret, fun v hv => ?_⟩
  · exact Related.eq_map (fun _ _ _ h h' => h.unique hf.sound.pool h') (stored.imp fun _ _ h => h.2 fin later)
  · obtain ⟨s, _, has, _⟩ := Related.exists_left stored hv
    exact has

/-! ## Symbols -/

inductive SymbolStep (G V : State → Handle) (states : List State) (x : SymbolId) (b : SymbolId × Handle)
    (fin : Context) : Prop
  | agreed {v : Handle} (some : states ≠ []) (all : ∀ s ∈ states, V s = v) (result : b = (x, v))
  | chosen {k : Handle} {t t' : Context} (differ : ¬ ∃ v, ∀ s ∈ states, V s = v) (reliable : t.Reliable)
      (has : t.pool.HasAll (states.map fun s => (G s, V s)))
      (made : Returns (choice (states.map fun s => (G s, V s))) t k t') (later : t'.Later fin) (result : b = (x, k))

/-- The states agree on a symbol, or its merged value is a choice between their values. -/
theorem symbolStep (hf : fin.Reliable) (valid : ∀ s ∈ states, s.Valid ctx) (registered : x.number < ctx.symbols.size)
    (hasG : ∀ s ∈ states, ctx.Has (G s)) {b : SymbolId × Handle}
    (ran : Ran ctx (mergeSymbol (states.map G) (states.map (·.store.flatten)) x) b fin) :
    SymbolStep G (valueAt fin.pool x) states x b fin := by
  obtain ⟨t, t', since, ht, ret, until_⟩ := ran
  have valid : ∀ s ∈ states, s.Valid t := fun s hs => (valid s hs).extends since.extends
  have registered : x.number < t.symbols.size := Nat.lt_of_lt_of_le registered since.symbols.size_le
  obtain ⟨values, t₁, collected, ret⟩ := returns_of_bind ret
  rcases values with _ | ⟨v, rest⟩
  · cases ret
  dsimp only at ret
  by_cases equal : rest.all (· = v) = true
  · rw [if_pos equal] at ret
    cases ret
    obtain ⟨values, _⟩ := values_eq ht valid registered collected until_ hf
    have all : ∀ w ∈ v :: rest, w = v := by simpa using equal
    refine .agreed (fun none_ => ?_) (fun s hs => all _ (values ▸ List.mem_map_of_mem hs)) rfl
    rw [none_] at values
    cases values
  · rw [if_neg equal] at ret
    obtain ⟨k, t₂, made, ret⟩ := returns_of_bind ret
    cases ret
    have later₁ : t₁.Later t' := ((choice_steady _).of_returns made).later
    obtain ⟨values, ht₁, since₁, has⟩ := values_eq ht valid registered collected (later₁.trans until_) hf
    rw [values] at made has
    rw [List.zip_map'] at made
    refine .chosen (fun agreed => equal ?_) ht₁ (fun b hb => ?_) made until_ rfl
    · obtain ⟨w, agreed⟩ := agreed
      have all : ∀ u ∈ v :: rest, u = w := by
        rw [values]
        exact List.forall_mem_map.mpr agreed
      rw [List.forall_mem_cons] at all
      simpa [all.1] using all.2
    · obtain ⟨s, hs, rfl⟩ := List.mem_map.mp hb
      exact ⟨(since.trans since₁).extends.has (hasG s hs), has _ (List.mem_map_of_mem hs)⟩

/-- Merging the states in another order gives a symbol the same handle. -/
theorem mergeSymbol_eq (hf : fin.Reliable) (valid : ∀ s ∈ states, s.Valid ctx)
    (registered : x.number < ctx.symbols.size) (hasG : ∀ s ∈ states, ctx.Has (G s))
    (normal : ∀ s ∈ states, fin.pool.NegationNormal (G s))
    (selects : ∀ V : State → Handle, Selects fin.pool (states.map fun s => (G s, V s))) (perm : states.Perm states')
    {b b' : SymbolId × Handle} (ran : Ran ctx (mergeSymbol (states.map G) (states.map (·.store.flatten)) x) b fin)
    (ran' : Ran ctx (mergeSymbol (states'.map G) (states'.map (·.store.flatten)) x) b' fin) : b = b' := by
  have step := symbolStep hf valid registered hasG ran
  have step' := symbolStep hf (fun s hs => valid s (perm.mem_iff.mpr hs)) registered
    (fun s hs => hasG s (perm.mem_iff.mpr hs)) ran'
  generalize valueAt fin.pool x = V at step step'
  cases step with
  | @agreed v some all result =>
    cases step' with
    | agreed some' all' result' =>
      obtain ⟨s, hs⟩ := List.exists_mem_of_ne_nil _ some
      rw [result, result', ← all s hs, ← all' s (perm.mem_iff.mp hs)]
    | chosen differ => exact absurd ⟨v, fun s hs => all s (perm.mem_iff.mpr hs)⟩ differ
  | chosen differ reliable has made later result =>
    cases step' with
    | @agreed v some' all' => exact absurd ⟨v, fun s hs => all' s (perm.mem_iff.mp hs)⟩ differ
    | chosen _ reliable' has' made' later' result' =>
      obtain ⟨p, run, rfl⟩ := returns_onPool.mp made
      obtain ⟨p', run', rfl⟩ := returns_onPool.mp made'
      rw [result, result', choice_eq reliable.sound.pool has run reliable'.sound.pool has' run' hf.sound.pool
        later.extends.pool later'.extends.pool (List.forall_mem_map.mpr normal) (perm.map _) (selects V)]

/-! ## States -/

inductive MergeRun (ctx : Context) (states : List State) (common : PathCondition) (m : State) (ctx' : Context) : Prop
  | intro {guards : List Handle} {d reached : Handle} {bindings : List (SymbolId × Handle)} {c₁ c₂ c₃ : Context}
      (guarded : Returns (states.mapM fun s => (s.path.diff common).formula) ctx guards c₁)
      (since₁ : ctx.Later c₁) (reliable₁ : c₁.Reliable) (hasGuards : ∀ g ∈ guards, c₁.Has g)
      (joined : Returns (onPool (PoolM.join .disj guards)) c₁ d c₂)
      (since₂ : c₁.Later c₂) (reliable₂ : c₂.Reliable) (hasD : c₂.Has d)
      (simplified : Returns (ContextM.simplify d) c₂ reached c₃) (since₃ : c₂.Later c₃)
      (bound : List.Forall₂ (fun x b => x ∈ boundSymbols (states.map (·.store.flatten)) ∧
        Ran c₃ (mergeSymbol guards (states.map (·.store.flatten)) x) b ctx')
          (boundSymbols (states.map (·.store.flatten))) bindings)
      (since' : c₃.Later ctx') (reliable' : ctx'.Reliable)
      (result : m = ⟨if reached = .tt then common else common.add reached, .ofBindings bindings⟩)

theorem common_sorted (others : List State) {p : PathCondition} (sorted : p.items.Pairwise (Handle.lt · · = true)) :
    (others.foldl (fun p s => p.inter s.path) p).items.Pairwise (Handle.lt · · = true) := by
  induction others generalizing p with
  | nil => exact sorted
  | cons s others ih => exact ih (sorted.filter _)

theorem symbols_ran (hc : ctx.Reliable) {guards : List Handle} (hasGuards : ∀ g ∈ guards, ctx.Has g)
    (valid : ∀ s ∈ states, s.Valid ctx) :
    Uniform ((boundSymbols (states.map (·.store.flatten))).mapM (mergeSymbol guards (states.map (·.store.flatten)))) ctx
      fun bs c => List.Forall₂ (fun x b => x ∈ boundSymbols (states.map (·.store.flatten)) ∧
        Ran ctx (mergeSymbol guards (states.map (·.store.flatten)) x) b c)
          (boundSymbols (states.map (·.store.flatten))) bs := by
  refine Uniform.mapM_ran (Q := fun _ b c => Bound b c) _ hc fun x hx c later hc => ?_
  obtain ⟨s, hs, h, found⟩ := mem_boundSymbols.mp hx
  refine mergeSymbol_uniform hc (fun g hg => later.extends.has (hasGuards g hg))
    (fun s hs => (valid s hs).extends later.extends) ?_
  exact Nat.lt_of_lt_of_le ((valid s hs).store found).2 later.symbols.size_le

/-- What several states share, and the run that merges them. -/
theorem mergeRun (hc : ctx.Reliable) (valid : ∀ s ∈ states, s.Valid ctx) (many : 2 ≤ states.length)
    (sorted : ∀ s ∈ states, s.path.items.Pairwise (Handle.lt · · = true)) {m : State}
    (ret : Returns (merge states) ctx m ctx') :
    ∃ common : PathCondition, common.items.Pairwise (Handle.lt · · = true) ∧
      (∀ h, h ∈ common.items ↔ ∀ s ∈ states, h ∈ s.path.items) ∧ MergeRun ctx states common m ctx' := by
  rcases states with _ | ⟨first, _ | ⟨second, others⟩⟩
  · cases many
  · simp at many
  refine ⟨(second :: others).foldl (fun p s => p.inter s.path) first.path,
    common_sorted _ (sorted first List.mem_cons_self), fun h => ?_, ?_⟩
  · simp only [mem_common, List.forall_mem_cons]
  change Returns (mergeSeveral first (second :: others)) ctx m ctx' at ret
  unfold mergeSeveral at ret
  dsimp only at ret
  generalize (second :: others).foldl (fun p s => p.inter s.path) first.path = common at ret ⊢
  generalize first :: second :: others = states at valid ret ⊢
  obtain ⟨guards, c₁, guarded, ret⟩ := returns_of_bind ret
  obtain ⟨d, c₂, joined, ret⟩ := returns_of_bind ret
  obtain ⟨reached, c₃, simplified, ret⟩ := returns_of_bind ret
  obtain ⟨bindings, c₄, bound, ret⟩ := returns_of_bind ret
  cases ret
  have formulas := guards_uniform hc common valid
  obtain ⟨hc₁, hasGuards⟩ := formulas.of_returns guarded
  have since₁ := formulas.later_of_returns guarded
  have joining := join_uniform hc₁ .disj hasGuards
  obtain ⟨hc₂, hasD⟩ := joining.of_returns joined
  have since₂ := joining.later_of_returns joined
  have simplifying := ContextM.simplify_uniform hc₂ hasD
  obtain ⟨hc₃, _⟩ := simplifying.of_returns simplified
  have since₃ := simplifying.later_of_returns simplified
  have since := (since₁.trans since₂).trans since₃
  have symbols := symbols_ran hc₃ (fun g hg => (since₂.trans since₃).extends.has (hasGuards g hg))
    fun s hs => (valid s hs).extends since.extends
  obtain ⟨hc₄, ran⟩ := symbols.of_returns bound
  exact .intro guarded since₁ hc₁ hasGuards joined since₂ hc₂ hasD simplified since₃ ran
    (symbols.later_of_returns bound)
    hc₄ rfl

theorem boundSymbols_perm (perm : states.Perm states') :
    boundSymbols (states.map (·.store.flatten)) = boundSymbols (states'.map (·.store.flatten)) :=
  SortedList.ofList_congr SymbolId.lt_separates SymbolId.lt_irrefl SymbolId.lt_trans fun _ =>
    ((perm.map _).flatMap_right _).mem_iff

def Satisfied (p : Pool) (assigned : Node → Bool) (s : State) : Prop := ∀ h ∈ s.path.items, p.assigns assigned h = true

theorem satisfied_later {assigned : Node → Bool} {s : State} (hc : ctx.Sound) (e : ctx.Extends ctx')
    (valid : s.Valid ctx) : s.Satisfied ctx'.pool assigned ↔ s.Satisfied ctx.pool assigned := by
  refine forall₂_congr fun h hm => ?_
  have same : ctx'.pool.assigns assigned h = ctx.pool.assigns assigned h :=
    Pool.read_extends hc.pool e.pool (valid.path h hm)
  rw [same]

/-- Some assignment satisfies one of the states and no other. -/
def Distinguished (p : Pool) (states : List State) : Prop :=
  ∃ assigned, ∃ s₀ ∈ states, s₀.Satisfied p assigned ∧ ∀ s ∈ states, s.Satisfied p assigned → s = s₀

/-- Two runs that merge the same states in different orders, one after the other, return the same state. -/
theorem MergeRun.eq (hc : ctx.Reliable) (valid : ∀ s ∈ states, s.Valid ctx)
    (normal : ∀ s ∈ states, ∀ h ∈ s.path.items, ctx.pool.NegationNormal h) (one : Distinguished ctx.pool states)
    (shared : ∀ h ∈ common.items, ∀ s ∈ states, h ∈ s.path.items) (perm : states.Perm states') {m m' : State}
    {c c' : Context} (run : MergeRun ctx states common m ctx') (later : ctx'.Later c)
    (run' : MergeRun c states' common m' c') (hc' : c.Reliable) : m = m' := by
  obtain @⟨guards, d, reached, bindings, c₁, c₂, c₃, guarded, since₁, hc₁, hasGuards, joined, since₂, hc₂, hasD,
    simplified, since₃, bound, since₄, _, rfl⟩ := run
  obtain @⟨guards', d', reached', bindings', e₁, e₂, e₃, guarded', since₁', hc₁', hasGuards', joined', since₂', hc₂', _,
    simplified', since₃', bound', since₄', hf, rfl⟩ := run'
  have hq := hf.sound.pool
  -- From the end of each part of the runs to the end of the second.
  have rest₃' : e₂.Later c' := since₃'.trans since₄'
  have rest₂' : e₁.Later c' := since₂'.trans rest₃'
  have rest₁' : c.Later c' := since₁'.trans rest₂'
  have rest₄ : c₃.Later c := since₄.trans later
  have rest₂ : c₁.Later c' := ((since₂.trans since₃).trans rest₄).trans rest₁'
  have total : ctx.Later c' := since₁.trans rest₂
  have since_c : ctx.Later c := ((since₁.trans since₂).trans since₃).trans rest₄
  have normal' : ∀ s ∈ states, ∀ h ∈ s.path.items, c'.pool.NegationNormal h := fun s hs h hm =>
    (normal s hs h hm).extends hc.sound.pool total.extends.pool ((valid s hs).path h hm)
  -- Guards are the image of the states under one and the same function.
  have each := guards_joinOf hc valid normal' guarded rest₂ hf
  have each' := guards_joinOf hc' (fun s hs => (valid s (perm.mem_iff.mpr hs)).extends since_c.extends)
    (fun s hs => normal' s (perm.mem_iff.mpr hs)) guarded' rest₂' hf
  have images := Related.eq_map (fun s g g' h h' => h.unique hq h' fun _ => Iff.rfl) each
  have images' := Related.eq_map (fun s g g' h h' => h.unique hq h' fun _ => Iff.rfl) each'
  generalize (fun s : State => Classical.epsilon (c'.pool.JoinOf .conj (s.path.diff common).items)) = G
    at images images'
  subst images images'
  have guards : ∀ s ∈ states, c'.pool.JoinOf .conj (s.path.diff common).items (G s) :=
    List.forall₂_same.mp (List.forall₂_map_right_iff.mp each)
  have mem : ∀ g, g ∈ states.map G ↔ g ∈ states'.map G := fun g => (perm.map G).mem_iff
  have normalG : ∀ g ∈ states.map G, c'.pool.NegationNormal g :=
    List.forall_mem_map.mpr fun s hs => (guards s hs).normal
  obtain rfl : d = d' := by
    refine join_eq hc₁.sound hasGuards joined hc₁'.sound hasGuards' joined' hq
      ((since₃.trans rest₄).trans rest₁').extends.pool rest₃'.extends.pool ?_ (.of_mem mem)
    exact List.forall_mem_append.mpr ⟨normalG, fun g hg => normalG g ((mem g).mpr hg)⟩
  obtain rfl : reached = reached' := by
    obtain ⟨_, again, _⟩ := simplify_again hc₂ hasD simplified ((rest₄.trans since₁').trans since₂') hc₂'
    exact (returns_unique again simplified').1
  have selects : ∀ V : State → Handle, Selects c'.pool (states.map fun s => (G s, V s)) := by
    obtain ⟨assigned, s₀, hs₀, holds, sole⟩ := one
    have same : ∀ s ∈ states, s.Satisfied c'.pool assigned ↔ s.Satisfied ctx.pool assigned := fun s hs =>
      satisfied_later hc.sound total.extends (valid s hs)
    refine guards_select hs₀ (fun h hm => shared h hm s₀ hs₀) ((same s₀ hs₀).mpr holds) (fun s hs all => ?_) guards
    exact sole s hs ((same s hs).mp all)
  obtain rfl : bindings = bindings' := by
    rw [← boundSymbols_perm perm] at bound'
    refine Related.eq_of_agree ?_ bound bound'
    rintro x b b' ⟨hx, ran⟩ ⟨_, ran'⟩
    obtain ⟨s, hs, h, found⟩ := mem_boundSymbols.mp hx
    have registered : x.number < c₁.symbols.size :=
      Nat.lt_of_lt_of_le ((valid s hs).store found).2 since₁.symbols.size_le
    have since : c₁.Later e₃ := (((since₂.trans since₃).trans rest₄).trans since₁').trans (since₂'.trans since₃')
    refine mergeSymbol_eq hf (fun s hs => (valid s hs).extends since₁.extends) registered (fun s hs => ?_)
      (fun s hs => ?_)
      selects perm (ran.widen (since₂.trans since₃) (later.trans rest₁')) (ran'.widen since (.refl c'))
    · exact hasGuards _ (List.mem_map_of_mem hs)
    · exact (guards s hs).normal
  rfl

/-! ## Any order -/

/-- No assignment satisfies both states. -/
def Contradictory (p : Pool) (s t : State) : Prop := ∀ assigned, ¬ (s.Satisfied p assigned ∧ t.Satisfied p assigned)

theorem Distinguished.of_contradictory {p : Pool} (apart : states.Pairwise (Contradictory p))
    (some : ∃ s ∈ states, ∃ assigned, s.Satisfied p assigned) : Distinguished p states := by
  obtain ⟨s₀, hs₀, assigned, holds⟩ := some
  have : Std.Symm (Contradictory p) := ⟨fun s t h assigned both => h assigned both.symm⟩
  refine ⟨assigned, s₀, hs₀, holds, fun s hs all => ?_⟩
  by_contra other
  exact apart.forall hs hs₀ other assigned ⟨all, holds⟩

/-- States that contradict each other, not all of them in themselves, merge into the same state in whatever order
they come, and whatever has been done to the context in between. -/
theorem merge_perm (reached : ctx.Reached) (valid : ∀ s ∈ states, s.Valid ctx)
    (canonical : ∀ s ∈ states, PathCondition.ofList s.path.items = s.path)
    (normal : ∀ s ∈ states, ∀ h ∈ s.path.items, ctx.pool.NegationNormal h)
    (apart : states.Pairwise (Contradictory ctx.pool)) (some : ∃ s ∈ states, ∃ assigned, s.Satisfied ctx.pool assigned)
    (perm : states.Perm states') :
    ∃ m ctx₁, Returns (merge states) ctx m ctx₁ ∧ ∀ requests, ctx₁.Allows requests →
      ∃ ctx₂, Returns (merge states') (ctx₁.after requests) m ctx₂ := by
  have hc := reached.reliable
  have one := Distinguished.of_contradictory apart some
  have ne : states ≠ [] := by
    obtain ⟨s₀, hs₀, _⟩ := some
    exact List.ne_nil_of_mem hs₀
  have sorted : ∀ s ∈ states, s.path.items.Pairwise (Handle.lt · · = true) := fun s hs =>
    canonical s hs ▸ ofList_increasing _
  obtain ⟨m, ctx₁, ret, e, _⟩ := merge_yields hc.sound ne valid
  refine ⟨m, ctx₁, ret, fun requests allowed => ?_⟩
  have merging := merge_uniform hc valid
  obtain ⟨later, hc'⟩ := after_later (merging.of_returns ret).1 allowed
  have total := (merging.later_of_returns ret).trans later
  have valid' : ∀ s ∈ states', s.Valid (ctx₁.after requests) := fun s hs =>
    (valid s (perm.mem_iff.mpr hs)).extends total.extends
  by_cases many : 2 ≤ states.length
  · have many' : 2 ≤ states'.length := perm.length_eq ▸ many
    obtain ⟨m', ctx₂, ret', _⟩ := merge_yields hc'.sound (List.ne_nil_of_length_pos (by omega)) valid'
    obtain ⟨common, increasing, shared, run⟩ := mergeRun hc valid many sorted ret
    obtain ⟨common', increasing', shared', run'⟩ := mergeRun hc' valid' many'
      (fun s hs => sorted s (perm.mem_iff.mpr hs)) ret'
    have items : common.items = common'.items := by
      refine Handle.eq_of_sorted increasing increasing' fun h => ?_
      rw [shared, shared']
      simp only [perm.mem_iff]
    obtain rfl : common = common' := congrArg PathCondition.mk items
    obtain rfl := run.eq hc valid normal one (fun h hm => (shared h).mp hm) perm later run' hc'
    exact ⟨ctx₂, ret'⟩
  · obtain ⟨s, rfl⟩ : ∃ s, states = [s] := List.length_eq_one_iff.mp (by have := List.length_pos_of_ne_nil ne; omega)
    obtain rfl := List.singleton_perm.mp perm
    cases ret
    exact ⟨_, rfl⟩

/-- Three branches: under `a` and under `!a, b` the variable `x` holds `y`, under `!a, !b` it is as it was. -/
def forked : List State :=
  [⟨⟨[⟨2, false⟩]⟩, .single ⟨3⟩ ⟨5, false⟩⟩, ⟨⟨[⟨2, true⟩, ⟨3, false⟩]⟩, .single ⟨3⟩ ⟨5, false⟩⟩,
    ⟨⟨[⟨2, true⟩, ⟨3, true⟩]⟩, .empty⟩]

theorem forked_valid : ∀ s ∈ forked, s.Valid (bare.after sharedGuards) := by
  have known : 3 < (bare.after sharedGuards).symbols.size := by decide +kernel
  have has : ∀ h ∈ [(⟨2, false⟩ : Handle), ⟨2, true⟩, ⟨3, false⟩, ⟨3, true⟩, ⟨5, false⟩],
      (bare.after sharedGuards).Has h := by decide +kernel
  generalize bare.after sharedGuards = ctx at known has
  simp only [List.forall_mem_cons] at has
  obtain ⟨a, notA, b, notB, y, _⟩ := has
  have bound : ∀ {x h}, (Store.single ⟨3⟩ ⟨5, false⟩).get? x = some h → ctx.Has h ∧ x.number < ctx.symbols.size := by
    intro x h found
    unfold Store.get? at found
    split at found
    · rename_i same
      cases found
      exact ⟨y, same ▸ known⟩
    · cases found
  simp only [forked, List.forall_mem_cons]
  refine ⟨⟨?_, bound⟩, ⟨?_, bound⟩, ⟨?_, fun found => ?_⟩, List.forall_mem_nil _⟩
  · exact List.forall_mem_singleton.mpr a
  · exact List.forall_mem_cons.mpr ⟨notA, List.forall_mem_singleton.mpr b⟩
  · exact List.forall_mem_cons.mpr ⟨notA, List.forall_mem_singleton.mpr notB⟩
  · cases found

theorem forked_apart {p : Pool} (hp : p.Sound) (a : p.Has ⟨2, false⟩) (b : p.Has ⟨3, false⟩) :
    forked.Pairwise (Contradictory p) := by
  have flipped : ∀ i assigned, p.Has ⟨i, false⟩ → p.assigns assigned ⟨i, true⟩ = !p.assigns assigned ⟨i, false⟩ :=
    fun i assigned has => Pool.assigns_neg hp (h := ⟨i, false⟩) has
  simp +contextual [forked, Contradictory, Satisfied, flipped _ _ a, flipped _ _ b]

theorem forked_normal : ∀ s ∈ forked, ∀ h ∈ s.path.items, (bare.after sharedGuards).pool.NegationNormal h := by
  generalize pool : (bare.after sharedGuards).pool = p
  have a : p.node? ⟨2, false⟩ = some (.symbol ⟨1⟩) := by
    rw [← pool]
    decide +kernel
  have b : p.node? ⟨3, false⟩ = some (.symbol ⟨2⟩) := by
    rw [← pool]
    decide +kernel
  have either : ∀ sign, p.NegationNormal ⟨2, sign⟩ ∧ p.NegationNormal ⟨3, sign⟩ := fun sign =>
    ⟨.of_node (h := ⟨2, sign⟩) a (by simp), .of_node (h := ⟨3, sign⟩) b (by simp)⟩
  simp [forked, either]

/-- The guards `a` and `!a && b` of the shared value are joined in either order, with the third branch before,
between or after them. -/
theorem merge_perm_forked : (bare.after sharedGuards).Reached ∧ ∃ m ctx₁ ctx₂,
    Returns (merge forked) (bare.after sharedGuards) m ctx₁ ∧ Returns (merge forked.reverse) ctx₁ m ctx₂ := by
  have canonical : ∀ s ∈ forked, PathCondition.ofList s.path.items = s.path := by decide
  have hp := bare_reached.reliable.sound.pool
  have a : (bare.after sharedGuards).pool.node? ⟨2, false⟩ = some (.symbol ⟨1⟩) := by decide +kernel
  have b : (bare.after sharedGuards).pool.Has ⟨3, false⟩ := by decide +kernel
  have some : ∃ s ∈ forked, ∃ assigned, s.Satisfied (bare.after sharedGuards).pool assigned := by
    refine ⟨_, List.mem_cons_self, fun _ => true, List.forall_mem_singleton.mpr ?_⟩
    exact Pool.assigns_node hp a
  obtain ⟨m, ctx₁, ret, rest⟩ := merge_perm bare_reached forked_valid canonical forked_normal
    (forked_apart hp (Pool.has_of_node a) b) some forked.reverse_perm.symm
  obtain ⟨ctx₂, ret'⟩ := rest [] trivial
  exact ⟨bare_reached, m, ctx₁, ctx₂, ret, ret'⟩

end State

end PathMerge
