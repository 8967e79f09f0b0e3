/-
  PathMerge.Proofs.Repetition — what was found once is found again.

  Simplifying an expression, or merging states, a second time gives the same handles as the first time, whatever has
  been done to the context in between (`simplify_again`, `merge_again`). Neither is a steady action, since the memory
  may have kept more or less by then.

  What a symbol holds is followed through a merge and through a simplification one symbol at a time. If all states bind
  it alike, so does the merged state (`merge_get?`). A simplified state binds it to what its binding was simplified to
  (`simplify_get?`), so two states with one binding still agree on it once both are simplified, however far apart
  (`simplify_agree`), and a binding that is simplified already stays as it is (`simplify_keeps`).
-/

import PathMerge.Proofs.Idempotence

namespace PathMerge

open Context ContextM

variable {ctx ctx' c c' : Context}

theorem Context.Alike.refl (ctx : Context) : ctx.Alike ctx := ⟨⟨rfl, rfl⟩, rfl, rfl⟩

theorem Uniform.later_of_returns {α : Type} {x : ContextM α} {a : α} {Q : α → Context → Prop} (hx : Uniform x ctx Q)
    (ret : Returns x ctx a ctx') : ctx.Later ctx' := by
  have later := hx.later
  rwa [show x.run.run ctx = _ from ret] at later

/-- The results of a list of actions come from runs of its actions. -/
theorem returns_mapM {σ α β : Type} {f : α → Action σ β} {l : List α} {bs : List β} {s s' : σ}
    (ret : Returns (l.mapM f) s bs s') : List.Forall₂ (fun a b => ∃ t t', Returns (f a) t b t') l bs := by
  induction l generalizing bs s with
  | nil =>
    cases ret
    exact .nil
  | cons a l ih =>
    rw [List.mapM_cons] at ret
    obtain ⟨b, t, first, ret⟩ := returns_of_bind ret
    obtain ⟨rest, t', others, ret⟩ := returns_of_bind ret
    cases ret
    exact .cons ⟨s, t, first⟩ (ih others)

/-! ## Simplification -/

theorem ContextM.simplify_again (hc : ctx.Reliable) {h k : Handle} (has : ctx.Has h)
    (ret : Returns (simplify h) ctx k ctx') (later : ctx'.Later c) (hc' : c.Reliable) : Stays (simplify h) c k := by
  obtain ⟨k₁, ref, plain, later₁, _, settled⟩ := simplify_settled hc has
  obtain ⟨twin, ret₁, _, alike⟩ := settled ctx hc (.refl ctx)
  obtain ⟨rfl, rfl⟩ := returns_unique ret ret₁
  -- Without a memory, the first run is found again node by node.
  have since : ref.Later c := alike.symm.later.trans later
  have again : Returns (plainWithin (ctx.pool.treeSize h) h) c k c :=
    (plainWithin_steady _ h).repeats plain hc'.sound.pool.tidy since
  obtain ⟨k₂, ref₂, plain₂, _, _, settled₂⟩ := simplify_settled hc' ((later₁.trans since).extends.has has)
  obtain ⟨rfl, rfl⟩ := plainWithin_unique again plain₂
  obtain ⟨c', ret₂, reliable, alike₂⟩ := settled₂ c hc' (.refl c)
  exact ⟨c', ret₂, reliable, alike₂.symm⟩

namespace State

variable {s t : State} {states : List State} {x : SymbolId} {o : Option Handle}

theorem simplifyBinding_again (hc : ctx.Reliable) {b : SymbolId × Handle} {r : Option (SymbolId × Handle)}
    (has : ctx.Has b.2) (ret : Returns (simplifyBinding b) ctx r ctx') (later : ctx'.Later c) (hc' : c.Reliable) :
    Stays (simplifyBinding b) c r := by
  obtain ⟨v, c₁, simplified, ret⟩ := returns_of_bind ret
  obtain ⟨answer, c₂, asked, ret⟩ := returns_of_bind ret
  cases ret
  obtain ⟨answered, rfl⟩ := Prod.mk.inj ((asking_run _ c₁).symm.trans asked)
  refine (simplify_again hc has simplified later hc').bind fun c₃ hc₃ alike => ?_
  have asked' : Returns (asking (·.asSymbol? v)) c₃ answer c₃ := by
    unfold Returns
    rw [asking_run, (Lasts.asSymbol? v).later (later.trans alike.later) answered]
  exact (Stays.of_returns hc₃ asked').bind fun c₄ hc₄ _ => .of_returns hc₄ rfl

def Reduces (ctx : Context) (b : SymbolId × Handle) (r : Option (SymbolId × Handle)) (ctx' : Context) : Prop :=
  ∃ c c', ctx.Later c ∧ c.Reliable ∧ Returns (simplifyBinding b) c r c' ∧ c'.Later ctx'

theorem Reduces.fst {b b' : SymbolId × Handle} (h : Reduces ctx b (some b') ctx') : b'.1 = b.1 := by
  obtain ⟨_, _, _, _, ret, _⟩ := h
  obtain ⟨v, _, _, ret⟩ := returns_of_bind ret
  obtain ⟨answer, _, _, ret⟩ := returns_of_bind ret
  by_cases self : answer = some b.1
  · rw [if_pos self] at ret
    cases ret
  · rw [if_neg self] at ret
    cases ret
    rfl

theorem Reduces.unique {b : SymbolId × Handle} {r r' : Option (SymbolId × Handle)} (has : ctx.Has b.2)
    (first : Reduces ctx b r ctx') (later : ctx'.Later c) (second : Reduces c b r' c') : r' = r := by
  obtain ⟨c₁, c₂, later₁, hc₁, ret₁, later₂⟩ := first
  obtain ⟨c₃, c₄, later₃, hc₃, ret₃, _⟩ := second
  obtain ⟨_, again, _⟩ :=
    simplifyBinding_again hc₁ (later₁.extends.has has) ret₁ ((later₂.trans later).trans later₃) hc₃
  exact (returns_unique ret₃ again).1

/-- Each binding is simplified on its own, and goes only if it binds its symbol to itself. -/
theorem simplify_get? (hc : ctx.Reliable) (hs : s.Valid ctx) (ret : Returns s.simplify ctx t ctx') (x : SymbolId) :
    (s.store.get? x = none ∧ t.store.get? x = none) ∨ ∃ h r, s.store.get? x = some h ∧
      Reduces ctx (x, h) r ctx' ∧ t.store.get? x = r.map (·.2) := by
  obtain ⟨path, c₁, simplified, ret⟩ := returns_of_bind ret
  obtain ⟨rs, c₂, mapped, ret⟩ := returns_of_bind ret
  cases ret
  have paths := PathCondition.simplify_uniform hc hs.path
  have hc₁ := (paths.of_returns simplified).1
  have later₁ := paths.later_of_returns simplified
  have each : Uniform (s.store.flatten.mapM simplifyBinding) c₁ fun rs c =>
      List.Forall₂ (fun b r => Reduces ctx b r c) s.store.flatten rs := by
    refine Uniform.mapM (P := Reduces ctx) _ hc₁ ?_ fun b hb c later hc => ?_
    · rintro b r c c' later _ ⟨c₃, c₄, later₃, hc₃, ret₃, later₄⟩
      exact ⟨c₃, c₄, later₃, hc₃, ret₃, later₄.trans later⟩
    · have total := later₁.trans later
      refine (simplifyBinding_uniform hc ((hs.flatten b hb).later total)).returned.mono ?_
      rintro r c' _ _ ⟨ret, _⟩
      exact ⟨c, c', total, hc, ret, .refl c'⟩
  have reduced := (each.of_returns mapped).2
  have increasing := kept_increasing (reduced.imp fun _ _ one b' made => (made ▸ one).fst) s.store.flatten_increasing
  have found := Store.get?_ofBindings increasing.nodup x
  rcases find?_kept Reduces.fst reduced x s.store.flatten_increasing.nodup with ⟨old, new⟩ | ⟨h, r, old, one, new⟩
  · rw [Store.find?_flatten] at old
    exact .inl ⟨old, found.trans new⟩
  · rw [Store.find?_flatten] at old
    exact .inr ⟨h, r, old, one, found.trans new⟩

/-- Two states with the same binding of a symbol agree on it after both are simplified, one later than the other. -/
theorem simplify_agree {s' t' : State} (hc : ctx.Reliable) (hs : s.Valid ctx) (ret : Returns s.simplify ctx t ctx')
    (later : ctx'.Later c) (hc' : c.Reliable) (hs' : s'.Valid c) (same : s'.store.get? x = s.store.get? x)
    (ret' : Returns s'.simplify c t' c') : t'.store.get? x = t.store.get? x := by
  rcases simplify_get? hc hs ret x with ⟨old, new⟩ | ⟨h, r, old, reduced, new⟩
  · rcases simplify_get? hc' hs' ret' x with ⟨_, new'⟩ | ⟨h', _, old', _⟩
    · rw [new, new']
    · rw [same, old] at old'
      cases old'
  · rcases simplify_get? hc' hs' ret' x with ⟨old', _⟩ | ⟨h', r', old', reduced', new'⟩
    · rw [same, old] at old'
      cases old'
    · rw [same, old] at old'
      cases old'
      rw [new, new', reduced.unique (hs.store old).1 later reduced']

def Fixed (ctx : Context) (x : SymbolId) (o : Option Handle) : Prop := ∀ v, o = some v → Proper (x, v) ctx

theorem Fixed.later (later : ctx.Later ctx') (tidy : ctx'.pool.Tidy) (h : Fixed ctx x o) : Fixed ctx' x o :=
  fun v bound => (h v bound).later later tidy

theorem Simplified.fixed (h : s.Simplified ctx) (x : SymbolId) : Fixed ctx x (s.store.get? x) := by
  obtain ⟨path, store⟩ := s
  obtain ⟨_, bs, rfl, _, proper⟩ := h
  exact fun v bound => proper (x, v) (Store.mem_of_get?_ofBindings bound)

theorem simplify_keeps (hc : ctx.Reliable) (hs : s.Valid ctx) (ret : Returns s.simplify ctx t ctx')
    (fixed : Fixed ctx x (s.store.get? x)) : t.store.get? x = s.store.get? x := by
  rcases simplify_get? hc hs ret x with ⟨old, new⟩ | ⟨h, r, old, ⟨c, c', later, hc', ret', _⟩, new⟩
  · rw [old, new]
  · have proper := (fixed h old).later later hc'.sound.pool.tidy
    obtain ⟨_, stays, _⟩ := simplifyBinding_stays hc' proper
    obtain ⟨rfl, _⟩ := returns_unique ret' stays
    rw [old, new]
    rfl

/-! ## Merging -/

theorem valueIn_steady (x : SymbolId) (m : Bindings) : Steady (valueIn x m) := by
  unfold valueIn
  split
  · exact .pure _
  · exact intern_steady _

theorem mergeSymbol_steady (guards : List Handle) (stores : List Bindings) (x : SymbolId) :
    Steady (mergeSymbol guards stores x) := by
  unfold mergeSymbol
  refine (Steady.mapM (valueIn_steady x) stores).bind fun values => ?_
  split
  · exact .ite (.pure _) ((choice_steady _).bind fun h => .pure _)
  · exact .throw _

/-- Merging the same states again, at any later time, gives the same state and adds nothing. -/
theorem mergeSeveral_again (hc : ctx.Reliable) {first m : State} {others : List State}
    (valid : ∀ s ∈ first :: others, s.Valid ctx) (ret : Returns (mergeSeveral first others) ctx m ctx')
    (later : ctx'.Later c) (hc' : c.Reliable) : Stays (mergeSeveral first others) c m := by
  unfold mergeSeveral at ret ⊢
  dsimp only at ret ⊢
  generalize others.foldl (fun p s => p.inter s.path) first.path = common at ret ⊢
  generalize first :: others = states at valid ret ⊢
  obtain ⟨guards, c₁, hguards, ret⟩ := returns_of_bind ret
  obtain ⟨d, c₂, hjoin, ret⟩ := returns_of_bind ret
  obtain ⟨reached, c₃, hreached, ret⟩ := returns_of_bind ret
  obtain ⟨bindings, c₄, hbindings, ret⟩ := returns_of_bind ret
  cases ret
  have formulas := guards_uniform hc common valid
  obtain ⟨hc₁, hasGuards⟩ := formulas.of_returns hguards
  have joined := join_uniform hc₁ .disj hasGuards
  obtain ⟨hc₂, hasD⟩ := joined.of_returns hjoin
  have symbols : Steady ((boundSymbols (states.map (·.store.flatten))).mapM
      (mergeSymbol guards (states.map (·.store.flatten)))) := .mapM (mergeSymbol_steady _ _) _
  have formula : Steady (states.mapM fun s => (s.path.diff common).formula) :=
    .mapM (fun s => (join_straight .conj _).toSteady) _
  have later₃ : c₃.Later c := (symbols.of_returns hbindings).later.trans later
  have simplified := ContextM.simplify_uniform hc₂ hasD
  have later₂ : c₂.Later c := (simplified.later_of_returns hreached).trans later₃
  have later₁ : c₁.Later c := ((join_straight .disj guards).of_returns hjoin).later.trans later₂
  have tidy := hc'.sound.pool.tidy
  refine (Stays.of_returns hc' (formula.repeats hguards tidy later₁)).bind fun e₁ he₁ alike₁ => ?_
  have tidy₁ := he₁.sound.pool.tidy
  refine (Stays.of_returns he₁ ((join_straight .disj guards).repeats hjoin tidy₁ (later₂.trans alike₁.later))).bind
    fun e₂ he₂ alike₂ => ?_
  have alike := alike₁.trans alike₂
  refine (simplify_again hc₂ hasD hreached (later₃.trans alike.later) he₂).bind fun e₃ he₃ alike₃ => ?_
  have total := later.trans (alike.trans alike₃).later
  refine (Stays.of_returns he₃ (symbols.repeats hbindings he₃.sound.pool.tidy total)).bind fun e₄ he₄ _ => ?_
  exact .of_returns he₄ rfl

theorem merge_again (hc : ctx.Reliable) {m : State} (valid : ∀ s ∈ states, s.Valid ctx)
    (ret : Returns (merge states) ctx m ctx') (later : ctx'.Later c) (hc' : c.Reliable) : Stays (merge states) c m := by
  match states with
  | [] => cases ret
  | [s] =>
    cases ret
    exact .of_returns hc' rfl
  | first :: second :: others => exact mergeSeveral_again hc valid ret later hc'

/-- A symbol on whose value all states agree keeps it. -/
theorem mergeSymbol_agree {guards : List Handle} {v : Handle} {b : SymbolId × Handle}
    (all : ∀ s ∈ states, s.store.get? x = some v)
    (ret : Returns (mergeSymbol guards (states.map (·.store.flatten)) x) ctx b ctx') : b = (x, v) := by
  obtain ⟨values, c, collected, ret⟩ := returns_of_bind ret
  have equal : ∀ w ∈ values, w = v := by
    intro w hw
    obtain ⟨m, hm, c₁, c₂, found⟩ := Related.exists_left (returns_mapM collected) hw
    obtain ⟨s, hs, rfl⟩ := List.mem_map.mp hm
    unfold valueIn at found
    rw [Store.find?_flatten, all s hs] at found
    cases found
    rfl
  match values with
  | [] => cases ret
  | w :: rest =>
    obtain rfl := equal w List.mem_cons_self
    have same : rest.all (· = w) = true := List.all_eq_true.mpr fun u hu =>
      decide_eq_true (equal u (List.mem_cons_of_mem _ hu))
    dsimp only at ret
    rw [if_pos same] at ret
    cases ret
    rfl

theorem mergeSymbol_fst {guards : List Handle} {stores : List Bindings} {b : SymbolId × Handle}
    (ret : Returns (mergeSymbol guards stores x) ctx b ctx') : b.1 = x := by
  obtain ⟨values, c, _, ret⟩ := returns_of_bind ret
  match values with
  | [] => cases ret
  | w :: rest =>
    dsimp only at ret
    split at ret
    · cases ret
      rfl
    · obtain ⟨h, c₁, _, ret⟩ := returns_of_bind ret
      cases ret
      rfl

/-- States that all bind a symbol alike, or all not, merge into one that does so too. -/
theorem merge_get? {m : State} (all : ∀ s ∈ states, s.store.get? x = o) (ret : Returns (merge states) ctx m ctx') :
    m.store.get? x = o := by
  match states with
  | [] => cases ret
  | [s] =>
    cases ret
    exact all _ List.mem_cons_self
  | first :: second :: others =>
    change Returns (mergeSeveral first (second :: others)) ctx m ctx' at ret
    unfold mergeSeveral at ret
    dsimp only at ret
    have some : first ∈ first :: second :: others := List.mem_cons_self
    generalize first :: second :: others = states at all ret some
    obtain ⟨guards, c₁, _, ret⟩ := returns_of_bind ret
    obtain ⟨d, c₂, _, ret⟩ := returns_of_bind ret
    obtain ⟨reached, c₃, _, ret⟩ := returns_of_bind ret
    obtain ⟨bindings, c₄, collected, ret⟩ := returns_of_bind ret
    cases ret
    have related := returns_mapM collected
    have keys : bindings.map (·.1) = boundSymbols (states.map (·.store.flatten)) := by
      refine map_fst_of_related (related.imp fun y b made => ?_)
      obtain ⟨_, _, made⟩ := made
      exact mergeSymbol_fst made
    have nodup : (bindings.map (·.1)).Nodup := keys ▸ SymbolId.ofList_nodup _
    refine (Store.get?_ofBindings nodup x).trans ?_
    cases o with
    | none =>
      cases found : Bindings.find? bindings x with
      | none => rfl
      | some h =>
        have bound : x ∈ bindings.map (·.1) := List.mem_map_of_mem (Bindings.mem_of_find? found)
        rw [keys] at bound
        obtain ⟨s, hs, k, bound⟩ := mem_boundSymbols.mp bound
        rw [all s hs] at bound
        cases bound
    | some v =>
      have bound : x ∈ boundSymbols (states.map (·.store.flatten)) :=
        mem_boundSymbols.mpr ⟨first, some, v, all first some⟩
      obtain ⟨b, hb, _, _, made⟩ := Related.exists_right related bound
      obtain rfl := mergeSymbol_agree all made
      exact Bindings.find?_of_mem nodup hb

/-! ## Merging and simplifying -/

/-- Any state that binds `x` as `s` does binds it to `o` once it is simplified. -/
def SimplifiesTo (ctx : Context) (s : State) (x : SymbolId) (o : Option Handle) : Prop :=
  ∀ ⦃c c' : Context⦄ ⦃u t : State⦄, ctx.Later c → c.Reliable → u.Valid c → u.store.get? x = s.store.get? x →
    Returns u.simplify c t c' → t.store.get? x = o

theorem Fixed.simplifiesTo (fixed : Fixed ctx x (s.store.get? x)) : SimplifiesTo ctx s x (s.store.get? x) := by
  intro c c' u t later hc hu same ret
  rw [← same] at fixed ⊢
  exact simplify_keeps hc hu ret (fixed.later later hc.sound.pool.tidy)

/-- The states are merged in `ctx` and simplified to `seed`, which leaves `ctx'`. -/
structure MergesTo (ctx : Context) (states : List State) (seed : State) (ctx' : Context) : Prop where
  reliable : ctx.Reliable
  valid : ∀ s ∈ states, s.Valid ctx
  merges : ∃ merged c, Returns (merge states) ctx merged c ∧ Returns merged.simplify c seed ctx'

/-- When the states are merged again later, what they merge into still simplifies as before. -/
theorem MergesTo.again {seed m : State} {c₁ : Context} (h : MergesTo ctx states seed ctx') (later : ctx'.Later c)
    (hc : c.Reliable) (ret : Returns (merge states) c m c₁) : SimplifiesTo c₁ m x (seed.store.get? x) := by
  obtain ⟨merged, c₀, merges, simplifies⟩ := h.merges
  obtain ⟨hc₀, valid⟩ := (merge_uniform h.reliable h.valid).of_returns merges
  have later₀ := (simplify_uniform hc₀ valid).later_of_returns simplifies
  obtain ⟨_, again, _, alike⟩ := merge_again h.reliable h.valid merges (later₀.trans later) hc
  obtain ⟨rfl, rfl⟩ := returns_unique ret again
  intro c₂ c₃ u t later₂ hc₂ hu same ret
  exact simplify_agree hc₀ valid simplifies ((later.trans alike.later).trans later₂) hc₂ hu same ret

/-- A symbol that all the states bind to the same simplified value keeps it. -/
theorem MergesTo.get? {seed : State} (h : MergesTo ctx states seed ctx') (all : ∀ s ∈ states, s.store.get? x = o)
    (fixed : Fixed ctx x o) : seed.store.get? x = o := by
  obtain ⟨merged, c₀, merges, simplifies⟩ := h.merges
  have uniform := merge_uniform h.reliable h.valid
  obtain ⟨hc₀, valid⟩ := uniform.of_returns merges
  have same := merge_get? all merges
  rw [← same] at fixed ⊢
  exact simplify_keeps hc₀ valid simplifies (fixed.later (uniform.later_of_returns merges) hc₀.sound.pool.tidy)

end State

end PathMerge
