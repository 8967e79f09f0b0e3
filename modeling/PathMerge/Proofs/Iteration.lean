/-
  PathMerge.Proofs.Iteration — one arbitrary iteration of a loop.

  Before the body of a loop is walked, the modified symbols of the states that enter it are bound to fresh
  ones (`Anonymised`): the paths stay, and so do the values of all other symbols. After the walk, a symbol
  that is not among the changed ones has the same value in the states that come back as in those the walk
  began with (`changedSymbols_yields`). All of this returns, and so does the summary of the loop.
-/

import PathMerge.Walk.Summary
import PathMerge.Proofs.Denotation
import PathMerge.Proofs.Laws.Heap

namespace PathMerge

open Context

/-- The fate of each element of a list that is filtered: it stays, or what a refusal says is true of it. -/
theorem Yields.filterM {σ α : Type} [Growing σ] {s : σ} {p : α → Action σ Bool} {P : α → σ → Prop} (l : List α)
    (stable : ∀ a s' s'', Growing.Extends s s' → Growing.Sound s' → Growing.Extends s' s'' → Growing.Sound s'' →
      P a s' → P a s'')
    (hs : Growing.Sound s) (each : ∀ a ∈ l, ∀ s', Growing.Extends s s' → Growing.Sound s' →
      Yields (p a) s' fun b s'' => b = false → P a s'') :
    Yields (l.filterM p) s fun kept s' => (∀ a ∈ kept, a ∈ l) ∧ ∀ a ∈ l, a ∈ kept ∨ P a s' := by
  have aux : ∀ (l acc : List α) (s' : σ), Growing.Extends s s' → Growing.Sound s' →
      (∀ a ∈ l, ∀ s'', Growing.Extends s s'' → Growing.Sound s'' → Yields (p a) s'' fun b t => b = false → P a t) →
      Yields (l.filterAuxM p acc) s' fun kept t =>
        (∀ a ∈ kept, a ∈ l ∨ a ∈ acc) ∧ (∀ a ∈ acc, a ∈ kept) ∧ ∀ a ∈ l, a ∈ kept ∨ P a t := by
    intro l
    induction l with
    | nil =>
      intro acc s' _ hs' _
      exact Yields.pure hs' ⟨fun a ha => .inr ha, fun a ha => ha, nofun⟩
    | cons a l ih =>
      intro acc s' e' hs' each
      unfold List.filterAuxM
      refine (each a List.mem_cons_self s' e' hs').bind fun b s₁ e₁ hs₁ fate => ?_
      refine (ih (cond b (a :: acc) acc) s₁ (Growing.trans e' e₁) hs₁ fun c hc =>
        each c (List.mem_cons_of_mem _ hc)).mono
        fun kept t et ht h => ⟨fun c hc => ?_, fun c hc => h.2.1 c ?_, fun c hc => ?_⟩
      · rcases h.1 c hc with inside | inside
        · exact .inl (List.mem_cons_of_mem _ inside)
        · cases b with
          | false => exact .inr inside
          | true =>
            rcases List.mem_cons.mp inside with rfl | inside
            · exact .inl List.mem_cons_self
            · exact .inr inside
      · cases b with
        | false => exact hc
        | true => exact List.mem_cons_of_mem _ hc
      · rcases List.mem_cons.mp hc with rfl | hc
        · cases b with
          | false => exact .inr (stable c s₁ t (Growing.trans e' e₁) hs₁ et ht (fate rfl))
          | true => exact .inl (h.2.1 c List.mem_cons_self)
        · exact h.2.2 c hc
  unfold List.filterM
  refine (aux l [] s (Growing.refl s) hs each).bind fun kept t _ ht h => Yields.pure ht ?_
  refine ⟨fun a ha => (h.1 a (List.mem_reverse.mp ha)).resolve_right nofun, fun a ha => ?_⟩
  exact (h.2.2 a ha).imp List.mem_reverse.mpr id

namespace Walk

variable {r : Registry} {ctx ctx' : Context} {lo : Nat} {names names' : Renaming} {modified : List SymbolId}

/-! ## Fresh symbols for modified ones -/

structure Renames (lo : Nat) (ctx : Context) (names : Renaming) : Prop where
  new : ∀ {x y}, names.lookup x = some y → lo ≤ y.number ∧ y.number < ctx.symbols.size
  injective : ∀ {x x' y}, names.lookup x = some y → names.lookup x' = some y → x = x'
  sorts : ∀ {x y}, names.lookup x = some y → ∃ old name, ctx.symbols.get? x = some old ∧
    ctx.symbols.get? y = some ⟨name, old.sort, .fresh⟩

theorem Renames.nil (lo : Nat) (ctx : Context) : Renames lo ctx [] :=
  ⟨fun found => (by cases found), fun found => (by cases found), fun found => (by cases found)⟩

theorem Renames.extends (e : ctx.Extends ctx') (ren : Renames lo ctx names) : Renames lo ctx' names := by
  refine ⟨fun found => ⟨(ren.new found).1, Nat.lt_of_lt_of_le (ren.new found).2 e.symbols.size_le⟩, ren.injective, ?_⟩
  intro x y found
  obtain ⟨old, name, here, there⟩ := ren.sorts found
  exact ⟨old, name, e.symbols.get here, e.symbols.get there⟩

def Keeps (names names' : Renaming) : Prop := ∀ {x y}, names.lookup x = some y → names'.lookup x = some y

theorem Keeps.trans {names'' : Renaming} (k : Keeps names names') (k' : Keeps names' names'') : Keeps names names'' :=
  fun found => k' (k found)

theorem lookup_cons_eq {x y z : SymbolId} :
    List.lookup z ((x, y) :: names) = if z = x then some y else names.lookup z := by
  rw [List.lookup_cons]
  by_cases same : z = x
  · simp [same]
  · rw [if_neg same, beq_false_of_ne same]

/-- A symbol without a name gets one that was not there before. -/
theorem Renames.cons (ren : Renames lo ctx names) (e : ctx.Extends ctx') (since : lo ≤ ctx.symbols.size) {x : SymbolId}
    {old : Symbol} {name : String} (here : ctx.symbols.get? x = some old)
    (new : ctx'.symbols.get? ⟨ctx.symbols.size⟩ = some ⟨name, old.sort, .fresh⟩) :
    Renames lo ctx' ((x, ⟨ctx.symbols.size⟩) :: names) := by
  have fresh : ∀ {z}, names.lookup z ≠ some ⟨ctx.symbols.size⟩ := fun found => Nat.lt_irrefl _ (ren.new found).2
  refine ⟨fun {z w} h => ?_, fun {z z' w} h h' => ?_, fun {z w} h => ?_⟩
  · rw [lookup_cons_eq] at h
    split at h
    · cases h
      exact ⟨since, Registry.get?_eq_some_lt new⟩
    · exact (ren.extends e).new h
  · rw [lookup_cons_eq] at h h'
    split at h <;> split at h'
    · rename_i same same'
      exact same.trans same'.symm
    · cases h
      exact absurd h' fresh
    · cases h'
      exact absurd h fresh
    · exact ren.injective h h'
  · rw [lookup_cons_eq] at h
    split at h
    · rename_i same
      cases h
      exact ⟨old, name, same ▸ e.symbols.get here, new⟩
    · exact (ren.extends e).sorts h

theorem Keeps.cons {x y : SymbolId} (unnamed : names.lookup x = none) : Keeps names ((x, y) :: names) := by
  intro z w h
  rw [lookup_cons_eq, if_neg, h]
  rintro rfl
  rw [unnamed] at h
  cases h

/-- A symbol is given one fresh name, which later requests find again. -/
theorem freshFor_yields (hc : ctx.Sound) (ren : Renames lo ctx names) (since : lo ≤ ctx.symbols.size) {x : SymbolId}
    (registered : x.number < ctx.symbols.size) :
    Yields (freshFor names x) ctx fun p ctx' =>
      Renames lo ctx' p.2 ∧ Keeps names p.2 ∧ p.2.lookup x = some p.1 := by
  unfold freshFor
  cases found : names.lookup x with
  | some y => exact Yields.pure hc ⟨ren, fun h => h, found⟩
  | none =>
    obtain ⟨sym, get⟩ := Registry.get?_of_lt registered
    refine (ContextM.asking_yields hc (symbolName_eq get)).bind ?_
    rintro _ _ _ _ ⟨rfl, rfl⟩
    refine (ContextM.asking_yields hc (symbolSort_eq get)).bind ?_
    rintro _ _ _ _ ⟨rfl, rfl⟩
    refine (ContextM.fresh_yields hc sym.name sym.sort).bind ?_
    rintro _ ctx₁ e₁ hc₁ ⟨rfl, _, _, new⟩
    exact Yields.pure hc₁ ⟨ren.cons e₁ since get new, Keeps.cons found, lookup_cons_eq.trans (if_pos rfl)⟩

/-- Every modified symbol is bound to its fresh name, and the other bindings stay. -/
theorem bindFresh_yields (hc : ctx.Sound) (ren : Renames lo ctx names) (since : lo ≤ ctx.symbols.size)
    (registered : ∀ x ∈ modified, x.number < ctx.symbols.size) (m : Bindings) :
    Yields (bindFresh modified names m) ctx fun p ctx' => Renames lo ctx' p.2 ∧ Keeps names p.2 ∧
      (∀ x ∈ modified, ∃ y h, p.2.lookup x = some y ∧ p.1.find? x = some h ∧ ContextM.Stands ctx' y h) ∧
      (∀ x, x ∉ modified → p.1.find? x = m.find? x) ∧ (m.Increasing → p.1.Increasing) := by
  induction modified generalizing ctx names m with
  | nil => exact Yields.pure hc ⟨ren, fun h => h, nofun, fun _ _ => rfl, fun h => h⟩
  | cons x rest ih =>
    unfold bindFresh
    refine (freshFor_yields hc ren since (registered x List.mem_cons_self)).bind ?_
    rintro ⟨y, names₁⟩ ctx₁ e₁ hc₁ ⟨ren₁, keeps₁, found⟩
    refine (ContextM.symbol_yields hc₁ (ren₁.new found).2).bind fun h ctx₂ e₂ hc₂ stands => ?_
    have e := e₁.trans e₂
    refine (ih hc₂ (ren₁.extends e₂) (Nat.le_trans since e.symbols.size_le)
      (fun z hz => Nat.lt_of_lt_of_le (registered z (List.mem_cons_of_mem _ hz)) e.symbols.size_le)
      (m.insert x h)).mono ?_
    rintro ⟨m', names₂⟩ ctx₃ e₃ hc₃ ⟨ren₃, keeps₃, bound, others, increasing⟩
    refine ⟨ren₃, keeps₁.trans keeps₃, fun z hz => ?_, fun z hz => ?_,
      fun inc => increasing (Bindings.insert_increasing inc)⟩
    · by_cases later : z ∈ rest
      · exact bound z later
      · obtain rfl := (List.mem_cons.mp hz).resolve_right later
        refine ⟨y, h, keeps₃ found, ?_, stands.sign, e₃.pool stands.node⟩
        rw [others z later, Bindings.find?_insert, if_pos rfl]
    · obtain ⟨ne, later⟩ := not_or.mp fun h => hz (List.mem_cons.mpr h)
      rw [others z later, Bindings.find?_insert, if_neg ne]

/-- The state `t` binds the modified symbols to their fresh ones, and all others as `s` does. -/
structure Rebound (names : Renaming) (modified : List SymbolId) (ctx : Context) (s t : State) : Prop where
  path : t.path = s.path
  fresh : ∀ x ∈ modified, ∃ y h, names.lookup x = some y ∧ t.store.get? x = some h ∧ ContextM.Stands ctx y h
  others : ∀ x, x ∉ modified → t.store.get? x = s.store.get? x

theorem Rebound.later {s t : State} (e : ctx.Extends ctx') (keeps : Keeps names names')
    (h : Rebound names modified ctx s t) : Rebound names' modified ctx' s t := by
  refine ⟨h.path, fun x hx => ?_, h.others⟩
  obtain ⟨y, k, found, bound, stands⟩ := h.fresh x hx
  exact ⟨y, k, keeps found, bound, stands.sign, e.pool stands.node⟩

/-- Anonymising rebinds the modified symbols and nothing else. -/
theorem anonymize_rebinds (hc : ctx.Sound) (ren : Renames lo ctx names) (since : lo ≤ ctx.symbols.size)
    (registered : ∀ x ∈ modified, x.number < ctx.symbols.size) (s : State) :
    Yields (anonymize modified names s) ctx fun p ctx' =>
      Renames lo ctx' p.2 ∧ Keeps names p.2 ∧ Rebound p.2 modified ctx' s p.1 := by
  unfold anonymize
  by_cases none : modified.isEmpty = true
  · rw [if_pos none]
    obtain rfl := List.isEmpty_iff.mp none
    exact Yields.pure hc ⟨ren, fun h => h, rfl, List.forall_mem_nil _, fun _ _ => rfl⟩
  · rw [if_neg none]
    refine (bindFresh_yields hc ren since registered s.store.flatten).bind ?_
    rintro ⟨m, names₁⟩ ctx₁ e₁ hc₁ ⟨ren₁, keeps₁, bound, others, increasing⟩
    have nodup : (m.map (·.1)).Nodup := (increasing s.store.flatten_increasing).nodup
    have get : ∀ x, (Store.ofBindings m).get? x = m.find? x := Store.get?_ofBindings nodup
    refine Yields.pure hc₁ ⟨ren₁, keeps₁, rfl, fun x hx => ?_, fun x hx => ?_⟩
    · obtain ⟨y, h, found, at_, stands⟩ := bound x hx
      exact ⟨y, h, found, (get x).trans at_, stands⟩
    · exact (get x).trans ((others x hx).trans (Store.find?_flatten _ _))

theorem anonymizeAll_rebinds (hc : ctx.Sound) (ren : Renames lo ctx names) (since : lo ≤ ctx.symbols.size)
    (registered : ∀ x ∈ modified, x.number < ctx.symbols.size) (states : List State) :
    Yields (anonymizeAll modified names states) ctx fun p ctx' =>
      Renames lo ctx' p.2 ∧ Keeps names p.2 ∧ List.Forall₂ (Rebound p.2 modified ctx') states p.1 := by
  induction states generalizing ctx names with
  | nil => exact Yields.pure hc ⟨ren, fun h => h, .nil⟩
  | cons s rest ih =>
    unfold anonymizeAll
    refine (anonymize_rebinds hc ren since registered s).bind ?_
    rintro ⟨t, names₁⟩ ctx₁ e₁ hc₁ ⟨ren₁, keeps₁, first⟩
    refine (ih hc₁ ren₁ (Nat.le_trans since e₁.symbols.size_le)
      fun x hx => Nat.lt_of_lt_of_le (registered x hx) e₁.symbols.size_le).bind ?_
    rintro ⟨others, names₂⟩ ctx₂ e₂ hc₂ ⟨ren₂, keeps₂, rest⟩
    exact Yields.pure hc₂ ⟨ren₂, keeps₁.trans keeps₂, .cons (first.later e₂ keeps₂) rest⟩

structure Anonymised (names : Renaming) (modified : List SymbolId) (ctx : Context) (s t : State) : Prop where
  valid : t.Valid ctx
  bound : ∀ {x h}, t.store.get? x = some h → x ∈ modified ∨ ∃ k, s.store.get? x = some k
  path : t.path = s.path
  renamed : ∀ x ∈ modified, ∃ y, names.lookup x = some y ∧ ∀ I v, t.store.eval ctx I v x = some (v y)
  others : ∀ x, x ∉ modified → ∀ I v, t.store.eval ctx I v x = s.store.eval ctx I v x

theorem Anonymised.later {s t : State} (hc : ctx.Sound) (e : ctx.Extends ctx') (keeps : Keeps names names')
    (valid : s.Valid ctx) (h : Anonymised names modified ctx s t) : Anonymised names' modified ctx' s t := by
  refine ⟨h.valid.extends e, h.bound, h.path, fun x hx => ?_, fun x hx I v => ?_⟩
  · obtain ⟨y, found, value⟩ := h.renamed x hx
    refine ⟨y, keeps found, fun I v => ?_⟩
    rw [State.eval_extends hc e h.valid]
    exact value I v
  · rw [State.eval_extends hc e h.valid, State.eval_extends hc e valid]
    exact h.others x hx I v

/-- In the anonymised state each modified symbol reads as its fresh name, and every other symbol as before. -/
theorem Rebound.anonymised {s t : State} (hc : ctx.Sound) (registered : ∀ x ∈ modified, x.number < ctx.symbols.size)
    (valid : s.Valid ctx) (h : Rebound names modified ctx s t) : Anonymised names modified ctx s t := by
  refine ⟨⟨h.path ▸ valid.path, fun {x k} found => ?_⟩, fun {x k} found => ?_, h.path, fun x hx => ?_,
    fun x hx I v => ?_⟩
  · by_cases hx : x ∈ modified
    · obtain ⟨_, _, _, bound, stands⟩ := h.fresh x hx
      rw [found] at bound
      cases bound
      exact ⟨stands.has, registered x hx⟩
    · rw [h.others x hx] at found
      exact valid.store found
  · by_cases hx : x ∈ modified
    · exact .inl hx
    · rw [h.others x hx] at found
      exact .inr ⟨_, found⟩
  · obtain ⟨y, k, found, bound, stands⟩ := h.fresh x hx
    refine ⟨y, found, fun I v => ?_⟩
    rw [Store.eval_bound bound, stands.eval hc]
  · unfold Store.eval
    rw [h.others x hx]

theorem anonymize_yields (hc : ctx.Sound) (ren : Renames lo ctx names) (since : lo ≤ ctx.symbols.size)
    (registered : ∀ x ∈ modified, x.number < ctx.symbols.size) {s : State} (valid : s.Valid ctx) :
    Yields (anonymize modified names s) ctx fun p ctx' =>
      Renames lo ctx' p.2 ∧ Keeps names p.2 ∧ Anonymised p.2 modified ctx' s p.1 := by
  refine (anonymize_rebinds hc ren since registered s).mono fun p ctx' e hc' done => ?_
  obtain ⟨ren', keeps, rebound⟩ := done
  exact ⟨ren', keeps, rebound.anonymised hc' (fun x hx => Nat.lt_of_lt_of_le (registered x hx) e.symbols.size_le)
    (valid.extends e)⟩

theorem anonymizeAll_yields (hc : ctx.Sound) (ren : Renames lo ctx names) (since : lo ≤ ctx.symbols.size)
    (registered : ∀ x ∈ modified, x.number < ctx.symbols.size) {states : List State}
    (valid : ∀ s ∈ states, s.Valid ctx) :
    Yields (anonymizeAll modified names states) ctx fun p ctx' =>
      Renames lo ctx' p.2 ∧ Keeps names p.2 ∧ List.Forall₂ (Anonymised p.2 modified ctx') states p.1 := by
  refine (anonymizeAll_rebinds hc ren since registered states).mono fun p ctx' e hc' done => ?_
  obtain ⟨ren', keeps, rebound⟩ := done
  have registered' : ∀ x ∈ modified, x.number < ctx'.symbols.size := fun x hx =>
    Nat.lt_of_lt_of_le (registered x hx) e.symbols.size_le
  refine ⟨ren', keeps, ((List.forall₂_and_left _ _).mpr ⟨valid, rebound⟩).imp fun s t one => ?_⟩
  exact one.2.anonymised hc' registered' (one.1.extends e)

/-! ## Changed symbols -/

def Agree (ctx : Context) (s t : State) (x : SymbolId) : Prop :=
  ∀ I v, t.store.eval ctx I v x = s.store.eval ctx I v x

theorem Agree.later {s t : State} {x : SymbolId} (hc : ctx.Sound) (e : ctx.Extends ctx') (hs : s.Valid ctx)
    (ht : t.Valid ctx) (h : Agree ctx s t x) : Agree ctx' s t x := by
  intro I v
  rw [State.eval_extends hc e hs, State.eval_extends hc e ht]
  exact h I v

theorem differs_yields (hc : ctx.Sound) {s t : State} (hs : s.Valid ctx) (ht : t.Valid ctx) {x : SymbolId}
    (registered : x.number < ctx.symbols.size) :
    Yields (differs s.store.flatten t.store.flatten x) ctx fun b ctx' => b = false → Agree ctx' s t x := by
  unfold differs
  refine (State.valueIn_yields hc hs registered).bind fun old ctx₁ e₁ hc₁ before => ?_
  refine (State.valueIn_yields hc₁ (ht.extends e₁) (Nat.lt_of_lt_of_le registered e₁.symbols.size_le)).bind
    fun new ctx₂ e₂ hc₂ after => Yields.pure hc₂ fun same I v => ?_
  have same : old = new := by simpa using same
  subst same
  have e := e₁.trans e₂
  rw [State.eval_extends hc e hs, State.eval_extends hc e ht, ← State.eval_extends hc e₁ ht, ← after.2 I v,
    ← before.2 I v, Context.eval_extends hc₁ e₂ before.1]

/-- A symbol that is not reported as changed agrees between the seed and every returning state. -/
theorem changedSymbols_yields (hc : ctx.Sound) {s : State} (hs : s.Valid ctx) {back : List State}
    (valid : ∀ t ∈ back, t.Valid ctx) :
    Yields (changedSymbols s.store.flatten back) ctx fun changed ctx' =>
      (∀ x ∈ changed, ∃ t ∈ s :: back, ∃ h, t.store.get? x = some h) ∧
        ∀ t ∈ back, ∀ x, x ∉ changed → Agree ctx' s t x := by
  let keys (t : State) : List SymbolId := s.store.flatten.map (·.1) ++ t.store.flatten.map (·.1)
  have mem_keys : ∀ {t : State} {x}, x ∈ keys t ↔ (∃ h, s.store.get? x = some h) ∨ ∃ h, t.store.get? x = some h := by
    intro t x
    rw [List.mem_append, Store.mem_flatten_keys, Store.mem_flatten_keys]
  let Fate (t : State) (kept : List SymbolId) (c : Context) : Prop :=
    (∀ x ∈ kept, x ∈ keys t) ∧ ∀ x ∈ keys t, x ∈ kept ∨ Agree c s t x
  have each : Yields (back.mapM fun t => (keys t).filterM (differs s.store.flatten t.store.flatten)) ctx
      fun kepts ctx' => List.Forall₂ (fun t kept => t.Valid ctx ∧ Fate t kept ctx') back kepts := by
    refine Yields.mapM (P := fun t kept c => t.Valid ctx ∧ Fate t kept c) back ?_ hc fun t ht ctx₁ e₁ hc₁ => ?_
    · rintro t kept ctx₁ ctx₂ e₁ hc₁ e₂ _ ⟨ht, fate⟩
      exact ⟨ht, fate.1, fun x hx => (fate.2 x hx).imp id fun agree =>
        agree.later hc₁ e₂ (hs.extends e₁) (ht.extends e₁)⟩
    · have ht := valid t ht
      refine (Yields.filterM (P := fun x c => Agree c s t x) (keys t) ?_ hc₁ fun x hx ctx₂ e₂ hc₂ => ?_).mono
        fun kept _ _ _ fate => ⟨ht, fate⟩
      · exact fun x ctx₂ ctx₃ e₂ hc₂ e₃ _ agree =>
          agree.later hc₂ e₃ (hs.extends (e₁.trans e₂)) (ht.extends (e₁.trans e₂))
      · have e := e₁.trans e₂
        refine differs_yields hc₂ (hs.extends e) (ht.extends e) ?_
        rcases mem_keys.mp hx with ⟨h, bound⟩ | ⟨h, bound⟩
        · exact ((hs.extends e).store bound).2
        · exact ((ht.extends e).store bound).2
  unfold changedSymbols
  refine each.bind fun kepts ctx₁ e₁ hc₁ fates => Yields.pure hc₁ ⟨fun x hx => ?_, fun t ht x hx I v => ?_⟩
  · obtain ⟨kept, hk, hx⟩ := List.mem_flatten.mp (SymbolId.mem_ofList.mp hx)
    obtain ⟨t, ht, _, fate⟩ := Related.exists_left fates hk
    rcases mem_keys.mp (fate.1 x hx) with bound | bound
    · exact ⟨s, List.mem_cons_self, bound⟩
    · exact ⟨t, List.mem_cons_of_mem _ ht, bound⟩
  · obtain ⟨kept, hk, _, fate⟩ := Related.exists_right fates ht
    by_cases key : x ∈ keys t
    · refine (fate.2 x key).resolve_left (fun inside => hx ?_) I v
      exact SymbolId.mem_ofList.mpr (List.mem_flatten.mpr ⟨kept, hk, inside⟩)
    · -- A symbol that neither state binds stands for itself in both.
      obtain ⟨no, no'⟩ := not_or.mp (mt mem_keys.mpr key)
      have unbound : ∀ u : State, (¬ ∃ h, u.store.get? x = some h) → u.store.get? x = none := by
        intro u none
        cases bound : u.store.get? x with
        | none => rfl
        | some h => exact absurd ⟨h, bound⟩ none
      rw [Store.eval_unbound (unbound s no), Store.eval_unbound (unbound t no')]

/-! ## Written locations -/

def Locates (writes? : Option (List Location)) (ctx : Context) : Prop :=
  ∀ ws, writes? = some ws → ∀ l ∈ ws, ctx.Has l.1 ∧ ctx.Has l.2

theorem Locates.extends {ws : Option (List Location)} (e : ctx.Extends ctx') (h : Locates ws ctx) : Locates ws ctx' :=
  fun l hl w hw => ⟨e.has (h l hl w hw).1, e.has (h l hl w hw).2⟩

theorem mem_of_collected {α : Type} {l : List (Option α)} {l' : List α} (h : l.mapM id = some l') {a : α}
    (ha : a ∈ l') :
    some a ∈ l := by
  induction l generalizing l' with
  | nil =>
    cases h
    cases ha
  | cons b l ih =>
    rw [List.mapM_cons] at h
    obtain ⟨c, hc, h⟩ := Option.bind_eq_some_iff.mp h
    obtain ⟨rest, hrest, h⟩ := Option.bind_eq_some_iff.mp h
    cases h
    rcases List.mem_cons.mp ha with rfl | ha
    · rw [show b = some a from hc]
      exact List.mem_cons_self
    · exact List.mem_cons_of_mem _ (ih hrest ha)

/-- Operands have smaller indices, so the depth suffices. -/
theorem writesWithin_yields (base : Handle) (depth : Nat) (hc : ctx.Sound) (provided : ctx.symbols.Provides .heap)
    {heap : Handle} (has : ctx.Has heap) (deep : heap.index < depth) :
    Yields (writesWithin base depth heap) ctx Locates := by
  induction depth generalizing ctx heap with
  | zero => exact absurd deep (Nat.not_lt_zero _)
  | succ depth ih =>
    unfold writesWithin
    by_cases same : heap = base
    · rw [if_pos same]
      refine Yields.pure hc fun ws h l hl => ?_
      cases h
      cases hl
    rw [if_neg same]
    refine ((Theory.Heap.write?_spec _).yields hc ⟨provided, has⟩).bind ?_
    rintro write? _ _ _ ⟨rfl, written⟩
    obtain ⟨n, node⟩ := Pool.has_iff.mp has
    cases write? with
    | some write =>
      obtain ⟨before, object, field, value⟩ := write
      have app := written before object field value rfl
      have operand : ∀ x ∈ [before, object, field, value], ctx.Has x := app.has_arg hc
      obtain ⟨f, _, node'⟩ := app.node
      have below := (hc.pool.below node' before (by simp [Node.children])).2
      refine (ih hc provided (operand before (by simp)) (by omega)).bind fun ws ctx₁ e₁ hc₁ located =>
        Yields.pure hc₁ ?_
      intro all h l hl
      obtain ⟨rest, rfl, rfl⟩ := Option.map_eq_some_iff.mp h
      rcases List.mem_cons.mp hl with rfl | hl
      · exact ⟨e₁.has (operand object (by simp)), e₁.has (operand field (by simp))⟩
      · exact located rest rfl l hl
    | none =>
      refine (ContextM.asking_yields hc (a := n) (InternTable.value_eq_ok.mpr node)).bind ?_
      rintro _ _ _ _ ⟨rfl, rfl⟩
      have nothing : Yields (pure none : ContextM (Option (List Location))) ctx Locates :=
        Yields.pure hc fun _ h => by cases h
      cases n with
      | summary branches =>
        cases heap.negated with
        | true => exact nothing
        | false =>
          have each : Yields (branches.mapM fun b => writesWithin base depth b.2) ctx fun writes ctx' =>
              List.Forall₂ (fun _ ws => Locates ws ctx') branches writes := by
            refine Yields.mapM (P := fun _ ws c => Locates ws c) branches ?_ hc fun b hb ctx₁ e₁ hc₁ => ?_
            · exact fun _ _ _ _ _ _ e _ located => located.extends e
            · have child := (Node.mem_children_summary hb).2
              have below := (hc.pool.below node b.2 child).2
              exact ih hc₁ (provided.extends e₁.symbols) (e₁.has (hc.pool.has_child node child)) (by omega)
          refine each.bind fun writes ctx₁ e₁ hc₁ located => Yields.pure hc₁ fun all h l hl => ?_
          obtain ⟨lists, collected, rfl⟩ := Option.map_eq_some_iff.mp h
          obtain ⟨ws, hws, hl⟩ := List.mem_flatten.mp hl
          obtain ⟨_, _, found⟩ := Related.exists_left located (mem_of_collected collected hws)
          exact found ws rfl l hl
      | _ => exact nothing

theorem allWrites?_yields (base : Handle) (hc : ctx.Sound) (provided : ctx.symbols.Provides .heap)
    (heap : Registry.heap.number < ctx.symbols.size)
    {back : List State} (valid : ∀ s ∈ back, s.Valid ctx) : Yields (allWrites? base back) ctx Locates := by
  induction back generalizing ctx with
  | nil =>
    refine Yields.pure hc fun ws h l hl => ?_
    cases h
    cases hl
  | cons s rest ih =>
    unfold allWrites?
    refine (State.value_yields hc (valid s List.mem_cons_self) heap).bind fun h ctx₁ e₁ hc₁ val => ?_
    refine (writesWithin_yields base (h.index + 1) hc₁ (provided.extends e₁.symbols) val.1 (Nat.lt_succ_self _)).bind
      fun ws ctx₂ e₂ hc₂ located => ?_
    cases ws with
    | none => exact Yields.pure hc₂ fun _ h => by cases h
    | some ws =>
      have e := e₁.trans e₂
      refine (ih hc₂ (provided.extends e.symbols) (Nat.lt_of_lt_of_le heap e.symbols.size_le)
        fun s hs => (valid s (List.mem_cons_of_mem _ hs)).extends e).bind fun others ctx₃ e₃ hc₃ rest =>
        Yields.pure hc₃ ?_
      intro all h l hl
      obtain ⟨more, rfl, rfl⟩ := Option.map_eq_some_iff.mp h
      rcases List.mem_append.mp hl with hl | hl
      · exact located.extends e₃ ws rfl l hl
      · exact rest more rfl l hl

theorem unions_yields (hc : ctx.Sound) (provided : ctx.symbols.Provides .locations) {locations : List Location}
    (has : ∀ l ∈ locations, ctx.Has l.1 ∧ ctx.Has l.2)
    {set : Handle} (hasSet : ctx.Has set) :
    Yields (locations.foldlM (fun set (l : Location) => do ContextM.union set (← ContextM.location l.1 l.2)) set) ctx
      fun h ctx' => ctx'.Has h := by
  induction locations generalizing ctx set with
  | nil => exact Yields.pure hc hasSet
  | cons l rest ih =>
    obtain ⟨object, field⟩ := has l List.mem_cons_self
    rw [List.foldlM_cons]
    have added : Yields (do ContextM.union set (← ContextM.location l.1 l.2)) ctx fun h ctx' => ctx'.Has h := by
      refine (ContextM.call_yields hc (.location .singleton) provided [l.1, l.2] rfl (by simp [object, field])).bind
        fun one ctx₁ e₁ hc₁ single => ?_
      exact (ContextM.call_yields hc₁ (.location .union) (provided.extends e₁.symbols) [set, one] rfl
        (by simp [e₁.has hasSet, single.has])).mono fun _ _ _ _ union => union.has
    refine added.bind fun h ctx₁ e₁ hc₁ hasH => ih hc₁ (provided.extends e₁.symbols) (fun k hk => ?_) hasH
    obtain ⟨object, field⟩ := has k (List.mem_cons_of_mem _ hk)
    exact ⟨e₁.has object, e₁.has field⟩

/-- The set of written locations is always found, if only as the set of all locations. -/
theorem writtenLocations_yields (hc : ctx.Sound) (provided : ∀ t, ctx.symbols.Provides t)
    (heap : Registry.heap.number < ctx.symbols.size) {s : State}
    (hs : s.Valid ctx) {back : List State} (valid : ∀ s ∈ back, s.Valid ctx) :
    Yields (writtenLocations s.store back) ctx fun h ctx' => ctx'.Has h := by
  unfold writtenLocations
  refine (State.value_yields hc hs heap).bind fun base ctx₁ e₁ hc₁ _ => ?_
  refine (allWrites?_yields base hc₁ ((provided .heap).extends e₁.symbols) (Nat.lt_of_lt_of_le heap e₁.symbols.size_le)
    fun s hs => (valid s hs).extends e₁).bind fun ws ctx₂ e₂ hc₂ located => ?_
  have provided := (provided .locations).extends (e₁.trans e₂).symbols
  cases ws with
  | none => exact (ContextM.call_yields hc₂ (.location .allLocs) provided [] rfl nofun).mono fun _ _ _ _ all => all.has
  | some ws =>
    refine (ContextM.call_yields hc₂ (.location .empty) provided [] rfl nofun).bind fun none ctx₃ e₃ hc₃ empty => ?_
    have has : ∀ l ∈ SortedList.ofList Branch.lt ws, ctx₃.Has l.1 ∧ ctx₃.Has l.2 := fun l hl =>
      located.extends e₃ ws rfl l ((SortedList.mem_ofList Branch.lt_separates).mp hl)
    refine (unions_yields hc₃ (provided.extends e₃.symbols) has empty.has).bind fun set ctx₄ e₄ hc₄ hasSet => ?_
    exact (PathMerge.simplify_yields hc₄ hasSet).mono fun _ _ _ _ refined => refined.has

/-- A summary is always built, and it names the head of its loop. -/
theorem summaryOf_yields (hc : ctx.Sound) (provided : ∀ t, ctx.symbols.Provides t) (ren : Renames lo ctx names)
    (since : lo ≤ ctx.symbols.size) (registered : ∀ x ∈ modified, x.number < ctx.symbols.size)
    (heap : Registry.heap.number < ctx.symbols.size) {entry : LoopEntry}
    (hentry : (⟨.empty, entry.store⟩ : State).Valid ctx) (passes : Nat) {seed : State} (hseed : seed.Valid ctx)
    {back : List State} (valid : ∀ s ∈ back, s.Valid ctx) :
    Yields (summaryOf entry modified names passes seed.store back) ctx fun summary _ => summary.head = entry.head := by
  have leaf : ∀ {ctx₁ : Context}, ctx.Extends ctx₁ → ctx₁.Sound →
      Yields (anonymize modified names ⟨.empty, entry.store⟩) ctx₁ fun made ctx₂ => made.1.Valid ctx₂ := by
    intro ctx₁ e₁ hc₁
    refine (anonymize_yields hc₁ (ren.extends e₁) (Nat.le_trans since e₁.symbols.size_le)
      (fun x hx => Nat.lt_of_lt_of_le (registered x hx) e₁.symbols.size_le) (hentry.extends e₁)).mono ?_
    rintro made ctx₂ _ _ ⟨_, _, anon⟩
    exact anon.valid
  unfold summaryOf
  dsimp only
  split
  · refine (writtenLocations_yields hc provided heap hseed valid).bind fun h ctx₁ e₁ hc₁ _ => (leaf e₁ hc₁).bind ?_
    exact fun _ _ _ hc₂ valid => (State.simplify_yields hc₂ valid).bind fun _ _ _ hc₃ _ => Yields.pure hc₃ rfl
  · refine (ContextM.call_yields hc (.location .empty) (provided .locations) [] rfl (List.forall_mem_nil _)).bind
      fun h ctx₁ e₁ hc₁ _ => (leaf e₁ hc₁).bind ?_
    exact fun _ _ _ hc₂ valid => (State.simplify_yields hc₂ valid).bind fun _ _ _ hc₃ _ => Yields.pure hc₃ rfl

end Walk

end PathMerge
