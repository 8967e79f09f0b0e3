/-
  PathMerge.Proofs.Passes — the passes over a loop, and the walk over a whole method.

  A pass that is not the last adds a symbol to the modified ones. Only symbols that the method assigns are ever
  bound, so the passes come to an end (`passes_attempt`). In the last one every symbol that is not modified comes
  back to the head with the value it had there, which is all that is asked of a loop (`LoopSolved`).

  Loops nest: a loop inside another has fewer loops inside itself, so the bound on the nesting suffices
  (`summarise_solves`), and with it a walk over the whole method returns (`ofMethod_solves`).
-/

import PathMerge.Proofs.Visits

namespace PathMerge

open Context PathMerge.Flow

namespace State

variable {ctx ctx' ctx'' : Context} {states : List State} {m t : State}

theorem Merges.refine (h : Merges ctx states m ctx') (refined : Refined ctx' m t ctx'') :
    Merges ctx states t ctx'' := by
  refine ⟨refined.valid, fun {I v s} mem applies => ?_, fun {I v} all => ?_, fun {I v s} sole x => ?_, fun bound => ?_⟩
  · exact refined.path I v true (h.applies mem applies)
  · exact refined.path I v false (h.refuted all)
  · exact (h.store sole x).trans (refined.store I v x)
  · obtain ⟨k, bound⟩ := refined.bound bound
    exact h.bound bound

end State

namespace Walk

variable {lay : Layout} {region : Region} {r : Registry} {ctx ctx' : Context} {lo lo' id : Nat} {l : Loop} {w : Walk}
  {start states seeds : List State} {done : List Nat} {visit : Nat → Visit} {modified : List SymbolId}
  {names : Renaming}

theorem Solves.weaken (le : lo' ≤ lo) (h : Solves lay region r lo start done w ctx visit) :
    Solves lay region r lo' start done w ctx visit :=
  { h with since := fun i hi => Nat.le_trans le (h.since i hi) }

theorem Solves.later (hc : ctx.Sound) (e : ctx.Extends ctx') (rec : Record lay region start done w)
    (h : Solves lay region r lo start done w ctx visit) : Solves lay region r lo start done w ctx' visit := by
  refine ⟨fun i hi => (h.visited i hi).later hc e, h.since, fun i hi => Nat.le_trans (h.until_ i hi) e.symbols.size_le,
    h.arrived, h.own, h.plain, h.order, fun k hk inner u back b hb => ?_⟩
  have hu : u ∈ done := rec.loops inner back.inLoop.head hk back.inLoop
  exact (h.back k hk inner u back b hb).later hc e (fun s hs => ((h.visited k hk).seeds s hs).valid)
    ((h.visited u hu).left b (along_mem hb)).valid

/-! ## One pass -/

/-- Behind the seeds, the head of a loop has received the states that come back to it. -/
theorem Record.back (reg : lay.Regular) (found : lay.loops[id]? = some l)
    (rec : Record lay (.ofLoop id l) seeds done w) (all : ∀ {n}, (Region.ofLoop id l).Inside lay n → n ∈ done) :
    (∀ b ∈ (w.inputs.get l.head).drop seeds.length, ∃ u ∈ done, b ∈ w.outputs.get u) ∧
      ∀ u, lay.flow.BackEdge u l.head → ∀ b ∈ along lay w.outputs u l.head,
        b ∈ (w.inputs.get l.head).drop seeds.length := by
  have head := (Region.inside_ofLoop reg found).mpr (reg.natural found).head
  obtain ⟨back, inputs, perm⟩ := rec.arrived head
  rw [if_pos (show l.head = (Region.ofLoop id l).root from rfl)] at inputs
  rw [inputs, List.drop_left]
  refine ⟨fun b hb => ?_, fun u edge b hb => perm.mem_iff.mpr (List.mem_flatMap.mpr ⟨u, ?_, ?_⟩)⟩
  · obtain ⟨u, hu, hb⟩ := List.mem_flatMap.mp (perm.mem_iff.mp hb)
    refine ⟨u, hu, ?_⟩
    unfold kept at hb
    split at hb
    · exact along_mem hb
    · cases hb
  · exact all ((Region.inside_ofLoop reg found).mpr edge.inLoop)
  · have keep : keeps lay (.ofLoop id l) u l.head = true := by
      unfold keeps
      rw [reg.closedBy_eq found edge.inLoop]
      exact decide_eq_true rfl
    unfold kept
    rw [if_pos keep]
    exact hb

theorem Startable.anonymised (anon : List.Forall₂ (Anonymised names modified ctx') states seeds)
    (ins : Startable r ctx states) (assigned : ∀ x ∈ modified, x.number < r.size) : Startable r ctx' seeds := by
  refine ⟨fun none => ins.some ?_, fun t ht => ?_, fun t ht => ?_⟩
  · subst none
    cases anon
    rfl
  · obtain ⟨_, _, renamed⟩ := Related.exists_left anon ht
    exact renamed.valid
  · obtain ⟨s, hs, renamed⟩ := Related.exists_left anon ht
    intro x h bound
    rcases renamed.bound bound with inside | ⟨k, bound⟩
    · exact assigned x inside
    · exact ins.within s hs bound

theorem anonymised_later {names' : Renaming} (hc : ctx.Sound) (e : ctx.Extends ctx') (keeps : Keeps names names')
    (valid : ∀ s ∈ states, s.Valid ctx) (anon : List.Forall₂ (Anonymised names modified ctx) states seeds) :
    List.Forall₂ (Anonymised names' modified ctx') states seeds := by
  induction anon with
  | nil => exact .nil
  | cons first _ ih =>
    exact .cons (first.later hc e keeps (valid _ List.mem_cons_self))
      (ih fun s hs => valid s (List.mem_cons_of_mem _ hs))

/-- What comes back agrees with the store that the seeds merge into, and so with the seed that applies. -/
theorem comesBack_of_agree {ctx₁ ctx₂ : Context} {seed b : State} (hc : ctx.Sound) (hc₁ : ctx₁.Sound)
    (e : ctx.Extends ctx₁) (e₁ : ctx₁.Extends ctx₂) (valid : ∀ s ∈ seeds, s.Valid ctx)
    (merged : State.Merges ctx seeds seed ctx₁) (agree : ∀ x, x ∉ modified → Agree ctx₂ seed b x) :
    ComesBack ctx₂ seeds modified b := by
  intro I v s x sole hx
  have sole := (State.sole_extends hc (e.trans e₁) valid).mp sole
  rw [agree x hx I v, State.eval_extends hc (e.trans e₁) (valid s sole.mem), State.eval_extends hc₁ e₁ merged.valid]
  exact merged.store sole x

/-! ## The passes -/

theorem length_lt_of_grown {grown : List SymbolId} (nodup : modified.Nodup) (new : ∀ x ∈ grown, x ∉ modified)
    (some : grown ≠ []) : modified.length < (SortedList.ofList SymbolId.lt (modified ++ grown)).length := by
  obtain ⟨x, hx⟩ := List.exists_mem_of_ne_nil grown some
  have longer : (x :: modified).Nodup := List.nodup_cons.mpr ⟨new x hx, nodup⟩
  refine (longer.subperm fun y hy => ?_).length_le
  rw [SymbolId.mem_ofList]
  rcases List.mem_cons.mp hy with rfl | hy
  · exact List.mem_append.mpr (.inr hx)
  · exact List.mem_append.mpr (.inl hy)

theorem length_le_of_assigned {size : Nat} (nodup : modified.Nodup) (assigned : ∀ x ∈ modified, x.number < size) :
    modified.length ≤ size := by
  have numbers : (modified.map SymbolId.number).Nodup :=
    nodup.map fun x y same => by cases x; cases y; exact congrArg SymbolId.mk same
  have below : modified.map SymbolId.number ⊆ List.range size := by
    intro n hn
    obtain ⟨x, hx, rfl⟩ := List.mem_map.mp hn
    exact List.mem_range.mpr (assigned x hx)
  simpa using (numbers.subperm below).length_le

/-- A changed symbol is bound in the seed or in a state that comes back. -/
theorem changed_assigned {seed : State} {back : List State} {changed : List SymbolId} (within : seed.Within r)
    (others : ∀ b ∈ back, b.Within r) (keys : ∀ x ∈ changed, ∃ t ∈ seed :: back, ∃ h, t.store.get? x = some h) :
    ∀ x ∈ changed, x.number < r.size := by
  intro x hx
  obtain ⟨t, ht, k, bound⟩ := keys x hx
  rcases List.mem_cons.mp ht with rfl | ht
  · exact within bound
  · exact others t ht bound

variable {nested : Nat → List State → ContextM LoopRun} {F : Failure → Prop}
  {P : List State → Nat → Walk → Context → Prop} {head : Nat} {run : LoopRun}

/-- From whatever states it may start from, the walk leaves what `P` says of the states, of how many symbols there
were and of what it has recorded, or it fails as `F` allows; what comes back to the head can be worked with. -/
structure Tours (r : Registry) (F : Failure → Prop) (P : List State → Nat → Walk → Context → Prop) (head : Nat)
    (walk : List State → ContextM Walk) : Prop where
  walks : ∀ {seeds ctx}, ctx.Sound → r.Extends ctx.symbols → Startable r ctx seeds →
    Attempts F (walk seeds) ctx (P seeds ctx.symbols.size)
  back : ∀ {seeds n w ctx}, P seeds n w ctx → ∀ b ∈ (w.inputs.get head).drop seeds.length, b.Valid ctx ∧ b.Within r

structure LastPass (P : List State → Nat → Walk → Context → Prop) (head lo : Nat) (states : List State) (run : LoopRun)
    (ctx : Context) (seeds : List State) (modified : List SymbolId) (names : Renaming) : Prop where
  walked : ∃ n c, lo ≤ n ∧ c.Sound ∧ c.Extends ctx ∧ P seeds n run.walk c
  renamed : List.Forall₂ (Anonymised names modified ctx) states seeds
  names : Renames lo ctx names
  back : ∀ b ∈ (run.walk.inputs.get head).drop seeds.length, ComesBack ctx seeds modified b
  summary : run.summary.head = head

/-- Each pass but the last adds a modified symbol, of which there are no more than the method has symbols. -/
theorem passes_attempt (registry : r.Sound) (operations : ∀ t, r.Provides t) {walk : List State → ContextM Walk}
    (tours : Tours r F P head walk) {store : Store} (limit passes : Nat) (hc : ctx.Sound) (ext : r.Extends ctx.symbols)
    (since : lo ≤ ctx.symbols.size) (ins : Startable r ctx states) (hstore : (⟨.empty, store⟩ : State).Valid ctx)
    (ren : Renames lo ctx names) (assigned : ∀ x ∈ modified, x.number < r.size) (nodup : modified.Nodup)
    (room : r.size < limit + modified.length) :
    Attempts F (passesWithin ⟨head, states, store⟩ walk limit modified names passes) ctx fun run ctx' =>
      ∃ seeds modified names, LastPass P head lo states run ctx' seeds modified names := by
  induction limit generalizing ctx modified names passes with
  | zero =>
    have := length_le_of_assigned nodup assigned
    omega
  | succ limit ih =>
    have registered : ∀ x ∈ modified, x.number < ctx.symbols.size := fun x hx =>
      Nat.lt_of_lt_of_le (assigned x hx) ext.size_le
    unfold passesWithin
    refine Attempts.bind (.inl (anonymizeAll_yields hc ren since registered ins.valid)) ?_
    rintro ⟨seeds, names₁⟩ ctx₁ e₁ hc₁ ⟨ren₁, keeps₁, anon⟩
    have begins := ins.anonymised anon assigned
    refine Attempts.bind (.inl (State.merge_yields hc₁ begins.some begins.valid)) fun merged ctx₂ e₂ hc₂ merges => ?_
    refine Attempts.bind (.inl (State.simplify_yields hc₂ merges.valid)) fun seed ctx₃ e₃ hc₃ refined => ?_
    have merges := merges.refine refined
    have e₁₃ := e₂.trans e₃
    refine (tours.walks hc₃ (ext.trans (e₁.trans e₁₃).symbols) (begins.extends e₁₃)).bind fun w ctx₄ e₄ hc₄ walked => ?_
    have back := tours.back walked
    have e₁₄ := e₁₃.trans e₄
    refine Attempts.bind (.inl (changedSymbols_yields hc₄ (merges.valid.extends e₄) fun b hb => (back b hb).1)) ?_
    rintro changed ctx₅ e₅ hc₅ ⟨keys, agree⟩
    have e := e₁.trans (e₁₄.trans e₅)
    dsimp only
    split
    · -- Nothing new: this was the last pass.
      rename_i none
      have stable : ∀ x, x ∉ modified → x ∉ changed := by
        intro x hx hc
        have := List.filter_eq_nil_iff.mp (List.isEmpty_iff.mp none) x hc
        simp [hx] at this
      have heap : Registry.heap.number < ctx₅.symbols.size :=
        Registry.get?_eq_some_lt ((ext.trans e.symbols).get registry.heap)
      have provided : ∀ t, ctx₅.symbols.Provides t := fun t => (operations t).extends (ext.trans e.symbols)
      refine .inl ((summaryOf_yields hc₅ provided (ren₁.extends (e₁₄.trans e₅)) (Nat.le_trans since e.symbols.size_le)
        (fun x hx => Nat.lt_of_lt_of_le (registered x hx) e.symbols.size_le) heap (hstore.extends e) passes
        (merges.valid.extends (e₄.trans e₅)) fun b hb => (back b hb).1.extends e₅).bind
        fun summary ctx₆ e₆ hc₆ named => Yields.pure hc₆ ?_)
      have e₄₆ := e₅.trans e₆
      refine ⟨seeds, modified, names₁, ⟨_, ctx₄, ?_, hc₄, e₄₆, walked⟩, ?_, ren₁.extends (e₁₄.trans e₄₆),
        fun b hb => ?_, named⟩
      · exact Nat.le_trans since (e₁.trans e₁₃).symbols.size_le
      · exact anonymised_later hc₁ (e₁₄.trans e₄₆) (fun h => h) (fun s hs => (ins.valid s hs).extends e₁) anon
      · refine comesBack_of_agree hc₁ hc₃ e₁₃ (e₄.trans e₄₆) begins.valid merges fun x hx => ?_
        exact (agree b hb x (stable x hx)).later hc₅ e₆ (merges.valid.extends (e₄.trans e₅)) ((back b hb).1.extends e₅)
    · rename_i some
      have some : changed.filter (!modified.contains ·) ≠ [] := fun none => some (List.isEmpty_iff.mpr none)
      have longer := length_lt_of_grown nodup (fun x hx => by simpa using (List.mem_filter.mp hx).2) some
      refine ih (passes + 1) hc₅ (ext.trans e.symbols) (Nat.le_trans since e.symbols.size_le) (ins.extends e)
        (hstore.extends e) (ren₁.extends (e₁₄.trans e₅)) (fun x hx => ?_) (SymbolId.ofList_nodup _) (by omega)
      rcases List.mem_append.mp (SymbolId.mem_ofList.mp hx) with hx | hx
      · exact assigned x hx
      · exact changed_assigned (merges.within begins.within) (fun b hb => (back b hb).2) keys x
          (List.mem_filter.mp hx).1

/-- Summarising a loop ends in a last pass, after which only modified symbols come back changed. -/
theorem summariseWith_attempts (registry : r.Sound) (operations : ∀ t, r.Provides t) (found : lay.loops[id]? = some l)
    (tours : Tours r F P l.head (through lay (.ofLoop id l) nested)) (hc : ctx.Sound) (ext : r.Extends ctx.symbols)
    (ins : Startable r ctx states) :
    Attempts F (summariseWith nested lay id states) ctx fun run ctx' =>
      ∃ seeds modified names, LastPass P l.head ctx.symbols.size states run ctx' seeds modified names := by
  unfold summariseWith
  refine Attempts.bind (.inl (ContextM.ofExcept_yields hc (Layout.getLoop_eq_ok.mpr found))) ?_
  rintro _ _ _ _ ⟨rfl, rfl⟩
  refine Attempts.bind (.inl (State.merge_yields hc ins.some ins.valid)) fun merged ctx₁ e₁ hc₁ merges => ?_
  refine Attempts.bind (.inl (State.simplify_yields hc₁ merges.valid)) fun entered ctx₂ e₂ hc₂ refined => ?_
  refine Attempts.bind (.inl (ContextM.get_yields hc₂)) ?_
  rintro _ _ _ _ ⟨rfl, rfl⟩
  have e := e₁.trans e₂
  have ext' := ext.trans e.symbols
  have hstore : (⟨.empty, entered.store⟩ : State).Valid ctx₂ := ⟨PathCondition.empty_valid ctx₂, refined.valid.store⟩
  have size := ext'.size_le
  exact passes_attempt registry operations tours _ 1 hc₂ ext' e.symbols.size_le (ins.extends e) hstore
    (.nil _ _) (List.forall_mem_nil _) List.nodup_nil (by simp only [List.length_nil]; omega)

/-- The last walk over a tame loop has visited every statement of it. -/
theorem LastPass.solved (tame : lay.Tame) (found : lay.loops[id]? = some l)
    (h : LastPass (fun seeds n => Through lay (.ofLoop id l) r n seeds) l.head lo states run ctx seeds modified names) :
    Solved lay r lo id l states run ctx := by
  obtain ⟨n, c, since, hc, e, done, visit, rec, all, solves⟩ := h.walked
  obtain ⟨_, back⟩ := rec.back tame.toRegular found all
  exact ⟨seeds, done, visit, modified, names, rec, all, (solves.weaken since).later hc e rec, h.renamed, h.names,
    fun u edge b hb => h.back b (back u edge b hb)⟩

/-! ## Nested loops -/

def loopsWithin (lay : Layout) (l : Loop) : Nat := (lay.loops.toList.filter fun k => l.contains k.head).length

theorem loopsWithin_le (lay : Layout) (l : Loop) : loopsWithin lay l ≤ lay.loops.size := by
  unfold loopsWithin
  rw [← Array.length_toList]
  exact List.length_filter_le _ _

/-- A loop nested in another has fewer loops within it. -/
theorem loopsWithin_lt (reg : lay.Regular) {n : Nat} {k : Loop} (found : lay.loops[id]? = some l)
    (found' : lay.loops[n]? = some k) (inner : (Region.ofLoop id l).Inner lay k.head) :
    loopsWithin lay k < loopsWithin lay l := by
  have natural := reg.natural found
  have natural' := reg.natural found'
  have inside : lay.flow.InLoop l.head k.head := (Region.inside_ofLoop reg found).mp inner.2.1
  have ne : k.head ≠ l.head := of_decide_eq_false inner.2.2
  have both : lay.loops.toList.filter (fun j => k.contains j.head) =
      (lay.loops.toList.filter fun j => l.contains j.head).filter fun j => k.contains j.head := by
    rw [List.filter_filter]
    refine List.filter_congr fun j _ => ?_
    cases hk : k.contains j.head with
    | false => rfl
    | true =>
      have := natural.contains.mpr (inside.trans (natural'.contains.mp hk))
      rw [this]
      rfl
  unfold loopsWithin
  rw [both]
  refine List.length_filter_lt_length_iff_exists.mpr ⟨l, ?_, fun contains => ?_⟩
  · refine List.mem_filter.mpr ⟨?_, natural.contains.mpr natural.head⟩
    exact Array.mem_toList_iff.mpr (Array.mem_of_getElem? found)
  · exact ne (InLoop.antisymm inside (natural'.contains.mp contains)).symm

/-- To show something of every loop, show it of a loop given that it holds of those inside. -/
theorem summarise_induction (reg : lay.Regular) {S : Nat → Loop → (List State → ContextM LoopRun) → Prop}
    (each : ∀ {id l nested}, lay.loops[id]? = some l →
      (∀ {n k}, lay.loops[n]? = some k → (Region.ofLoop id l).Inner lay k.head → S n k (nested n)) →
      S id l (summariseWith nested lay id))
    (nesting : Nat) (found : lay.loops[id]? = some l) (deep : loopsWithin lay l ≤ nesting) :
    S id l (summarise lay nesting id) := by
  induction nesting generalizing id l with
  | zero =>
    exfalso
    have natural := reg.natural found
    have inside : l ∈ lay.loops.toList.filter fun k => l.contains k.head :=
      List.mem_filter.mpr ⟨Array.mem_toList_iff.mpr (Array.mem_of_getElem? found), natural.contains.mpr natural.head⟩
    have := List.length_pos_of_mem inside
    unfold loopsWithin at deep
    omega
  | succ nesting ih =>
    refine each found fun {n k} found' inner => ih found' ?_
    have fewer := loopsWithin_lt reg found found' inner
    omega

/-- Every loop is solved, by induction on how deep loops nest in it. -/
theorem summarise_solves (tame : lay.Tame) (sup : Supports lay r) (nesting : Nat) (found : lay.loops[id]? = some l)
    (deep : loopsWithin lay l ≤ nesting) (hc : ctx.Sound) (ext : r.Extends ctx.symbols) (ins : Startable r ctx states) :
    Yields (summarise lay nesting id states) ctx (Solved lay r ctx.symbols.size id l states) := by
  refine summarise_induction tame.toRegular (S := fun id l summarised => ∀ {ctx states}, ctx.Sound →
    r.Extends ctx.symbols → Startable r ctx states →
    Yields (summarised states) ctx (Solved lay r ctx.symbols.size id l states)) ?_ nesting found deep hc ext ins
  intro id l nested found loops ctx states hc ext ins
  have tours : Tours r (fun _ => False) (fun seeds n => Through lay (.ofLoop id l) r n seeds) l.head
      (through lay (.ofLoop id l) nested) := by
    refine ⟨fun hc ext ins => .inl (through_solves tame (.loop found) rfl sup
      (fun found' inner => loops found' inner) hc ext ins), ?_⟩
    rintro seeds n w ctx ⟨done, visit, rec, all, solves⟩ b hb
    obtain ⟨u, hu, hb⟩ := (rec.back tame.toRegular found all).1 b hb
    exact ⟨((solves.visited u hu).left b hb).valid, (solves.visited u hu).within b hb⟩
  refine (summariseWith_attempts sup.registry sup.operations found tours hc ext ins).yields.mono ?_
  intro run ctx' _ _ last
  obtain ⟨seeds, modified, names, last⟩ := last
  exact last.solved tame found

/-! ## The whole method -/

theorem initial_startable (r : Registry) (ctx : Context) : Startable r ctx [.initial] := by
  refine ⟨nofun, fun s hs => ?_, fun s hs x h bound => ?_⟩
  · rw [List.mem_singleton.mp hs]
    exact State.initial_valid ctx
  · rw [List.mem_singleton.mp hs] at bound
    cases bound

/-- The walk over a method returns, and leaves a visit at every live statement. -/
theorem ofMethod_solves (tame : lay.Tame) (sup : Supports lay r) (hc : ctx.Sound) (ext : r.Extends ctx.symbols) :
    Yields (ofMethod lay []) ctx (Through lay (.whole []) r ctx.symbols.size [.initial]) := by
  refine through_solves tame (.whole []) rfl sup (fun {id l states ctx} found _ hc ext ins => ?_) hc ext
    (initial_startable r ctx)
  exact summarise_solves tame sup _ found (loopsWithin_le lay l) hc ext ins

end Walk

end PathMerge
