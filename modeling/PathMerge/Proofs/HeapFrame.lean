/-
  PathMerge.Proofs.HeapFrame — where a loop leaves the heap alone.

  The locations that a summary lists are found by taking the heap of each state that comes back apart, down to
  the heap at the head. Each write on the way is listed, on every branch of a summary; and where something else
  than a write or a summary is met, the list is given up for the set of all locations. So a heap that is taken
  apart differs from the heap at the head in the listed locations only (`Overwrites.agrees`). The states that
  come back are simplified, hence so are the objects and fields of the listed locations, and the set that they
  are put together to has all of them.
-/

import PathMerge.Proofs.Leaf
import PathMerge.Proofs.LocationSets

namespace PathMerge

open Context ContextM

variable {ctx ctx' : Context} {I : Interpretation} {v : Valuation} {ev : Handle → Option Value}

/-! ## Heaps that differ by writes -/

/-- Every branch of the heap is `base` with some of the locations written. -/
inductive Context.Overwrites (ctx : Context) (base : Handle) (ws : List Walk.Location) : Handle → Prop
  | base : Overwrites ctx base ws base
  | write {h before object field value : Handle} (app : ctx.Applies (.memory .store) [before, object, field, value] h)
      (listed : (object, field) ∈ ws) (inner : Overwrites ctx base ws before) : Overwrites ctx base ws h
  | summary {h : Handle} {bs : List Branch} (sign : h.negated = false) (node : ctx.pool.node? h = some (.summary bs))
      (branches : ∀ b ∈ bs, Overwrites ctx base ws b.2) : Overwrites ctx base ws h

namespace Context.Overwrites

variable {base h : Handle} {ws ws' : List Walk.Location}

theorem mono (e : ctx.Extends ctx') (sub : ws ⊆ ws') (layers : ctx.Overwrites base ws h) :
    ctx'.Overwrites base ws' h := by
  induction layers with
  | base => exact .base
  | write app listed _ ih => exact .write (app.extends e) (sub listed) ih
  | summary sign node _ ih => exact .summary sign (e.pool node) ih

/-- Where no listed location is, the heap has what `base` has. -/
theorem agrees (chooses : ctx.Chooses I v ev) (layers : ctx.Overwrites base ws h) {H H₀ : Heap}
    (heap : ev h = some (.heap H)) (heap₀ : ev base = some (.heap H₀)) {o : Scalar} {f : Selector}
    (apart : ∀ w ∈ ws, ¬ (ev w.1 = some (.scalar o) ∧ ev w.2 = some (.selector f))) : H o f = H₀ o f := by
  induction layers generalizing H with
  | base =>
    cases heap.symm.trans heap₀
    rfl
  | write app listed _ ih =>
    rw [chooses.applies app] at heap
    obtain ⟨xs, operands, value⟩ := Option.bind_eq_some_iff.mp heap
    obtain ⟨m, o', s, a, rfl, same⟩ := HeapFunction.of_store value
    cases same
    obtain ⟨_, _, before, rest, same⟩ := mapM_cons_eq_some.mp operands
    obtain ⟨_, _, object, rest, same'⟩ := mapM_cons_eq_some.mp rest
    obtain ⟨_, _, field, _, same''⟩ := mapM_cons_eq_some.mp rest
    cases same
    cases same'
    cases same''
    have elsewhere : ¬ (o = o' ∧ f = s) := by
      rintro ⟨rfl, rfl⟩
      exact apart _ listed ⟨object, field⟩
    calc m.write o' s a o f = m o f := if_neg elsewhere
      _ = H₀ o f := ih before
  | summary sign node _ ih =>
    obtain ⟨b, hb, taken⟩ := chooses.summary node sign heap
    exact ih b hb taken

end Context.Overwrites

/-! ## The heap of a store -/

/-- The value of a symbol: that of what it is bound to, or of the symbol itself. -/
def Store.valueBy (s : Store) (v : Valuation) (ev : Handle → Option Value) (x : SymbolId) : Option Value :=
  match s.get? x with
  | some h => ev h
  | none => some (v x)

def Store.Gives (s : Store) (ctx : Context) (x : SymbolId) (h : Handle) : Prop :=
  s.get? x = some h ∨ s.get? x = none ∧ Stands ctx x h

theorem Store.Gives.extends {s : Store} {x : SymbolId} {h : Handle} (e : ctx.Extends ctx') (gives : s.Gives ctx x h) :
    s.Gives ctx' x h :=
  gives.imp id fun ⟨unbound, sign, node⟩ => ⟨unbound, sign, e.pool node⟩

theorem Store.Gives.valueBy {s : Store} {x : SymbolId} {h : Handle} (chooses : ctx.Chooses I v ev)
    (gives : s.Gives ctx x h) :
    s.valueBy v ev x = ev h := by
  unfold Store.valueBy
  rcases gives with bound | ⟨unbound, stands⟩
  · rw [bound]
  · rw [unbound, chooses.symbol stands]

theorem State.Simplified.gives (hc : ctx.Reliable) {s : State} (hs : s.Simplified ctx) {x : SymbolId}
    (registered : x.number < ctx.symbols.size) :
    Uniform (s.store.value x) ctx fun h c => s.store.Gives c x h ∧ c.Normal h := by
  unfold Store.value
  cases bound : s.store.get? x with
  | some h => exact Uniform.pure hc ⟨.inl bound, (hs.fixed x h bound).normal⟩
  | none =>
    refine (Uniform.steady (intern_steady _) hc (symbol_yields hc.sound registered)).mono fun h c _ _ stands => ?_
    exact ⟨.inr ⟨bound, stands⟩, .intro stands.node (List.forall_mem_nil _) fun f args app => by cases app⟩

def Context.Comprises (ctx : Context) (set : Handle) (w : Walk.Location) : Prop :=
  ∀ ev o f, ev w.1 = some (.scalar o) → ev w.2 = some (.selector f) → ctx.Element ev o f set

/-! ## Taking a heap apart -/

namespace Walk

def Listed (base heap : Handle) (found : Option (List Location)) (ctx : Context) : Prop :=
  ∀ ws, found = some ws → ctx.Overwrites base ws heap ∧ ∀ w ∈ ws, ctx.Normal w.1 ∧ ctx.Normal w.2

theorem Listed.later {base heap : Handle} {found : Option (List Location)} (later : ctx.Later ctx')
    (tidy : ctx'.pool.Tidy) (listed : Listed base heap found ctx) : Listed base heap found ctx' := by
  intro ws hws
  obtain ⟨layers, normal⟩ := listed ws hws
  exact ⟨layers.mono later.extends (List.Subset.refl _),
    fun w hw => ⟨(normal w hw).1.later later tidy, (normal w hw).2.later later tidy⟩⟩

theorem collected_of_mem {α : Type} {l : List (Option α)} {l' : List α} (h : l.mapM id = some l') {o : Option α}
    (ho : o ∈ l) :
    ∃ a ∈ l', some a = o := by
  induction l generalizing l' with
  | nil => cases ho
  | cons b l ih =>
    obtain ⟨c, rest, here, others, rfl⟩ := mapM_cons_eq_some.mp h
    rcases List.mem_cons.mp ho with rfl | ho
    · exact ⟨c, List.mem_cons_self, here.symm⟩
    · obtain ⟨a, ha, same⟩ := ih others ho
      exact ⟨a, List.mem_cons_of_mem _ ha, same⟩

theorem Listed.write {before object field value heap base : Handle} {found : Option (List Location)}
    (app : ctx.Applies (.memory .store) [before, object, field, value] heap) (simple : ctx.Normal object)
    (simple' : ctx.Normal field) (listed : Listed base before found ctx) :
    Listed base heap (found.map ((object, field) :: ·)) ctx := by
  intro ws made
  obtain ⟨rest, rfl, rfl⟩ := Option.map_eq_some_iff.mp made
  obtain ⟨layers, normal⟩ := listed rest rfl
  exact ⟨.write app List.mem_cons_self (layers.mono (.refl _) (List.subset_cons_self _ _)),
    List.forall_mem_cons.mpr ⟨⟨simple, simple'⟩, normal⟩⟩

theorem Listed.summary {heap base : Handle} {branches : List Branch} {found : List (Option (List Location))}
    (sign : heap.negated = false) (node : ctx.pool.node? heap = some (.summary branches))
    (listed : List.Forall₂ (fun b found => Listed base b.2 found ctx) branches found) :
    Listed base heap ((found.mapM id).map List.flatten) ctx := by
  intro ws made
  obtain ⟨lists, collected, rfl⟩ := Option.map_eq_some_iff.mp made
  refine ⟨.summary sign node fun b hb => ?_, fun w hw => ?_⟩
  · obtain ⟨one, there, listed⟩ := Related.exists_right listed hb
    obtain ⟨ws, hws, rfl⟩ := collected_of_mem collected there
    exact (listed ws rfl).1.mono (.refl _) fun w hw => List.mem_flatten.mpr ⟨ws, hws, hw⟩
  · obtain ⟨ws, hws, hw⟩ := List.mem_flatten.mp hw
    obtain ⟨_, _, listed⟩ := Related.exists_left listed (mem_of_collected collected hws)
    exact (listed ws rfl).2 w hw

/-- The writes listed between a heap and its base account for the whole chain of stores. -/
theorem writesWithin_listed (hc : ctx.Reliable) (provided : ctx.symbols.Provides .heap) (base : Handle) (depth : Nat)
    {heap : Handle} (normal : ctx.Normal heap) : Uniform (writesWithin base depth heap) ctx (Listed base heap) := by
  induction depth generalizing ctx heap with
  | zero => exact Uniform.throw hc
  | succ depth ih =>
    unfold writesWithin
    by_cases same : heap = base
    · rw [if_pos same]
      refine Uniform.pure hc fun ws found => ?_
      cases found
      exact ⟨same ▸ .base, List.forall_mem_nil _⟩
    rw [if_neg same]
    have asked := Theory.Heap.write?_spec heap
    refine (Uniform.steady asked.straight.toSteady hc (asked.yields hc.sound ⟨provided, normal.has⟩)).bind ?_
    rintro write? _ _ _ ⟨rfl, written⟩
    obtain ⟨node, children, _⟩ := normal
    cases write? with
    | some write =>
      obtain ⟨before, object, field, value⟩ := write
      have app := written before object field value rfl
      have simple : ∀ x ∈ [before, object, field, value], ctx.Normal x := by
        obtain ⟨f, _, node'⟩ := app.node
        cases node.symm.trans node'
        exact children
      refine (ih hc provided (simple before (by simp))).bind fun ws c later hc' listed => Uniform.pure hc' ?_
      have tidy := hc'.sound.pool.tidy
      exact .write (app.extends later.extends) ((simple object (by simp)).later later tidy)
        ((simple field (by simp)).later later tidy) listed
    | none =>
      refine (Uniform.asking (fun twin alike => (Lasts.alike (.node heap) alike).symm) hc).bind ?_
      rintro n _ _ _ ⟨rfl, asked⟩
      obtain rfl := Option.some.inj ((InternTable.value_eq_ok.mp asked).symm.trans node)
      have nothing : Uniform (pure none : ContextM (Option (List Location))) ctx (Listed base heap) :=
        Uniform.pure hc fun _ found => by cases found
      cases n with
      | summary branches =>
        cases sign : heap.negated with
        | true => exact nothing
        | false =>
          refine (Uniform.mapM (P := fun (b : Branch) found c => Listed base b.2 found c) branches hc
            (fun later hc listed => listed.later later hc.sound.pool.tidy) fun b hb c later hc' => ?_).bind
            fun writes c later hc' listed => Uniform.pure hc' (.summary sign (later.extends.pool node) listed)
          have child := children b.2 (Node.mem_children_summary hb).2
          exact ih hc' (provided.extends later.symbols) (child.later later hc'.sound.pool.tidy)
      | _ => exact nothing

/-- The heaps of all states are taken apart, or none is. -/
theorem allWrites?_listed (hc : ctx.Reliable) (provided : ctx.symbols.Provides .heap) (base : Handle)
    {back : List State} (simplified : ∀ s ∈ back, s.Simplified ctx) :
    Uniform (allWrites? base back) ctx fun found c => ∀ ws, found = some ws →
      (∀ s ∈ back, ∃ h, s.store.Gives c Registry.heap h ∧ c.Overwrites base ws h) ∧ ∀ w ∈ ws, c.Normal w.1 ∧
      c.Normal w.2 := by
  induction back generalizing ctx with
  | nil =>
    refine Uniform.pure hc fun ws found => ?_
    cases found
    exact ⟨List.forall_mem_nil _, List.forall_mem_nil _⟩
  | cons s rest ih =>
    unfold allWrites?
    refine ((simplified s List.mem_cons_self).gives hc (Rule.heap_registered hc)).bind fun h c₁ later₁ hc₁ heap => ?_
    refine (writesWithin_listed hc₁ (provided.extends later₁.symbols) base (h.index + 1) heap.2).bind
      fun found c₂ later₂ hc₂ listed => ?_
    cases found with
    | none => exact Uniform.pure hc₂ fun _ found => by cases found
    | some ws =>
      have later := later₁.trans later₂
      have simplified₂ : ∀ s ∈ rest, s.Simplified c₂ := fun s hs =>
        (simplified s (List.mem_cons_of_mem _ hs)).later later hc₂.sound.pool.tidy
      refine (ih hc₂ (provided.extends later.symbols) simplified₂).bind fun others c₃ later₃ hc₃ rest =>
        Uniform.pure hc₃ ?_
      intro all found
      obtain ⟨more, rfl, rfl⟩ := Option.map_eq_some_iff.mp found
      obtain ⟨layers, normal⟩ := listed.later later₃ hc₃.sound.pool.tidy ws rfl
      obtain ⟨layers', normal'⟩ := rest more rfl
      refine ⟨fun t ht => ?_, fun w hw => (List.mem_append.mp hw).elim (normal w) (normal' w)⟩
      rcases List.mem_cons.mp ht with rfl | ht
      · exact ⟨h, heap.1.extends (later₂.trans later₃).extends, layers.mono (.refl _) (List.subset_append_left _ _)⟩
      · obtain ⟨k, gives, layers'⟩ := layers' t ht
        exact ⟨k, gives, layers'.mono (.refl _) (List.subset_append_right _ _)⟩

/-! ## Putting the locations together -/

/-- The union over a list of locations holds each of them and what it started with. -/
theorem unions_cover (hc : ctx.Reliable) (provided : ctx.symbols.Provides .locations) {locations : List Location}
    (normal : ∀ w ∈ locations, ctx.Normal w.1 ∧ ctx.Normal w.2) {set : Handle} (isSet : ctx.LocationSet set) :
    Uniform (locations.foldlM (fun set (w : Location) => do ContextM.union set (← ContextM.location w.1 w.2)) set) ctx
      fun k c => c.LocationSet k ∧ ctx.Gathers set c k ∧ ∀ w ∈ locations, c.Comprises k w := by
  induction locations generalizing ctx set with
  | nil => exact Uniform.pure hc ⟨isSet, fun _ _ _ inside => inside, List.forall_mem_nil _⟩
  | cons w rest ih =>
    obtain ⟨object, field⟩ := normal w List.mem_cons_self
    rw [List.foldlM_cons]
    have added : Uniform (do ContextM.union set (← ContextM.location w.1 w.2)) ctx fun k c =>
        c.LocationSet k ∧ ctx.Gathers set c k ∧ c.Comprises k w := by
      refine (Uniform.steady (call_straight _ _).toSteady hc
        (call_yields hc.sound (.location .singleton) provided [w.1, w.2] rfl
        (by simp [object.has, field.has]))).bind fun one c₁ later₁ hc₁ single => ?_
      have isSet₁ := isSet.later later₁ hc₁.sound.pool.tidy
      refine (Uniform.steady (call_straight _ _).toSteady hc₁
        (call_yields hc₁.sound (.location .union) (provided.extends later₁.symbols)
        [set, one] rfl (by simp [isSet₁.has, single.has]))).mono fun k c₂ later₂ hc₂ union => ?_
      have tidy := hc₂.sound.pool.tidy
      have single₂ := single.extends later₂.extends
      have later := later₁.trans later₂
      refine ⟨.union union (isSet₁.later later₂ tidy)
        (.single single₂ (object.later later tidy) (field.later later tidy)),
        fun ev o f inside => .left union (inside.extends later.extends), fun ev o f atObject atField => ?_⟩
      exact .right union (.single single₂ atObject atField)
    refine added.bind fun k c later hc' ⟨isSet', gathers, covers⟩ => ?_
    refine (ih hc' (provided.extends later.symbols) (fun u hu => ?_) isSet').mono ?_
    · obtain ⟨object, field⟩ := normal u (List.mem_cons_of_mem _ hu)
      exact ⟨object.later later hc'.sound.pool.tidy, field.later later hc'.sound.pool.tidy⟩
    · rintro k' c' _ _ ⟨isSet'', gathers', covers'⟩
      refine ⟨isSet'', fun ev o f inside => gathers' ev o f (gathers ev o f inside), fun u hu => ?_⟩
      rcases List.mem_cons.mp hu with rfl | hu
      · exact fun ev o f atObject atField => gathers' ev o f (covers ev o f atObject atField)
      · exact covers' u hu

/-- The set has all locations, or all at which the heaps of the two stores may differ. -/
def Frames (ctx : Context) (set : Handle) (s t : Store) : Prop :=
  ctx.Applies (.location .allLocs) [] set ∨ ∃ base h ws, s.Gives ctx Registry.heap base ∧ t.Gives ctx Registry.heap h ∧
    ctx.Overwrites base ws h ∧ ∀ w ∈ ws, ctx.Comprises set w

theorem Frames.agrees {set : Handle} {s t : Store} (chooses : ctx.Chooses I v ev) (frames : Frames ctx set s t)
    {H H₀ : Heap} (heap : t.valueBy v ev Registry.heap = some (.heap H))
    (heap₀ : s.valueBy v ev Registry.heap = some (.heap H₀)) {o : Scalar} {f : Selector}
    (outside : ¬ ctx.Element ev o f set) : H o f = H₀ o f := by
  rcases frames with all | ⟨base, h, ws, gives, gives', layers, covers⟩
  · exact absurd (.all all) outside
  · rw [gives'.valueBy chooses] at heap
    rw [gives.valueBy chooses] at heap₀
    exact layers.agrees chooses heap heap₀ fun w hw ⟨atObject, atField⟩ => outside (covers w hw ev o f atObject atField)

theorem Frames.extends {set : Handle} {s t : Store} (e : ctx.Extends ctx') (frames : Frames ctx set s t) :
    Frames ctx' set s t := by
  rcases frames with all | ⟨base, h, ws, gives, gives', layers, covers⟩
  · exact .inl (all.extends e)
  · exact .inr ⟨base, h, ws, gives.extends e, gives'.extends e, layers.mono e (List.Subset.refl _),
      fun w hw ev o f atObject atField => (covers w hw ev o f atObject atField).extends e⟩

/-- The set of written locations covers every store the returning states made since the seed. -/
theorem writtenLocations_frames (hc : ctx.Reliable) (provided : ∀ t, ctx.symbols.Provides t) {seed : State}
    (hs : seed.Simplified ctx) {back : List State} (simplified : ∀ s ∈ back, s.Simplified ctx) :
    Uniform (writtenLocations seed.store back) ctx fun set c => c.LocationSet set ∧
      ∀ s ∈ back, Frames c set seed.store s.store := by
  unfold writtenLocations
  refine (hs.gives hc (Rule.heap_registered hc)).bind fun base c₁ later₁ hc₁ heap => ?_
  have simplified₁ : ∀ s ∈ back, s.Simplified c₁ := fun s hs => (simplified s hs).later later₁ hc₁.sound.pool.tidy
  refine (allWrites?_listed hc₁ ((provided .heap).extends later₁.symbols) base simplified₁).bind
    fun found c₂ later₂ hc₂ listed => ?_
  have provided₂ := (provided .locations).extends (later₁.trans later₂).symbols
  cases found with
  | none =>
    refine (Uniform.steady (call_straight _ _).toSteady hc₂ (call_yields hc₂.sound (.location .allLocs) provided₂ [] rfl
      (List.forall_mem_nil _))).mono fun set c _ _ all => ?_
    exact ⟨.all all, fun s hs => .inl all⟩
  | some ws =>
    obtain ⟨layers, normal⟩ := listed ws rfl
    refine (Uniform.steady (call_straight _ _).toSteady hc₂ (call_yields hc₂.sound (.location .empty) provided₂ [] rfl
      (List.forall_mem_nil _))).bind fun none c₃ later₃ hc₃ empty => ?_
    have mem : ∀ {w}, w ∈ SortedList.ofList Branch.lt ws ↔ w ∈ ws := SortedList.mem_ofList Branch.lt_separates
    have tidy := hc₃.sound.pool.tidy
    refine (unions_cover hc₃ (provided₂.extends later₃.symbols) (fun w hw => ?_) (.empty empty)).bind
      fun set c₄ later₄ hc₄ united => ?_
    · obtain ⟨object, field⟩ := normal w (mem.mp hw)
      exact ⟨object.later later₃ tidy, field.later later₃ tidy⟩
    obtain ⟨isSet, _, covers⟩ := united
    refine (isSet.simplify hc₄ (provided₂.extends (later₃.trans later₄).symbols)).mono fun k c₅ later₅ hc₅ simple => ?_
    have later := later₃.trans (later₄.trans later₅)
    refine ⟨simple.1, fun s hs => ?_⟩
    obtain ⟨h, gives, layers⟩ := layers s hs
    refine .inr ⟨base, h, ws, heap.1.extends (later₂.trans later).extends, gives.extends later.extends,
      layers.mono later.extends (List.Subset.refl _), fun w hw ev o f atObject atField => ?_⟩
    exact simple.2 ev o f (covers w (mem.mpr hw) ev o f atObject atField)

variable {lay : Layout} {r : Registry} {nesting id : Nat} {l : Loop} {states : List State}

/-- The set of the summary frames the heap of every state that comes back in the last pass, if the heap is modified
at all; if not, they have the heap at the head. -/
theorem Closes.frames (reg : lay.Regular) (names : Names lay r) {d : Digest} {run : LoopRun}
    {before after compared : Context} (entrance : Entrance lay r (nesting + 1) id l states ctx)
    (h : Closes lay r nesting id l states ctx d before after compared run ctx') :
    ctx'.LocationSet run.summary.modifies ∧
      ∀ b ∈ d.last.back l.head, b.store.get? Registry.heap = d.last.seed.store.get? Registry.heap ∨
        Frames ctx' run.summary.modifies d.last.seed.store b.store := by
  obtain ⟨_, _, c, c₁, concluded⟩ := h.concluded entrance.ext
  have later := concluded.later₁.trans concluded.later₂
  obtain ⟨hc', _⟩ := h.made.summed h.fit h.summed
  have back := h.back reg names entrance
  have since :=
    entrance.ext.trans (h.fit.since.trans (h.made.started.later.trans (h.made.later.trans h.made.later'))).symbols
  have provided : ∀ t, compared.symbols.Provides t := fun t => (names.operations t).extends since
  have located := concluded.located
  split at located
  · have tidy := h.made.reliable.sound.pool.tidy
    have seed := h.made.started.simplified.later (h.made.later.trans h.made.later') tidy
    obtain ⟨_, isSet, frames⟩ := (writtenLocations_frames h.made.reliable provided seed fun b hb =>
      (back b hb).1.later h.made.later' tidy).of_returns located
    exact ⟨isSet.later later hc'.sound.pool.tidy, fun b hb => .inr ((frames b hb).extends later.extends)⟩
  · rename_i unmodified
    obtain ⟨_, _, empty⟩ := (ContextM.call_yields h.made.reliable.sound (.location .empty) (provided .locations) [] rfl
      (List.forall_mem_nil _)).of_returns located
    exact ⟨.empty (empty.extends later.extends), fun b hb => .inl ((back b hb).2 _ (by simpa using unmodified))⟩

end Walk

/-- A loop leaves the heap alone outside the location set of its summary. Take any valuation, where a summary of
values may be any of its branches: in the last pass the heap of every state that comes back to the head agrees with
the heap at the head at every location that is not an element of the set. The elements are those of the set that
`modifies` denotes, if it denotes one. This is so of every loop that is summarised in a run of an accepted method. -/
theorem heap_framed {m : Method} {settings : Settings} {a : Analysis} (created : Analysis.create m settings = .ok a)
    {nesting id : Nat} {l : Loop} {states : List State} {ctx : Context} {run : LoopRun} {ctx' : Context}
    (summarised : Walk.Summarised a.layout settings.stops a.context nesting id l states ctx run ctx') :
    ∃ n d, nesting = n + 1 ∧ Walk.Digests a.layout n id l states ctx d run ctx' ∧
      ∀ I v ev, ctx'.Chooses I v ev →
        (∀ b ∈ d.last.back l.head, ∀ H H₀, b.store.valueBy v ev Registry.heap = some (.heap H) →
          d.last.seed.store.valueBy v ev Registry.heap = some (.heap H₀) →
          ∀ o f, ¬ ctx'.Element ev o f run.summary.modifies → H o f = H₀ o f) ∧
        ∀ member, ev run.summary.modifies = some (.locations member) →
          ∀ o f, member o f = true ↔ ctx'.Element ev o f run.summary.modifies := by
  have made := Analysis.created_of_create created
  have entrance := summarised.entered.entrance made.regular made.names made.reached.reliable
  obtain ⟨n, d, rfl, digests⟩ := summarised.digests
  obtain ⟨before, after, compared, closes⟩ := digests.closes made.regular made.names entrance
  obtain ⟨isSet, frames⟩ := closes.frames made.regular made.names entrance
  refine ⟨n, d, rfl, digests, fun I v ev chooses => ⟨fun b hb H H₀ heap heap₀ o f outside => ?_, ?_⟩⟩
  · rcases frames b hb with same | frames
    · unfold Store.valueBy at heap heap₀
      rw [same, heap₀] at heap
      cases heap
      rfl
    · exact frames.agrees chooses heap heap₀ outside
  · exact fun member value o f => isSet.mem_iff chooses value

/-- Counts down, and writes a field on the way unless a flag is zero. -/
def fillMethod : Method where
  owner := "Node"
  name := "fill"
  params := [("o", .object "Node"), ("n", .int), ("flag", .int)]
  locals := []
  result? := none
  body := [
    .branch ⟨.le, .var "n", .int 0⟩ 5,
    .branch ⟨.eq, .var "flag", .int 0⟩ 3,
    .writeField (.var "o") ⟨"Node", "val", .int⟩ (.var "n"),
    .assign "n" (.binary .sub (.var "n") (.int 1)),
    .jump 0,
    .ret none]

/-- The heap that comes back is one of two branches, with the field written or not. The set has this one location,
and nothing else changes, whatever the valuation is. -/
theorem heap_framed_fill : ∃ a a' s, ∃ ctx' : Context, ∃ l d, Analysis.create fillMethod ⟨4, []⟩ = .ok a ∧
    a.execute = .ok a' ∧ (0, s) ∈ a'.summaries ∧ a'.context.render s.modifies = .ok "singleton(o, Node.val)" ∧
    (∃ nesting states, ∃ ctx : Context, ∃ run, Walk.Digests a.layout nesting 0 l states ctx d run ctx' ∧
      run.summary = s) ∧
    ∀ I v, ∀ b ∈ d.last.back l.head, ∀ H H₀, b.store.valueBy v (ctx'.eval I v) Registry.heap = some (.heap H) →
      d.last.seed.store.valueBy v (ctx'.eval I v) Registry.heap = some (.heap H₀) →
      ∀ o f, ¬ ctx'.Element (ctx'.eval I v) o f s.modifies → H o f = H₀ o f := by
  have shape : (Analysis.create fillMethod ⟨4, []⟩ >>= Analysis.execute).map
      (fun a => a.summaries.map fun e => (e.1, a.context.render e.2.modifies)) =
      .ok [(0, .ok "singleton(o, Node.val)")] := by cbv
  obtain ⟨a, a', created, executed, shape⟩ := Analysis.exists_of_execute shape
  obtain ⟨⟨_, s⟩, held, same⟩ :=
    List.mem_map.mp (shape ▸ List.mem_singleton_self (0, Except.ok "singleton(o, Node.val)"))
  obtain ⟨rfl, rendered⟩ := Prod.mk.inj same
  have made := Analysis.created_of_create created
  obtain ⟨w, final, walked, rfl⟩ := (Analysis.execute_ok made.unexecuted).mp executed
  rw [made.settings_eq] at walked
  obtain ⟨nesting, l, states, ctx, run, ctx', summarised, rfl⟩ := Walk.summarised_of_mem walked _ held
  obtain ⟨n, d, rfl, digests, framed⟩ := heap_framed created summarised
  have entrance := summarised.entered.entrance made.regular made.names made.reached.reliable
  obtain ⟨_, _, _, closes⟩ := digests.closes made.regular made.names entrance
  obtain ⟨hc', _⟩ := closes.made.summed closes.fit closes.summed
  refine ⟨a, _, run.summary, ctx', l, d, created, executed, held, rendered, ⟨n, states, ctx, run, digests, rfl⟩, ?_⟩
  exact fun I v => (framed I v _ (Context.chooses_eval hc'.sound I v)).1

end PathMerge
