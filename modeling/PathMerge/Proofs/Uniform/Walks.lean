/-
  PathMerge.Proofs.Uniform.Walks — walks and loop summaries are uniform.

  A walk is a sequence of turns, each of which carries out one statement or summarises one loop; a loop is
  summarised by walks over its body. None of them looks at a table or at the memory, except through actions
  that are uniform. The states a walk has recorded stay valid, so what is done with them later is uniform
  too. Nothing here says that a walk returns: one that fails, fails in the same way wherever it is made.
-/

import PathMerge.Proofs.Registered
import PathMerge.Proofs.Turns
import PathMerge.Proofs.Uniform.States

namespace PathMerge

open Context ContextM

variable {α : Type} {ctx ctx' : Context}

/-! ## Rules for lists -/

namespace Uniform

/-- What is said of an element's answer is true of the elements that stay with `true`, and of the others with
`false`. -/
theorem filterM {p : α → ContextM Bool} {P : α → Bool → Prop} (l : List α) (hc : ctx.Reliable)
    (each : ∀ a ∈ l, ∀ c, ctx.Later c → c.Reliable → Uniform (p a) c fun b _ => P a b) :
    Uniform (l.filterM p) ctx fun kept _ => (∀ a ∈ kept, a ∈ l ∧ P a true) ∧ ∀ a ∈ l, a ∈ kept ∨ P a false := by
  have aux : ∀ (l acc : List α) {c : Context}, ctx.Later c → c.Reliable →
      (∀ a ∈ l, ∀ c, ctx.Later c → c.Reliable → Uniform (p a) c fun b _ => P a b) →
      Uniform (l.filterAuxM p acc) c fun kept _ => (∀ a ∈ acc, a ∈ kept) ∧
        (∀ a ∈ kept, a ∈ acc ∨ a ∈ l ∧ P a true) ∧ ∀ a ∈ l, a ∈ kept ∨ P a false := by
    intro l
    induction l with
    | nil =>
      exact fun acc c _ hc _ => Uniform.pure hc ⟨fun a ha => ha, fun a ha => .inl ha, List.forall_mem_nil _⟩
    | cons a l ih =>
      intro acc c later hc each
      unfold List.filterAuxM
      refine (each a List.mem_cons_self c later hc).bind fun b c₁ later₁ hc₁ answer => ?_
      refine (ih (cond b (a :: acc) acc) (later.trans later₁) hc₁ fun d hd => each d (List.mem_cons_of_mem _ hd)).mono
        fun kept _ _ _ fate => ⟨fun d hd => fate.1 d ?_, fun d hd => ?_, fun d hd => ?_⟩
      · cases b with
        | false => exact hd
        | true => exact List.mem_cons_of_mem _ hd
      · rcases fate.2.1 d hd with inside | inside
        · cases b with
          | false => exact .inl inside
          | true =>
            rcases List.mem_cons.mp inside with rfl | inside
            · exact .inr ⟨List.mem_cons_self, answer⟩
            · exact .inl inside
        · exact .inr ⟨List.mem_cons_of_mem _ inside.1, inside.2⟩
      · rcases List.mem_cons.mp hd with rfl | hd
        · cases b with
          | false => exact .inr answer
          | true => exact .inl (fate.1 d List.mem_cons_self)
        · exact fate.2.2 d hd
  unfold List.filterM
  refine (aux l [] (.refl ctx) hc each).bind fun kept c _ hc fate => Uniform.pure hc ⟨fun a ha => ?_, fun a ha => ?_⟩
  · exact (fate.2.1 a (List.mem_reverse.mp ha)).resolve_left List.not_mem_nil
  · exact (fate.2.2 a ha).imp_left List.mem_reverse.mpr

theorem forM {f : α → ContextM Unit} (l : List α) (hc : ctx.Reliable)
    (each : ∀ a ∈ l, ∀ c, c.Reliable → Uniform (f a) c fun _ _ => True) :
    Uniform (l.forM f) ctx fun _ _ => True := by
  induction l generalizing ctx with
  | nil => exact Uniform.pure hc trivial
  | cons a l ih =>
    show Uniform (f a >>= fun _ => l.forM f) ctx _
    refine (each a List.mem_cons_self ctx hc).bind fun _ c _ hc _ => ?_
    exact ih hc fun b hb => each b (List.mem_cons_of_mem _ hb)

end Uniform

/-! ## What a walk has recorded -/

namespace Walk

variable {lay : Layout} {region : Region} {w : Walk}

abbrev Valid (w : Walk) (ctx : Context) : Prop := w.All (·.Valid ctx)

theorem Valid.later (h : w.Valid ctx) (later : ctx.Later ctx') : w.Valid ctx' :=
  h.mono fun _ valid => valid.extends later.extends

/-! ## Turns -/

/-- A step of the walk does not depend on how the context is stored. -/
theorem step_uniform (hc : ctx.Reliable) (hw : w.Valid ctx) (i : Nat) :
    Uniform (step lay region w i) ctx fun p c => p.1.Valid c := by
  unfold step
  refine (Uniform.ofExcept hc).bind ?_
  rintro stmt _ _ _ ⟨rfl, _⟩
  refine (Uniform.ofExcept hc).bind ?_
  rintro rule _ _ _ ⟨rfl, _⟩
  refine (Rule.apply_uniform hc (hw.inputs i) rule stmt _).bind fun outs c₁ later₁ hc₁ valid => ?_
  refine (Uniform.mapM_all (P := fun t c => t.Valid c) outs hc₁ (fun later _ valid => valid.extends later.extends)
    fun s hs c later hc => State.simplify_uniform hc ((valid s hs).extends later.extends)).bind
    fun outputs c₂ later₂ hc₂ valid => ?_
  have hw := hw.later (later₁.trans later₂)
  dsimp only
  split
  · exact Uniform.throw hc₂
  · have recorded : ({ w with outputs := w.outputs.put i outputs } : Walk).Valid c₂ := ⟨hw.inputs, hw.outputs.put valid⟩
    exact Uniform.pure hc₂ (recorded.deliverAll i fun e he => valid e.2 (List.of_mem_zip he).2)

def SummarisesUniformly (summarise : Nat → List State → ContextM LoopRun) : Prop :=
  ∀ (c : Context) (id : Nat) (states : List State), c.Reliable → (∀ s ∈ states, s.Valid c) →
    Uniform (summarise id states) c fun run c => run.walk.Valid c

variable {summarise : Nat → List State → ContextM LoopRun}

theorem passLoop_uniform (nested : SummarisesUniformly summarise) (hc : ctx.Reliable) (hw : w.Valid ctx) (id : Nat) :
    Uniform (passLoop lay region summarise w id) ctx fun p c => p.1.Valid c := by
  unfold passLoop
  refine (Uniform.ofExcept hc).bind ?_
  rintro l _ _ _ ⟨rfl, _⟩
  refine (nested ctx id _ hc (hw.inputs l.head)).bind fun run c later hc hrun => Uniform.pure hc ?_
  have hw := hw.later later
  exact All.leaveLoop ⟨hw.inputs.takeOver hrun.inputs _, hw.outputs.takeOver hrun.outputs _⟩ l hrun.outputs l.exits

theorem take_uniform (nested : SummarisesUniformly summarise) (hc : ctx.Reliable) (hw : w.Valid ctx) (i : Nat) :
    Uniform (take lay region summarise w i) ctx fun p c => p.1.Valid c := by
  unfold take
  split
  · exact passLoop_uniform nested hc hw _
  · exact step_uniform hc hw i

theorem run_uniform (nested : SummarisesUniformly summarise) {queue pending : List Nat} {postponed : Nat}
    (hc : ctx.Reliable) (hw : w.Valid ctx) :
    Uniform (run lay region summarise w queue pending postponed) ctx fun w' c => w'.Valid c := by
  induction w, queue, pending, postponed using run_induction lay region generalizing ctx with
  | empty w pending postponed =>
    rw [run]
    exact Uniform.pure hc hw
  | skip same ih =>
    rw [same]
    exact ih hc hw
  | take same ih =>
    rw [same]
    exact (take_uniform nested hc hw _).bind fun r c _ hc hr => ih r hc hr

theorem through_uniform (nested : SummarisesUniformly summarise) (hc : ctx.Reliable) {states : List State}
    (valid : ∀ s ∈ states, s.Valid ctx) : Uniform (through lay region summarise states) ctx fun w c => w.Valid c :=
  run_uniform nested hc (.start valid)

/-! ## Fresh symbols for modified ones -/

def Named (names : Renaming) (ctx : Context) : Prop := ∀ x y, names.lookup x = some y → y.number < ctx.symbols.size

def Known (modified : List SymbolId) (ctx : Context) : Prop := ∀ x ∈ modified, x.number < ctx.symbols.size

variable {names : Renaming} {modified : List SymbolId}

theorem Named.later (later : ctx.Later ctx') (h : Named names ctx) : Named names ctx' :=
  fun x y found => Nat.lt_of_lt_of_le (h x y found) later.symbols.size_le

theorem Known.later (later : ctx.Later ctx') (h : Known modified ctx) : Known modified ctx' :=
  fun x hx => Nat.lt_of_lt_of_le (h x hx) later.symbols.size_le

theorem freshFor_uniform (hc : ctx.Reliable) (named : Named names ctx) (x : SymbolId) :
    Uniform (freshFor names x) ctx fun p c => p.1.number < c.symbols.size ∧ Named p.2 c := by
  unfold freshFor
  cases found : names.lookup x with
  | some y => exact Uniform.pure hc ⟨named x y found, named⟩
  | none =>
    refine (Uniform.asking (fun twin alike => (Lasts.alike (.symbolName x) alike).symm) hc).bind ?_
    rintro name _ _ _ ⟨rfl, _⟩
    refine (Uniform.asking (fun twin alike => (Lasts.alike (.symbolSort x) alike).symm) hc).bind ?_
    rintro sort _ _ _ ⟨rfl, _⟩
    refine (fresh_uniform hc name sort).bind fun y c later hc registered => Uniform.pure hc ⟨registered, ?_⟩
    intro z y' found
    have found : List.lookup z ((x, y) :: names) = some y' := found
    rw [List.lookup_cons] at found
    split at found
    · cases found
      exact registered
    · exact named.later later z y' found

theorem bindFresh_uniform (hc : ctx.Reliable) (named : Named names ctx) (known : Known modified ctx) {m : Bindings}
    (bound : ∀ b ∈ m, State.Bound b ctx) :
    Uniform (bindFresh modified names m) ctx fun p c => (∀ b ∈ p.1, State.Bound b c) ∧ Named p.2 c := by
  induction modified generalizing ctx names m with
  | nil => exact Uniform.pure hc ⟨bound, named⟩
  | cons x rest ih =>
    unfold bindFresh
    refine (freshFor_uniform hc named x).bind ?_
    rintro ⟨y, names₁⟩ c₁ later₁ hc₁ ⟨registered, named₁⟩
    refine (symbol_uniform hc₁ registered).bind fun h c₂ later₂ hc₂ has => ?_
    have known := known.later (later₁.trans later₂)
    refine ih hc₂ (named₁.later later₂) (fun z hz => known z (List.mem_cons_of_mem _ hz)) fun b hb => ?_
    rcases Bindings.mem_insert hb with rfl | hb
    · exact ⟨has, known x List.mem_cons_self⟩
    · exact (bound b hb).later (later₁.trans later₂)

theorem anonymize_uniform (hc : ctx.Reliable) (named : Named names ctx) (known : Known modified ctx) {s : State}
    (hs : s.Valid ctx) : Uniform (anonymize modified names s) ctx fun p c => p.1.Valid c ∧ Named p.2 c := by
  unfold anonymize
  split
  · exact Uniform.pure hc ⟨hs, named⟩
  · refine (bindFresh_uniform hc named known hs.flatten).bind ?_
    rintro ⟨m, names₁⟩ c later hc ⟨bound, named₁⟩
    exact Uniform.pure hc ⟨State.ofBindings_valid (hs.path.extends later.extends) bound, named₁⟩

theorem anonymizeAll_uniform (hc : ctx.Reliable) (named : Named names ctx) (known : Known modified ctx)
    {states : List State} (valid : ∀ s ∈ states, s.Valid ctx) :
    Uniform (anonymizeAll modified names states) ctx fun p c => (∀ s ∈ p.1, s.Valid c) ∧ Named p.2 c := by
  induction states generalizing ctx names with
  | nil => exact Uniform.pure hc ⟨List.forall_mem_nil _, named⟩
  | cons s rest ih =>
    unfold anonymizeAll
    refine (anonymize_uniform hc named known (valid s List.mem_cons_self)).bind ?_
    rintro ⟨t, names₁⟩ c₁ later₁ hc₁ ⟨ht, named₁⟩
    refine (ih hc₁ named₁ (known.later later₁) fun s hs =>
      (valid s (List.mem_cons_of_mem _ hs)).extends later₁.extends).bind ?_
    rintro ⟨others, names₂⟩ c₂ later₂ hc₂ ⟨hothers, named₂⟩
    exact Uniform.pure hc₂ ⟨List.forall_mem_cons.mpr ⟨ht.extends later₂.extends, hothers⟩, named₂⟩

/-! ## Changed symbols -/

theorem differs_uniform (hc : ctx.Reliable) {s t : State} (hs : s.Valid ctx) (ht : t.Valid ctx) {x : SymbolId}
    (registered : x.number < ctx.symbols.size) :
    Uniform (differs s.store.flatten t.store.flatten x) ctx fun _ _ => True := by
  refine (State.valueIn_uniform hc hs registered).bind fun old c later hc _ => ?_
  refine (State.valueIn_uniform hc (ht.extends later.extends)
    (Nat.lt_of_lt_of_le registered later.symbols.size_le)).bind fun new c' _ hc' _ => ?_
  exact Uniform.pure hc' trivial

/-- The symbols reported as changed are registered, and do not depend on how the context is stored. -/
theorem changedSymbols_uniform (hc : ctx.Reliable) {s : State} (hs : s.Valid ctx) {back : List State}
    (valid : ∀ t ∈ back, t.Valid ctx) :
    Uniform (changedSymbols s.store.flatten back) ctx fun changed c => Known changed c := by
  refine (Uniform.mapM_all (P := Known) back hc (fun later _ known => known.later later) fun t ht c later hc => ?_).bind
    fun changed c _ hc known => ?_
  · have hs := hs.extends later.extends
    have ht := (valid t ht).extends later.extends
    have keys : Known (s.store.flatten.map (·.1) ++ t.store.flatten.map (·.1)) c := by
      intro x hx
      rcases List.mem_append.mp hx with hx | hx
      · obtain ⟨b, hb, rfl⟩ := List.mem_map.mp hx
        exact (hs.flatten b hb).2
      · obtain ⟨b, hb, rfl⟩ := List.mem_map.mp hx
        exact (ht.flatten b hb).2
    refine (Uniform.filterM (P := fun _ _ => True) _ hc fun x hx c' later' hc' => ?_).mono
      fun kept c' later' _ fate => ?_
    · exact differs_uniform hc' (hs.extends later'.extends) (ht.extends later'.extends) (keys.later later' x hx)
    · exact fun x hx => keys.later later' x (fate.1 x hx).1
  · refine Uniform.pure hc fun x hx => ?_
    obtain ⟨kept, hk, hx⟩ := List.mem_flatten.mp (SymbolId.mem_ofList.mp hx)
    exact known kept hk x hx

/-! ## Written locations -/

theorem asApp?_has (hc : ctx.Sound) {h : Handle} {name : String} {args : List Handle}
    (found : ctx.asApp? h name = .ok (some args)) : ∀ a ∈ args, ctx.Has a := by
  obtain ⟨f, hn⟩ := Context.asApp?_node found
  exact fun a ha => hc.pool.has_child hn ha

theorem write?_uniform (hc : ctx.Reliable) (h : Handle) : Uniform (Theory.Heap.write? h) ctx fun r c =>
    ctx = c ∧ ∀ w, r = some w → ctx.Has w.1 ∧ ctx.Has w.2.1 ∧ ctx.Has w.2.2.1 := by
  unfold Theory.Heap.write?
  refine (Uniform.asking (fun twin alike => (Lasts.alike (.asApp? h _) alike).symm) hc).bind ?_
  rintro r _ _ _ ⟨rfl, found⟩
  split
  · refine Uniform.pure hc ⟨rfl, fun w made => ?_⟩
    cases made
    have has := asApp?_has hc.sound found
    exact ⟨has _ (by simp), has _ (by simp), has _ (by simp)⟩
  · exact Uniform.throw hc
  · exact Uniform.pure hc ⟨rfl, fun w made => by cases made⟩

/-- The writes found above a base do not depend on how the context is stored. -/
theorem writesWithin_uniform (hc : ctx.Reliable) (base : Handle) (depth : Nat) {heap : Handle} (has : ctx.Has heap) :
    Uniform (writesWithin base depth heap) ctx Locates := by
  induction depth generalizing ctx heap with
  | zero => exact Uniform.throw hc
  | succ depth ih =>
    unfold writesWithin
    split
    · refine Uniform.pure hc fun ws made l hl => ?_
      cases made
      cases hl
    refine (write?_uniform hc heap).bind ?_
    rintro write? _ _ _ ⟨rfl, written⟩
    cases write? with
    | some write =>
      obtain ⟨before, object, field, value⟩ := write
      obtain ⟨hasBefore, hasObject, hasField⟩ := written _ rfl
      refine (ih hc hasBefore).bind fun ws c later hc located => Uniform.pure hc fun all made l hl => ?_
      obtain ⟨rest, rfl, rfl⟩ := Option.map_eq_some_iff.mp made
      rcases List.mem_cons.mp hl with rfl | hl
      · exact ⟨later.extends.has hasObject, later.extends.has hasField⟩
      · exact located rest rfl l hl
    | none =>
      refine (Uniform.asking (fun twin alike => (Lasts.alike (.node heap) alike).symm) hc).bind ?_
      rintro n _ _ _ ⟨rfl, node⟩
      have nothing : Uniform (pure none : ContextM (Option (List Location))) ctx Locates :=
        Uniform.pure hc fun _ made => by cases made
      cases n with
      | summary branches =>
        cases heap.negated with
        | true => exact nothing
        | false =>
          refine (Uniform.mapM_all (P := Locates) branches hc (fun later _ located => located.extends later.extends)
            fun b hb c later hc' => ?_).bind fun writes c later hc' located => Uniform.pure hc' fun all made l hl => ?_
          · have child := (Node.mem_children_summary hb).2
            exact ih hc' (later.extends.has (hc.sound.pool.has_child (InternTable.value_eq_ok.mp node) child))
          · obtain ⟨lists, collected, rfl⟩ := Option.map_eq_some_iff.mp made
            obtain ⟨ws, hws, hl⟩ := List.mem_flatten.mp hl
            exact located _ (mem_of_collected collected hws) ws rfl l hl
      | _ => exact nothing

theorem allWrites?_uniform (hc : ctx.Reliable) (base : Handle) {back : List State} (valid : ∀ s ∈ back, s.Valid ctx) :
    Uniform (allWrites? base back) ctx Locates := by
  induction back generalizing ctx with
  | nil =>
    refine Uniform.pure hc fun ws made l hl => ?_
    cases made
    cases hl
  | cons s rest ih =>
    unfold allWrites?
    refine (Rule.heapOf_uniform hc (valid s List.mem_cons_self)).bind fun h c₁ later₁ hc₁ has => ?_
    refine (writesWithin_uniform hc₁ base (h.index + 1) has).bind fun ws c₂ later₂ hc₂ located => ?_
    cases ws with
    | none => exact Uniform.pure hc₂ fun _ made => by cases made
    | some ws =>
      have later := later₁.trans later₂
      refine (ih hc₂ fun s hs => (valid s (List.mem_cons_of_mem _ hs)).extends later.extends).bind
        fun others c₃ later₃ hc₃ rest => Uniform.pure hc₃ fun all made l hl => ?_
      obtain ⟨more, rfl, rfl⟩ := Option.map_eq_some_iff.mp made
      rcases List.mem_append.mp hl with hl | hl
      · exact located.extends later₃.extends ws rfl l hl
      · exact rest more rfl l hl

theorem unions_uniform (hc : ctx.Reliable) {locations : List Location}
    (has : ∀ l ∈ locations, ctx.Has l.1 ∧ ctx.Has l.2) {set : Handle} (hasSet : ctx.Has set) :
    Uniform (locations.foldlM (fun set (l : Location) => do ContextM.union set (← ContextM.location l.1 l.2)) set) ctx
      fun h c => c.Has h := by
  induction locations generalizing ctx set with
  | nil => exact Uniform.pure hc hasSet
  | cons l rest ih =>
    obtain ⟨object, field⟩ := has l List.mem_cons_self
    rw [List.foldlM_cons]
    have added : Uniform (do ContextM.union set (← ContextM.location l.1 l.2)) ctx fun h c => c.Has h := by
      refine (call_uniform hc _ (by simp [object, field])).bind fun one c later hc single => ?_
      exact call_uniform hc _ (by simp [later.extends.has hasSet, single])
    refine added.bind fun h c later hc hasH => ih hc (fun k hk => ?_) hasH
    obtain ⟨object, field⟩ := has k (List.mem_cons_of_mem _ hk)
    exact ⟨later.extends.has object, later.extends.has field⟩

theorem writtenLocations_uniform (hc : ctx.Reliable) {s : State} (hs : s.Valid ctx) {back : List State}
    (valid : ∀ s ∈ back, s.Valid ctx) : Uniform (writtenLocations s.store back) ctx fun h c => c.Has h := by
  unfold writtenLocations
  refine (Rule.heapOf_uniform hc hs).bind fun base c₁ later₁ hc₁ _ => ?_
  refine (allWrites?_uniform hc₁ base fun s hs => (valid s hs).extends later₁.extends).bind
    fun ws c₂ later₂ hc₂ located => ?_
  cases ws with
  | none => exact call_uniform hc₂ _ (List.forall_mem_nil _)
  | some ws =>
    refine (call_uniform hc₂ _ (List.forall_mem_nil _)).bind fun none c₃ later₃ hc₃ empty => ?_
    have has : ∀ l ∈ SortedList.ofList Branch.lt ws, c₃.Has l.1 ∧ c₃.Has l.2 := fun l hl =>
      located.extends later₃.extends ws rfl l ((SortedList.mem_ofList Branch.lt_separates).mp hl)
    refine (unions_uniform hc₃ has empty).bind fun set c₄ later₄ hc₄ hasSet => ?_
    exact (ContextM.simplify_uniform hc₄ hasSet).mono fun _ _ _ _ normal => normal.has

/-! ## Passes -/

theorem summaryOf_uniform (hc : ctx.Reliable) (named : Named names ctx) (known : Known modified ctx) {entry : LoopEntry}
    (hentry : (⟨.empty, entry.store⟩ : State).Valid ctx) (passes : Nat) {seed : State} (hseed : seed.Valid ctx)
    {back : List State} (valid : ∀ s ∈ back, s.Valid ctx) :
    Uniform (summaryOf entry modified names passes seed.store back) ctx fun _ _ => True := by
  have leaf : ∀ {c : Context}, ctx.Later c → c.Reliable →
      Uniform (anonymize modified names ⟨.empty, entry.store⟩) c fun p c => p.1.Valid c ∧ Named p.2 c := fun later hc =>
    anonymize_uniform hc (named.later later) (known.later later) (hentry.extends later.extends)
  unfold summaryOf
  dsimp only
  split
  · refine (writtenLocations_uniform hc hseed valid).bind fun h c later hc _ => (leaf later hc).bind ?_
    exact fun p c hl hc hp => (State.simplify_uniform hc hp.1).bind fun _ c _ hc _ => Uniform.pure hc trivial
  · refine (call_uniform hc _ (List.forall_mem_nil _)).bind fun h c later hc _ => (leaf later hc).bind ?_
    exact fun p c hl hc hp => (State.simplify_uniform hc hp.1).bind fun _ c _ hc _ => Uniform.pure hc trivial

/-- The passes over a loop do not depend on how the context is stored if the walk of its body does not. -/
theorem passesWithin_uniform {entry : LoopEntry} {walk : List State → ContextM Walk}
    (walks : ∀ (c : Context) (seeds : List State), c.Reliable → (∀ s ∈ seeds, s.Valid c) →
      Uniform (walk seeds) c fun w c => w.Valid c)
    (limit : Nat) (passes : Nat) (hc : ctx.Reliable) (named : Named names ctx) (known : Known modified ctx)
    (hentry : (⟨.empty, entry.store⟩ : State).Valid ctx) (valid : ∀ s ∈ entry.states, s.Valid ctx) :
    Uniform (passesWithin entry walk limit modified names passes) ctx fun run c => run.walk.Valid c := by
  induction limit generalizing ctx modified names passes with
  | zero => exact Uniform.throw hc
  | succ limit ih =>
    unfold passesWithin
    refine (anonymizeAll_uniform hc named known valid).bind ?_
    rintro ⟨seeds, names₁⟩ c₁ later₁ hc₁ ⟨hseeds, named₁⟩
    dsimp only
    refine (State.merge_uniform hc₁ hseeds).bind fun merged c₂ later₂ hc₂ hmerged => ?_
    refine (State.simplify_uniform hc₂ hmerged).bind fun seed c₃ later₃ hc₃ hseed => ?_
    have later₁₃ := later₂.trans later₃
    refine (walks c₃ seeds hc₃ fun s hs => (hseeds s hs).extends later₁₃.extends).bind fun w c₄ later₄ hc₄ hw => ?_
    have back : ∀ s ∈ (w.inputs.get entry.head).drop seeds.length, s.Valid c₄ := fun s hs =>
      hw.inputs entry.head s (List.mem_of_mem_drop hs)
    have hseed₄ := hseed.extends later₄.extends
    refine (changedSymbols_uniform hc₄ hseed₄ back).bind fun changed c₅ later₅ hc₅ changed_known => ?_
    have later₁₅ := (later₁₃.trans later₄).trans later₅
    have later := later₁.trans later₁₅
    split
    · refine (summaryOf_uniform hc₅ (named₁.later later₁₅) (known.later later) (hentry.extends later.extends) passes
        (hseed₄.extends later₅.extends) fun s hs =>
        (back s hs).extends later₅.extends).bind fun summary c₆ later₆ hc₆ _ => ?_
      exact Uniform.pure hc₆ (hw.later (later₅.trans later₆))
    · refine ih _ hc₅ (named₁.later later₁₅) (fun x hx => ?_) (hentry.extends later.extends)
        fun s hs => (valid s hs).extends later.extends
      rcases List.mem_append.mp (SymbolId.mem_ofList.mp hx) with hx | hx
      · exact known.later later x hx
      · exact changed_known x (List.mem_filter.mp hx).1

theorem summariseWith_uniform {nested : Nat → List State → ContextM LoopRun} (uniform : SummarisesUniformly nested) :
    SummarisesUniformly (summariseWith nested lay) := by
  intro ctx id states hc valid
  unfold summariseWith
  refine (Uniform.ofExcept hc).bind ?_
  rintro l _ _ _ ⟨rfl, _⟩
  refine (State.merge_uniform hc valid).bind fun merged c₁ later₁ hc₁ hmerged => ?_
  refine (State.simplify_uniform hc₁ hmerged).bind fun entered c₂ later₂ hc₂ hentered => ?_
  refine Uniform.get (fun twin alike => by rw [alike.symbols]) ?_
  refine passesWithin_uniform (fun c seeds hc valid => through_uniform uniform hc valid) _ _ hc₂ (fun x y found => ?_)
    (List.forall_mem_nil _) ⟨PathCondition.empty_valid c₂, hentered.store⟩
    fun s hs => (valid s hs).extends (later₁.trans later₂).extends
  cases found

theorem summarise_uniform (nesting : Nat) : SummarisesUniformly (Walk.summarise lay nesting) := by
  induction nesting with
  | zero => exact fun c id states hc _ => Uniform.throw hc
  | succ nesting ih => exact summariseWith_uniform ih

theorem ofMethod_uniform (hc : ctx.Reliable) (stops : List Nat) :
    Uniform (ofMethod lay stops) ctx fun w c => w.Valid c :=
  through_uniform (summarise_uniform _) hc fun _ hs => List.mem_singleton.mp hs ▸ State.initial_valid ctx

end Walk

/-! ## Registering the symbols of a method -/

namespace Analysis

theorem registerCall_uniform (hc : ctx.Reliable) (stmt : Statement) :
    Uniform (registerCall stmt) ctx fun _ _ => True := by
  unfold registerCall
  split
  · refine Uniform.get (fun twin alike => by rw [alike.symbols]) ?_
    dsimp only
    split
    · refine (register_uniform hc fun added => (Registry.addFunction_ok hc.sound.symbols added).1).bind
        fun id c _ hc _ => ?_
      exact Uniform.pure hc trivial
    · exact Uniform.pure hc trivial
  · exact Uniform.pure hc trivial

theorem registerSymbols_uniform (hc : ctx.Reliable) (m : Method) : Uniform (registerSymbols m) ctx fun _ _ => True := by
  have rest : ∀ {c : Context}, c.Reliable → Uniform (do
      m.declarations.forM fun d => do
        let _ ← ContextM.register (·.addLocal d.1 d.2.sort)
      m.body.forM registerCall) c fun _ _ => True := by
    intro c hc
    refine (Uniform.forM m.declarations hc fun d _ c hc => ?_).bind fun _ c _ hc _ => ?_
    · refine (register_uniform hc fun added => (Registry.addLocal_ok hc.sound.symbols added).1).bind
        fun id c _ hc _ => ?_
      exact Uniform.pure hc trivial
    · exact Uniform.forM m.body hc fun stmt _ c hc => registerCall_uniform hc stmt
  unfold registerSymbols
  cases m.result? with
  | none => exact rest hc
  | some t =>
    refine (register_uniform hc fun added => (Registry.addResult_ok hc.sound.symbols added).1).bind
      fun id c _ hc _ => ?_
    exact rest hc

end Analysis

end PathMerge
