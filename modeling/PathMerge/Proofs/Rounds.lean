/-
  PathMerge.Proofs.Rounds — every loop that is summarised in a run, and the passes that are made over it.

  The passes over a loop are made in rounds. A round begins with the symbols found modified so far, renames them in the
  states that enter the loop, and walks the body from there. If further symbols turn out modified another round follows
  (`Round.Next`); otherwise the loop is summarised, and the `Digest` keeps what the summary was made from.

  In a run a loop is met by the walk over the method, or by a walk over the body of a loop that is being summarised, in
  whatever round. `Entered` lists all of these, also those of a run that fails later on. Wherever a loop is entered, the
  context is reliable and the states can be worked with (`Entered.entrance`), and so they are in every round
  (`Round.Fit`).
-/

import PathMerge.Proofs.Execution
import PathMerge.Proofs.Postcondition
import PathMerge.Proofs.Repetition

namespace PathMerge

open Relation

namespace Walk

/-! ## Rounds -/

structure Round where
  /-- The symbols found modified so far. -/
  modified : List SymbolId
  names : Renaming
  /-- The number of the pass that is made in this round, counted from one. -/
  passes : Nat
  context : Context

structure Pass where
  seeds : List State
  names : Renaming
  /-- What the seeds merge into, simplified. -/
  seed : State
  walk : Walk
  changed : List SymbolId

def Pass.back (p : Pass) (head : Nat) : List State := (p.walk.inputs.get head).drop p.seeds.length

def Pass.grown (p : Pass) (modified : List SymbolId) : List SymbolId := p.changed.filter (!modified.contains ·)

namespace Round

def Begins (entry : LoopEntry) (r : Round) (seeds : List State) (names : Renaming) (seed : State) (ctx : Context) :
    Prop :=
  ∃ merged c c', Returns (anonymizeAll r.modified r.names entry.states) r.context (seeds, names) c ∧
    Returns (State.merge seeds) c merged c' ∧ Returns merged.simplify c' seed ctx

def Makes (entry : LoopEntry) (walk : List State → ContextM Walk) (r : Round) (p : Pass) (ctx : Context) : Prop :=
  ∃ c c', r.Begins entry p.seeds p.names p.seed c ∧ Returns (walk p.seeds) c p.walk c' ∧
    Returns (changedSymbols p.seed.store.flatten (p.back entry.head)) c' p.changed ctx

inductive Next (entry : LoopEntry) (walk : List State → ContextM Walk) : Round → Round → Prop
  | intro {r : Round} {p : Pass} {ctx : Context} (made : r.Makes entry walk p ctx) (some : p.grown r.modified ≠ []) :
      Next entry walk r ⟨SortedList.ofList SymbolId.lt (r.modified ++ p.grown r.modified), p.names, r.passes + 1, ctx⟩

end Round

/-- What the summary of a loop is made from. -/
structure Digest where
  /-- What the states that enter the loop merge into, simplified. -/
  entered : State
  /-- The last round. -/
  round : Round
  last : Pass

/-- The loop, entered by `states` in `ctx`, is summarised by `run`. -/
def Digests (lay : Layout) (nesting id : Nat) (l : Loop) (states : List State) (ctx : Context) (d : Digest)
    (run : LoopRun) (ctx' : Context) : Prop :=
  let entry : LoopEntry := ⟨l.head, states, d.entered.store⟩
  let walk := through lay (.ofLoop id l) (summarise lay nesting)
  ∃ merged c c₁ c₂, Returns (State.merge states) ctx merged c ∧ Returns merged.simplify c d.entered c₁ ∧
    ReflTransGen (Round.Next entry walk) ⟨[], [], 1, c₁⟩ d.round ∧ d.round.Makes entry walk d.last c₂ ∧
    d.last.grown d.round.modified = [] ∧ d.last.walk = run.walk ∧
    Returns (summaryOf entry d.round.modified d.last.names d.round.passes d.last.seed.store (d.last.back l.head)) c₂
      run.summary ctx'

/-- A loop's passes are rounds, each starting with what the last one found changed, until one finds nothing new. -/
theorem rounds_of_passes {entry : LoopEntry} {walk : List State → ContextM Walk} (limit : Nat)
    {modified : List SymbolId} {names : Renaming} {passes : Nat} {ctx ctx' : Context} {run : LoopRun}
    (h : Returns (passesWithin entry walk limit modified names passes) ctx run ctx') :
    ∃ r p c, ReflTransGen (Round.Next entry walk) ⟨modified, names, passes, ctx⟩ r ∧ r.Makes entry walk p c ∧
      p.grown r.modified = [] ∧ p.walk = run.walk ∧
      Returns (summaryOf entry r.modified p.names r.passes p.seed.store (p.back entry.head)) c run.summary ctx' := by
  induction limit generalizing modified names passes ctx with
  | zero => cases h
  | succ limit ih =>
    unfold passesWithin at h
    obtain ⟨⟨seeds, names'⟩, c₁, renamed, h⟩ := returns_of_bind h
    obtain ⟨merged, c₂, hm, h⟩ := returns_of_bind h
    obtain ⟨seed, c₃, hs, h⟩ := returns_of_bind h
    obtain ⟨w, c₄, walked, h⟩ := returns_of_bind h
    obtain ⟨changed, c₅, compared, h⟩ := returns_of_bind h
    have made : Round.Makes entry walk ⟨modified, names, passes, ctx⟩ ⟨seeds, names', seed, w, changed⟩ c₅ :=
      ⟨c₃, c₄, ⟨merged, c₁, c₂, renamed, hm, hs⟩, walked, compared⟩
    dsimp only at h
    split at h
    · rename_i none
      obtain ⟨summary, _, summed, h⟩ := returns_of_bind h
      cases h
      exact ⟨_, _, c₅, .refl, made, List.isEmpty_iff.mp none, rfl, summed⟩
    · rename_i some
      have next := Round.Next.intro made fun none => some (List.isEmpty_iff.mpr none)
      obtain ⟨r, p, c, rounds, rest⟩ := ih h
      exact ⟨r, p, c, .head next rounds, rest⟩

theorem digests_of_returns {lay : Layout} {nesting id : Nat} {l : Loop} {states : List State} {ctx ctx' : Context}
    {run : LoopRun} (found : lay.loops[id]? = some l)
    (h : Returns (summarise lay (nesting + 1) id states) ctx run ctx') :
    ∃ d, Digests lay nesting id l states ctx d run ctx' := by
  unfold summarise summariseWith at h
  obtain ⟨k, _, asked, h⟩ := returns_of_bind h
  obtain ⟨got, rfl⟩ := ContextM.returns_ofExcept.mp asked
  cases (Layout.getLoop_eq_ok.mp got).symm.trans found
  obtain ⟨merged, c, hm, h⟩ := returns_of_bind h
  obtain ⟨entered, c₁, hs, h⟩ := returns_of_bind h
  obtain ⟨current, _, here, h⟩ := returns_of_bind h
  cases here
  obtain ⟨r, p, c₂, rounds⟩ := rounds_of_passes _ h
  exact ⟨⟨entered, r, p⟩, merged, c, c₁, c₂, hm, hs, rounds⟩

/-! ## Loops that are entered -/

def Meets (lay : Layout) (region : Region) (nested : Nat → List State → ContextM LoopRun) (start : List State)
    (ctx : Context) (id : Nat) (l : Loop) (states : List State) (ctx' : Context) : Prop :=
  ∃ w queue pending postponed, ReflTransGen (Turn lay region nested) (.initial lay region start ctx)
      ⟨w, l.head :: queue, pending, postponed, ctx'⟩ ∧
    ¬ region.stops.contains l.head = true ∧ l.head ∈ pending ∧
    (¬ Waiting lay region w l.head ∨ (¬ postponed ≤ queue.length ∧ (w.inputs.get l.head).length ≠ 0)) ∧
    loopToPass? lay region l.head = some id ∧ lay.loops[id]? = some l ∧ w.inputs.get l.head = states

/-- In a run that begins in `ctx` and stops at `stops`, the loop is entered by `states` in `ctx'`, while so many
levels of loops are still allowed. -/
inductive Entered (lay : Layout) (stops : List Nat) (ctx : Context) :
    (nesting id : Nat) → Loop → List State → Context → Prop
  | method {id : Nat} {l : Loop} {states : List State} {ctx' : Context}
      (met : Meets lay (.whole stops) (summarise lay lay.loops.size) [.initial] ctx id l states ctx') :
      Entered lay stops ctx lay.loops.size id l states ctx'
  | loop {nesting id n : Nat} {l k : Loop} {states seeds states' : List State} {merged entered seed : State}
      {names : Renaming} {r : Round} {c₁ c₂ c₃ c₄ ctx' : Context}
      (outer : Entered lay stops ctx (nesting + 1) id l states c₁)
      (merges : Returns (State.merge states) c₁ merged c₂) (simplifies : Returns merged.simplify c₂ entered c₃)
      (rounds : ReflTransGen (Round.Next ⟨l.head, states, entered.store⟩
        (through lay (.ofLoop id l) (summarise lay nesting))) ⟨[], [], 1, c₃⟩ r)
      (begins : r.Begins ⟨l.head, states, entered.store⟩ seeds names seed c₄)
      (met : Meets lay (.ofLoop id l) (summarise lay nesting) seeds c₄ n k states' ctx') :
      Entered lay stops ctx nesting n k states' ctx'

theorem Entered.found {lay : Layout} {stops : List Nat} {ctx ctx' : Context} {nesting id : Nat} {l : Loop}
    {states : List State} (h : Entered lay stops ctx nesting id l states ctx') : lay.loops[id]? = some l := by
  cases h with
  | method met =>
    obtain ⟨_, _, _, _, _, _, _, _, _, found, _⟩ := met
    exact found
  | loop _ _ _ _ _ met =>
    obtain ⟨_, _, _, _, _, _, _, _, _, found, _⟩ := met
    exact found

/-- In a run that begins in `start`, the loop is entered by `states` in `ctx` and summarised by `run`. -/
structure Summarised (lay : Layout) (stops : List Nat) (start : Context) (nesting id : Nat) (l : Loop)
    (states : List State) (ctx : Context) (run : LoopRun) (ctx' : Context) : Prop where
  entered : Entered lay stops start nesting id l states ctx
  returned : Returns (summarise lay nesting id states) ctx run ctx'

theorem Summarised.digests {lay : Layout} {stops : List Nat} {start : Context} {nesting id : Nat} {l : Loop}
    {states : List State} {ctx ctx' : Context} {run : LoopRun}
    (h : Summarised lay stops start nesting id l states ctx run ctx') :
    ∃ n d, nesting = n + 1 ∧ Digests lay n id l states ctx d run ctx' := by
  have ret := h.returned
  cases nesting with
  | zero => cases ret
  | succ n =>
    obtain ⟨d, digests⟩ := digests_of_returns h.entered.found ret
    exact ⟨n, d, rfl, digests⟩

/-- A summary that a walk holds is that of a loop it met, or comes from the walk over its body. -/
theorem summaries_of_turns {lay : Layout} {region : Region} {nested : Nat → List State → ContextM LoopRun}
    {start : List State} {ctx : Context} {c : Config}
    (turns : ReflTransGen (Turn lay region nested) (.initial lay region start ctx) c) :
    ∀ e ∈ c.walk.summaries, ∃ id l states c₁ run c₂, Meets lay region nested start ctx id l states c₁ ∧
      Returns (nested id states) c₁ run c₂ ∧ (e = (id, run.summary) ∨ e ∈ run.walk.summaries) := by
  induction turns with
  | refl => exact List.forall_mem_nil _
  | tail turns t ih =>
    cases t with
    | discard => exact ih
    | late => exact ih
    | postpone => exact ih
    | drop => exact ih
    | @take w i queue pending postponed ctx₁ ctx₂ p go open_ due taken =>
      intro e he
      unfold Walk.take at taken
      cases pass : loopToPass? lay region i with
      | none =>
        rw [pass] at taken
        obtain ⟨outs, _, _, rfl⟩ := returns_step.mp taken
        have frame : (recorded lay region w i outs).1.summaries = w.summaries := (deliverAll_frame _ _ _).2
        exact ih e (frame ▸ he)
      | some id =>
        rw [pass] at taken
        obtain ⟨l, run, found, summed, rfl⟩ := returns_passLoop.mp taken
        have headed : l.head = i := by
          unfold loopToPass? at pass
          split at pass
          · cases pass
          · obtain ⟨_, found', head⟩ := Layout.Regular.headedBy_some pass
            cases found.symm.trans found'
            exact head
        subst headed
        have frame : (passed lay region w id l run).1.summaries =
          (w.summaries.insertAll run.walk.summaries).insert id run.summary := (leaveLoop_frame _ _ _ _).2
        have he := frame ▸ he
        have met : Meets lay region nested start ctx id l (w.inputs.get l.head) ctx₁ :=
          ⟨w, queue, pending, postponed, turns, go, open_, due, pass, found, rfl⟩
        rcases Summaries.mem_insert he with same | he
        · exact ⟨id, l, _, ctx₁, run, ctx₂, met, summed, .inl same⟩
        · rcases Summaries.mem_insertAll he with he | he
          · exact ⟨id, l, _, ctx₁, run, ctx₂, met, summed, .inr he⟩
          · exact ih e he

/-- Every summary recorded while a loop is walked is itself the summary of a loop. -/
theorem Summarised.nested {lay : Layout} {stops : List Nat} {start : Context} {nesting id : Nat} {l : Loop}
    {states : List State} {ctx ctx' : Context} {run : LoopRun}
    (h : Summarised lay stops start nesting id l states ctx run ctx') :
    ∀ e ∈ run.walk.summaries, ∃ n k states' c run' c', Summarised lay stops start n e.1 k states' c run' c' ∧
      run'.summary = e.2 := by
  induction nesting generalizing id l states ctx run ctx' with
  | zero => cases h.returned
  | succ nesting ih =>
    intro e he
    obtain ⟨d, merged, c, c₁, c₂, merges, simplifies, rounds, makes, _, same, _⟩ :=
      digests_of_returns h.entered.found h.returned
    obtain ⟨before, after, begins, walked, _⟩ := makes
    obtain ⟨_, _, turns⟩ := turns_of_returns walked
    obtain ⟨n, k, states', c₃, run', c₄, met, summed, e_of⟩ := summaries_of_turns turns e (same ▸ he)
    have inner : Summarised lay stops start nesting n k states' c₃ run' c₄ :=
      ⟨.loop h.entered merges simplifies rounds begins met, summed⟩
    rcases e_of with rfl | he
    · exact ⟨nesting, k, states', c₃, run', c₄, inner, rfl⟩
    · exact ih inner e he

/-- Every summary of a finished run is that of a loop that was summarised in it. -/
theorem summarised_of_mem {lay : Layout} {stops : List Nat} {ctx ctx' : Context} {w : Walk}
    (walked : Returns (ofMethod lay stops) ctx w ctx') :
    ∀ e ∈ w.summaries, ∃ n l states c run c', Summarised lay stops ctx n e.1 l states c run c' ∧ run.summary = e.2 := by
  intro e he
  obtain ⟨_, _, turns⟩ := turns_of_returns walked
  obtain ⟨n, l, states, c, run, c', met, summed, e_of⟩ := summaries_of_turns turns e he
  have outer : Summarised lay stops ctx lay.loops.size n l states c run c' := ⟨.method met, summed⟩
  rcases e_of with rfl | he
  · exact ⟨_, l, states, c, run, c', outer, rfl⟩
  · exact outer.nested e he

/-! ## What is known where a loop is entered -/

variable {lay : Layout} {region : Region} {r : Registry} {ctx ctx' : Context} {nesting id : Nat} {l : Loop}
  {states start : List State}

structure Entrance (lay : Layout) (r : Registry) (nesting id : Nat) (l : Loop) (states : List State) (ctx : Context) :
    Prop where
  found : lay.loops[id]? = some l
  deep : loopsWithin lay l ≤ nesting
  reliable : ctx.Reliable
  ext : r.Extends ctx.symbols
  ins : Startable r ctx states

def NestsWithin (lay : Layout) (region : Region) (nesting : Nat) : Prop :=
  ∀ (id : Nat) (l : Loop), lay.loops[id]? = some l → region.Inner lay l.head → loopsWithin lay l ≤ nesting

theorem nestsWithin_whole (stops : List Nat) : NestsWithin lay (.whole stops) lay.loops.size :=
  fun _ l _ _ => loopsWithin_le lay l

theorem Entrance.nestsWithin (reg : lay.Regular) (h : Entrance lay r (nesting + 1) id l states ctx) :
    NestsWithin lay (.ofLoop id l) nesting := by
  intro n k found inner
  have fewer := loopsWithin_lt reg h.found found inner
  have deep := h.deep
  omega

theorem NestsWithin.coversLoops (reg : lay.Regular) (names : Names lay r) (deep : NestsWithin lay region nesting) :
    CoversLoops lay region r (summarise lay nesting) :=
  fun found inner hc ext ins => summarise_attempts reg names nesting found (deep _ _ found inner) hc ext ins

structure Config.Fit (lay : Layout) (region : Region) (r : Registry) (c : Config) : Prop
    extends Covering lay region r c where
  reliable : c.context.Reliable

theorem Config.Fit.valid {c : Config} (h : c.Fit lay region r) : c.walk.Valid c.context :=
  h.usable.mono fun _ usable => usable.1

theorem initial_fit (reg : lay.Regular) (hw : region.Walked lay) (hc : ctx.Reliable) (ext : r.Extends ctx.symbols)
    (begin_ : Startable r ctx start) : (Config.initial lay region start ctx).Fit lay region r :=
  ⟨⟨hc.sound, ext, .start fun s hs => ⟨begin_.valid s hs, begin_.within s hs⟩, .start_progress reg hw begin_.some⟩, hc⟩

/-- What a turn keeps, and that what was there before it is there after it. -/
theorem Config.Fit.turn (reg : lay.Regular) (hw : region.Walked lay) (names : Names lay r)
    (deep : NestsWithin lay region nesting) {c c' : Config} (h : c.Fit lay region r)
    (t : Turn lay region (summarise lay nesting) c c') : c'.Fit lay region r ∧ c.context.Later c'.context := by
  have covering := ((covering_invariant reg hw names (deep.coversLoops reg names)).turn h.toCovering t).2
  have reliable := h.reliable
  have valid := h.valid
  cases t with
  | discard => exact ⟨⟨covering, reliable⟩, .refl _⟩
  | late => exact ⟨⟨covering, reliable⟩, .refl _⟩
  | postpone => exact ⟨⟨covering, reliable⟩, .refl _⟩
  | drop => exact ⟨⟨covering, reliable⟩, .refl _⟩
  | @take w i queue pending postponed ctx ctx' p go open_ due taken =>
    have uniform : Uniform (Walk.take lay region (summarise lay nesting) w i) ctx fun p c => p.1.Valid c :=
      take_uniform (summarise_uniform nesting) reliable valid i
    exact ⟨⟨covering, (uniform.of_returns taken).1⟩, uniform.later_of_returns taken⟩

theorem Config.Fit.turns (reg : lay.Regular) (hw : region.Walked lay) (names : Names lay r)
    (deep : NestsWithin lay region nesting) {c c' : Config} (h : c.Fit lay region r)
    (turns : ReflTransGen (Turn lay region (summarise lay nesting)) c c') :
    c'.Fit lay region r ∧ c.context.Later c'.context := by
  induction turns with
  | refl => exact ⟨h, .refl _⟩
  | tail _ t ih =>
    obtain ⟨fit, later⟩ := ih
    obtain ⟨fit', later'⟩ := fit.turn reg hw names deep t
    exact ⟨fit', later.trans later'⟩

theorem Meets.entrance (reg : lay.Regular) (hw : region.Walked lay) (names : Names lay r)
    (deep : NestsWithin lay region nesting) (hc : ctx.Reliable) (ext : r.Extends ctx.symbols)
    (begin_ : Startable r ctx start) (met : Meets lay region (summarise lay nesting) start ctx id l states ctx') :
    Entrance lay r nesting id l states ctx' := by
  obtain ⟨w, queue, pending, postponed, turns, _, _, _, pass, found, rfl⟩ := met
  obtain ⟨fit, _⟩ := (initial_fit reg hw hc ext begin_).turns reg hw names deep turns
  obtain ⟨inside, some⟩ := fit.progress.queued List.mem_cons_self
  obtain ⟨k, found', _, inner⟩ := Region.loopToPass?_some reg inside pass
  cases found.symm.trans found'
  exact ⟨found, deep id l found inner, fit.reliable, fit.ext, some, fun s hs => (fit.usable.inputs l.head s hs).1,
    fun s hs => (fit.usable.inputs l.head s hs).2⟩

/-! ## What is known in a round -/

structure Round.Fit (r : Registry) (base : Context) (entry : LoopEntry) (rd : Round) : Prop where
  reliable : rd.context.Reliable
  ext : r.Extends rd.context.symbols
  since : base.Later rd.context
  ins : Startable r rd.context entry.states
  store : (⟨.empty, entry.store⟩ : State).Simplified rd.context
  names : Renames base.symbols.size rd.context rd.names
  assigned : ∀ x ∈ rd.modified, x.number < r.size
  nodup : rd.modified.Nodup
  counted : rd.passes ≤ rd.modified.length + 1

structure Started (r : Registry) (base : Context) (rd : Round) (entry : LoopEntry) (seeds : List State)
    (names : Renaming) (seed : State) (ctx : Context) : Prop where
  reliable : ctx.Reliable
  later : rd.context.Later ctx
  fresh : Renames base.symbols.size ctx names
  rebound : List.Forall₂ (Rebound names rd.modified ctx) entry.states seeds
  begin_ : Startable r ctx seeds
  merges : ∃ c, rd.context.Later c ∧ State.MergesTo c seeds seed ctx
  simplified : seed.Simplified ctx
  within : seed.Within r

/-- A round that fits its entry starts from seeds that are valid and rename what is modified. -/
theorem Round.Fit.started {base : Context} {entry : LoopEntry} {rd : Round} (h : rd.Fit r base entry)
    {seeds : List State} {names : Renaming} {seed : State} (b : rd.Begins entry seeds names seed ctx) :
    Started r base rd entry seeds names seed ctx := by
  obtain ⟨merged, c, c', renames, merging, simplifies⟩ := b
  have registered : ∀ x ∈ rd.modified, x.number < rd.context.symbols.size := fun x hx =>
    Nat.lt_of_lt_of_le (h.assigned x hx) h.ext.size_le
  have uniform := anonymizeAll_uniform h.reliable (fun _ _ found => (h.names.new found).2) registered h.ins.valid
  have hc := (uniform.of_returns renames).1
  have later := uniform.later_of_returns renames
  obtain ⟨_, _, ren, _, rebound⟩ :=
    (anonymizeAll_rebinds h.reliable.sound h.names h.since.symbols.size_le registered entry.states).of_returns renames
  obtain ⟨_, _, _, _, anon⟩ :=
    (anonymizeAll_yields h.reliable.sound h.names h.since.symbols.size_le registered h.ins.valid).of_returns renames
  have begin_ := h.ins.anonymised anon h.assigned
  have uniform' := State.merge_uniform hc begin_.valid
  obtain ⟨hc', _⟩ := uniform'.of_returns merging
  have later' := uniform'.later_of_returns merging
  obtain ⟨_, _, merges⟩ := (State.merge_yields hc.sound begin_.some begin_.valid).of_returns merging
  have uniform'' := State.simplify_simplified hc' merges.valid
  obtain ⟨hc'', simplified⟩ := uniform''.of_returns simplifies
  have later'' := later'.trans (uniform''.later_of_returns simplifies)
  obtain ⟨_, _, refined⟩ := (State.simplify_yields hc'.sound merges.valid).of_returns simplifies
  refine ⟨hc'', later.trans later'', ren.extends later''.extends, ?_, begin_.extends later''.extends, ?_, simplified,
    (merges.refine refined).within begin_.within⟩
  · exact rebound.imp fun s t one => one.later later''.extends fun h => h
  · exact ⟨c, later, hc, begin_.valid, merged, c', merging, simplifies⟩

structure Toured (lay : Layout) (r : Registry) (id : Nat) (l : Loop) (w : Walk) (ctx : Context) : Prop where
  reliable : ctx.Reliable
  usable : w.All (State.Usable r ctx)
  covers : Covers lay (.ofLoop id l) r w

theorem Entrance.toured (reg : lay.Regular) (names : Names lay r) {c c' : Context} {seeds : List State} {w : Walk}
    (h : Entrance lay r (nesting + 1) id l states ctx) (hc : c.Reliable) (ext : r.Extends c.symbols)
    (begin_ : Startable r c seeds)
    (walked : Returns (through lay (.ofLoop id l) (summarise lay nesting) seeds) c w c') :
    Toured lay r id l w c' ∧ c.Later c' := by
  have uniform : Uniform (through lay (.ofLoop id l) (summarise lay nesting) seeds) c fun w c => w.Valid c :=
    through_uniform (summarise_uniform nesting) hc begin_.valid
  obtain ⟨_, _, usable, _, progress⟩ := (through_attempts reg (.loop h.found) names
    ((h.nestsWithin reg).coversLoops reg names) hc.sound ext begin_).of_returns walked
  exact ⟨⟨(uniform.of_returns walked).1, usable, progress.covers reg (.loop h.found) rfl⟩,
    uniform.later_of_returns walked⟩

theorem Toured.back {p : Pass} (h : Toured lay r id l p.walk ctx) : ∀ b ∈ p.back l.head, b.Valid ctx ∧ b.Within r :=
  fun b hb => h.usable.inputs l.head b (List.mem_of_mem_drop hb)

section Rounds

variable {base : Context} {store : Store} {rd rd' : Round}

structure Round.Made (lay : Layout) (r : Registry) (base : Context) (nesting id : Nat) (l : Loop) (states : List State)
    (store : Store) (rd : Round) (p : Pass) (before after ctx : Context) : Prop where
  started : Started r base rd ⟨l.head, states, store⟩ p.seeds p.names p.seed before
  walked : Returns (through lay (.ofLoop id l) (summarise lay nesting) p.seeds) before p.walk after
  toured : Toured lay r id l p.walk after
  later : before.Later after
  compared : Returns (changedSymbols p.seed.store.flatten (p.back l.head)) after p.changed ctx
  reliable : ctx.Reliable
  later' : after.Later ctx

theorem Round.Fit.made (reg : lay.Regular) (names : Names lay r)
    (entrance : Entrance lay r (nesting + 1) id l states ctx) {p : Pass} (h : rd.Fit r base ⟨l.head, states, store⟩)
    (makes : rd.Makes ⟨l.head, states, store⟩ (through lay (.ofLoop id l) (summarise lay nesting)) p ctx') :
    ∃ before after, rd.Begins ⟨l.head, states, store⟩ p.seeds p.names p.seed before ∧
      rd.Made lay r base nesting id l states store p before after ctx' := by
  obtain ⟨before, after, begins, walked, compared⟩ := makes
  have started := h.started begins
  obtain ⟨toured, later⟩ :=
    entrance.toured reg names started.reliable (h.ext.trans started.later.symbols) started.begin_ walked
  have uniform := changedSymbols_uniform toured.reliable (started.simplified.valid.extends later.extends)
    fun b hb => (toured.back b hb).1
  exact ⟨before, after, begins, started, walked, toured, later, compared, (uniform.of_returns compared).1,
    uniform.later_of_returns compared⟩

theorem Round.Made.changed {p : Pass} {before after : Context}
    (h : rd.Made lay r base nesting id l states store p before after ctx) {x : SymbolId} (hx : x ∈ p.changed) :
    x.number < r.size := by
  obtain ⟨_, _, keys, _⟩ :=
    (changedSymbols_yields h.toured.reliable.sound (h.started.simplified.valid.extends h.later.extends)
    fun b hb => (h.toured.back b hb).1).of_returns h.compared
  exact changed_assigned h.started.within (fun b hb => (h.toured.back b hb).2) keys x hx

/-- The next round fits its entry if this one does. -/
theorem Round.Fit.next (reg : lay.Regular) (names : Names lay r)
    (entrance : Entrance lay r (nesting + 1) id l states ctx) (h : rd.Fit r base ⟨l.head, states, store⟩)
    (next : Round.Next ⟨l.head, states, store⟩ (through lay (.ofLoop id l) (summarise lay nesting)) rd rd') :
    rd'.Fit r base ⟨l.head, states, store⟩ ∧ rd.context.Later rd'.context := by
  obtain ⟨makes, some⟩ := next
  obtain ⟨before, after, _, made⟩ := h.made reg names entrance makes
  have later := made.later.trans made.later'
  have total := made.started.later.trans later
  have longer := length_lt_of_grown h.nodup (fun x hx => by simpa using (List.mem_filter.mp hx).2) some
  have counted := h.counted
  refine ⟨⟨made.reliable, h.ext.trans total.symbols, h.since.trans total, h.ins.extends total.extends,
    h.store.later total made.reliable.sound.pool.tidy, made.started.fresh.extends later.extends, fun x hx => ?_,
    SymbolId.ofList_nodup _, by dsimp only; omega⟩, total⟩
  rcases List.mem_append.mp (SymbolId.mem_ofList.mp hx) with hx | hx
  · exact h.assigned x hx
  · exact made.changed (List.mem_filter.mp hx).1

theorem Round.Fit.nexts (reg : lay.Regular) (names : Names lay r)
    (entrance : Entrance lay r (nesting + 1) id l states ctx)
    (h : rd.Fit r base ⟨l.head, states, store⟩) (nexts : ReflTransGen (Round.Next ⟨l.head, states, store⟩
      (through lay (.ofLoop id l) (summarise lay nesting))) rd rd') :
    rd'.Fit r base ⟨l.head, states, store⟩ ∧ rd.context.Later rd'.context := by
  induction nexts with
  | refl => exact ⟨h, .refl _⟩
  | tail _ next ih =>
    obtain ⟨fit, later⟩ := ih
    obtain ⟨fit', later'⟩ := fit.next reg names entrance next
    exact ⟨fit', later.trans later'⟩

/-- What the summary is made of. -/
theorem returns_summaryOf {entry : LoopEntry} {modified : List SymbolId} {names : Renaming} {passes : Nat}
    {back : List State} {summary : LoopSummary}
    (h : Returns (summaryOf entry modified names passes store back) ctx summary ctx') :
    ∃ modifies c leaf names' c' simplified, Returns (if modified.contains Registry.heap then writtenLocations store back
        else ContextM.noLocations) ctx modifies c ∧
      Returns (anonymize modified names ⟨.empty, entry.store⟩) c (leaf, names') c' ∧
      Returns leaf.simplify c' simplified ctx' ∧ summary = ⟨entry.head, simplified, modified, modifies, passes⟩ := by
  have taken : ∀ {x : ContextM Handle}, Returns (do
      let modifies ← x
      let made ← anonymize modified names ⟨.empty, entry.store⟩
      return (⟨entry.head, ← made.1.simplify, modified, modifies, passes⟩ : LoopSummary)) ctx summary ctx' →
      ∃ modifies c leaf names' c' simplified, Returns x ctx modifies c ∧
        Returns (anonymize modified names ⟨.empty, entry.store⟩) c (leaf, names') c' ∧
        Returns leaf.simplify c' simplified ctx' ∧ summary = ⟨entry.head, simplified, modified, modifies, passes⟩ := by
    intro x h
    obtain ⟨modifies, c, located, h⟩ := returns_of_bind h
    obtain ⟨⟨leaf, names'⟩, c', renamed, h⟩ := returns_of_bind h
    obtain ⟨simplified, _, simplifies, h⟩ := returns_of_bind h
    cases h
    exact ⟨modifies, c, leaf, names', c', simplified, located, renamed, simplifies, rfl⟩
  unfold summaryOf at h
  split at h
  · rename_i some
    rw [if_pos some]
    exact taken h
  · rename_i none
    rw [if_neg none]
    exact taken h

theorem Round.Made.summed {p : Pass} {before after : Context} {summary : LoopSummary}
    (fit : rd.Fit r base ⟨l.head, states, store⟩)
    (h : rd.Made lay r base nesting id l states store p before after ctx)
    (ret : Returns (summaryOf ⟨l.head, states, store⟩ rd.modified p.names rd.passes p.seed.store (p.back l.head)) ctx
      summary ctx') : ctx'.Reliable ∧ ctx.Later ctx' := by
  have later := h.later.trans h.later'
  have total := h.started.later.trans later
  have uniform :
    Uniform (summaryOf ⟨l.head, states, store⟩ rd.modified p.names rd.passes p.seed.store (p.back l.head)) ctx _ :=
    summaryOf_uniform h.reliable (fun x y found => ((h.started.fresh.extends later.extends).new found).2)
      (fun x hx => Nat.lt_of_lt_of_le (fit.assigned x hx) (fit.ext.trans total.symbols).size_le)
      (fit.store.valid.extends total.extends) rd.passes (h.started.simplified.valid.extends later.extends)
      fun b hb => (h.toured.back b hb).1.extends h.later'.extends
  exact ⟨(uniform.of_returns ret).1, uniform.later_of_returns ret⟩

/-- Where the first round is. -/
theorem Entrance.first {merged entered : State} {c c' : Context} (h : Entrance lay r nesting id l states ctx)
    (merges : Returns (State.merge states) ctx merged c) (simplifies : Returns merged.simplify c entered c') :
    Round.Fit r ctx ⟨l.head, states, entered.store⟩ ⟨[], [], 1, c'⟩ ∧ entered.Simplified c' := by
  have uniform := State.merge_uniform h.reliable h.ins.valid
  obtain ⟨hc, valid⟩ := uniform.of_returns merges
  have uniform' := State.simplify_simplified hc valid
  obtain ⟨hc', simplified⟩ := uniform'.of_returns simplifies
  have later := (uniform.later_of_returns merges).trans (uniform'.later_of_returns simplifies)
  exact ⟨⟨hc', h.ext.trans later.symbols, later, h.ins.extends later.extends,
    ⟨⟨rfl, List.forall_mem_nil _⟩, simplified.store⟩, .nil _ _, List.forall_mem_nil _, List.nodup_nil, Nat.le_refl _⟩,
    simplified⟩

end Rounds

/-- How a loop that is entered in `ctx` comes to be summarised in `ctx'`: the last round, its pass, which starts from
`before` and is over in `after`, and the symbols that it changes, which are compared by `compared`. -/
structure Closes (lay : Layout) (r : Registry) (nesting id : Nat) (l : Loop) (states : List State) (ctx : Context)
    (d : Digest) (before after compared : Context) (run : LoopRun) (ctx' : Context) : Prop where
  entered : d.entered.Simplified d.round.context
  fit : d.round.Fit r ctx ⟨l.head, states, d.entered.store⟩
  made : d.round.Made lay r ctx nesting id l states d.entered.store d.last before after compared
  stable : d.last.grown d.round.modified = []
  walk : d.last.walk = run.walk
  summed : Returns (summaryOf ⟨l.head, states, d.entered.store⟩ d.round.modified d.last.names d.round.passes
    d.last.seed.store (d.last.back l.head)) compared run.summary ctx'

theorem Digests.closes (reg : lay.Regular) (names : Names lay r) {d : Digest} {run : LoopRun}
    (entrance : Entrance lay r (nesting + 1) id l states ctx)
    (digests : Digests lay nesting id l states ctx d run ctx') :
    ∃ before after compared, Closes lay r nesting id l states ctx d before after compared run ctx' := by
  obtain ⟨merged, c, c₁, c₂, merges, simplifies, rounds, makes, stable, walk, summed⟩ := digests
  obtain ⟨begun, entered⟩ := entrance.first merges simplifies
  obtain ⟨fit, later⟩ := begun.nexts reg names entrance rounds
  obtain ⟨before, after, _, made⟩ := fit.made reg names entrance makes
  exact ⟨before, after, c₂, entered.later later fit.reliable.sound.pool.tidy, fit, made, stable, walk, summed⟩

/-- Wherever a loop is entered it can be summarised. -/
theorem Entered.entrance (reg : lay.Regular) (names : Names lay ctx.symbols) (hc : ctx.Reliable) {stops : List Nat}
    (h : Entered lay stops ctx nesting id l states ctx') : Entrance lay ctx.symbols nesting id l states ctx' := by
  induction h with
  | method met =>
    exact met.entrance reg (.whole stops) names (nestsWithin_whole stops) hc (.refl _) (initial_startable _ ctx)
  | loop _ merges simplifies rounds begins met ih =>
    have fit := ((ih.first merges simplifies).1.nexts reg names ih rounds).1
    have started := fit.started begins
    exact met.entrance reg (.loop ih.found) names (ih.nestsWithin reg) started.reliable
      (fit.ext.trans started.later.symbols) started.begin_

end Walk

end PathMerge
