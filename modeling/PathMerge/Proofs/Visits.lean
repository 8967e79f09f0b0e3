/-
  PathMerge.Proofs.Visits — what a walk leaves behind at each statement.

  Every live statement is carried out for good once: by the walk over the method or, if it lies in a loop, by
  the last walk over the loop's body. A `Visit` holds what is known of it: the states that arrived over
  forward edges, the seeds it was carried out on, which at the head of a loop are the arrivals with the modified
  symbols renamed, and the unknowns of a call. It also says how many symbols were registered when the states had
  arrived, when the statement was carried out and when that was done. Forward along the edges these counts only
  grow (`Solves.order`), so what a state means never depends on symbols that were made up later on.

  A walk over a tame layout always returns, and leaves such a visit at every live statement of its region
  (`through_solves`), provided that passing a loop does (`Solved`).
-/

import PathMerge.Proofs.Iteration
import PathMerge.Proofs.Rules
import PathMerge.Proofs.Turns

namespace PathMerge

open Context PathMerge.Flow Relation

/-! ## States that no longer change -/

def State.Settled (ctx : Context) (n : Nat) (s : State) : Prop :=
  ∃ c : Context, c.Sound ∧ c.Extends ctx ∧ c.symbols.size ≤ n ∧ s.Valid c

namespace State.Settled

variable {ctx ctx' : Context} {n n' : Nat} {s : State} {I : Interpretation} {v v' : Valuation}

theorem valid (h : s.Settled ctx n) : s.Valid ctx := by
  obtain ⟨_, _, e, _, valid⟩ := h
  exact valid.extends e

theorem later (e : ctx.Extends ctx') (h : s.Settled ctx n) : s.Settled ctx' n := by
  obtain ⟨c, hc, e', le, valid⟩ := h
  exact ⟨c, hc, e'.trans e, le, valid⟩

theorem of_valid (hc : ctx.Sound) (valid : s.Valid ctx) : s.Settled ctx ctx.symbols.size :=
  ⟨ctx, hc, .refl ctx, Nat.le_refl _, valid⟩

theorem truth_agree (h : s.Settled ctx n) (agree : ∀ y : SymbolId, y.number < n → v y = v' y) :
    s.path.truth ctx I v = s.path.truth ctx I v' := by
  obtain ⟨c, hc, e, le, valid⟩ := h
  rw [PathCondition.truth_extends hc e valid.path, PathCondition.truth_extends hc e valid.path]
  exact PathCondition.truth_agree hc (fun y hy => agree y (Nat.lt_of_lt_of_le hy le)) valid.path

theorem eval_agree (h : s.Settled ctx n) (agree : ∀ y : SymbolId, y.number < n → v y = v' y) {x : SymbolId}
    (lt : x.number < n) : s.store.eval ctx I v x = s.store.eval ctx I v' x := by
  obtain ⟨c, hc, e, le, valid⟩ := h
  rw [State.eval_extends hc e valid, State.eval_extends hc e valid]
  cases bound : s.store.get? x with
  | none => rw [Store.eval_unbound bound, Store.eval_unbound bound, agree x lt]
  | some k =>
    rw [Store.eval_bound bound, Store.eval_bound bound]
    exact Context.eval_agree hc (fun y hy => agree y (Nat.lt_of_lt_of_le hy le)) (valid.store bound).1

end State.Settled

namespace Walk

/-! ## Visits -/

structure Visit where
  arrived : List State
  seeds : List State
  modified : List SymbolId
  names : Renaming
  unknowns : Unknowns
  /-- How many symbols there were when the states had arrived. -/
  arrival : Nat
  /-- How many there were when the statement was carried out. -/
  entry : Nat
  /-- How many there were afterwards. -/
  exit : Nat

variable {lay : Layout} {region : Region} {r : Registry} {ctx ctx' : Context} {lo i n u : Nat} {w : Walk}
  {start : List State} {done queue pending : List Nat} {postponed : Nat}

structure Visited (lay : Layout) (r : Registry) (ctx : Context) (i : Nat) (x : Visit) (outs : List State) : Prop where
  arrived : ∀ s ∈ x.arrived, s.Settled ctx x.arrival
  renamed : List.Forall₂ (Anonymised x.names x.modified ctx) x.arrived x.seeds
  names : Renames x.arrival ctx x.names
  seeds : ∀ s ∈ x.seeds, s.Settled ctx x.entry
  left : ∀ s ∈ outs, s.Settled ctx x.exit
  within : ∀ s ∈ outs, s.Within r
  times : r.size ≤ x.arrival ∧ x.arrival ≤ x.entry ∧ x.entry ≤ x.exit
  carriedOut : ∃ stmt, lay.body[i]? = some stmt ∧ x.unknowns.Of r x.entry stmt outs ctx ∧
    Transfers r ctx stmt x.seeds x.unknowns outs

/-- A visit stays what it was as the context grows. -/
theorem Visited.later {x : Visit} {outs : List State} (hc : ctx.Sound) (e : ctx.Extends ctx')
    (h : Visited lay r ctx i x outs) : Visited lay r ctx' i x outs := by
  obtain ⟨stmt, here, unknowns, transfers⟩ := h.carriedOut
  refine ⟨fun s hs => (h.arrived s hs).later e, ?_, h.names.extends e, fun s hs => (h.seeds s hs).later e,
    fun s hs => (h.left s hs).later e, h.within, h.times, stmt, here, ?_, ?_⟩
  · have arrived := h.arrived
    have renamed := h.renamed
    revert arrived
    generalize x.arrived = arrived, x.seeds = seeds at renamed
    intro arrived
    induction renamed with
    | nil => exact .nil
    | cons anon _ ih =>
      refine .cons (anon.later hc e (fun h => h) (arrived _ List.mem_cons_self).valid) (ih fun s hs => ?_)
      exact arrived s (List.mem_cons_of_mem _ hs)
  · refine ⟨unknowns.heap_new, unknowns.result_new, unknowns.distinct, fun impure o ho I v => ?_,
      fun impure {y id} target found o ho I v => ?_⟩
    · rw [State.eval_extends hc e (h.left o ho).valid]
      exact unknowns.heap impure o ho I v
    · rw [State.eval_extends hc e (h.left o ho).valid]
      exact unknowns.result impure target found o ho I v
  · exact transfers.later hc e (fun s hs => (h.seeds s hs).valid) fun s hs => (h.left s hs).valid

/-- The state comes back to the head with the values the seeds have there, but for the modified symbols. -/
def ComesBack (ctx : Context) (seeds : List State) (modified : List SymbolId) (b : State) : Prop :=
  ∀ I v s x, State.Sole ctx I v s seeds → x ∉ modified → Below (s.store.eval ctx I v x) (b.store.eval ctx I v x)

theorem ComesBack.later {seeds : List State} {modified : List SymbolId} {b : State} (hc : ctx.Sound)
    (e : ctx.Extends ctx') (before : ∀ s ∈ seeds, s.Valid ctx) (valid : b.Valid ctx)
    (h : ComesBack ctx seeds modified b) :
    ComesBack ctx' seeds modified b := by
  intro I v s x sole hx
  have sole := (State.sole_extends hc e before).mp sole
  rw [State.eval_extends hc e (before s sole.mem), State.eval_extends hc e valid]
  exact h I v s x sole hx

/-- The statements in `done` have been visited, since there were `lo` symbols. -/
structure Solves (lay : Layout) (region : Region) (r : Registry) (lo : Nat) (start : List State) (done : List Nat)
    (w : Walk) (ctx : Context) (visit : Nat → Visit) : Prop where
  visited : ∀ i ∈ done, Visited lay r ctx i (visit i) (w.outputs.get i)
  since : ∀ i ∈ done, lo ≤ (visit i).arrival
  until_ : ∀ i ∈ done, (visit i).exit ≤ ctx.symbols.size
  arrived : ∀ i ∈ done, region.isOwnHead i = false → (visit i).arrived = w.inputs.get i
  own : ∀ i ∈ done, region.isOwnHead i = true → (visit i).seeds = start
  plain : ∀ i ∈ done, lay.loopHeadedBy? i = none → (visit i).modified = []
  order : ∀ u ∈ done, ∀ i ∈ done, lay.flow.Forward u i → (visit u).exit ≤ (visit i).arrival
  back : ∀ h ∈ done, region.Inner lay h → ∀ u, lay.flow.BackEdge u h → ∀ b ∈ along lay w.outputs u h,
    ComesBack ctx (visit h).seeds (visit h).modified b

structure SolvesAt (lay : Layout) (region : Region) (r : Registry) (lo : Nat) (start : List State) (w : Walk)
    (ctx : Context) (i : Nat) (x : Visit) : Prop where
  visited : Visited lay r ctx i x (w.outputs.get i)
  since : lo ≤ x.arrival
  until_ : x.exit ≤ ctx.symbols.size
  arrived : region.isOwnHead i = false → x.arrived = w.inputs.get i
  own : region.isOwnHead i = true → x.seeds = start
  plain : lay.loopHeadedBy? i = none → x.modified = []

theorem Solves.each {visit : Nat → Visit} (solves : Solves lay region r lo start done w ctx visit) (hi : i ∈ done) :
    SolvesAt lay region r lo start w ctx i (visit i) :=
  ⟨solves.visited i hi, solves.since i hi, solves.until_ i hi, solves.arrived i hi, solves.own i hi, solves.plain i hi⟩

theorem Solves.of_each {visit : Nat → Visit} (each : ∀ i ∈ done, SolvesAt lay region r lo start w ctx i (visit i))
    (order : ∀ u ∈ done, ∀ i ∈ done, lay.flow.Forward u i → (visit u).exit ≤ (visit i).arrival)
    (back : ∀ h ∈ done, region.Inner lay h → ∀ u, lay.flow.BackEdge u h → ∀ b ∈ along lay w.outputs u h,
      ComesBack ctx (visit h).seeds (visit h).modified b) : Solves lay region r lo start done w ctx visit :=
  ⟨fun i hi => (each i hi).visited, fun i hi => (each i hi).since, fun i hi => (each i hi).until_,
    fun i hi => (each i hi).arrived, fun i hi => (each i hi).own, fun i hi => (each i hi).plain, order, back⟩

/-- A visit stays what it was while nothing is added to the states at its statement. -/
theorem SolvesAt.later {w' : Walk} {x : Visit} (hc : ctx.Sound) (e : ctx.Extends ctx')
    (h : SolvesAt lay region r lo start w ctx i x) (outputs : w'.outputs.get i = w.outputs.get i)
    (inputs : region.isOwnHead i = false → w'.inputs.get i = w.inputs.get i) :
    SolvesAt lay region r lo start w' ctx' i x := by
  refine ⟨?_, h.since, Nat.le_trans h.until_ e.symbols.size_le, fun own => ?_, h.own, h.plain⟩
  · rw [outputs]
    exact h.visited.later hc e
  · rw [inputs own]
    exact h.arrived own

theorem along_mem {outputs : StateMap} {s : State} (h : s ∈ along lay outputs u n) : s ∈ outputs.get u := by
  obtain ⟨e, he, found⟩ := List.mem_filterMap.mp h
  split at found
  · cases found
    exact (List.of_mem_zip he).2
  · cases found

/-- The states that came back to the head of a loop are still there. -/
theorem Solves.back_later {visit : Nat → Visit} {w' : Walk} {h : Nat} {b : State} (rec : Record lay region start done w)
    (solves : Solves lay region r lo start done w ctx visit) (hc : ctx.Sound) (e : ctx.Extends ctx')
    (outputs : ∀ u ∈ done, w'.outputs.get u = w.outputs.get u) (hh : h ∈ done) (inner : region.Inner lay h)
    (back : lay.flow.BackEdge u h) (hb : b ∈ along lay w'.outputs u h) :
    ComesBack ctx' (visit h).seeds (visit h).modified b := by
  have hu : u ∈ done := rec.loops inner back.inLoop.head hh back.inLoop
  rw [along_congr (outputs u hu)] at hb
  refine (solves.back h hh inner u back b hb).later hc e (fun s hs => ((solves.visited h hh).seeds s hs).valid) ?_
  exact ((solves.visited u hu).left b (along_mem hb)).valid

structure Supports (lay : Layout) (r : Registry) : Prop where
  registry : r.Sound
  operations : ∀ t, r.Provides t
  statement : ∀ {i}, lay.flow.Live i → ∃ stmt, lay.body[i]? = some stmt ∧ lay.flow.succs i = stmt.successors i ∧
    stmt.Supported r

structure Startable (r : Registry) (ctx : Context) (states : List State) : Prop where
  some : states ≠ []
  valid : ∀ s ∈ states, s.Valid ctx
  within : ∀ s ∈ states, s.Within r

theorem Startable.extends {states : List State} (e : ctx.Extends ctx') (h : Startable r ctx states) :
    Startable r ctx' states :=
  ⟨h.some, fun s hs => (h.valid s hs).extends e, h.within⟩

/-- Nothing is carried out before the root. -/
theorem Record.root_first (tame : lay.Tame) (hr : region.Walked lay) (rec : Record lay region start done w)
    (some : i ∈ done) : region.root ∈ done := by
  have reg := tame.toRegular
  obtain ⟨n, hn, first⟩ := (tame.reducible.wf reg.filled).has_min {n | n ∈ done} ⟨i, some⟩
  have inside := rec.inside hn
  by_cases root : n = region.root
  · exact root ▸ hn
  · obtain ⟨u, live, s⟩ := inside.1.forward_pred (hr.ne_root reg inside root)
    exact absurd ⟨live, s⟩ (first u (rec.closed hn s (hr.inside_pred reg inside root s.1 live)))

/-- What has arrived at a statement can be worked with. -/
theorem Solves.startable (tame : lay.Tame) (hr : region.Walked lay) {visit : Nat → Visit}
    (sched : Sched lay region start done w (i :: queue) pending postponed)
    (solves : Solves lay region r lo start done w ctx visit) (begin_ : Startable r ctx start) :
    Startable r ctx (w.inputs.get i) := by
  have reg := tame.toRegular
  obtain ⟨inside, notDone, met⟩ := sched.queued.mp List.mem_cons_self
  obtain ⟨b, inputs, perm⟩ := sched.arrived inside
  have sent : ∀ s ∈ b, s.Valid ctx ∧ s.Within r := by
    intro s hs
    obtain ⟨u, hu, hs⟩ := List.mem_flatMap.mp (perm.mem_iff.mp hs)
    have hs : s ∈ w.outputs.get u := by
      unfold kept at hs
      split at hs
      · exact along_mem hs
      · cases hs
    exact ⟨((solves.visited u hu).left s hs).valid, (solves.visited u hu).within s hs⟩
  have all : ∀ s ∈ w.inputs.get i, s.Valid ctx ∧ s.Within r := by
    intro s hs
    rw [inputs] at hs
    rcases List.mem_append.mp hs with hs | hs
    · split at hs
      · exact ⟨begin_.valid s hs, begin_.within s hs⟩
      · cases hs
    · exact sent s hs
  refine ⟨fun none => ?_, fun s hs => (all s hs).1, fun s hs => (all s hs).2⟩
  rcases met with root | ⟨u, hu, s⟩
  · rw [inputs, if_pos root] at none
    exact begin_.some (List.append_eq_nil_iff.mp none).1
  · have ne : i ≠ region.root := by
      intro root
      subst root
      exact hr.no_forward_root reg (sched.inside hu) s
    have received := sched.received reg hr inside ne
    have entry : u ∈ (entries lay i).filter (· ∈ done) :=
      List.mem_filter.mpr ⟨mem_entries.mpr ⟨s.1, (closedBy_none_iff reg s.1).mpr s⟩, decide_eq_true hu⟩
    rw [none] at received
    have := List.length_pos_of_mem entry
    simp only [List.length_nil] at received
    omega

/-! ## Carrying out a statement -/

theorem step_supported (registry : r.Sound) (hc : ctx.Sound) (ext : r.Extends ctx.symbols) {stmt : Statement}
    (here : lay.body[i]? = some stmt) (edges : lay.flow.succs i = stmt.successors i) (supported : stmt.Supported r)
    (ins : Startable r ctx (w.inputs.get i)) :
    Yields (step lay region w i) ctx fun p ctx' => ∃ u outs,
      Outcome r ctx stmt (w.inputs.get i) (lay.flow.succs i).length u outs ctx' ∧
      Executes lay i (w.inputs.get i) outs ∧ p = recorded lay region w i outs := by
  obtain ⟨outs, ctx', returns, e, hc', unknowns, out⟩ :=
    carryOut_yields here edges supported ins.some registry hc ext ins.valid ins.within
  refine ⟨recorded lay region w i outs, ctx', returns_step.mpr ⟨outs, returns, fun some => ?_, rfl⟩, e, hc', unknowns,
    outs, out, ⟨ctx, ctx', returns⟩, rfl⟩
  have pos := List.length_pos_of_ne_nil some
  rw [out.length]
  omega

theorem step_yields (sup : Supports lay r) (hc : ctx.Sound) (ext : r.Extends ctx.symbols) (live : lay.flow.Live i)
    (ins : Startable r ctx (w.inputs.get i)) :
    Yields (step lay region w i) ctx fun p ctx' => ∃ stmt u outs, lay.body[i]? = some stmt ∧
      Outcome r ctx stmt (w.inputs.get i) (lay.flow.succs i).length u outs ctx' ∧
      Executes lay i (w.inputs.get i) outs ∧ p = recorded lay region w i outs := by
  obtain ⟨stmt, here, edges, supported⟩ := sup.statement live
  refine (step_supported sup.registry hc ext here edges supported ins).mono fun p ctx' _ _ stepped => ?_
  obtain ⟨u, outs, stepped⟩ := stepped
  exact ⟨stmt, u, outs, here, stepped⟩

def Visit.direct (ins : List State) (u : Unknowns) (before after : Nat) : Visit :=
  ⟨ins, ins, [], [], u, before, before, after⟩

theorem visited_direct {stmt : Statement} {ins outs : List State} {unknowns : Unknowns} {edges : Nat} (hc : ctx.Sound)
    (hc' : ctx'.Sound) (e : ctx.Extends ctx') (ext : r.Extends ctx.symbols) (here : lay.body[i]? = some stmt)
    (valid : ∀ s ∈ ins, s.Valid ctx) (out : Outcome r ctx stmt ins edges unknowns outs ctx') :
    Visited lay r ctx' i (.direct ins unknowns ctx.symbols.size ctx'.symbols.size) outs := by
  have settled : ∀ s ∈ ins, s.Settled ctx' ctx.symbols.size :=
    fun s hs => (State.Settled.of_valid hc (valid s hs)).later e
  refine ⟨settled, ?_, .nil _ _, settled,
    fun s hs => .of_valid hc' (out.valid s hs), out.within, ⟨ext.size_le, Nat.le_refl _, e.symbols.size_le⟩, stmt, here,
    out.unknowns, out.transfers⟩
  refine List.forall₂_same.mpr fun s hs => ?_
  exact ⟨(valid s hs).extends e, fun bound => .inr ⟨_, bound⟩, rfl, nofun, fun _ _ _ _ => rfl⟩

/-- A walk over a loop starts from its seeds and nothing else. -/
theorem Sched.inputs_own (tame : lay.Tame) (hr : region.Walked lay)
    (sched : Sched lay region start done w (i :: queue) pending postponed) (own : region.isOwnHead i = true) :
    w.inputs.get i = start := by
  obtain ⟨inside, notDone, _⟩ := sched.queued.mp List.mem_cons_self
  have root : i = region.root := by
    unfold Region.isOwnHead at own
    rw [Bool.and_eq_true, decide_eq_true_eq] at own
    exact own.2
  have none : done = [] := by
    refine List.eq_nil_iff_forall_not_mem.mpr fun j hj => notDone ?_
    rw [root]
    exact sched.root_first tame hr hj
  obtain ⟨b, inputs, perm⟩ := sched.arrived inside
  have nothing : arrivals lay region w.outputs done i = [] := by
    rw [none]
    rfl
  rw [nothing] at perm
  rw [if_pos root, perm.eq_nil, List.append_nil] at inputs
  exact inputs

/-- The visit of the statement that is carried out. -/
theorem Sched.solvesAt_step (tame : lay.Tame) (hr : region.Walked lay)
    (sched : Sched lay region start done w (i :: queue) pending postponed) (hc : ctx.Sound) (hc' : ctx'.Sound)
    (e : ctx.Extends ctx') (ext : r.Extends ctx.symbols) (since : lo ≤ ctx.symbols.size)
    (plain : loopToPass? lay region i = none) {stmt : Statement} {unknowns : Unknowns} {outs : List State}
    (here : lay.body[i]? = some stmt) (ins : Startable r ctx (w.inputs.get i))
    (out : Outcome r ctx stmt (w.inputs.get i) (lay.flow.succs i).length unknowns outs ctx') :
    SolvesAt lay region r lo start (recorded lay region w i outs).1 ctx' i
      (.direct (w.inputs.get i) unknowns ctx.symbols.size ctx'.symbols.size) := by
  have reg := tame.toRegular
  obtain ⟨inside, _, _⟩ := sched.queued.mp List.mem_cons_self
  have notInner := (Region.loopToPass?_none reg inside).mp plain
  refine ⟨?_, since, Nat.le_refl _, fun own => ?_, fun own => sched.inputs_own tame hr own, fun _ => rfl⟩
  · rw [outputs_recorded, if_pos rfl]
    exact visited_direct hc hc' e ext here ins.valid out
  · -- A statement without a loop has no edge to itself.
    have noLoop : ¬ lay.flow.Edge i i := fun s => notInner ⟨BackEdge.inLoop ⟨s, .refl inside.1⟩, inside, own⟩
    exact (inputs_recorded_self w outs noLoop).symm

/-- Carrying out a statement adds its visit to those that were made. -/
theorem Solves.step (tame : lay.Tame) (hr : region.Walked lay) {visit : Nat → Visit}
    (sched : Sched lay region start done w (i :: queue) pending postponed)
    (solves : Solves lay region r lo start done w ctx visit) (hc : ctx.Sound) (hc' : ctx'.Sound) (e : ctx.Extends ctx')
    (ext : r.Extends ctx.symbols) (since : lo ≤ ctx.symbols.size) (plain : loopToPass? lay region i = none)
    {stmt : Statement} {unknowns : Unknowns} {outs : List State} (here : lay.body[i]? = some stmt)
    (ins : Startable r ctx (w.inputs.get i))
    (out : Outcome r ctx stmt (w.inputs.get i) (lay.flow.succs i).length unknowns outs ctx') :
    Solves lay region r lo start (done ++ [i]) (recorded lay region w i outs).1 ctx' fun j =>
      if j = i then .direct (w.inputs.get i) unknowns ctx.symbols.size ctx'.symbols.size else visit j := by
  have reg := tame.toRegular
  obtain ⟨inside, notDone, _⟩ := sched.queued.mp List.mem_cons_self
  have notInner := (Region.loopToPass?_none reg inside).mp plain
  have ne : ∀ j ∈ done, j ≠ i := fun j hj same => notDone (same ▸ hj)
  have outputs : ∀ j ∈ done, (recorded lay region w i outs).1.outputs.get j = w.outputs.get j := fun j hj =>
    outputs_recorded_of_mem outs notDone hj
  refine .of_each (fun j hj => ?_) (fun u hu j hj s => ?_) fun h hh inner u back b hb => ?_
  · rcases List.mem_append.mp hj with hj | hj
    · rw [if_neg (ne j hj)]
      exact (solves.each hj).later hc e (outputs j hj) fun own => sched.frame_step reg hr outs hj own
    · rw [List.mem_singleton.mp hj, if_pos rfl]
      exact sched.solvesAt_step tame hr hc hc' e ext since plain here ins out
  · rcases List.mem_append.mp hj with hj | hj
    · -- To a statement that was done before: so was its predecessor.
      have hu : u ∈ done := by
        rcases List.mem_append.mp hu with hu | hu
        · exact hu
        · rw [List.mem_singleton.mp hu] at s ⊢
          exact sched.closed hj s inside
      rw [if_neg (ne u hu), if_neg (ne j hj)]
      exact solves.order u hu j hj s
    · obtain rfl := List.mem_singleton.mp hj
      have hu : u ∈ done := by
        refine (List.mem_append.mp hu).resolve_right fun hu => s.2 ?_
        rw [List.mem_singleton.mp hu]
        exact .refl inside.1
      rw [if_neg (ne u hu), if_pos rfl]
      exact solves.until_ u hu
  · rcases List.mem_append.mp hh with hh | hh
    · rw [if_neg (ne h hh)]
      exact solves.back_later sched.toRecord hc e outputs hh inner back hb
    · exact absurd (List.mem_singleton.mp hh ▸ inner) notInner

/-! ## Passing a loop -/

structure LoopSolved (lay : Layout) (r : Registry) (lo id : Nat) (l : Loop) (entering : List State) (run : LoopRun)
    (ctx : Context) (seeds : List State) (nested : List Nat) (visit : Nat → Visit) (modified : List SymbolId)
    (names : Renaming) : Prop where
  record : Record lay (.ofLoop id l) seeds nested run.walk
  all : ∀ {n}, (Region.ofLoop id l).Inside lay n → n ∈ nested
  solves : Solves lay (.ofLoop id l) r lo seeds nested run.walk ctx visit
  renamed : List.Forall₂ (Anonymised names modified ctx) entering seeds
  names : Renames lo ctx names
  back : ∀ u, lay.flow.BackEdge u l.head → ∀ b ∈ along lay run.walk.outputs u l.head, ComesBack ctx seeds modified b

def Solved (lay : Layout) (r : Registry) (lo id : Nat) (l : Loop) (entering : List State) (run : LoopRun)
    (ctx : Context) : Prop :=
  ∃ seeds nested visit modified names, LoopSolved lay r lo id l entering run ctx seeds nested visit modified names

def Visit.enter (x : Visit) (entering : List State) (modified : List SymbolId) (names : Renaming) (lo : Nat) : Visit :=
  { x with arrived := entering, modified := modified, names := names, arrival := lo }

section Pass

variable {id : Nat} {l : Loop} {run : LoopRun} {entering seeds : List State} {nested : List Nat}
  {visit inner : Nat → Visit}
  {modified : List SymbolId} {names : Renaming}

theorem LoopSolved.complete (h : LoopSolved lay r lo id l entering run ctx seeds nested inner modified names) :
    Complete lay (.ofLoop id l) seeds run.walk := ⟨nested, h.record, h.all⟩

theorem LoopSolved.head (reg : lay.Regular) (found : lay.loops[id]? = some l)
    (h : LoopSolved lay r lo id l entering run ctx seeds nested inner modified names) (size : r.size ≤ lo)
    (settled : ∀ s ∈ entering, s.Settled ctx lo) :
    Visited lay r ctx l.head ((inner l.head).enter entering modified names lo) (run.walk.outputs.get l.head) := by
  have inside := h.all ((Region.inside_ofLoop reg found).mpr (reg.natural found).head)
  have visited := h.solves.visited l.head inside
  have own : (inner l.head).seeds = seeds := h.solves.own l.head inside (decide_eq_true rfl)
  have since := h.solves.since l.head inside
  refine ⟨settled, ?_, h.names, visited.seeds, visited.left, visited.within, ⟨size, ?_, visited.times.2.2⟩,
    visited.carriedOut⟩
  · show List.Forall₂ _ entering (inner l.head).seeds
    rw [own]
    exact h.renamed
  · exact Nat.le_trans since visited.times.2.1

def visitsPast (l : Loop) (entering : List State) (modified : List SymbolId) (names : Renaming) (lo : Nat)
    (inner visit : Nat → Visit) (j : Nat) : Visit :=
  if j = l.head then (inner l.head).enter entering modified names lo else if j ∈ l.body then inner j else visit j

theorem visitsPast_head : visitsPast l entering modified names lo inner visit l.head =
    (inner l.head).enter entering modified names lo := if_pos rfl

theorem visitsPast_body {j : Nat} (ne : j ≠ l.head) (hj : j ∈ l.body) :
    visitsPast l entering modified names lo inner visit j = inner j := by
  unfold visitsPast
  rw [if_neg ne, if_pos hj]

theorem visitsPast_other {j : Nat} (ne : j ≠ l.head) (hj : j ∉ l.body) :
    visitsPast l entering modified names lo inner visit j = visit j := by
  unfold visitsPast
  rw [if_neg ne, if_neg hj]

theorem LoopSolved.mem (reg : lay.Regular) (found : lay.loops[id]? = some l)
    (h : LoopSolved lay r lo id l entering run ctx seeds nested inner modified names) (hu : u ∈ l.body) : u ∈ nested :=
  h.all ((Region.inside_ofLoop reg found).mpr ((reg.natural found).body.mp hu))

/-- The visits of the statements of a loop, seen from the walk that passes it. -/
theorem LoopSolved.solvesAt_pass (reg : lay.Regular) (hr : region.Walked lay)
    (sched : Sched lay region start done w (l.head :: queue) pending postponed) (hc : ctx.Sound) (e : ctx.Extends ctx')
    (ext : r.Extends ctx.symbols) (since : lo ≤ ctx.symbols.size) (found : lay.loops[id]? = some l)
    (innerHead : region.Inner lay l.head) (ins : Startable r ctx (w.inputs.get l.head))
    (h : LoopSolved lay r ctx.symbols.size id l (w.inputs.get l.head) run ctx' seeds nested inner modified names)
    {j : Nat} (hj : j ∈ l.body) : SolvesAt lay region r lo start (passed lay region w id l run).1 ctx' j
      (visitsPast l (w.inputs.get l.head) modified names ctx.symbols.size inner visit j) := by
  have natural := reg.natural found
  have recorded := h.complete.outputs_ne reg found
  by_cases head : j = l.head
  · subst head
    rw [visitsPast_head]
    refine ⟨?_, since, h.solves.until_ l.head (h.mem reg found hj), fun own => ?_, fun own => ?_, fun headless => ?_⟩
    · rw [outputs_passed_of_mem recorded hj]
      exact h.head reg found ext.size_le fun s hs => (State.Settled.of_valid hc (ins.valid s hs)).later e
    · rw [sched.frame_pass reg hr found innerHead (.inr rfl) own]
      rfl
    · rw [innerHead.2.2] at own
      cases own
    · exact absurd natural.head (reg.headedBy_none.mp headless)
  · have visit := h.solves.each (h.mem reg found hj)
    rw [visitsPast_body head hj]
    refine ⟨?_, Nat.le_trans since visit.since, visit.until_, fun _ => ?_, fun own => ?_, visit.plain⟩
    · rw [outputs_passed_of_mem recorded hj]
      exact visit.visited
    · rw [sched.inputs_nested reg hr found innerHead hj head]
      exact visit.arrived (decide_eq_false head)
    · have notRoot := ((sched.untouched reg hr found innerHead).2 j hj head).1
      rw [Region.notOwn_of_ne notRoot] at own
      cases own

/-- Forward along an edge the counts of symbols grow, also into a loop that is passed and inside it. -/
theorem LoopSolved.order_pass (reg : lay.Regular) (hr : region.Walked lay)
    (sched : Sched lay region start done w (l.head :: queue) pending postponed)
    (solves : Solves lay region r lo start done w ctx visit) (found : lay.loops[id]? = some l)
    (innerHead : region.Inner lay l.head)
    (h : LoopSolved lay r ctx.symbols.size id l entering run ctx' seeds nested inner modified names)
    (old : ∀ j ∈ done, visitsPast l entering modified names ctx.symbols.size inner visit j = visit j)
    {j : Nat} (hu : u ∈ done ++ l.body) (hj : j ∈ done ++ l.body) (s : lay.flow.Forward u j) :
    (visitsPast l entering modified names ctx.symbols.size inner visit u).exit ≤
      (visitsPast l entering modified names ctx.symbols.size inner visit j).arrival := by
  have natural := reg.natural found
  rcases List.mem_append.mp hj with hj | hj
  · -- To a statement that was done before: so was its predecessor.
    have hu : u ∈ done := by
      rcases List.mem_append.mp hu with hu | hu
      · exact hu
      · exact sched.closed hj s (hr.inner_inside reg innerHead (natural.body.mp hu))
    rw [old u hu, old j hj]
    exact solves.order u hu j hj s
  · by_cases head : j = l.head
    · -- Into the loop.
      have hu : u ∈ done := by
        refine (List.mem_append.mp hu).resolve_right fun hu => s.2 ?_
        rw [head]
        exact (natural.body.mp hu).dominated
      rw [old u hu, head, visitsPast_head]
      exact solves.until_ u hu
    · -- Inside the loop.
      have live : lay.flow.Live u := by
        rcases List.mem_append.mp hu with hu | hu
        · exact (sched.inside hu).1
        · exact (natural.body.mp hu).1
      have hub : u ∈ l.body := natural.body.mpr ((natural.body.mp hj).pred head s.1 live)
      have order := h.solves.order u (h.mem reg found hub) j (h.mem reg found hj) s
      rw [visitsPast_body head hj]
      by_cases headU : u = l.head
      · rw [headU] at order ⊢
        rw [visitsPast_head]
        exact order
      · rw [visitsPast_body headU hub]
        exact order

/-- What comes back to the head of a loop inside, or to that of the loop itself. -/
theorem LoopSolved.back_pass (reg : lay.Regular) (found : lay.loops[id]? = some l)
    (h : LoopSolved lay r lo id l entering run ctx seeds nested inner modified names) {k : Nat} {b : State}
    (hk : k ∈ l.body) (back : lay.flow.BackEdge u k) (hb : b ∈ along lay run.walk.outputs u k) :
    ComesBack ctx (visitsPast l entering modified names lo inner visit k).seeds
      (visitsPast l entering modified names lo inner visit k).modified b := by
  have natural := reg.natural found
  by_cases head : k = l.head
  · subst head
    have own : (inner l.head).seeds = seeds := h.solves.own l.head (h.mem reg found hk) (decide_eq_true rfl)
    rw [visitsPast_head]
    show ComesBack ctx (inner l.head).seeds modified b
    rw [own]
    exact h.back u back b hb
  · rw [visitsPast_body head hk]
    have innerK : (Region.ofLoop id l).Inner lay k :=
      ⟨back.inLoop.head, (Region.inside_ofLoop reg found).mpr (natural.body.mp hk), decide_eq_false head⟩
    exact h.solves.back k (h.mem reg found hk) innerK u back b hb

/-- Passing a loop adds the visits its own walk made, and one to its head. -/
theorem Solves.pass (tame : lay.Tame) (hr : region.Walked lay)
    (sched : Sched lay region start done w (l.head :: queue) pending postponed)
    (solves : Solves lay region r lo start done w ctx visit) (hc : ctx.Sound) (e : ctx.Extends ctx')
    (ext : r.Extends ctx.symbols) (since : lo ≤ ctx.symbols.size) (found : lay.loops[id]? = some l)
    (innerHead : region.Inner lay l.head) (ins : Startable r ctx (w.inputs.get l.head))
    (h : LoopSolved lay r ctx.symbols.size id l (w.inputs.get l.head) run ctx' seeds nested inner modified names) :
    Solves lay region r lo start (done ++ l.body) (passed lay region w id l run).1 ctx'
      (visitsPast l (w.inputs.get l.head) modified names ctx.symbols.size inner visit) := by
  have reg := tame.toRegular
  have natural := reg.natural found
  have disjoint := (sched.untouched reg hr found innerHead).1
  have recorded := h.complete.outputs_ne reg found
  have notBody : ∀ j ∈ done, j ∉ l.body := fun j hj hb => disjoint j hb hj
  have old :
    ∀ j ∈ done, visitsPast l (w.inputs.get l.head) modified names ctx.symbols.size inner visit j = visit j := by
    intro j hj
    refine visitsPast_other ?_ (notBody j hj)
    rintro rfl
    exact notBody l.head hj (natural.body.mpr natural.head)
  have outputs : ∀ j ∈ done, (passed lay region w id l run).1.outputs.get j = w.outputs.get j := fun j hj =>
    outputs_passed_of_not_mem recorded (notBody j hj)
  refine .of_each (fun j hj => ?_) (fun u hu j hj s => h.order_pass reg hr sched solves found innerHead old hu hj s)
    fun k hk innerK u back b hb => ?_
  · rcases List.mem_append.mp hj with hj | hj
    · rw [old j hj]
      exact (solves.each hj).later hc e (outputs j hj) fun own => sched.frame_pass reg hr found innerHead (.inl hj) own
    · exact h.solvesAt_pass reg hr sched hc e ext since found innerHead ins hj
  · rcases List.mem_append.mp hk with hk | hk
    · rw [old k hk]
      exact solves.back_later sched.toRecord hc e outputs hk innerK back hb
    · have hu : u ∈ l.body := natural.body.mpr ((natural.body.mp hk).trans back.inLoop)
      rw [along_congr (outputs_passed_of_mem recorded hu)] at hb
      exact h.back_pass reg found hk back hb

end Pass

/-! ## Invariants of a walk -/

variable {summarise : Nat → List State → ContextM LoopRun}

/-- What every turn keeps, where taking a statement may fail as `F` allows. The first statement of the queue is
skipped if the walk stops there, if it was carried out before, or if the walk has stalled and nothing has arrived. -/
structure TurnInvariant (lay : Layout) (region : Region) (summarise : Nat → List State → ContextM LoopRun)
    (F : Failure → Prop) (J : Config → Prop) : Prop where
  sound : ∀ {c}, J c → c.context.Sound
  skip : ∀ {w i queue pending postponed ctx} (postponed' : Nat), J ⟨w, i :: queue, pending, postponed, ctx⟩ →
    (region.stops.contains i = true ∨ i ∉ pending ∨ ¬ postponed ≤ queue.length ∧ (w.inputs.get i).length = 0) →
    J ⟨w, queue, pending, postponed', ctx⟩
  postpone : ∀ {w i queue pending postponed ctx}, J ⟨w, i :: queue, pending, postponed, ctx⟩ →
    Waiting lay region w i → postponed ≤ queue.length → J ⟨w, queue ++ [i], pending, postponed + 1, ctx⟩
  take : ∀ {w i queue pending postponed ctx}, J ⟨w, i :: queue, pending, postponed, ctx⟩ → i ∈ pending →
    (¬ Waiting lay region w i ∨ (¬ postponed ≤ queue.length ∧ (w.inputs.get i).length ≠ 0)) →
    Attempts F (take lay region summarise w i) ctx fun p ctx' =>
      J ⟨p.1, enqueue region queue p.2, pending.erase i, 0, ctx'⟩

namespace TurnInvariant

variable {F : Failure → Prop} {J : Config → Prop} {c c' : Config} (inv : TurnInvariant lay region summarise F J)

include inv

theorem turn (h : J c) (t : Turn lay region summarise c c') : c.context.Extends c'.context ∧ J c' := by
  cases t with
  | discard stop => exact ⟨.refl _, inv.skip _ h (.inl stop)⟩
  | late _ carriedOut => exact ⟨.refl _, inv.skip _ h (.inr (.inl carriedOut))⟩
  | postpone _ _ waits room => exact ⟨.refl _, inv.postpone h waits room⟩
  | drop _ _ _ stalled nothing => exact ⟨.refl _, inv.skip _ h (.inr (.inr ⟨stalled, nothing⟩))⟩
  | take _ open_ due taken =>
    obtain ⟨e, _, h'⟩ := (inv.take h open_ due).of_returns taken
    exact ⟨e, h'⟩

theorem stuck {e : Failure} {ctx : Context} (h : J c) (s : Stuck lay region summarise c e ctx) : F e := by
  cases s with
  | take _ open_ due failed =>
    rcases inv.take h open_ due with ⟨_, _, returned, _⟩ | ⟨_, _, failed', allowed⟩
    · cases failed.symm.trans returned
    · cases failed.symm.trans failed'
      exact allowed

/-- A run ends in an allowed failure, or with an empty queue where the invariant of its turns holds. -/
theorem run (h : J ⟨w, queue, pending, postponed, ctx⟩) :
    Attempts F (run lay region summarise w queue pending postponed) ctx fun w' ctx' =>
      ∃ pending' postponed', J ⟨w', [], pending', postponed', ctx'⟩ := by
  generalize begun : (⟨w, queue, pending, postponed, ctx⟩ : Config) = c at h
  suffices all : (∃ w' pending' postponed' ctx', c.run lay region summarise = (.ok w', ctx') ∧
      c.context.Extends ctx' ∧ J ⟨w', [], pending', postponed', ctx'⟩) ∨
      ∃ e ctx', c.run lay region summarise = (.error e, ctx') ∧ F e by
    subst begun
    rcases all with ⟨w', pending', postponed', ctx', returned, e, h'⟩ | failed
    · exact .inl ⟨w', ctx', returned, e, inv.sound h', pending', postponed', h'⟩
    · exact .inr failed
  clear begun
  have wf : WellFounded fun c' c : Config => Turn lay region summarise c c' := turn_wf
  induction c using wf.induction with
  | h c ih =>
    by_cases none : c.queue = []
    · obtain ⟨w, queue, pending, postponed, ctx⟩ := c
      subst none
      refine .inl ⟨w, pending, postponed, ctx, ?_, .refl ctx, h⟩
      unfold Config.run
      dsimp only
      rw [Walk.run]
      rfl
    · rcases turn_or_stuck c none with ⟨c', t⟩ | ⟨e, ctx', s⟩
      · rw [run_turn t]
        obtain ⟨e, h'⟩ := inv.turn h t
        rcases ih c' t h' with ⟨w', pending', postponed', ctx', returned, e', h''⟩ | failed
        · exact .inl ⟨w', pending', postponed', ctx', returned, e.trans e', h''⟩
        · exact .inr failed
      · exact .inr ⟨e, ctx', run_stuck s, inv.stuck h s⟩

end TurnInvariant

/-! ## The whole walk -/

def SolvesLoops (lay : Layout) (region : Region) (r : Registry)
    (summarise : Nat → List State → ContextM LoopRun) : Prop :=
  ∀ {id l states ctx}, lay.loops[id]? = some l → region.Inner lay l.head → ctx.Sound → r.Extends ctx.symbols →
    Startable r ctx states → Yields (summarise id states) ctx (Solved lay r ctx.symbols.size id l states)

def Through (lay : Layout) (region : Region) (r : Registry) (lo : Nat) (start : List State) (w : Walk)
    (ctx : Context) : Prop :=
  ∃ done visit, Record lay region start done w ∧ (∀ {n}, region.Inside lay n → n ∈ done) ∧
    Solves lay region r lo start done w ctx visit

/-- A turn in which a statement is taken. -/
theorem take_yields (tame : lay.Tame) (hr : region.Walked lay) (sup : Supports lay r)
    (loops : SolvesLoops lay region r summarise) {visit : Nat → Visit}
    (sched : Sched lay region start done w (i :: queue) pending postponed)
    (solves : Solves lay region r lo start done w ctx visit) (hc : ctx.Sound) (ext : r.Extends ctx.symbols)
    (since : lo ≤ ctx.symbols.size) (begin_ : Startable r ctx start) (ready : ¬ Waiting lay region w i) :
    Yields (take lay region summarise w i) ctx fun p ctx' => ∃ done' visit',
      Sched lay region start done' p.1 (enqueue region queue p.2) (pending.erase i) 0 ∧
        Solves lay region r lo start done' p.1 ctx' visit' := by
  have reg := tame.toRegular
  obtain ⟨inside, _, _⟩ := sched.queued.mp List.mem_cons_self
  have ins := solves.startable tame hr sched begin_
  unfold take
  cases pass : loopToPass? lay region i with
  | none =>
    refine (step_yields sup hc ext inside.1 ins).mono ?_
    rintro _ ctx' e hc' ⟨stmt, unknowns, outs, here, out, executes, rfl⟩
    refine ⟨_, _, sched.step tame hr ready pass executes fun some => ?_,
      solves.step tame hr sched hc hc' e ext since pass here ins out⟩
    have pos := List.length_pos_of_ne_nil some
    rw [out.length]
    omega
  | some id =>
    obtain ⟨l, found, rfl, innerHead⟩ := Region.loopToPass?_some reg inside pass
    obtain ⟨run, ctx', returns, e, hc', seeds, nested, inner, modified, names, solved⟩ :=
      loops found innerHead hc ext ins
    have solves' := solves.pass tame hr sched hc e ext since found innerHead ins solved
    exact ⟨passed lay region w id l run, ctx', returns_passLoop.mpr ⟨l, run, found, returns, rfl⟩, e, hc', _, _,
      sched.pass tame hr ready pass found solved.complete, solves'⟩

structure Solving (lay : Layout) (region : Region) (r : Registry) (lo : Nat) (start : List State) (c : Config) :
    Prop where
  sound : c.context.Sound
  ext : r.Extends c.context.symbols
  since : lo ≤ c.context.symbols.size
  begun : Startable r c.context start
  solves : ∃ done visit, c.Sched lay region start done ∧ Solves lay region r lo start done c.walk c.context visit

/-- Every turn of a walk over supported statements succeeds and keeps the visits solved. -/
theorem solving_invariant (tame : lay.Tame) (hr : region.Walked lay) (unstopped : region.stops = [])
    (sup : Supports lay r) (loops : SolvesLoops lay region r summarise) :
    TurnInvariant lay region summarise (fun _ => False) (Solving lay region r lo start) := by
  refine ⟨fun h => h.sound, ?_, ?_, ?_⟩
  · intro w i queue pending postponed ctx _ h skipped
    obtain ⟨done, visit, sched, _⟩ := h.solves
    rcases skipped with stop | carriedOut | ⟨stalled, _⟩
    · rw [unstopped] at stop
      cases stop
    · exact absurd sched.head_pending carriedOut
    · exact absurd (sched.not_stalled tame hr) stalled
  · intro w i queue pending postponed ctx h waits room
    obtain ⟨done, visit, sched, solves⟩ := h.solves
    exact ⟨h.sound, h.ext, h.since, h.begun, done, visit, sched.postpone waits room, solves⟩
  · intro w i queue pending postponed ctx h _ due
    obtain ⟨done, visit, sched, solves⟩ := h.solves
    have ready := due.resolve_right fun stalled => stalled.1 (sched.not_stalled tame hr)
    refine .inl ((take_yields tame hr sup loops sched solves h.sound h.ext h.since h.begun ready).mono ?_)
    intro p ctx' e hc' solves'
    exact ⟨hc', h.ext.trans e.symbols, Nat.le_trans h.since e.symbols.size_le, h.begun.extends e, solves'⟩

/-- A walk returns, and every live statement of its region has been visited. -/
theorem through_solves (tame : lay.Tame) (hr : region.Walked lay) (unstopped : region.stops = [])
    (sup : Supports lay r) (loops : SolvesLoops lay region r summarise) (hc : ctx.Sound) (ext : r.Extends ctx.symbols)
    (begin_ : Startable r ctx start) :
    Yields (through lay region summarise start) ctx (Through lay region r ctx.symbols.size start) := by
  have nothing : Solves lay region r ctx.symbols.size start [] (.start region.root start) ctx
      fun _ => ⟨[], [], [], [], ⟨⟨0⟩, ⟨0⟩⟩, 0, 0, 0⟩ := ⟨nofun, nofun, nofun, nofun, nofun, nofun, nofun, nofun⟩
  have begun : Solving lay region r ctx.symbols.size start
      ⟨.start region.root start, [region.root], lay.flow.positions, 0, ctx⟩ :=
    ⟨hc, ext, Nat.le_refl _, begin_, [], _, Sched.start_sched tame.toRegular hr start, nothing⟩
  refine ((solving_invariant tame hr unstopped sup loops).run begun).yields.mono fun w ctx' _ _ ended => ?_
  obtain ⟨_, _, solving⟩ := ended
  obtain ⟨done, visit, sched, solves⟩ := solving.solves
  refine ⟨done, visit, sched.toRecord, fun {n} inside => ?_, solves⟩
  by_contra left
  obtain ⟨_, hi, _⟩ := sched.exists_ready tame hr ⟨n, inside, left⟩
  cases hi

end Walk

end PathMerge
