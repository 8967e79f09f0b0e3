/-
  PathMerge.Proofs.NothingLost — every state reaches the statement it is meant for.

  A walk is made over the whole method, and over the body of a loop for every pass over it. On a method
  whose live part is reducible and is not entered from dead code, no such walk ever has a statement in its
  queue that it has carried out, none stalls, and whatever statement it takes that heads no loop has one
  state for each edge that leads to it (`walks_lose_no_state`).

  The condition on dead code is needed: a statement that waits for a state from dead code waits in vain,
  the walk stalls, and what is taken then may still be short of a state that arrives later
  (`dead_code_loses_a_state`).
-/

import PathMerge.Proofs.Created

namespace PathMerge

open Relation PathMerge.Flow

namespace Walk

variable {lay : Layout} {region : Region} {summarise : Nat → List State → ContextM LoopRun} {start : List State}
  {done : List Nat} {w : Walk} {i n u : Nat}

/-- The walks that are made: one over the method, and passes over the bodies of loops. -/
inductive Instance (lay : Layout) : Region → (Nat → List State → ContextM LoopRun) → List State → Prop
  | method : Instance lay (.whole []) (Walk.summarise lay lay.loops.size) [.initial]
  | pass {id : Nat} {l : Loop} (found : lay.loops[id]? = some l) (nesting : Nat) (seeds : List State) :
      Instance lay (.ofLoop id l) (Walk.summarise lay nesting) seeds

def incoming (lay : Layout) (outputs : StateMap) (n : Nat) : List State :=
  lay.flow.positions.flatMap fun u => along lay outputs u n

/-- The statement at `n` has, beside the states the walk started with there, one for each edge to it. -/
structure Supplied (lay : Layout) (region : Region) (start : List State) (w : Walk) (n : Nat) : Prop where
  states : (w.inputs.get n).Perm ((if n = region.root then start else []) ++ incoming lay w.outputs n)
  each : (incoming lay w.outputs n).length = (lay.flow.preds n).length

/-- Nothing in the queue has been carried out, the walk can go on, and what it takes is supplied. -/
structure Config.InOrder (lay : Layout) (region : Region) (start : List State) (c : Config) : Prop where
  open_ : ∀ i ∈ c.queue, i ∈ c.pending
  moving : ∀ {i queue}, c.queue = i :: queue → c.postponed ≤ queue.length
  supplied : ∀ {i queue}, c.queue = i :: queue → ¬ Waiting lay region c.walk i → lay.loopHeadedBy? i = none →
    Supplied lay region start c.walk i

/-! ## One state for each edge -/

/-- To a statement that heads no loop all edges are forward. -/
theorem forward_of_edge (reg : lay.Regular) (plain : lay.loopHeadedBy? n = none) (s : lay.flow.Edge u n) :
    lay.flow.Forward u n :=
  (forward_iff s).mpr fun m => reg.headedBy_none.mp plain m.head

/-- A plain statement gets states from inside the region only. -/
theorem inside_of_edge (tame : lay.Tame) (hr : region.Walked lay) (m : region.Inside lay n)
    (plain : lay.loopHeadedBy? n = none) (s : lay.flow.Edge u n) : region.Inside lay u := by
  have live := tame.closed u n s m.1
  by_cases e : n = region.root
  · cases hr with
    | whole => exact Region.inside_whole.mpr live
    | loop found =>
      subst e
      exact absurd (tame.natural found).head (tame.headedBy_none.mp plain)
  · exact hr.inside_pred tame.toRegular m e s live

/-- Once everything before a statement is done, the statement has one state for each edge to it. -/
theorem Record.supplied (tame : lay.Tame) (hr : region.Walked lay) (rec : Record lay region start done w)
    (m : region.Inside lay n) (plain : lay.loopHeadedBy? n = none)
    (all : ∀ {u}, lay.flow.Forward u n → region.Inside lay u → u ∈ done) : Supplied lay region start w n := by
  have reg := tame.toRegular
  have source : ∀ {u}, lay.flow.Edge u n → u ∈ done := fun s =>
    all (forward_of_edge reg plain s) (inside_of_edge tame hr m plain s)
  have open_ : ∀ u, lay.loopClosedBy? u n = none := fun u =>
    reg.closedBy_none.mpr fun m => reg.headedBy_none.mp plain m.head
  have same : (arrivals lay region w.outputs done n).Perm (incoming lay w.outputs n) := by
    have kept_eq : kept lay region w.outputs n = fun u => along lay w.outputs u n := by
      funext u
      unfold kept keeps
      rw [open_ u]
      rfl
    unfold incoming arrivals
    rw [kept_eq]
    refine (flatMap_perm_of_subset List.nodup_range rec.nodup (fun u hu => ?_) fun u _ no => ?_).symm
    · exact List.mem_range.mpr ((rec.inside hu).1.lt reg.filled)
    · exact along_eq_nil fun s => no (source s)
  refine ⟨?_, ?_⟩
  · obtain ⟨b, inputs, perm⟩ := rec.arrived m
    rw [inputs]
    exact (List.Perm.refl _).append (perm.trans same)
  · rw [← same.length_eq, Walk.length_arrivals rec.nodup (fun _ hu => (rec.inside hu).1.lt reg.filled) rec.fits ?_]
    · refine congrArg List.length ?_
      unfold entries
      rw [List.filter_filter, List.filter_eq_self]
      intro u hu
      simp [open_ u, source (mem_preds.mp hu)]
    · intro u _
      unfold keeps
      rw [open_ u]
      rfl

theorem Sched.inOrder (tame : lay.Tame) (hr : region.Walked lay) {c : Config}
    (sched : c.Sched lay region start done) : c.InOrder lay region start := by
  obtain ⟨w, queue, pending, postponed, ctx⟩ := c
  refine ⟨fun i hi => ?_, fun {i queue} e => ?_, fun {i queue} e ready plain => ?_⟩
  · obtain ⟨m, notDone, _⟩ := sched.queued.mp hi
    exact sched.pending m notDone
  · cases e
    exact sched.not_stalled tame hr
  · cases e
    obtain ⟨m, _, _⟩ := sched.queued.mp List.mem_cons_self
    exact sched.supplied tame hr m plain fun s hu => sched.ready_closed tame.toRegular hr m ready s hu

theorem Instance.walked (h : Instance lay region summarise start) : region.Walked lay := by
  cases h with
  | method => exact .whole []
  | pass found => exact .loop found

theorem Instance.unstopped (h : Instance lay region summarise start) : region.stops = [] := by
  cases h <;> rfl

theorem Instance.summarises (tame : lay.Tame) (h : Instance lay region summarise start) :
    Summarises lay summarise := by
  cases h <;> exact summarise_complete tame _

/-- A walk over a tame layout is in order all along. -/
theorem Instance.inOrder (tame : lay.Tame) (h : Instance lay region summarise start) {ctx : Context} {c : Config}
    (turns : ReflTransGen (Turn lay region summarise) (Config.initial lay region start ctx) c) :
    c.InOrder lay region start := by
  have first := Sched.start_sched tame.toRegular h.walked start
  obtain ⟨_, sched⟩ :=
    Sched.turns (c := Config.initial lay region start ctx) tame h.walked h.unstopped (h.summarises tame) first turns
  exact sched.inOrder tame h.walked

end Walk

open Walk

/-- No state is lost. Whatever a method does, as long as its live part is reducible and is not entered from dead
code: every walk is in order at every turn, and in an execution that returns every live statement that heads no loop
has been carried out on one state for each edge that leads to it. -/
theorem walks_lose_no_state {m : Method} {settings : Settings} {a : Analysis}
    (created : Analysis.create m settings = .ok a) (unstopped : settings.stops = [])
    (reducible : a.layout.flow.Reducible) (closed : a.layout.flow.Sealed) :
    (∀ {region summarise start}, Instance a.layout region summarise start → ∀ {ctx c},
      ReflTransGen (Turn a.layout region summarise) (Config.initial a.layout region start ctx) c →
        c.InOrder a.layout region start) ∧
    ∀ {a'}, a.execute = .ok a' → ∃ w, a'.walk? = some w ∧ ∀ i, a.layout.flow.Live i →
      a.layout.loopHeadedBy? i = none → Supplied a.layout (.whole []) [.initial] w i ∧
        Executes a.layout i (w.inputs.get i) (w.outputs.get i) := by
  have made := Analysis.created_of_create created
  have tame : a.layout.Tame := ⟨made.regular, reducible, closed⟩
  refine ⟨fun h _ _ turns => h.inOrder tame turns, fun {a'} executed => ?_⟩
  obtain ⟨w, ctx, walked, rfl⟩ := (Analysis.execute_ok made.unexecuted).mp executed
  rw [made.settings_eq, unstopped] at walked
  obtain ⟨done, rec, all⟩ := complete_of_through tame (.whole []) rfl (summarise_complete tame _) walked
  refine ⟨w, rfl, fun i live plain => ?_⟩
  have inside : (Region.whole []).Inside a.layout i := Region.inside_whole.mpr live
  exact ⟨rec.supplied tame (.whole []) inside plain fun _ hu => all hu, rec.ran (all inside) plain⟩

/-- Counts up to its parameter. The last statement is dead. -/
def countingMethod : Method where
  owner := "Counter"
  name := "count"
  params := [("n", .int)]
  locals := [("x", .int)]
  result? := some .int
  body := [
    .assign "x" (.use (.int 0)),
    .branch ⟨.ge, .var "x", .var "n"⟩ 4,
    .assign "x" (.binary .add (.var "x") (.int 1)),
    .jump 1,
    .ret (some (.var "x")),
    .jump 5]

def executesTamely (m : Method) (settings : Settings) : Bool :=
  match Analysis.create m settings with
  | .ok a => a.layout.flow.climbs && a.layout.flow.isSealed && a.execute.toBool
  | .error _ => false

theorem of_executesTamely {m : Method} {settings : Settings} (h : executesTamely m settings = true) :
    ∃ a a', Analysis.create m settings = .ok a ∧ a.layout.flow.Reducible ∧ a.layout.flow.Sealed ∧
      a.execute = .ok a' := by
  unfold executesTamely at h
  split at h
  · rename_i a created
    rw [Bool.and_eq_true, Bool.and_eq_true] at h
    have some := (Analysis.created_of_create created).regular.filled
    cases executed : a.execute with
    | error e =>
      rw [executed] at h
      cases h.2
    | ok a' => exact ⟨a, a', created, reducible_of_climbs some h.1.1, sealed_of_isSealed some h.1.2, executed⟩
  · cases h

theorem walks_lose_no_state_counting :
    ∃ a a' w, Analysis.create countingMethod ⟨4, []⟩ = .ok a ∧ a.execute = .ok a' ∧ a'.walk? = some w ∧
      ∀ i, a.layout.flow.Live i → a.layout.loopHeadedBy? i = none →
        Supplied a.layout (.whole []) [.initial] w i ∧ Executes a.layout i (w.inputs.get i) (w.outputs.get i) := by
  have runs : executesTamely countingMethod ⟨4, []⟩ = true := by cbv
  obtain ⟨a, a', created, reducible, closed, executed⟩ := of_executesTamely runs
  obtain ⟨w, walked, supplied⟩ := (walks_lose_no_state created rfl reducible closed).2 executed
  exact ⟨a, a', w, created, executed, walked, supplied⟩

/-- Returns whatever its parameter is, from the branch taken when it is not zero and through a jump when it is. The
last statement is dead, and leads to that jump. -/
def methodEnteredFromDeadCode : Method where
  owner := "Counter"
  name := "skip"
  params := [("x", .int)]
  locals := []
  result? := none
  body := [.branch ⟨.eq, .var "x", .int 0⟩ 3, .skip, .ret none, .jump 1, .jump 3]

/-- Whether after some turns the walk over a method comes to `i`, which it has carried out on less than it has got. -/
def comesLate (m : Method) (settings : Settings) (turns i : Nat) : Bool :=
  match Analysis.create m settings with
  | .ok a =>
    match a.execute, (Config.initial a.layout (.whole []) [.initial] a.context).after a.layout (.whole [])
        (Walk.summarise a.layout a.layout.loops.size) turns with
    | .ok a', some c => a.layout.flow.climbs && c.queue.head? == some i && !c.pending.contains i &&
        (c.walk.inputs.get i).length == 2 && (a'.outputs i).map (·.path.items.length) == [1]
    | _, _ => false
  | .error _ => false

/-- The jump waits for a state from dead code, so the statement behind it is taken without the state for zero. When
that state arrives the statement has been carried out: the walk is not in order, though the graph is reducible, and
what the statement results in keeps the constraint that the parameter is not zero. -/
theorem dead_code_loses_a_state :
    ∃ a a' c, Analysis.create methodEnteredFromDeadCode ⟨4, []⟩ = .ok a ∧ a.layout.flow.Reducible ∧
      ReflTransGen (Turn a.layout (.whole []) (Walk.summarise a.layout a.layout.loops.size))
        (Config.initial a.layout (.whole []) [.initial] a.context) c ∧
      c.queue.head? = some 1 ∧ 1 ∉ c.pending ∧ (c.walk.inputs.get 1).length = 2 ∧
      ¬ c.InOrder a.layout (.whole []) [.initial] ∧
      a.execute = .ok a' ∧ (a'.outputs 1).map (·.path.items.length) = [1] := by
  have late : comesLate methodEnteredFromDeadCode ⟨4, []⟩ 8 1 = true := by cbv
  unfold comesLate at late
  split at late
  · rename_i a created
    split at late
    · rename_i a' c executed after
      simp only [Bool.and_eq_true, beq_iff_eq, Bool.not_eq_true', List.contains_eq_mem, decide_eq_false_iff_not] at late
      obtain ⟨⟨⟨⟨climbs, head⟩, carriedOut⟩, inputs⟩, outputs⟩ := late
      have some := (Analysis.created_of_create created).regular.filled
      refine ⟨a, a', c, created, reducible_of_climbs some climbs, turns_of_after after, head, carriedOut, inputs,
        fun ordered => ?_, executed, outputs⟩
      obtain ⟨queue, first⟩ := List.head?_eq_some_iff.mp head
      exact carriedOut (ordered.open_ 1 (first ▸ List.mem_cons_self))
    · cases late
  · cases late

end PathMerge
