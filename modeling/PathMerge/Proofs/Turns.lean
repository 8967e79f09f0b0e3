/-
  PathMerge.Proofs.Turns — a walk, turn by turn.

  In one turn a walk deals with the first statement of its queue: a statement where it is to stop is
  discarded, one that was carried out before comes too late and is ignored, one that waits is put back or,
  if everything waits, dropped or taken with what it has, and one that is ready is taken. `Turn` lists these;
  `run_turn` and `turn_or_stuck` say that a walk is such turns, one after the other, until its queue is empty
  or it fails. There is no endless sequence of turns (`turn_wf`). Whether a walk also stops where it has been makes
  no difference (`run_stoppingAt`).

  The passes over a loop end when nothing comes back that is not known to be modified (`stable_of_passes`).

  On a tame layout a statement is never late and a walk never stalls (`Sched.turn`), be it over the whole
  method or over the body of a loop, and a walk that is through is complete (`complete_of_through`).
-/

import PathMerge.Analysis
import PathMerge.Proofs.Schedule

namespace PathMerge

open Relation PathMerge.Flow

theorem ContextM.returns_ofExcept {α : Type} {e : Except Failure α} {ctx ctx' : Context} {a : α} :
    Returns (ContextM.ofExcept e) ctx a ctx' ↔ e = .ok a ∧ ctx = ctx' := by
  cases e with
  | error f =>
    constructor
    · intro h
      cases h
    · rintro ⟨h, _⟩
      cases h
  | ok b =>
    constructor
    · intro h
      cases h
      exact ⟨rfl, rfl⟩
    · rintro ⟨h, rfl⟩
      cases h
      rfl

namespace Walk

variable {lay : Layout} {region : Region} {summarise : Nat → List State → ContextM LoopRun}

/-! ## Carrying out a statement -/

/-- A step carries out the statement and records one state for each outgoing edge. -/
theorem returns_step {w : Walk} {i : Nat} {ctx ctx' : Context} {r : Walk × List Nat} :
    Returns (step lay region w i) ctx r ctx' ↔
      ∃ outs, Returns (carryOut lay i (w.inputs.get i)) ctx outs ctx' ∧
        (lay.flow.succs i ≠ [] → outs.length = (lay.flow.succs i).length) ∧ r = recorded lay region w i outs := by
  have mismatch :
    ∀ outs : List State, (!(lay.flow.succs i).isEmpty && decide (outs.length ≠ (lay.flow.succs i).length)) = true
      ↔ ¬ (lay.flow.succs i ≠ [] → outs.length = (lay.flow.succs i).length) := by
    intro outs
    simp
  unfold step
  constructor
  · intro h
    obtain ⟨stmt, ctx₁, h₁, h⟩ := returns_of_bind h
    obtain ⟨rule, ctx₂, h₂, h⟩ := returns_of_bind h
    obtain ⟨raw, ctx₃, h₃, h⟩ := returns_of_bind h
    obtain ⟨outs, ctx₄, h₄, h⟩ := returns_of_bind h
    dsimp only at h
    split at h
    · cases h
    · rename_i fits
      rw [mismatch, not_not] at fits
      cases h
      exact ⟨outs, returns_bind h₁ (returns_bind h₂ (returns_bind h₃ h₄)), fits, rfl⟩
  · rintro ⟨outs, h, fits, rfl⟩
    unfold carryOut at h
    obtain ⟨stmt, ctx₁, h₁, h⟩ := returns_of_bind h
    obtain ⟨rule, ctx₂, h₂, h⟩ := returns_of_bind h
    obtain ⟨raw, ctx₃, h₃, h₄⟩ := returns_of_bind h
    refine returns_bind h₁ (returns_bind h₂ (returns_bind h₃ (returns_bind h₄ ?_)))
    dsimp only
    rw [if_neg fun no => (mismatch outs).mp no fits]
    exact returns_pure _ _

/-- A statement that cannot be carried out stops the walk. -/
theorem step_fails {w : Walk} {i : Nat} {ctx ctx' : Context} {e : Failure}
    (h : Fails (carryOut lay i (w.inputs.get i)) ctx e ctx') : Fails (step lay region w i) ctx e ctx' := by
  unfold step
  refine h.goOn fun stmt _ h => h.goOn fun rule _ h => h.goOn fun raw _ h => fails_bind_left h

theorem returns_passLoop {w : Walk} {id : Nat} {ctx ctx' : Context} {r : Walk × List Nat} :
    Returns (passLoop lay region summarise w id) ctx r ctx' ↔
      ∃ l run, lay.loops[id]? = some l ∧ Returns (summarise id (w.inputs.get l.head)) ctx run ctx' ∧
        r = passed lay region w id l run := by
  unfold passLoop
  constructor
  · intro h
    obtain ⟨l, ctx₁, h₁, h⟩ := returns_of_bind h
    obtain ⟨found, rfl⟩ := ContextM.returns_ofExcept.mp h₁
    obtain ⟨run, ctx₂, h₂, h⟩ := returns_of_bind h
    cases h
    exact ⟨l, run, Layout.getLoop_eq_ok.mp found, h₂, rfl⟩
  · rintro ⟨l, run, found, h, rfl⟩
    refine returns_bind (ContextM.returns_ofExcept.mpr ⟨Layout.getLoop_eq_ok.mpr found, rfl⟩) (returns_bind h ?_)
    exact returns_pure _ _

/-! ## Turns -/

structure Config where
  walk : Walk
  queue : List Nat
  pending : List Nat
  postponed : Nat
  context : Context

def Config.initial (lay : Layout) (region : Region) (states : List State) (ctx : Context) : Config :=
  ⟨.start region.root states, [region.root], lay.flow.positions, 0, ctx⟩

def take (lay : Layout) (region : Region) (summarise : Nat → List State → ContextM LoopRun) (w : Walk) (i : Nat) :
    ContextM (Walk × List Nat) :=
  match loopToPass? lay region i with
  | some id => passLoop lay region summarise w id
  | none => step lay region w i

/-- A statement that is neither put back nor dropped is ready, or the walk has stalled and it has some states. -/
theorem due_of_not {w : Walk} {i postponed : Nat} {queue : List Nat}
    (first : ¬ (Waiting lay region w i ∧ postponed ≤ queue.length))
    (second : ¬ (Waiting lay region w i ∧ (w.inputs.get i).length = 0)) :
    ¬ Waiting lay region w i ∨ (¬ postponed ≤ queue.length ∧ (w.inputs.get i).length ≠ 0) := by
  tauto

inductive Turn (lay : Layout) (region : Region) (summarise : Nat → List State → ContextM LoopRun) :
    Config → Config → Prop
  | discard {w : Walk} {i : Nat} {queue pending : List Nat} {postponed : Nat} {ctx : Context}
      (stop : region.stops.contains i = true) :
      Turn lay region summarise ⟨w, i :: queue, pending, postponed, ctx⟩ ⟨w, queue, pending, postponed, ctx⟩
  | late {w : Walk} {i : Nat} {queue pending : List Nat} {postponed : Nat} {ctx : Context}
      (go : ¬ region.stops.contains i = true) (carriedOut : i ∉ pending) :
      Turn lay region summarise ⟨w, i :: queue, pending, postponed, ctx⟩ ⟨w, queue, pending, postponed, ctx⟩
  | postpone {w : Walk} {i : Nat} {queue pending : List Nat} {postponed : Nat} {ctx : Context}
      (go : ¬ region.stops.contains i = true) (open_ : i ∈ pending) (waits : Waiting lay region w i)
      (room : postponed ≤ queue.length) :
      Turn lay region summarise ⟨w, i :: queue, pending, postponed, ctx⟩
        ⟨w, queue ++ [i], pending, postponed + 1, ctx⟩
  | drop {w : Walk} {i : Nat} {queue pending : List Nat} {postponed : Nat} {ctx : Context}
      (go : ¬ region.stops.contains i = true) (open_ : i ∈ pending) (waits : Waiting lay region w i)
      (stalled : ¬ postponed ≤ queue.length) (nothing : (w.inputs.get i).length = 0) :
      Turn lay region summarise ⟨w, i :: queue, pending, postponed, ctx⟩ ⟨w, queue, pending, 0, ctx⟩
  | take {w : Walk} {i : Nat} {queue pending : List Nat} {postponed : Nat} {ctx ctx' : Context}
      {r : Walk × List Nat} (go : ¬ region.stops.contains i = true) (open_ : i ∈ pending)
      (due : ¬ Waiting lay region w i ∨ (¬ postponed ≤ queue.length ∧ (w.inputs.get i).length ≠ 0))
      (taken : Returns (take lay region summarise w i) ctx r ctx') :
      Turn lay region summarise ⟨w, i :: queue, pending, postponed, ctx⟩
        ⟨r.1, enqueue region queue r.2, pending.erase i, 0, ctx'⟩

def Config.next? (lay : Layout) (region : Region) (summarise : Nat → List State → ContextM LoopRun) (c : Config) :
    Option Config :=
  match c with
  | ⟨_, [], _, _, _⟩ => none
  | ⟨w, i :: queue, pending, postponed, ctx⟩ =>
    if region.stops.contains i then some ⟨w, queue, pending, postponed, ctx⟩
    else if i ∈ pending then
      if Waiting lay region w i ∧ postponed ≤ queue.length then some ⟨w, queue ++ [i], pending, postponed + 1, ctx⟩
      else if Waiting lay region w i ∧ (w.inputs.get i).length = 0 then some ⟨w, queue, pending, 0, ctx⟩
      else match (take lay region summarise w i).run.run ctx with
        | (.ok r, ctx) => some ⟨r.1, enqueue region queue r.2, pending.erase i, 0, ctx⟩
        | (.error _, _) => none
    else some ⟨w, queue, pending, postponed, ctx⟩

/-- Whatever the next configuration is, it is reached by one of the kinds of turn. -/
theorem turn_of_next? {c c' : Config} (h : c.next? lay region summarise = some c') :
    Turn lay region summarise c c' := by
  unfold Config.next? at h
  split at h
  · cases h
  · split at h
    · cases h
      exact .discard ‹_›
    split at h
    · split at h
      · rename_i waits
        cases h
        exact .postpone ‹_› ‹_› waits.1 waits.2
      split at h
      · rename_i first nothing
        cases h
        exact .drop ‹_› ‹_› nothing.1 (fun room => first ⟨nothing.1, room⟩) nothing.2
      · rename_i first second
        split at h
        · cases h
          exact .take ‹_› ‹_› (due_of_not first second) ‹_›
        · cases h
    · cases h
      exact .late ‹_› ‹_›

def Config.after (lay : Layout) (region : Region) (summarise : Nat → List State → ContextM LoopRun) (c : Config) :
    Nat → Option Config
  | 0 => some c
  | n + 1 => (c.after lay region summarise n).bind (·.next? lay region summarise)

theorem turns_of_after {c c' : Config} {n : Nat} (h : c.after lay region summarise n = some c') :
    ReflTransGen (Turn lay region summarise) c c' := by
  induction n generalizing c' with
  | zero =>
    cases h
    exact .refl
  | succ n ih =>
    obtain ⟨before, earlier, last⟩ := Option.bind_eq_some_iff.mp h
    exact (ih earlier).tail (turn_of_next? last)

def Config.run (lay : Layout) (region : Region) (summarise : Nat → List State → ContextM LoopRun) (c : Config) :
    Except Failure Walk × Context :=
  (Walk.run lay region summarise c.walk c.queue c.pending c.postponed).run.run c.context

theorem run_take {w : Walk} {i : Nat} {queue pending : List Nat} {postponed : Nat}
    (go : ¬ region.stops.contains i = true) (open_ : i ∈ pending)
    (due : ¬ Waiting lay region w i ∨ (¬ postponed ≤ queue.length ∧ (w.inputs.get i).length ≠ 0)) :
    run lay region summarise w (i :: queue) pending postponed = (do
      let r ← take lay region summarise w i
      run lay region summarise r.1 (enqueue region queue r.2) (pending.erase i) 0) := by
  rw [run, if_neg go, dif_pos open_]
  dsimp only
  have first : ¬ (Waiting lay region w i ∧ postponed ≤ queue.length) := fun h =>
    due.elim (fun no => no h.1) fun no => no.1 h.2
  have second : ¬ (Waiting lay region w i ∧ (w.inputs.get i).length = 0) := fun h =>
    due.elim (fun no => no h.1) fun no => no.2 h.2
  rw [if_neg first, if_neg second]
  unfold take
  cases loopToPass? lay region i <;> rfl

/-- Whatever loops are summarised by, a walk has nothing to do, goes on with another queue, or takes a statement. -/
theorem run_induction (lay : Layout) (region : Region) {P : Walk → List Nat → List Nat → Nat → Prop}
    (empty : ∀ w pending postponed, P w [] pending postponed)
    (skip : ∀ {w queue queue' pending postponed postponed'},
      (∀ summarise, run lay region summarise w queue pending postponed =
      run lay region summarise w queue' pending postponed') → P w queue' pending postponed' →
        P w queue pending postponed)
    (take : ∀ {w i queue pending postponed},
      (∀ summarise, run lay region summarise w (i :: queue) pending postponed = (do
      let r ← take lay region summarise w i
      run lay region summarise r.1 (enqueue region queue r.2) (pending.erase i) 0)) →
      (∀ r : Walk × List Nat, P r.1 (enqueue region queue r.2) (pending.erase i) 0) →
        P w (i :: queue) pending postponed)
    (w : Walk) (queue pending : List Nat) (postponed : Nat) : P w queue pending postponed := by
  -- The cases do not depend on what summarises the loops.
  induction w, queue, pending, postponed using run.induct lay region (fun _ _ => throw (.defect .boundExceeded)) with
  | case1 w pending postponed => exact empty w pending postponed
  | case2 w i queue pending postponed stop ih =>
    refine skip (fun summarise => ?_) ih
    rw [run, if_pos stop]
  | case3 w i queue pending postponed go open_ =>
    rename_i waits ih
    refine skip (fun summarise => ?_) ih
    rw [run, if_neg go, dif_pos open_]
    dsimp only
    rw [if_pos waits]
  | case4 w i queue pending postponed go open_ =>
    rename_i first nothing ih
    refine skip (fun summarise => ?_) ih
    rw [run, if_neg go, dif_pos open_]
    dsimp only
    rw [if_neg first, if_pos nothing]
  | case5 w i queue pending postponed go open_ =>
    rename_i first second id passes ih
    exact take (fun _ => run_take go open_ (due_of_not first second)) fun r => ih r.1 r.2
  | case6 w i queue pending postponed go open_ =>
    rename_i first second plain ih
    exact take (fun _ => run_take go open_ (due_of_not first second)) fun r => ih r.1 r.2
  | case7 w i queue pending postponed go carriedOut ih =>
    refine skip (fun summarise => ?_) ih
    rw [run, if_neg go, dif_neg carriedOut]

/-! ## Stopping where a walk has been -/

def stoppingAt (region : Region) (extra : List Nat) : Region := { region with stops := extra ++ region.stops }

theorem deliverAll_stoppingAt (extra : List Nat) (w : Walk) (source : Nat) (states : List (Nat × State)) :
    deliverAll lay (stoppingAt region extra) w source states = deliverAll lay region w source states := by
  induction states generalizing w with
  | nil => rfl
  | cons s states ih =>
    simp only [deliverAll, ih]
    rfl

theorem leaveLoop_stoppingAt (extra : List Nat) (w : Walk) (l : Loop) (outputs : StateMap) (exits : List Nat) :
    leaveLoop lay (stoppingAt region extra) w l outputs exits = leaveLoop lay region w l outputs exits := by
  induction exits generalizing w with
  | nil => rfl
  | cons e exits ih => simp only [leaveLoop, deliverAll_stoppingAt, ih]

theorem take_stoppingAt (extra : List Nat) (w : Walk) (i : Nat) :
    take lay (stoppingAt region extra) summarise w i = take lay region summarise w i := by
  have passed : ∀ id, passLoop lay (stoppingAt region extra) summarise w id = passLoop lay region summarise w id := by
    intro id
    unfold passLoop
    simp only [leaveLoop_stoppingAt]
  have carried : step lay (stoppingAt region extra) w i = step lay region w i := by
    unfold step
    simp only [deliverAll_stoppingAt]
  unfold take
  rw [carried, funext passed]
  rfl

theorem goes_stoppingAt {extra pending : List Nat} {i : Nat} (carriedOut : ∀ i ∈ extra, i ∉ pending)
    (open_ : i ∈ pending) (go : ¬ region.stops.contains i = true) :
    ¬ (stoppingAt region extra).stops.contains i = true := by
  have other : i ∉ extra := fun h => carriedOut i h open_
  simpa [stoppingAt, other] using go

theorem run_take_stoppingAt {w : Walk} {i postponed : Nat} {queue pending extra : List Nat}
    (carriedOut : ∀ i ∈ extra, i ∉ pending) (go : ¬ region.stops.contains i = true) (open_ : i ∈ pending)
    (due : ¬ Waiting lay region w i ∨ (¬ postponed ≤ queue.length ∧ (w.inputs.get i).length ≠ 0))
    (rest : ∀ r : Walk × List Nat, (∀ j ∈ extra, j ∉ pending.erase i) →
      run lay (stoppingAt region extra) summarise r.1 (enqueue region queue r.2) (pending.erase i) 0 =
        run lay region summarise r.1 (enqueue region queue r.2) (pending.erase i) 0) :
    run lay (stoppingAt region extra) summarise w (i :: queue) pending postponed =
      run lay region summarise w (i :: queue) pending postponed := by
  rw [run_take go open_ due, run_take (goes_stoppingAt carriedOut open_ go) open_ due, take_stoppingAt]
  exact bind_congr fun r => rest r fun j hj member => carriedOut j hj (List.mem_of_mem_erase member)

/-- A statement that has been carried out is not taken again. So it makes no difference if a walk stops there too, as
it may once it has come through an exit of a loop. -/
theorem run_stoppingAt {w : Walk} {queue pending extra : List Nat} {postponed : Nat}
    (carriedOut : ∀ i ∈ extra, i ∉ pending) :
    run lay (stoppingAt region extra) summarise w queue pending postponed =
      run lay region summarise w queue pending postponed := by
  induction w, queue, pending, postponed using run.induct lay region summarise with
  | case1 w pending postponed => rw [run, run]
  | case2 w i queue pending postponed stop ih =>
    have stop' : (stoppingAt region extra).stops.contains i = true := by
      simpa [stoppingAt] using .inr (by simpa using stop)
    rw [run, run, if_pos stop, if_pos stop']
    exact ih carriedOut
  | case3 w i queue pending postponed go open_ =>
    rename_i waits ih
    rw [run, run, if_neg go, if_neg (goes_stoppingAt carriedOut open_ go), dif_pos open_, dif_pos open_]
    dsimp only
    rw [if_pos waits, ← ih carriedOut]
    exact if_pos waits
  | case4 w i queue pending postponed go open_ =>
    rename_i first nothing ih
    rw [run, run, if_neg go, if_neg (goes_stoppingAt carriedOut open_ go), dif_pos open_, dif_pos open_]
    dsimp only
    rw [if_neg first, if_pos nothing, ← ih carriedOut]
    exact (if_neg first).trans (if_pos nothing)
  | case5 w i queue pending postponed go open_ =>
    rename_i first second id passes ih
    exact run_take_stoppingAt carriedOut go open_ (due_of_not first second) fun r => ih r.1 r.2
  | case6 w i queue pending postponed go open_ =>
    rename_i first second plain ih
    exact run_take_stoppingAt carriedOut go open_ (due_of_not first second) fun r => ih r.1 r.2
  | case7 w i queue pending postponed go late ih =>
    rw [run, run, if_neg go, dif_neg late, ← ih carriedOut]
    split <;> rfl

/-! ## From turn to turn -/

/-- After a turn the walk goes on as if it had started there. -/
theorem run_turn {c c' : Config} (t : Turn lay region summarise c c') :
    c.run lay region summarise = c'.run lay region summarise := by
  cases t with
  | discard stop =>
    unfold Config.run
    rw [run, if_pos stop]
  | late go carriedOut =>
    unfold Config.run
    rw [run, if_neg go, dif_neg carriedOut]
  | postpone go open_ waits room =>
    unfold Config.run
    rw [run, if_neg go, dif_pos open_]
    dsimp only
    rw [if_pos ⟨waits, room⟩]
  | drop go open_ waits stalled nothing =>
    unfold Config.run
    rw [run, if_neg go, dif_pos open_]
    dsimp only
    rw [if_neg fun h => stalled h.2, if_pos ⟨waits, nothing⟩]
  | take go open_ due taken =>
    unfold Config.run
    dsimp only
    rw [run_take go open_ due, run_bind, taken]

inductive Stuck (lay : Layout) (region : Region) (summarise : Nat → List State → ContextM LoopRun) :
    Config → Failure → Context → Prop
  | take {w : Walk} {i : Nat} {queue pending : List Nat} {postponed : Nat} {ctx ctx' : Context} {e : Failure}
      (go : ¬ region.stops.contains i = true) (open_ : i ∈ pending)
      (due : ¬ Waiting lay region w i ∨ (¬ postponed ≤ queue.length ∧ (w.inputs.get i).length ≠ 0))
      (failed : Fails (take lay region summarise w i) ctx e ctx') :
      Stuck lay region summarise ⟨w, i :: queue, pending, postponed, ctx⟩ e ctx'

theorem run_stuck {c : Config} {e : Failure} {ctx : Context} (s : Stuck lay region summarise c e ctx) :
    c.run lay region summarise = (.error e, ctx) := by
  cases s with
  | take go open_ due failed =>
    unfold Config.run
    dsimp only
    rw [run_take go open_ due]
    exact fails_bind_left failed

/-- As long as there is a statement in the queue there is a turn, or the walk is stuck. -/
theorem turn_or_stuck (c : Config) (some : c.queue ≠ []) :
    (∃ c', Turn lay region summarise c c') ∨ ∃ e ctx, Stuck lay region summarise c e ctx := by
  obtain ⟨w, queue, pending, postponed, ctx⟩ := c
  obtain ⟨i, queue, rfl⟩ := List.exists_cons_of_ne_nil some
  by_cases stop : region.stops.contains i = true
  · exact .inl ⟨_, .discard stop⟩
  by_cases open_ : i ∈ pending
  · have rest : (¬ Waiting lay region w i ∨ (¬ postponed ≤ queue.length ∧ (w.inputs.get i).length ≠ 0)) ∨
        Waiting lay region w i ∧ (postponed ≤ queue.length ∨
          ¬ postponed ≤ queue.length ∧ (w.inputs.get i).length = 0) := by
      tauto
    rcases rest with due | ⟨waits, room | ⟨stalled, nothing⟩⟩
    · rcases taken : (take lay region summarise w i).run.run ctx with ⟨e | r, ctx'⟩
      · exact .inr ⟨e, ctx', .take stop open_ due taken⟩
      · exact .inl ⟨_, .take stop open_ due taken⟩
    · exact .inl ⟨_, .postpone stop open_ waits room⟩
    · exact .inl ⟨_, .drop stop open_ waits stalled nothing⟩
  · exact .inl ⟨_, .late stop open_⟩

/-- A turn takes a statement, shortens the queue, or puts one more statement back. -/
theorem turn_wf : WellFounded fun c' c : Config => Turn lay region summarise c c' := by
  have lt : WellFounded fun a b : Nat => a < b := Nat.lt_wfRel.wf
  refine Subrelation.wf (fun {c' c} t => ?_) (InvImage.wf
    (fun c : Config => (c.pending.length, c.queue.length, c.queue.length + 1 - c.postponed))
    (lt.prod_lex (lt.prod_lex lt)))
  cases t with
  | discard stop => exact Prod.Lex.right _ (Prod.Lex.left _ _ (Nat.lt_succ_self _))
  | late go carriedOut => exact Prod.Lex.right _ (Prod.Lex.left _ _ (Nat.lt_succ_self _))
  | postpone go open_ waits room =>
    unfold InvImage
    simp only [List.length_append, List.length_cons, List.length_nil]
    exact Prod.Lex.right _ (Prod.Lex.right _ (by omega))
  | drop go open_ waits stalled nothing => exact Prod.Lex.right _ (Prod.Lex.left _ _ (Nat.lt_succ_self _))
  | take go open_ due taken =>
    have some := List.length_pos_of_mem open_
    have fewer := List.length_erase_of_mem open_
    exact Prod.Lex.left _ _ (by dsimp only; omega)

/-- A walk that returns has come to an empty queue. -/
theorem turns_of_returns {w w' : Walk} {queue pending : List Nat} {postponed : Nat} {ctx ctx' : Context}
    (h : Returns (run lay region summarise w queue pending postponed) ctx w' ctx') :
    ∃ pending' postponed', ReflTransGen (Turn lay region summarise) ⟨w, queue, pending, postponed, ctx⟩
      ⟨w', [], pending', postponed', ctx'⟩ := by
  generalize start : (⟨w, queue, pending, postponed, ctx⟩ : Config) = c
  have h : c.run lay region summarise = (.ok w', ctx') := start ▸ h
  clear start
  have wf : WellFounded fun c' c : Config => Turn lay region summarise c c' := turn_wf
  induction c using wf.induction with
  | h c ih =>
    by_cases none : c.queue = []
    · obtain ⟨w, queue, pending, postponed, ctx⟩ := c
      subst none
      unfold Config.run at h
      dsimp only at h
      rw [run] at h
      cases h
      exact ⟨pending, postponed, .refl⟩
    · rcases turn_or_stuck c none with ⟨c', t⟩ | ⟨e, _, stuck⟩
      · obtain ⟨_, _, turns⟩ := ih c' t ((run_turn t).symm.trans h)
        exact ⟨_, _, .head t turns⟩
      · rw [run_stuck stuck] at h
        cases h

/-! ## No turn goes wrong -/

variable {start : List State} {done : List Nat} {c c' : Config}

/-- What is said of a loop comes from a walk that has carried out all of its body. -/
def Summarises (lay : Layout) (summarise : Nat → List State → ContextM LoopRun) : Prop :=
  ∀ {id l states ctx run ctx'}, lay.loops[id]? = some l → Returns (summarise id states) ctx run ctx' →
    ∃ seeds, Complete lay (.ofLoop id l) seeds run.walk

abbrev Config.Sched (lay : Layout) (region : Region) (start : List State) (done : List Nat) (c : Config) : Prop :=
  Walk.Sched lay region start done c.walk c.queue c.pending c.postponed

/-- Each turn keeps the schedule, with more or as much done. -/
theorem Sched.turn (tame : lay.Tame) (hr : region.Walked lay) (unstopped : region.stops = [])
    (nested : Summarises lay summarise) (sched : c.Sched lay region start done) (t : Turn lay region summarise c c') :
    ∃ done', c'.Sched lay region start done' := by
  cases t with
  | discard stop =>
    rw [unstopped] at stop
    cases stop
  | late _ carriedOut => exact absurd sched.head_pending carriedOut
  | postpone _ _ waits room => exact ⟨done, sched.postpone waits room⟩
  | drop _ _ _ stalled _ => exact absurd (sched.not_stalled tame hr) stalled
  | @take w i queue pending postponed ctx ctx' r _ _ due taken =>
    have ready := due.resolve_right fun stalled => stalled.1 (sched.not_stalled tame hr)
    unfold Walk.take at taken
    cases pass : loopToPass? lay region i with
    | none =>
      rw [pass] at taken
      obtain ⟨outs, carried, fits, rfl⟩ := returns_step.mp taken
      exact ⟨_, sched.step tame hr ready pass ⟨_, _, carried⟩ fits⟩
    | some id =>
      rw [pass] at taken
      obtain ⟨l, run, found, returned, rfl⟩ := returns_passLoop.mp taken
      obtain ⟨seeds, complete⟩ := nested found returned
      exact ⟨_, sched.pass tame hr ready pass found complete⟩

theorem Sched.turns (tame : lay.Tame) (hr : region.Walked lay) (unstopped : region.stops = [])
    (nested : Summarises lay summarise) (sched : c.Sched lay region start done)
    (turns : ReflTransGen (Turn lay region summarise) c c') :
    ∃ done', c'.Sched lay region start done' := by
  induction turns with
  | refl => exact ⟨done, sched⟩
  | tail _ t ih =>
    obtain ⟨_, sched⟩ := ih
    exact sched.turn tame hr unstopped nested t

theorem complete_of_through (tame : lay.Tame) (hr : region.Walked lay) (unstopped : region.stops = [])
    (nested : Summarises lay summarise) {w : Walk} {ctx ctx' : Context}
    (h : Returns (through lay region summarise start) ctx w ctx') :
    Complete lay region start w := by
  obtain ⟨_, _, turns⟩ := turns_of_returns h
  obtain ⟨_, sched⟩ := (Sched.start_sched tame.toRegular hr start).turns tame hr unstopped nested turns
  exact sched.finish tame hr

/-! ## Passes -/

/-- The last pass over a loop: the body was walked from the seeds, and whatever came back to the head with another
value than it has in the merged seeds is among the modified symbols. -/
def Stable (head : Nat) (walk : List State → ContextM Walk) (run : LoopRun) : Prop :=
  ∃ seeds merged changed c c₁ c₂ c₃, Returns (do (← State.merge seeds).simplify) c merged c₁ ∧
    Returns (walk seeds) c₁ run.walk c₂ ∧
    Returns (changedSymbols merged.store.flatten ((run.walk.inputs.get head).drop seeds.length)) c₂ changed c₃ ∧
    ∀ x ∈ changed, x ∈ run.summary.modified

theorem modified_of_summaryOf {entry : LoopEntry} {modified : List SymbolId} {names : Renaming} {passes : Nat}
    {store : Store} {back : List State} {summary : LoopSummary} {ctx ctx' : Context}
    (h : Returns (summaryOf entry modified names passes store back) ctx summary ctx') :
    summary.modified = modified := by
  unfold summaryOf at h
  dsimp only at h
  split at h <;>
  · obtain ⟨_, _, _, h⟩ := returns_of_bind h
    obtain ⟨_, _, _, h⟩ := returns_of_bind h
    obtain ⟨_, _, _, h⟩ := returns_of_bind h
    cases h
    rfl

/-- A loop whose passes come to an end is stable: whatever its last pass changed it counts as modified. -/
theorem stable_of_passes {entry : LoopEntry} {walk : List State → ContextM Walk} (limit : Nat)
    {modified : List SymbolId} {names : Renaming} {passes : Nat} {ctx ctx' : Context} {run : LoopRun}
    (h : Returns (passesWithin entry walk limit modified names passes) ctx run ctx') : Stable entry.head walk run := by
  induction limit generalizing modified names passes ctx with
  | zero => cases h
  | succ limit ih =>
    unfold passesWithin at h
    obtain ⟨⟨seeds, names⟩, _, _, h⟩ := returns_of_bind h
    obtain ⟨merged, _, hm, h⟩ := returns_of_bind h
    obtain ⟨simplified, _, hs, h⟩ := returns_of_bind h
    obtain ⟨w, _, walked, h⟩ := returns_of_bind h
    obtain ⟨changed, _, hd, h⟩ := returns_of_bind h
    dsimp only at h
    split at h
    · rename_i nothing
      obtain ⟨summary, _, summed, h⟩ := returns_of_bind h
      cases h
      refine ⟨seeds, simplified, changed, _, _, _, _, returns_bind hm hs, walked, hd, fun x hx => ?_⟩
      have known := List.filter_eq_nil_iff.mp (List.isEmpty_iff.mp nothing) x hx
      rw [modified_of_summaryOf summed]
      simpa using known
    · exact ih h

theorem stable_of_summarise {nesting id : Nat} {l : Loop} {states : List State} {ctx ctx' : Context} {run : LoopRun}
    (found : lay.loops[id]? = some l) (h : Returns (Walk.summarise lay (nesting + 1) id states) ctx run ctx') :
    Stable l.head (through lay (.ofLoop id l) (Walk.summarise lay nesting)) run := by
  unfold Walk.summarise summariseWith at h
  obtain ⟨k, _, h₁, h⟩ := returns_of_bind h
  obtain ⟨got, rfl⟩ := ContextM.returns_ofExcept.mp h₁
  cases (Layout.getLoop_eq_ok.mp got).symm.trans found
  obtain ⟨merged, _, _, h⟩ := returns_of_bind h
  obtain ⟨simplified, _, _, h⟩ := returns_of_bind h
  obtain ⟨current, _, _, h⟩ := returns_of_bind h
  exact stable_of_passes _ h

theorem summarise_complete (tame : lay.Tame) (nesting : Nat) : Summarises lay (Walk.summarise lay nesting) := by
  induction nesting with
  | zero =>
    intro id l states ctx run ctx' _ h
    cases h
  | succ nesting ih =>
    intro id l states ctx run ctx' found h
    obtain ⟨seeds, _, _, _, _, _, _, _, walked, _⟩ := stable_of_summarise found h
    exact ⟨seeds, complete_of_through tame (.loop found) rfl ih walked⟩

end Walk

end PathMerge
