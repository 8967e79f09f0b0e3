/-
  PathMerge.Proofs.Schedule — the order in which a walk takes statements.

  `Record` says what a walk has recorded once the statements in `done` are carried out: they are closed
  under forward edges backwards and contain a nested loop as a whole or not at all, and every statement has
  been handed exactly what the statements in `done` send to it. `Sched` adds what the queue holds: the
  statements that are not done but have been handed something, and at its end those that were put back,
  which all still wait.

  In a reducible graph without edges from dead to live statements some statement in the queue is always
  ready as long as one is left (`Sched.exists_ready`). So the walk never stalls and never meets a
  statement it has carried out, and when the queue is empty everything is done.
-/

import PathMerge.Proofs.Delivery
import PathMerge.Proofs.Yields

namespace PathMerge

open PathMerge.Flow

/-- No statement that cannot be reached leads to one that can. -/
def Flow.Sealed (g : Flow) : Prop := ∀ u n, g.Edge u n → g.Live n → g.Live u

/-- The layouts on which walks lose nothing. -/
structure Layout.Tame (lay : Layout) : Prop extends lay.Regular where
  reducible : lay.flow.Reducible
  closed : lay.flow.Sealed

/-! ## Regions -/

namespace Region

variable {lay : Layout} {region : Region} {h i j n u : Nat}

/-- The regions that walks are made over: the whole method, wherever the walk stops, and the body of each loop. -/
inductive Walked (lay : Layout) : Region → Prop
  | whole (stops : List Nat) : Walked lay (.whole stops)
  | loop {id : Nat} {l : Loop} (found : lay.loops[id]? = some l) : Walked lay (.ofLoop id l)

def Inside (lay : Layout) (region : Region) (i : Nat) : Prop := lay.flow.Live i ∧ region.contains i = true

/-- The head of a loop inside the region, other than the one being walked. -/
def Inner (lay : Layout) (region : Region) (h : Nat) : Prop :=
  lay.flow.InLoop h h ∧ region.Inside lay h ∧ region.isOwnHead h = false

theorem inside_ofLoop (reg : lay.Regular) {id : Nat} {l : Loop} (found : lay.loops[id]? = some l) :
    (ofLoop id l).Inside lay i ↔ lay.flow.InLoop l.head i := by
  have contains : (ofLoop id l).contains i = true ↔ lay.flow.InLoop l.head i := (reg.natural found).contains
  unfold Inside
  rw [contains]
  exact ⟨fun m => m.2, fun m => ⟨m.1, m⟩⟩

theorem isOwnHead_ofLoop (id : Nat) (l : Loop) : (ofLoop id l).isOwnHead i = decide (i = l.head) := rfl

theorem inside_whole {stops : List Nat} : (whole stops).Inside lay i ↔ lay.flow.Live i :=
  ⟨fun m => m.1, fun m => ⟨m, rfl⟩⟩

theorem notOwn_of_ne (ne : n ≠ region.root) : region.isOwnHead n = false := by
  unfold isOwnHead
  simp [ne]

theorem loopToPass?_none (reg : lay.Regular) (m : region.Inside lay i) :
    Walk.loopToPass? lay region i = none ↔ ¬ region.Inner lay i := by
  unfold Walk.loopToPass?
  by_cases own : region.isOwnHead i = true
  · rw [if_pos own]
    refine ⟨fun _ inner => ?_, fun _ => rfl⟩
    rw [inner.2.2] at own
    cases own
  · rw [if_neg own, reg.headedBy_none]
    have own : region.isOwnHead i = false := by simpa using own
    exact ⟨fun no inner => no inner.1, fun no loop => no ⟨loop, m, own⟩⟩

theorem loopToPass?_some (reg : lay.Regular) {id : Nat} (m : region.Inside lay i)
    (passed : Walk.loopToPass? lay region i = some id) :
    ∃ l, lay.loops[id]? = some l ∧ l.head = i ∧ region.Inner lay i := by
  unfold Walk.loopToPass? at passed
  split at passed
  · cases passed
  · rename_i own
    obtain ⟨l, found, rfl⟩ := Layout.Regular.headedBy_some passed
    exact ⟨l, found, rfl, (reg.natural found).head, m, by simpa using own⟩

namespace Walked

variable (reg : lay.Regular) (hr : region.Walked lay)

include reg hr

theorem root_inside : region.Inside lay region.root := by
  cases hr with
  | whole => exact inside_whole.mpr (root_live _)
  | loop found => exact (inside_ofLoop reg found).mpr (reg.natural found).head

theorem dominates_root (m : region.Inside lay n) : lay.flow.Dominates region.root n := by
  cases hr with
  | whole => exact ⟨m.1, fun around => around.1 rfl⟩
  | loop found => exact ((inside_ofLoop reg found).mp m).dominated

theorem inside_pred (m : region.Inside lay n) (ne : n ≠ region.root) (s : lay.flow.Edge u n)
    (live : lay.flow.Live u) : region.Inside lay u := by
  cases hr with
  | whole => exact inside_whole.mpr live
  | loop found => exact (inside_ofLoop reg found).mpr (((inside_ofLoop reg found).mp m).pred ne s live)

theorem no_forward_root (m : region.Inside lay u) : ¬ lay.flow.Forward u region.root :=
  fun s => s.2 (hr.dominates_root reg m)

theorem ne_root (m : region.Inside lay n) (ne : n ≠ region.root) : n ≠ Flow.root := by
  intro e
  subst e
  have back : lay.flow.Dominates Flow.root region.root :=
    ⟨(hr.root_inside reg).1, fun around => around.1 rfl⟩
  exact ne (back.antisymm (hr.dominates_root reg m))

/-- Away from the region's own head an edge delivers its state unless it closes a loop. -/
theorem keeps_eq (own : region.isOwnHead n = false) :
    Walk.keeps lay region u n = decide (lay.loopClosedBy? u n = none) := by
  unfold Walk.keeps
  cases closed : lay.loopClosedBy? u n with
  | none => rfl
  | some id =>
    cases hr with
    | whole => rfl
    | loop found =>
      rename_i mine l
      obtain ⟨k, found', head, _⟩ := reg.closedBy_some closed
      have : mine ≠ id := by
        intro e
        subst e
        rw [found] at found'
        cases found'
        rw [isOwnHead_ofLoop, decide_eq_false_iff_not] at own
        exact own head.symm
      show decide (some mine = some id) = _
      simp [this]

/-- A state that closes a nested loop is not kept. -/
theorem keeps_inner {id : Nat} {l : Loop} (found : lay.loops[id]? = some l) (inner : region.Inner lay l.head)
    (m : lay.flow.InLoop l.head u) : Walk.keeps lay region u l.head = false := by
  unfold Walk.keeps
  rw [reg.closedBy_eq found m]
  refine decide_eq_false fun same => ?_
  cases hr with
  | whole => cases same
  | loop own =>
    cases same
    rw [found] at own
    cases own
    have := inner.2.2
    rw [isOwnHead_ofLoop, decide_eq_false_iff_not] at this
    exact this rfl

theorem notOwn_of_plain (plain : lay.loopHeadedBy? n = none) : region.isOwnHead n = false := by
  cases hr with
  | whole => rfl
  | loop found =>
    refine decide_eq_false fun e => ?_
    exact reg.headedBy_none.mp plain (e ▸ (reg.natural found).head)

/-- A nested loop lies inside the region. -/
theorem inner_inside (inner : region.Inner lay h) (m : lay.flow.InLoop h j) : region.Inside lay j := by
  cases hr with
  | whole => exact inside_whole.mpr m.1
  | loop found => exact (inside_ofLoop reg found).mpr (((inside_ofLoop reg found).mp inner.2.1).trans m)

/-- The root lies in no nested loop but, perhaps, its own. -/
theorem inner_root (inner : region.Inner lay h) (m : lay.flow.InLoop h region.root) : h = region.root :=
  m.dominated.antisymm (hr.dominates_root reg inner.2.1)

/-- A loop inside a nested loop is nested too. -/
theorem nested {id : Nat} {l : Loop} (found : lay.loops[id]? = some l) (outer : region.Inner lay l.head)
    (inner : (Region.ofLoop id l).Inner lay h) : region.Inner lay h := by
  have inside : lay.flow.InLoop l.head h := (inside_ofLoop reg found).mp inner.2.1
  refine ⟨inner.1, hr.inner_inside reg outer inside, ?_⟩
  by_cases root : h = region.root
  · rw [root] at inside ⊢
    rw [← hr.inner_root reg outer inside]
    exact outer.2.2
  · exact notOwn_of_ne root

end Walked

end Region

/-! ## What has been recorded -/

namespace Walk

variable {lay : Layout} {region : Region} {start : List State} {done queue pending : List Nat} {w : Walk}
  {postponed : Nat} {i n u : Nat}

def carryOut (lay : Layout) (i : Nat) (inputs : List State) : ContextM (List State) := do
  let stmt ← ContextM.ofExcept (lay.statement i)
  let rule ← ContextM.ofExcept (Rule.select stmt inputs)
  (← rule.apply stmt inputs (lay.flow.succs i).length).mapM State.simplify

/-- In some context, carrying out the statement at `i` on `inputs` yields `outputs`. -/
def Executes (lay : Layout) (i : Nat) (inputs outputs : List State) : Prop :=
  ∃ ctx ctx', Returns (carryOut lay i inputs) ctx outputs ctx'

structure Record (lay : Layout) (region : Region) (start : List State) (done : List Nat) (w : Walk) : Prop where
  nodup : done.Nodup
  inside : ∀ {i}, i ∈ done → region.Inside lay i
  closed : ∀ {u n}, n ∈ done → lay.flow.Forward u n → region.Inside lay u → u ∈ done
  loops : ∀ {h u j}, region.Inner lay h → lay.flow.InLoop h u → u ∈ done → lay.flow.InLoop h j → j ∈ done
  fits : ∀ u ∈ done, lay.flow.succs u ≠ [] → (w.outputs.get u).length = (lay.flow.succs u).length
  arrived : ∀ {n}, region.Inside lay n → ∃ b, w.inputs.get n = (if n = region.root then start else []) ++ b ∧
    b.Perm (arrivals lay region w.outputs done n)
  ran : ∀ {i}, i ∈ done → lay.loopHeadedBy? i = none → Executes lay i (w.inputs.get i) (w.outputs.get i)

def Complete (lay : Layout) (region : Region) (start : List State) (w : Walk) : Prop :=
  ∃ done, Record lay region start done w ∧ ∀ {n}, region.Inside lay n → n ∈ done

def Met (lay : Layout) (region : Region) (done : List Nat) (n : Nat) : Prop :=
  n = region.root ∨ ∃ u ∈ done, lay.flow.Forward u n

abbrev Waiting (lay : Layout) (region : Region) (w : Walk) (i : Nat) : Prop :=
  (w.inputs.get i).length < required lay region i

structure Sched (lay : Layout) (region : Region) (start : List State) (done : List Nat) (w : Walk)
    (queue pending : List Nat) (postponed : Nat) : Prop extends Record lay region start done w where
  queued : ∀ {n}, n ∈ queue ↔ region.Inside lay n ∧ n ∉ done ∧ Met lay region done n
  queue_nodup : queue.Nodup
  pending : ∀ {n}, region.Inside lay n → n ∉ done → n ∈ pending
  few : postponed ≤ queue.length
  waiting : ∀ i ∈ queue.drop (queue.length - postponed), Waiting lay region w i

theorem Record.length_arrivals (reg : lay.Regular) (hr : region.Walked lay) (rec : Record lay region start done w)
    (ne : n ≠ region.root) :
    (arrivals lay region w.outputs done n).length = ((entries lay n).filter (· ∈ done)).length :=
  Walk.length_arrivals rec.nodup (fun _ hu => (rec.inside hu).1.lt reg.filled) rec.fits
    fun _ _ => hr.keeps_eq reg (Region.notOwn_of_ne ne)

theorem Record.received (reg : lay.Regular) (hr : region.Walked lay) (rec : Record lay region start done w)
    (m : region.Inside lay n) (ne : n ≠ region.root) :
    (w.inputs.get n).length = ((entries lay n).filter (· ∈ done)).length := by
  obtain ⟨b, inputs, perm⟩ := rec.arrived m
  rw [inputs, if_neg ne, List.nil_append, perm.length_eq, rec.length_arrivals reg hr ne]

/-- A statement that does not wait has been handed a state over every forward edge. -/
theorem Record.ready_closed (reg : lay.Regular) (hr : region.Walked lay) (rec : Record lay region start done w)
    (m : region.Inside lay i) (ready : ¬ Waiting lay region w i) (s : lay.flow.Forward u i)
    (hu : region.Inside lay u) : u ∈ done := by
  by_cases ne : i = region.root
  · exact absurd (ne ▸ s) (hr.no_forward_root reg hu)
  · unfold Waiting at ready
    rw [rec.received reg hr m ne, required_eq reg (Region.notOwn_of_ne ne)] at ready
    have all := List.length_filter_eq_length_iff.mp
      (Nat.le_antisymm (List.length_filter_le _ _) (Nat.le_of_not_lt ready))
    have entry : u ∈ entries lay i := mem_entries.mpr ⟨s.1, reg.closedBy_none.mpr ((forward_iff s.1).mp s)⟩
    exact of_decide_eq_true (all u entry)

theorem mem_zip_succs {outs : List State}
    (fits : lay.flow.succs u ≠ [] → outs.length = (lay.flow.succs u).length) :
    n ∈ ((lay.flow.succs u).zip outs).map (·.1) ↔ lay.flow.Edge u n := by
  by_cases empty : lay.flow.succs u = []
  · unfold Edge
    simp [empty]
  · rw [List.map_fst_zip (Nat.le_of_eq (fits empty).symm)]
    rfl

theorem closedBy_none_iff (reg : lay.Regular) (s : lay.flow.Edge u n) :
    lay.loopClosedBy? u n = none ↔ lay.flow.Forward u n := by
  rw [reg.closedBy_none, forward_iff s]

namespace Sched

/-! ## Taking the next statement -/

theorem start_sched (reg : lay.Regular) (hr : region.Walked lay) (states : List State) :
    Sched lay region states [] (Walk.start region.root states) [region.root] lay.flow.positions 0 := by
  refine ⟨⟨.nil, nofun, nofun, nofun, nofun, fun {n} _ => ?_, nofun⟩, fun {n} => ?_, List.nodup_singleton _,
    fun m _ => List.mem_range.mpr (m.1.lt reg.filled), Nat.zero_le _, nofun⟩
  · refine ⟨[], ?_, .nil⟩
    rw [List.append_nil]
    rfl
  · rw [List.mem_singleton]
    constructor
    · intro e
      subst e
      exact ⟨hr.root_inside reg, nofun, .inl rfl⟩
    · rintro ⟨_, _, e | ⟨_, hu, _⟩⟩
      · exact e
      · cases hu

/-- A statement in the queue lies in no nested loop but, perhaps, the one it heads. -/
theorem outer (reg : lay.Regular) (hr : region.Walked lay)
    (sched : Sched lay region start done w queue pending postponed) (hi : i ∈ queue) {h : Nat}
    (inner : region.Inner lay h) (m : lay.flow.InLoop h i) : h = i := by
  obtain ⟨_, notDone, rfl | ⟨u, hu, s⟩⟩ := sched.queued.mp hi
  · exact hr.inner_root reg inner m
  · by_contra ne
    exact notDone (sched.loops inner (m.pred (Ne.symm ne) s.1 (sched.inside hu).1) hu m)

/-- As long as a statement is left, one in the queue is ready. -/
theorem exists_ready (tame : lay.Tame) (hr : region.Walked lay)
    (sched : Sched lay region start done w queue pending postponed) (left : ∃ n, region.Inside lay n ∧ n ∉ done) :
    ∃ i ∈ queue, ¬ Waiting lay region w i := by
  have reg := tame.toRegular
  -- A statement that is left and comes before all others that are.
  obtain ⟨n, ⟨m, notDone⟩, first⟩ := (tame.reducible.wf reg.filled).has_min {n | region.Inside lay n ∧ n ∉ done} left
  have before : ∀ {u}, lay.flow.Edge u n → lay.loopClosedBy? u n = none → n ≠ region.root → u ∈ done := by
    intro u s none ne
    by_contra no
    have live := tame.closed u n s m.1
    have forward := (forward_iff s).mpr (reg.closedBy_none.mp none)
    exact first u ⟨hr.inside_pred reg m ne s live, no⟩ ⟨live, forward⟩
  by_cases ne : n = region.root
  · refine ⟨n, sched.queued.mpr ⟨m, notDone, .inl ne⟩, ?_⟩
    have none : required lay region n = 0 := by
      by_cases own : region.isOwnHead n = true
      · unfold required
        rw [if_pos own]
      · rw [required_eq reg (by simpa using own), List.length_eq_zero_iff, List.eq_nil_iff_forall_not_mem]
        intro u hu
        obtain ⟨s, none⟩ := mem_entries.mp hu
        have live := tame.closed u n s m.1
        have forward := (forward_iff s).mpr (reg.closedBy_none.mp none)
        cases hr with
        | whole => exact ((Region.Walked.whole []).no_forward_root reg (Region.inside_whole.mpr live)) (ne ▸ forward)
        | loop found => exact own (by rw [ne, Region.isOwnHead_ofLoop]; exact decide_eq_true rfl)
    unfold Waiting
    omega
  · obtain ⟨u, live, s⟩ := m.1.forward_pred (hr.ne_root reg m ne)
    have hu : u ∈ done := before s.1 (reg.closedBy_none.mpr ((forward_iff s.1).mp s)) ne
    refine ⟨n, sched.queued.mpr ⟨m, notDone, .inr ⟨u, hu, s⟩⟩, ?_⟩
    unfold Waiting
    rw [sched.received reg hr m ne, required_eq reg (Region.notOwn_of_ne ne)]
    have all : (entries lay n).filter (· ∈ done) = entries lay n := by
      refine List.filter_eq_self.mpr fun v hv => decide_eq_true ?_
      obtain ⟨s, none⟩ := mem_entries.mp hv
      exact before s none ne
    rw [all]
    omega

theorem finish (tame : lay.Tame) (hr : region.Walked lay)
    (sched : Sched lay region start done w [] pending postponed) : Complete lay region start w := by
  refine ⟨done, sched.toRecord, fun {n} m => ?_⟩
  by_contra no
  obtain ⟨i, hi, _⟩ := sched.exists_ready tame hr ⟨n, m, no⟩
  cases hi

theorem head_pending (sched : Sched lay region start done w (i :: queue) pending postponed) : i ∈ pending := by
  obtain ⟨m, notDone, _⟩ := sched.queued.mp List.mem_cons_self
  exact sched.pending m notDone

/-- A walk does not stall: a statement that waits can be put back. -/
theorem not_stalled (tame : lay.Tame) (hr : region.Walked lay)
    (sched : Sched lay region start done w (i :: queue) pending postponed) : postponed ≤ queue.length := by
  by_contra stalled
  have few := sched.few
  rw [List.length_cons] at few
  have all : (i :: queue).length - postponed = 0 := by
    rw [List.length_cons]
    omega
  obtain ⟨m, notDone, _⟩ := sched.queued.mp List.mem_cons_self
  obtain ⟨j, hj, ready⟩ := sched.exists_ready tame hr ⟨i, m, notDone⟩
  refine ready (sched.waiting j ?_)
  rw [all]
  exact hj

/-- Postponing a statement that still waits keeps the schedule. -/
theorem postpone (sched : Sched lay region start done w (i :: queue) pending postponed)
    (wait : Waiting lay region w i) (room : postponed ≤ queue.length) :
    Sched lay region start done w (queue ++ [i]) pending (postponed + 1) := by
  have same : ∀ {n}, n ∈ queue ++ [i] ↔ n ∈ i :: queue := by
    intro n
    rw [List.mem_append, List.mem_singleton, List.mem_cons]
    exact or_comm
  refine ⟨sched.toRecord, same.trans sched.queued, ?_, sched.pending, ?_, fun j hj => ?_⟩
  · exact (List.perm_append_singleton i queue).nodup_iff.mpr sched.queue_nodup
  · rw [List.length_append, List.length_singleton]
    omega
  · have few := sched.few
    rw [List.length_cons] at few
    have cut : (queue ++ [i]).length - (postponed + 1) = queue.length - postponed := by
      rw [List.length_append, List.length_singleton]
      omega
    rw [cut, List.drop_append_of_le_length (by omega)] at hj
    rcases List.mem_append.mp hj with hj | hj
    · refine sched.waiting j ?_
      rw [List.length_cons, show queue.length + 1 - postponed = queue.length - postponed + 1 by omega,
        List.drop_succ_cons]
      exact hj
    · rw [List.mem_singleton.mp hj]
      exact wait

/-- Once the statements in `more` are carried out too, the queue holds what they lead to. -/
theorem requeue (sched : Sched lay region start done w (i :: queue) pending postponed) (more : List Nat)
    {next : List Nat} {w' : Walk} (rec : Record lay region start (done ++ more) w') (hi : i ∈ more)
    (alone : ∀ j ∈ more, j ∈ i :: queue → j = i)
    (ahead : ∀ {n}, n ∈ next ↔ n ∉ more ∧ ∃ u ∈ more, lay.flow.Forward u n) :
    Sched lay region start (done ++ more) w' (enqueue region queue next) (pending.erase i) 0 := by
  obtain ⟨new, nodup⟩ := List.nodup_cons.mp sched.queue_nodup
  have disjoint : ∀ j ∈ more, j ∉ done := fun j hj hd => (List.nodup_append.mp rec.nodup).2.2 j hd j hj rfl
  refine ⟨rec, fun {n} => ?_, enqueue_nodup nodup next, fun {n} m no => ?_, Nat.zero_le _, fun j hj => ?_⟩
  · rw [mem_enqueue, List.mem_append, not_or]
    constructor
    · rintro (old | ⟨hn, contains⟩)
      · obtain ⟨m, notDone, met⟩ := sched.queued.mp (List.mem_cons_of_mem _ old)
        refine ⟨m, ⟨notDone, fun hm => ?_⟩, met.imp id fun ⟨u, hu, s⟩ => ⟨u, List.mem_append_left _ hu, s⟩⟩
        exact new (alone n hm (List.mem_cons_of_mem _ old) ▸ old)
      · obtain ⟨notMore, u, hu, s⟩ := ahead.mp hn
        have mu := rec.inside (List.mem_append_right _ hu)
        refine ⟨⟨mu.1.edge s.1, contains⟩, ⟨fun hd => ?_, notMore⟩, .inr ⟨u, List.mem_append_right _ hu, s⟩⟩
        exact disjoint u hu (sched.closed hd s mu)
    · rintro ⟨m, ⟨notDone, notMore⟩, met⟩
      have behind : Met lay region done n ∨ ∃ u ∈ more, lay.flow.Forward u n := by
        rcases met with root | ⟨u, hu, s⟩
        · exact .inl (.inl root)
        · rcases List.mem_append.mp hu with hu | hu
          · exact .inl (.inr ⟨u, hu, s⟩)
          · exact .inr ⟨u, hu, s⟩
      rcases behind with met | ⟨u, hu, s⟩
      · have hn := sched.queued.mpr ⟨m, notDone, met⟩
        exact .inl ((List.mem_cons.mp hn).resolve_left fun e => notMore (e ▸ hi))
      · exact .inr ⟨ahead.mpr ⟨notMore, u, hu, s⟩, m.2⟩
  · rw [List.mem_append, not_or] at no
    have ne : n ≠ i := fun e => no.2 (e ▸ hi)
    exact (List.mem_erase_of_ne ne).mpr (sched.pending m no.1)
  · rw [Nat.sub_zero, List.drop_length] at hj
    cases hj

end Sched

/-! ## Carrying out one statement -/

def recorded (lay : Layout) (region : Region) (w : Walk) (i : Nat) (outs : List State) : Walk × List Nat :=
  deliverAll lay region { w with outputs := w.outputs.put i outs } i ((lay.flow.succs i).zip outs)

theorem outputs_recorded (w : Walk) (i : Nat) (outs : List State) (u : Nat) :
    (recorded lay region w i outs).1.outputs.get u = if u = i then outs else w.outputs.get u := by
  show (deliverAll lay region _ i _).1.outputs.get u = _
  rw [(deliverAll_frame _ _ _).1]
  rfl

theorem inputs_recorded (w : Walk) (i : Nat) (outs : List State) (n : Nat) :
    (recorded lay region w i outs).1.inputs.get n =
      w.inputs.get n ++ kept lay region (recorded lay region w i outs).1.outputs n i := by
  show (deliverAll lay region _ i _).1.inputs.get n = _
  rw [get_deliverAll]
  unfold kept along
  rw [outputs_recorded, if_pos rfl]

/-- What was recorded before stays. -/
theorem outputs_recorded_of_mem (outs : List State) (new : i ∉ done) (hu : u ∈ done) :
    (recorded lay region w i outs).1.outputs.get u = w.outputs.get u := by
  have ne : u ≠ i := fun same => new (same ▸ hu)
  rw [outputs_recorded, if_neg ne]

/-- A statement without an edge to itself hands nothing to itself. -/
theorem inputs_recorded_self (w : Walk) (outs : List State) (no : ¬ lay.flow.Edge i i) :
    (recorded lay region w i outs).1.inputs.get i = w.inputs.get i := by
  rw [inputs_recorded]
  unfold kept
  rw [along_eq_nil no, ite_self, List.append_nil]

theorem mem_recorded {outs : List State} : n ∈ (recorded lay region w i outs).2 ↔
    n ∈ ((lay.flow.succs i).zip outs).map (·.1) ∧ lay.loopClosedBy? i n = none :=
  mem_deliverAll _ i _ n

/-- A statement hands states on over its forward edges. -/
theorem mem_recorded_forward (reg : lay.Regular) (live : lay.flow.Live i) {outs : List State}
    (fits : lay.flow.succs i ≠ [] → outs.length = (lay.flow.succs i).length) :
    n ∈ (recorded lay region w i outs).2 ↔ n ≠ i ∧ lay.flow.Forward i n := by
  rw [mem_recorded, mem_zip_succs fits]
  constructor
  · rintro ⟨s, none⟩
    have s := (closedBy_none_iff reg s).mp none
    refine ⟨?_, s⟩
    rintro rfl
    exact s.2 (.refl live)
  · rintro ⟨_, s⟩
    exact ⟨s.1, (closedBy_none_iff reg s.1).mpr s⟩

/-- Whatever is carried out later sends nothing to a statement that is done, unless that heads the loop being walked.
-/
theorem Record.nothing_kept (reg : lay.Regular) (hr : region.Walked lay) (rec : Record lay region start done w)
    (hn : n ∈ done) (own : region.isOwnHead n = false) (hu : region.Inside lay u) (notDone : u ∉ done)
    (s : lay.flow.Edge u n) : keeps lay region u n = false := by
  rw [hr.keeps_eq reg own]
  refine decide_eq_false fun none => notDone (rec.closed hn ?_ hu)
  exact (closedBy_none_iff reg s).mp none

namespace Sched

theorem frame_step (reg : lay.Regular) (hr : region.Walked lay)
    (sched : Sched lay region start done w (i :: queue) pending postponed) (outs : List State) (hn : n ∈ done)
    (own : region.isOwnHead n = false) : (recorded lay region w i outs).1.inputs.get n = w.inputs.get n := by
  obtain ⟨m, notDone, _⟩ := sched.queued.mp List.mem_cons_self
  have nothing : kept lay region (recorded lay region w i outs).1.outputs n i = [] := by
    unfold kept
    by_cases s : lay.flow.Edge i n
    · rw [sched.nothing_kept reg hr hn own m notDone s]
      rfl
    · rw [along_eq_nil s]
      exact ite_self _
  rw [inputs_recorded, nothing, List.append_nil]

/-- Every statement has then been handed what those that are done, and this one, send to it. -/
theorem arrived_step (sched : Sched lay region start done w (i :: queue) pending postponed) (outs : List State)
    (m : region.Inside lay n) : ∃ b, (recorded lay region w i outs).1.inputs.get n =
      (if n = region.root then start else []) ++ b ∧
      b.Perm (arrivals lay region (recorded lay region w i outs).1.outputs (done ++ [i]) n) := by
  obtain ⟨_, notDone, _⟩ := sched.queued.mp List.mem_cons_self
  obtain ⟨b, inputs, perm⟩ := sched.arrived m
  refine ⟨b ++ kept lay region (recorded lay region w i outs).1.outputs n i, ?_, ?_⟩
  · rw [inputs_recorded, inputs, List.append_assoc]
  · rw [arrivals_append, arrivals_congr fun u hu => outputs_recorded_of_mem outs notDone hu]
    refine perm.append ?_
    show (_ : List State).Perm (kept lay region (recorded lay region w i outs).1.outputs n i ++ [])
    rw [List.append_nil]

theorem ran_step (reg : lay.Regular) (hr : region.Walked lay)
    (sched : Sched lay region start done w (i :: queue) pending postponed) {outs : List State}
    (executes : Executes lay i (w.inputs.get i) outs) (hu : u ∈ done ++ [i]) (headless : lay.loopHeadedBy? u = none) :
    Executes lay u ((recorded lay region w i outs).1.inputs.get u)
      ((recorded lay region w i outs).1.outputs.get u) := by
  obtain ⟨m, notDone, _⟩ := sched.queued.mp List.mem_cons_self
  rcases List.mem_append.mp hu with hu | hu
  · rw [sched.frame_step reg hr outs hu (hr.notOwn_of_plain reg headless), outputs_recorded_of_mem outs notDone hu]
    exact sched.ran hu headless
  · obtain rfl := List.mem_singleton.mp hu
    have noLoop : ¬ lay.flow.Edge u u := fun s =>
      reg.headedBy_none.mp headless (BackEdge.inLoop ⟨s, .refl m.1⟩)
    rw [inputs_recorded_self w outs noLoop, outputs_recorded, if_pos rfl]
    exact executes

/-- Carrying out a statement that is ready keeps the schedule, with the statement done. -/
theorem step (tame : lay.Tame) (hr : region.Walked lay)
    (sched : Sched lay region start done w (i :: queue) pending postponed) (ready : ¬ Waiting lay region w i)
    (plain : loopToPass? lay region i = none) {outs : List State} (executes : Executes lay i (w.inputs.get i) outs)
    (fits : lay.flow.succs i ≠ [] → outs.length = (lay.flow.succs i).length) :
    let r := recorded lay region w i outs
    Sched lay region start (done ++ [i]) r.1 (enqueue region queue r.2) (pending.erase i) 0 := by
  have reg := tame.toRegular
  obtain ⟨m, notDone, _⟩ := sched.queued.mp List.mem_cons_self
  have notInner := (Region.loopToPass?_none reg m).mp plain
  intro r
  refine sched.requeue [i] ⟨?_, ?_, ?_, ?_, ?_, fun m => sched.arrived_step outs m,
    fun hu headless => sched.ran_step reg hr executes hu headless⟩ List.mem_cons_self
    (fun j hj _ => List.mem_singleton.mp hj) fun {n} => ?_
  · refine List.nodup_append.mpr ⟨sched.nodup, List.nodup_singleton i, fun a ha b hb e => ?_⟩
    exact notDone (List.mem_singleton.mp hb ▸ e ▸ ha)
  · intro j hj
    rcases List.mem_append.mp hj with hj | hj
    · exact sched.inside hj
    · exact List.mem_singleton.mp hj ▸ m
  · intro u n hn s hu
    rcases List.mem_append.mp hn with hn | hn
    · exact List.mem_append_left _ (sched.closed hn s hu)
    · obtain rfl := List.mem_singleton.mp hn
      exact List.mem_append_left _ (sched.ready_closed reg hr m ready s hu)
  · intro h u j inner mu hu mj
    rcases List.mem_append.mp hu with hu | hu
    · exact List.mem_append_left _ (sched.loops inner mu hu mj)
    · obtain rfl := List.mem_singleton.mp hu
      exact absurd (sched.outer reg hr List.mem_cons_self inner mu ▸ inner) notInner
  · intro u hu
    rcases List.mem_append.mp hu with hu | hu
    · rw [outputs_recorded_of_mem outs notDone hu]
      exact sched.fits u hu
    · obtain rfl := List.mem_singleton.mp hu
      rw [outputs_recorded, if_pos rfl]
      exact fits
  · rw [mem_recorded_forward reg m.1 fits]
    simp only [List.mem_singleton, exists_eq_left]

end Sched

/-! ## Passing a loop -/

def passed (lay : Layout) (region : Region) (w : Walk) (id : Nat) (l : Loop) (run : LoopRun) : Walk × List Nat :=
  let inputs := w.inputs.takeOver run.walk.inputs (l.body.filter (· ≠ l.head))
  let outputs := w.outputs.takeOver run.walk.outputs l.body
  let nested := run.walk.summaries.foldl (fun m (n, s) => m.insert n s) w.summaries
  leaveLoop lay region ⟨inputs, outputs, nested.insert id run.summary⟩ l run.walk.outputs l.exits

section Pass

variable {id : Nat} {l : Loop} {run : LoopRun} {states : List State}

theorem Complete.fits (reg : lay.Regular) (found : lay.loops[id]? = some l)
    (complete : Complete lay (.ofLoop id l) states run.walk) (m : lay.flow.InLoop l.head u) :
    (run.walk.outputs.get u).length = (lay.flow.succs u).length := by
  obtain ⟨nested, rec, all⟩ := complete
  obtain ⟨t, s⟩ := m.leads
  exact rec.fits u (all ((Region.inside_ofLoop reg found).mpr m)) (List.ne_nil_of_mem s)

theorem Complete.outputs_ne (reg : lay.Regular) (found : lay.loops[id]? = some l)
    (complete : Complete lay (.ofLoop id l) states run.walk) : ∀ u ∈ l.body, run.walk.outputs.get u ≠ [] := by
  intro u hu none
  have m := (reg.natural found).body.mp hu
  have fits := complete.fits reg found m
  obtain ⟨t, s⟩ := m.leads
  rw [none] at fits
  exact List.ne_nil_of_mem s (List.eq_nil_of_length_eq_zero fits.symm)

theorem outputs_passed (recorded : ∀ u ∈ l.body, run.walk.outputs.get u ≠ []) (u : Nat) :
    (passed lay region w id l run).1.outputs.get u =
      if u ∈ l.body then run.walk.outputs.get u else w.outputs.get u := by
  show (leaveLoop lay region _ l run.walk.outputs l.exits).1.outputs.get u = _
  rw [(leaveLoop_frame _ _ _ _).1, StateMap.get_takeOver]
  by_cases hu : u ∈ l.body
  · rw [if_pos ⟨hu, recorded u hu⟩, if_pos hu]
  · rw [if_neg fun h => hu h.1, if_neg hu]

theorem outputs_passed_of_mem (recorded : ∀ u ∈ l.body, run.walk.outputs.get u ≠ []) (hu : u ∈ l.body) :
    (passed lay region w id l run).1.outputs.get u = run.walk.outputs.get u := by
  rw [outputs_passed recorded, if_pos hu]

theorem outputs_passed_of_not_mem (recorded : ∀ u ∈ l.body, run.walk.outputs.get u ≠ []) (hu : u ∉ l.body) :
    (passed lay region w id l run).1.outputs.get u = w.outputs.get u := by
  rw [outputs_passed recorded, if_neg hu]

theorem inputs_passed (n : Nat) :
    (passed lay region w id l run).1.inputs.get n =
      (if n ∈ l.body ∧ n ≠ l.head ∧ run.walk.inputs.get n ≠ [] then run.walk.inputs.get n else w.inputs.get n) ++
        if n ∈ l.body then [] else arrivals lay region run.walk.outputs l.exits n := by
  show (leaveLoop lay region _ l run.walk.outputs l.exits).1.inputs.get n = _
  rw [get_leaveLoop, StateMap.get_takeOver]
  have contains : l.contains n = true ↔ n ∈ l.body := List.contains_iff_mem
  simp only [contains, List.mem_filter, decide_eq_true_eq, and_assoc]

theorem mem_passed : n ∈ (passed lay region w id l run).2 ↔ n ∉ l.body ∧
    ∃ e ∈ l.exits, n ∈ ((lay.flow.succs e).zip (run.walk.outputs.get e)).map (·.1) ∧ lay.loopClosedBy? e n = none := by
  show n ∈ (leaveLoop lay region _ l run.walk.outputs l.exits).2 ↔ _
  rw [mem_leaveLoop, ← Bool.not_eq_true, show l.contains n = true ↔ n ∈ l.body from List.contains_iff_mem]

/-- A loop hands states on over the forward edges that leave its body. -/
theorem mem_passed_forward (reg : lay.Regular) (found : lay.loops[id]? = some l)
    (fits : ∀ u ∈ l.body, (run.walk.outputs.get u).length = (lay.flow.succs u).length) :
    n ∈ (passed lay region w id l run).2 ↔ n ∉ l.body ∧ ∃ u ∈ l.body, lay.flow.Forward u n := by
  have natural := reg.natural found
  rw [mem_passed]
  refine and_congr_right fun out => ?_
  constructor
  · rintro ⟨e, he, sent, none⟩
    have he := natural.body.mpr (natural.exits.mp he).1
    have s := (mem_zip_succs fun _ => fits e he).mp sent
    exact ⟨e, he, (closedBy_none_iff reg s).mp none⟩
  · rintro ⟨u, hu, s⟩
    refine ⟨u, natural.exits.mpr ⟨natural.body.mp hu, n, s.1, fun mn => out (natural.body.mpr mn)⟩, ?_, ?_⟩
    · exact (mem_zip_succs fun _ => fits u hu).mpr s.1
    · exact (closedBy_none_iff reg s.1).mpr s

/-- Only its exits send anything out of a loop. -/
theorem arrivals_exits (reg : lay.Regular) (found : lay.loops[id]? = some l) (outputs : StateMap)
    (out : ¬ lay.flow.InLoop l.head n) :
    (arrivals lay region outputs l.exits n).Perm (arrivals lay region outputs l.body n) := by
  have natural := reg.natural found
  refine (flatMap_perm_of_subset natural.nodup natural.exits_nodup
    (fun u hu => natural.body.mpr (natural.exits.mp hu).1) fun u hu no => ?_).symm
  have : ¬ lay.flow.Edge u n := fun s => no (natural.exits.mpr ⟨natural.body.mp hu, n, s, out⟩)
  unfold kept
  rw [along_eq_nil this]
  exact ite_self _

/-- Inside a loop the arrivals are those of the walk over its body. -/
theorem arrivals_nested (reg : lay.Regular) (hr : region.Walked lay) (found : lay.loops[id]? = some l)
    {nested : List Nat} (rec : Record lay (.ofLoop id l) states nested run.walk)
    (all : ∀ {n}, (Region.ofLoop id l).Inside lay n → n ∈ nested) (ne : n ≠ l.head) (ne' : n ≠ region.root) :
    (arrivals lay (.ofLoop id l) run.walk.outputs nested n).Perm (arrivals lay region run.walk.outputs l.body n) := by
  have natural := reg.natural found
  have same : nested.Perm l.body := by
    refine (List.perm_ext_iff_of_nodup rec.nodup natural.nodup).mpr fun u => ?_
    rw [natural.body, ← Region.inside_ofLoop reg found]
    exact ⟨rec.inside, all⟩
  have regions : kept lay (.ofLoop id l) run.walk.outputs n = kept lay region run.walk.outputs n := by
    funext u
    unfold kept
    rw [(Region.Walked.loop found).keeps_eq reg (Region.notOwn_of_ne ne), hr.keeps_eq reg (Region.notOwn_of_ne ne')]
  unfold arrivals
  rw [regions]
  exact same.flatMap_right _

/-- The body of a loop that is about to be passed has been handed nothing, but for its head. -/
theorem Sched.untouched (reg : lay.Regular) (hr : region.Walked lay)
    (sched : Sched lay region start done w (l.head :: queue) pending postponed) (found : lay.loops[id]? = some l)
    (inner : region.Inner lay l.head) :
    (∀ u ∈ l.body, u ∉ done) ∧ ∀ n ∈ l.body, n ≠ l.head → n ≠ region.root ∧
      arrivals lay region w.outputs done n = [] ∧ w.inputs.get n = [] := by
  have natural := reg.natural found
  obtain ⟨m, notDone, _⟩ := sched.queued.mp List.mem_cons_self
  have disjoint : ∀ u ∈ l.body, u ∉ done := fun u hu hd =>
    notDone (sched.loops inner (natural.body.mp hu) hd natural.head)
  refine ⟨disjoint, fun n hn ne => ?_⟩
  have mn := natural.body.mp hn
  have notRoot : n ≠ region.root := by
    intro root
    exact ne (root.trans (hr.inner_root reg inner (root ▸ mn)).symm)
  have none : arrivals lay region w.outputs done n = [] := by
    refine arrivals_eq_nil fun u hu s => absurd hu (disjoint u (natural.body.mpr ?_))
    exact mn.pred ne s (sched.inside hu).1
  obtain ⟨b, inputs, perm⟩ := sched.arrived (hr.inner_inside reg inner mn)
  rw [none] at perm
  rw [if_neg notRoot, perm.eq_nil] at inputs
  exact ⟨notRoot, none, inputs⟩

theorem Sched.inputs_nested (reg : lay.Regular) (hr : region.Walked lay)
    (sched : Sched lay region start done w (l.head :: queue) pending postponed) (found : lay.loops[id]? = some l)
    (inner : region.Inner lay l.head) (hn : n ∈ l.body) (ne : n ≠ l.head) :
    (passed lay region w id l run).1.inputs.get n = run.walk.inputs.get n := by
  obtain ⟨_, _, empty⟩ := (sched.untouched reg hr found inner).2 n hn ne
  rw [inputs_passed, if_pos hn, List.append_nil]
  by_cases nothing : run.walk.inputs.get n = []
  · rw [if_neg fun h => h.2.2 nothing, empty, nothing]
  · rw [if_pos ⟨hn, ne, nothing⟩]

/-- Passing a loop adds nothing to its head and to the statements that are done, unless they head the loop being
walked. -/
theorem Sched.frame_pass (reg : lay.Regular) (hr : region.Walked lay)
    (sched : Sched lay region start done w (l.head :: queue) pending postponed) (found : lay.loops[id]? = some l)
    (inner : region.Inner lay l.head) (hn : n ∈ done ∨ n = l.head) (own : region.isOwnHead n = false) :
    (passed lay region w id l run).1.inputs.get n = w.inputs.get n := by
  have natural := reg.natural found
  have disjoint := (sched.untouched reg hr found inner).1
  rw [inputs_passed]
  rcases hn with hn | rfl
  · have out : n ∉ l.body := fun hb => disjoint n hb hn
    have none : arrivals lay region run.walk.outputs l.exits n = [] := by
      refine arrivals_eq_nil fun u hu s => ?_
      have mu := (natural.exits.mp hu).1
      exact sched.nothing_kept reg hr hn own (hr.inner_inside reg inner mu) (disjoint u (natural.body.mpr mu)) s
    rw [if_neg fun h => out h.1, if_neg out, none, List.append_nil]
  · rw [if_neg fun h => h.2.1 rfl, if_pos (natural.body.mpr natural.head), List.append_nil]

theorem Sched.closed_pass (reg : lay.Regular) (hr : region.Walked lay)
    (sched : Sched lay region start done w (l.head :: queue) pending postponed) (ready : ¬ Waiting lay region w l.head)
    (found : lay.loops[id]? = some l) (hn : n ∈ done ++ l.body) (s : lay.flow.Forward u n)
    (hu : region.Inside lay u) : u ∈ done ++ l.body := by
  have natural := reg.natural found
  rcases List.mem_append.mp hn with hn | hn
  · exact List.mem_append_left _ (sched.closed hn s hu)
  · by_cases e : n = l.head
    · subst e
      obtain ⟨m, _, _⟩ := sched.queued.mp List.mem_cons_self
      exact List.mem_append_left _ (sched.ready_closed reg hr m ready s hu)
    · exact List.mem_append_right _ (natural.body.mpr ((natural.body.mp hn).pred e s.1 hu.1))

/-- Every statement has then been handed what those that are done, and the loop, send to it. -/
theorem Sched.arrived_pass (reg : lay.Regular) (hr : region.Walked lay)
    (sched : Sched lay region start done w (l.head :: queue) pending postponed) (found : lay.loops[id]? = some l)
    (inner : region.Inner lay l.head) (complete : Complete lay (.ofLoop id l) states run.walk)
    (m : region.Inside lay n) : ∃ b, (passed lay region w id l run).1.inputs.get n =
      (if n = region.root then start else []) ++ b ∧
      b.Perm (arrivals lay region (passed lay region w id l run).1.outputs (done ++ l.body) n) := by
  have natural := reg.natural found
  obtain ⟨disjoint, untouched⟩ := sched.untouched reg hr found inner
  have recorded := complete.outputs_ne reg found
  obtain ⟨b, inputs, perm⟩ := sched.arrived m
  rw [arrivals_append, arrivals_congr fun u hu => outputs_passed_of_not_mem recorded fun hb => disjoint u hb hu,
    arrivals_congr fun u hu => outputs_passed_of_mem recorded hu]
  by_cases hb : n ∈ l.body
  · by_cases e : n = l.head
    · -- The head: what closes the loop is not kept.
      subst e
      have none : arrivals lay region run.walk.outputs l.body l.head = [] :=
        arrivals_eq_nil fun u hu _ => hr.keeps_inner reg found inner (natural.body.mp hu)
      rw [sched.frame_pass reg hr found inner (.inr rfl) inner.2.2, none, List.append_nil]
      exact ⟨b, inputs, perm⟩
    · -- The rest of the body: nothing comes from outside.
      obtain ⟨notRoot, none, _⟩ := untouched n hb e
      obtain ⟨nested, rec, all⟩ := complete
      obtain ⟨c, received, arrived⟩ := rec.arrived ((Region.inside_ofLoop reg found).mpr (natural.body.mp hb))
      have notHead : ¬ n = (Region.ofLoop id l).root := e
      rw [if_neg notHead, List.nil_append] at received
      rw [sched.inputs_nested reg hr found inner hb e, none, List.nil_append, if_neg notRoot]
      exact ⟨c, received, arrived.trans (arrivals_nested reg hr found rec all e notRoot)⟩
  · -- Outside the loop: what the exits send.
    rw [inputs_passed, if_neg hb, if_neg fun h => hb h.1, inputs, List.append_assoc]
    exact ⟨_, rfl, perm.append (arrivals_exits reg found _ fun mn => hb (natural.body.mpr mn))⟩

/-- After a loop is passed, what was done before and what its body did are both on record. -/
theorem Sched.ran_pass (reg : lay.Regular) (hr : region.Walked lay)
    (sched : Sched lay region start done w (l.head :: queue) pending postponed) (found : lay.loops[id]? = some l)
    (inner : region.Inner lay l.head) (complete : Complete lay (.ofLoop id l) states run.walk) (hu : u ∈ done ++ l.body)
    (headless : lay.loopHeadedBy? u = none) :
    Executes lay u ((passed lay region w id l run).1.inputs.get u)
      ((passed lay region w id l run).1.outputs.get u) := by
  have natural := reg.natural found
  have disjoint := (sched.untouched reg hr found inner).1
  have recorded := complete.outputs_ne reg found
  rcases List.mem_append.mp hu with hu | hu
  · rw [sched.frame_pass reg hr found inner (.inl hu) (hr.notOwn_of_plain reg headless),
      outputs_passed_of_not_mem recorded fun hb => disjoint u hb hu]
    exact sched.ran hu headless
  · have ne : u ≠ l.head := by
      rintro rfl
      exact reg.headedBy_none.mp headless natural.head
    rw [sched.inputs_nested reg hr found inner hu ne, outputs_passed_of_mem recorded hu]
    obtain ⟨nested, rec, all⟩ := complete
    exact rec.ran (all ((Region.inside_ofLoop reg found).mpr (natural.body.mp hu))) headless

/-- Passing a loop that is ready keeps the schedule, with its whole body done. -/
theorem Sched.pass (tame : lay.Tame) (hr : region.Walked lay)
    (sched : Sched lay region start done w (i :: queue) pending postponed) (ready : ¬ Waiting lay region w i)
    (toPass : loopToPass? lay region i = some id) (found : lay.loops[id]? = some l)
    (complete : Complete lay (.ofLoop id l) states run.walk) :
    let r := passed lay region w id l run
    Sched lay region start (done ++ l.body) r.1 (enqueue region queue r.2) (pending.erase i) 0 := by
  have reg := tame.toRegular
  have natural := reg.natural found
  obtain ⟨m, notDone, _⟩ := sched.queued.mp List.mem_cons_self
  obtain ⟨k, found', rfl, inner⟩ := Region.loopToPass?_some reg m toPass
  rw [found] at found'
  cases found'
  have disjoint := (sched.untouched reg hr found inner).1
  have recorded := complete.outputs_ne reg found
  have fits : ∀ u ∈ l.body, (run.walk.outputs.get u).length = (lay.flow.succs u).length := fun u hu =>
    complete.fits reg found (natural.body.mp hu)
  intro r
  refine sched.requeue l.body ⟨?_, ?_, fun hn s hu => sched.closed_pass reg hr ready found hn s hu, ?_, ?_,
    fun m => sched.arrived_pass reg hr found inner complete m,
    fun hu headless => sched.ran_pass reg hr found inner complete hu headless⟩ (natural.body.mpr natural.head)
    (fun j hj hq => (sched.outer reg hr hq inner (natural.body.mp hj)).symm) (mem_passed_forward reg found fits)
  · refine List.nodup_append.mpr ⟨sched.nodup, natural.nodup, fun a ha b hb e => ?_⟩
    exact disjoint b hb (e ▸ ha)
  · intro j hj
    rcases List.mem_append.mp hj with hj | hj
    · exact sched.inside hj
    · exact hr.inner_inside reg inner (natural.body.mp hj)
  · intro h u j innerH mu hu mj
    rcases List.mem_append.mp hu with hu | hu
    · exact List.mem_append_left _ (sched.loops innerH mu hu mj)
    · exact List.mem_append_right _
        (natural.encloses (fun around => sched.outer reg hr List.mem_cons_self innerH around) hu mu mj)
  · intro u hu
    rcases List.mem_append.mp hu with hu | hu
    · rw [outputs_passed_of_not_mem recorded fun hb => disjoint u hb hu]
      exact sched.fits u hu
    · rw [outputs_passed_of_mem recorded hu]
      exact fun _ => fits u hu

end Pass

end Walk

end PathMerge
