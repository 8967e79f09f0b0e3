/-
  PathMerge.Proofs.Coverage — a walk leaves no live statement and no loop out.

  Nothing is assumed of the graph here: in a graph that is not reducible, or with edges from dead statements, a walk
  may stall and take statements with part of their states, and statements may come late. Still, whatever a statement
  leads to is carried out, waits in the queue, or is where the walk stops (`Progress.ahead`); a nested loop has been
  carried out as a whole or not at all; and only statements that have been handed something are queued. So when the
  queue is empty and the walk stops nowhere, everything has been carried out (`Progress.covers`).

  `Ledger` says what is written down for the statements that were carried out: one state for each edge, or one where
  there is no edge, and one summary for each loop that was passed. The only way to fail is a function that is applied
  to another number of arguments than are registered (`ofMethod_attempts`).
-/

import PathMerge.Proofs.Applications
import PathMerge.Proofs.Passes

namespace PathMerge

open Context PathMerge.Flow Relation

/-! ## Summaries -/

namespace Summaries

variable {m more : Summaries} {id n : Nat} {s : LoopSummary} {e : Nat × LoopSummary}

def keys (m : Summaries) : List Nat := m.map (·.1)

def insertAll (m more : Summaries) : Summaries := more.foldl (fun m (n, s) => m.insert n s) m

theorem mem_insert (h : e ∈ m.insert id s) : e = (id, s) ∨ e ∈ m := by
  induction m with
  | nil => exact .inl (List.mem_singleton.mp h)
  | cons first rest ih =>
    obtain ⟨k, t⟩ := first
    simp only [insert] at h
    split at h
    · simpa using h
    · split at h
      · rcases List.mem_cons.mp h with h | h
        · exact .inr (h ▸ List.mem_cons_self)
        · exact (ih h).imp_right (List.mem_cons_of_mem _)
      · rcases List.mem_cons.mp h with h | h
        · exact .inl h
        · exact .inr (List.mem_cons_of_mem _ h)

theorem mem_keys_insert : n ∈ (m.insert id s).keys ↔ n = id ∨ n ∈ m.keys := by
  unfold keys
  induction m with
  | nil => simp [insert]
  | cons first rest ih =>
    obtain ⟨k, t⟩ := first
    simp only [insert]
    split
    · simp
    · split
      · simp only [List.map_cons, List.mem_cons, ih]
        tauto
      · have same : k = id := by omega
        simp [same]

theorem insert_sorted (h : m.keys.Pairwise (· < ·)) : (m.insert id s).keys.Pairwise (· < ·) := by
  induction m with
  | nil => simp [insert, keys]
  | cons first rest ih =>
    obtain ⟨k, t⟩ := first
    obtain ⟨first, sorted⟩ := List.pairwise_cons.mp h
    simp only [insert]
    split
    · rename_i less
      refine List.pairwise_cons.mpr ⟨fun n hn => ?_, h⟩
      rcases List.mem_cons.mp hn with rfl | hn
      · exact less
      · exact Nat.lt_trans less (first n hn)
    · split
      · rename_i more
        refine List.pairwise_cons.mpr ⟨fun n hn => ?_, ih sorted⟩
        rcases mem_keys_insert.mp hn with rfl | hn
        · exact more
        · exact first n hn
      · have same : id = k := by omega
        exact same ▸ h

theorem mem_insertAll (h : e ∈ m.insertAll more) : e ∈ more ∨ e ∈ m := by
  induction more generalizing m with
  | nil => exact .inr h
  | cons first rest ih =>
    rcases ih h with h | h
    · exact .inl (List.mem_cons_of_mem _ h)
    · rcases mem_insert h with rfl | h
      · exact .inl List.mem_cons_self
      · exact .inr h

theorem mem_keys_insertAll : n ∈ (m.insertAll more).keys ↔ n ∈ more.keys ∨ n ∈ m.keys := by
  induction more generalizing m with
  | nil => simp [insertAll, keys]
  | cons first rest ih =>
    show n ∈ ((m.insert first.1 first.2).insertAll rest).keys ↔ n ∈ first.1 :: Summaries.keys rest ∨ n ∈ m.keys
    rw [ih, mem_keys_insert, List.mem_cons]
    tauto

theorem insertAll_sorted (h : m.keys.Pairwise (· < ·)) : (m.insertAll more).keys.Pairwise (· < ·) := by
  induction more generalizing m with
  | nil => exact h
  | cons first rest ih => exact ih (insert_sorted h)

end Summaries

def State.Usable (r : Registry) (ctx : Context) (s : State) : Prop := s.Valid ctx ∧ s.Within r

namespace Walk

variable {lay : Layout} {region : Region} {r : Registry} {w w' : Walk} {i n : Nat} {queue queue' pending : List Nat}
  {ctx : Context} {start : List State} {id : Nat} {l : Loop} {run : LoopRun}
  {summarise : Nat → List State → ContextM LoopRun}

/-! ## What is written down -/

def Ran (w : Walk) (i : Nat) : Prop := w.outputs.get i ≠ []

structure Ledger (lay : Layout) (region : Region) (r : Registry) (w : Walk) : Prop where
  inside : ∀ {i}, w.Ran i → region.Inside lay i
  loops : ∀ {h u j}, region.Inner lay h → lay.flow.InLoop h u → w.Ran u → lay.flow.InLoop h j → w.Ran j
  length : ∀ {i}, w.Ran i → (w.outputs.get i).length = max (lay.flow.succs i).length 1
  fits : ∀ {i}, w.Ran i → FitsAt lay r i
  sorted : w.summaries.keys.Pairwise (· < ·)
  summarised : ∀ {id}, id ∈ w.summaries.keys ↔
    ∃ l, lay.loops[id]? = some l ∧ region.Inner lay l.head ∧ w.Ran l.head
  headed : ∀ {e}, e ∈ w.summaries → ∃ l, lay.loops[e.1]? = some l ∧ e.2.head = l.head

/-- The walk is underway. A statement in the queue lies in no nested loop but, perhaps, the one it heads. -/
structure Progress (lay : Layout) (region : Region) (r : Registry) (w : Walk) (queue pending : List Nat) : Prop
    extends Ledger lay region r w where
  queued : ∀ {n}, n ∈ queue → region.Inside lay n ∧ w.inputs.get n ≠ []
  outer : ∀ {n h}, n ∈ queue → region.Inner lay h → lay.flow.InLoop h n → h = n
  ahead : ∀ {u n}, w.Ran u → lay.flow.Forward u n → region.contains n = true →
    w.Ran n ∨ n ∈ queue ∨ n ∈ region.stops
  root : w.Ran region.root ∨ region.root ∈ queue ∨ region.root ∈ region.stops
  pending : ∀ {n}, region.Inside lay n → w.Ran n ∨ n ∈ pending

structure Covers (lay : Layout) (region : Region) (r : Registry) (w : Walk) : Prop extends Ledger lay region r w where
  all : ∀ {n}, region.Inside lay n → w.Ran n

theorem Ledger.fits_edges (h : Ledger lay region r w) (ran : w.Ran i) (some : lay.flow.succs i ≠ []) :
    (w.outputs.get i).length = (lay.flow.succs i).length := by
  have pos := List.length_pos_of_ne_nil some
  have := h.length ran
  omega

namespace Progress

/-- A walk starts with its root in the queue and everything it has to cover still ahead. -/
theorem start_progress (reg : lay.Regular) (hw : region.Walked lay) (some : start ≠ []) :
    Progress lay region r (Walk.start region.root start) [region.root] lay.flow.positions := by
  have none : ∀ {i}, ¬ (Walk.start region.root start).Ran i := fun ran => ran rfl
  refine ⟨⟨fun ran => absurd ran none, fun _ _ ran => absurd ran none, fun ran => absurd ran none,
    fun ran => absurd ran none, .nil, ?_, nofun⟩, ?_, ?_, fun ran => absurd ran none, .inr
    (.inl List.mem_cons_self), ?_⟩
  · intro id
    refine ⟨nofun, fun summarised => ?_⟩
    obtain ⟨_, _, _, ran⟩ := summarised
    exact absurd ran none
  · intro n hn
    rw [List.mem_singleton.mp hn]
    refine ⟨hw.root_inside reg, ?_⟩
    rw [show (Walk.start region.root start).inputs.get region.root = start from if_pos rfl]
    exact some
  · intro n h hn inner m
    rw [List.mem_singleton.mp hn] at m ⊢
    exact hw.inner_root reg inner m
  · exact fun inside => .inr (List.mem_range.mpr (inside.1.lt reg.filled))

/-- The first statement of the queue may be left out if it was carried out before or if the walk stops there. -/
theorem skip (h : Progress lay region r w (i :: queue) pending) (out : w.Ran i ∨ i ∈ region.stops) :
    Progress lay region r w queue pending := by
  have elsewhere : ∀ {n}, w.Ran n ∨ n ∈ i :: queue ∨ n ∈ region.stops → w.Ran n ∨ n ∈ queue ∨ n ∈ region.stops := by
    intro n met
    rw [List.mem_cons] at met
    rcases met with ran | (rfl | hn) | stop
    · exact .inl ran
    · exact out.imp_right .inr
    · exact .inr (.inl hn)
    · exact .inr (.inr stop)
  exact ⟨h.toLedger, fun hn => h.queued (List.mem_cons_of_mem _ hn), fun hn => h.outer (List.mem_cons_of_mem _ hn),
    fun ran s contains => elsewhere (h.ahead ran s contains), elsewhere h.root, h.pending⟩

theorem reorder (h : Progress lay region r w queue pending) (same : ∀ {n}, n ∈ queue' ↔ n ∈ queue) :
    Progress lay region r w queue' pending := by
  refine ⟨h.toLedger, fun hn => h.queued (same.mp hn), fun hn => h.outer (same.mp hn), fun ran s contains => ?_,
    ?_, h.pending⟩
  · rw [same]
    exact h.ahead ran s contains
  · rw [same]
    exact h.root

/-- Once the statements with `M` are carried out too, the queue holds what they lead to. -/
theorem advance (h : Progress lay region r w (i :: queue) pending) {M : Nat → Prop} {next : List Nat}
    (ledger : Ledger lay region r w') (ran : ∀ {n}, w'.Ran n ↔ w.Ran n ∨ M n) (hi : M i)
    (inputs : ∀ {n}, n ∈ queue ∧ w.inputs.get n ≠ [] ∨ n ∈ next → w'.inputs.get n ≠ [])
    (outer : ∀ {n h}, n ∈ next → region.Inner lay h → lay.flow.InLoop h n → h = n)
    (mem : ∀ {n}, n ∈ next ↔ ¬ M n ∧ ∃ u, M u ∧ lay.flow.Forward u n) :
    Progress lay region r w' (enqueue region queue next) (pending.erase i) := by
  have later : ∀ {n}, w.Ran n ∨ n ∈ i :: queue ∨ n ∈ region.stops →
      w'.Ran n ∨ n ∈ enqueue region queue next ∨ n ∈ region.stops := by
    intro n met
    rw [List.mem_cons] at met
    rw [ran, mem_enqueue]
    rcases met with old | (rfl | hn) | stop
    · exact .inl (.inl old)
    · exact .inl (.inr hi)
    · exact .inr (.inl (.inl hn))
    · exact .inr (.inr stop)
  refine ⟨ledger, fun {n} hn => ?_, fun {n k} hn => ?_, fun {u n} old s contains => ?_, later h.root,
    fun {n} inside => ?_⟩
  · rcases mem_enqueue queue next |>.mp hn with hn | ⟨hn, contains⟩
    · obtain ⟨inside, some⟩ := h.queued (List.mem_cons_of_mem _ hn)
      exact ⟨inside, inputs (.inl ⟨hn, some⟩)⟩
    · obtain ⟨_, u, hu, s⟩ := mem.mp hn
      exact ⟨⟨(ledger.inside (ran.mpr (.inr hu))).1.edge s.1, contains⟩, inputs (.inr hn)⟩
  · rcases mem_enqueue queue next |>.mp hn with hn | ⟨hn, _⟩
    · exact h.outer (List.mem_cons_of_mem _ hn)
    · exact outer hn
  · rcases ran.mp old with old | new
    · exact later (h.ahead old s contains)
    · by_cases done : M n
      · exact .inl (ran.mpr (.inr done))
      · exact .inr (.inl ((mem_enqueue queue next).mpr (.inr ⟨mem.mpr ⟨done, u, new, s⟩, contains⟩)))
  · rcases h.pending inside with old | hn
    · exact .inl (ran.mpr (.inl old))
    · by_cases same : n = i
      · exact .inl (ran.mpr (.inr (same ▸ hi)))
      · exact .inr ((List.mem_erase_of_ne same).mpr hn)

end Progress

/-! ## What is handed on -/

/-- A state that is sent over an edge that closes no loop is kept. -/
theorem kept_ne {outputs : StateMap} {u : Nat} (sent : n ∈ ((lay.flow.succs u).zip (outputs.get u)).map (·.1))
    (none : lay.loopClosedBy? u n = none) : kept lay region outputs n u ≠ [] := by
  have keep : keeps lay region u n = true := by
    unfold keeps
    rw [none]
  obtain ⟨e, he, same⟩ := List.mem_map.mp sent
  unfold kept
  rw [if_pos keep]
  exact List.ne_nil_of_mem (List.mem_filterMap.mpr ⟨e, he, if_pos same⟩)

/-- What is queued after a statement has been carried out has been handed a state. -/
theorem inputs_recorded_ne {outs : List State} (met : w.inputs.get n ≠ [] ∨ n ∈ (recorded lay region w i outs).2) :
    (recorded lay region w i outs).1.inputs.get n ≠ [] := by
  rw [inputs_recorded]
  rcases met with some | next
  · simp [some]
  · obtain ⟨sent, none⟩ := mem_recorded.mp next
    have own : (recorded lay region w i outs).1.outputs.get i = outs := by
      rw [outputs_recorded, if_pos rfl]
    rw [← own] at sent
    simp [kept_ne sent none]

/-- What is queued after a loop has been passed has been handed a state. -/
theorem inputs_passed_ne (met : w.inputs.get n ≠ [] ∨ n ∈ (passed lay region w id l run).2) :
    (passed lay region w id l run).1.inputs.get n ≠ [] := by
  rw [inputs_passed]
  rcases met with some | next
  · split
    · rename_i replaced
      simp [replaced.2.2]
    · simp [some]
  · obtain ⟨out, e, he, sent, none⟩ := mem_passed.mp next
    have arrived : arrivals lay region run.walk.outputs l.exits n ≠ [] := fun nothing =>
      kept_ne sent none (List.flatMap_eq_nil_iff.mp nothing e he)
    simp [out, arrived]

/-! ## Carrying out a statement -/

theorem ran_recorded {outs : List State} (some : outs ≠ []) {j : Nat} :
    (recorded lay region w i outs).1.Ran j ↔ w.Ran j ∨ j = i := by
  unfold Ran
  rw [outputs_recorded]
  by_cases same : j = i
  · simp [same, some]
  · simp [same]

/-- The books after a statement that heads no nested loop. -/
theorem Ledger.step (h : Ledger lay region r w) (inside : region.Inside lay i) (notInner : ¬ region.Inner lay i)
    (outer : ∀ {k}, region.Inner lay k → lay.flow.InLoop k i → k = i) {outs : List State}
    (length : outs.length = max (lay.flow.succs i).length 1) (fits : FitsAt lay r i) (some : outs ≠ []) :
    Ledger lay region r (recorded lay region w i outs).1 := by
  have summaries : (recorded lay region w i outs).1.summaries = w.summaries := (deliverAll_frame _ _ _).2
  refine ⟨?_, ?_, ?_, ?_, ?_, ?_, ?_⟩
  · intro j hj
    rcases (ran_recorded some).mp hj with hj | rfl
    · exact h.inside hj
    · exact inside
  · intro k u j inner mu hu mj
    rcases (ran_recorded some).mp hu with hu | rfl
    · exact (ran_recorded some).mpr (.inl (h.loops inner mu hu mj))
    · exact absurd (outer inner mu ▸ inner) notInner
  · intro j hj
    rw [outputs_recorded]
    by_cases same : j = i
    · rw [if_pos same, same]
      exact length
    · rw [if_neg same]
      exact h.length (((ran_recorded some).mp hj).resolve_right same)
  · intro j hj
    rcases (ran_recorded some).mp hj with hj | rfl
    · exact h.fits hj
    · exact fits
  · rw [summaries]
    exact h.sorted
  · intro id
    rw [summaries, h.summarised]
    refine exists_congr fun l => and_congr_right fun _ => and_congr_right fun inner => ?_
    rw [ran_recorded some]
    refine ⟨.inl, fun met => met.resolve_right ?_⟩
    intro same
    exact notInner (same ▸ inner)
  · rw [summaries]
    exact h.headed

/-- Carrying out a plain statement moves it from what is pending to what is covered. -/
theorem Progress.step (reg : lay.Regular) (h : Progress lay region r w (i :: queue) pending)
    (plain : loopToPass? lay region i = none) {outs : List State}
    (length : outs.length = max (lay.flow.succs i).length 1) (fits : FitsAt lay r i) :
    Progress lay region r (recorded lay region w i outs).1
      (enqueue region queue (recorded lay region w i outs).2) (pending.erase i) := by
  obtain ⟨inside, _⟩ := h.queued List.mem_cons_self
  have notInner := (Region.loopToPass?_none reg inside).mp plain
  have some : outs ≠ [] := List.ne_nil_of_length_pos (by omega)
  have edges : lay.flow.succs i ≠ [] → outs.length = (lay.flow.succs i).length := by
    intro some
    have := List.length_pos_of_ne_nil some
    omega
  have next : ∀ {n}, n ∈ (recorded lay region w i outs).2 ↔ n ≠ i ∧ lay.flow.Forward i n :=
    mem_recorded_forward reg inside.1 edges
  refine h.advance (M := fun j => j = i)
    (h.toLedger.step inside notInner (fun inner m => h.outer List.mem_cons_self inner m) length fits some)
    (ran_recorded some) rfl (fun met => inputs_recorded_ne (met.imp_left fun old => old.2)) ?_ fun {n} => ?_
  · intro n k hn inner m
    obtain ⟨_, s⟩ := next.mp hn
    by_contra ne
    have mi := m.pred (Ne.symm ne) s.1 inside.1
    exact notInner (h.outer List.mem_cons_self inner mi ▸ inner)
  · rw [next, exists_eq_left]

/-! ## Passing a loop -/

theorem ran_passed (nested : ∀ u ∈ l.body, run.walk.Ran u) {j : Nat} :
    (passed lay region w id l run).1.Ran j ↔ w.Ran j ∨ j ∈ l.body := by
  unfold Ran
  by_cases hj : j ∈ l.body
  · have ran : run.walk.outputs.get j ≠ [] := nested j hj
    simp [outputs_passed_of_mem nested hj, hj, ran]
  · simp [outputs_passed_of_not_mem nested hj, hj]

/-- The statements of a loop that was walked as a whole have been carried out. -/
theorem Covers.body (reg : lay.Regular) (found : lay.loops[id]? = some l) (covers : Covers lay (.ofLoop id l) r w) :
    ∀ u ∈ l.body, w.Ran u := by
  intro u hu
  exact covers.all ((Region.inside_ofLoop reg found).mpr ((reg.natural found).body.mp hu))

/-- The loops summarised then are those before, this one, and those nested in it. -/
theorem Ledger.summarised_pass (reg : lay.Regular) (hw : region.Walked lay) (h : Ledger lay region r w)
    (found : lay.loops[id]? = some l) (inner : region.Inner lay l.head)
    (covers : Covers lay (.ofLoop id l) r run.walk) :
    n ∈ ((w.summaries.insertAll run.walk.summaries).insert id run.summary).keys ↔
      ∃ k, lay.loops[n]? = some k ∧ region.Inner lay k.head ∧ (passed lay region w id l run).1.Ran k.head := by
  have natural := reg.natural found
  have nested := covers.body reg found
  rw [Summaries.mem_keys_insert, Summaries.mem_keys_insertAll, covers.summarised, h.summarised]
  constructor
  · rintro (rfl | ⟨k, found', innerK, ranK⟩ | ⟨k, found', innerK, ranK⟩)
    · exact ⟨l, found, inner, (ran_passed nested).mpr (.inr (natural.body.mpr natural.head))⟩
    · have inLoop := (Region.inside_ofLoop reg found).mp innerK.2.1
      exact ⟨k, found', hw.nested reg found inner innerK, (ran_passed nested).mpr (.inr (natural.body.mpr inLoop))⟩
    · exact ⟨k, found', innerK, (ran_passed nested).mpr (.inl ranK)⟩
  · rintro ⟨k, found', innerK, ranK⟩
    rcases (ran_passed nested).mp ranK with ranK | hk
    · exact .inr (.inr ⟨k, found', innerK, ranK⟩)
    · by_cases same : k.head = l.head
      · exact .inl (reg.unique found' found same)
      · have inLoop := (Region.inside_ofLoop reg found).mpr (natural.body.mp hk)
        exact .inr (.inl ⟨k, found', ⟨innerK.1, inLoop, decide_eq_false same⟩, nested _ hk⟩)

/-- The books after a loop that was walked as a whole. -/
theorem Ledger.pass (reg : lay.Regular) (hw : region.Walked lay) (h : Ledger lay region r w)
    (found : lay.loops[id]? = some l) (inner : region.Inner lay l.head)
    (outer : ∀ {k}, region.Inner lay k → lay.flow.InLoop k l.head → k = l.head)
    (covers : Covers lay (.ofLoop id l) r run.walk) (named : run.summary.head = l.head) :
    Ledger lay region r (passed lay region w id l run).1 := by
  have natural := reg.natural found
  have nested := covers.body reg found
  have summaries : (passed lay region w id l run).1.summaries =
      (w.summaries.insertAll run.walk.summaries).insert id run.summary := (leaveLoop_frame _ _ _ _).2
  refine ⟨?_, ?_, ?_, ?_, ?_, fun {n} => ?_, ?_⟩
  · intro j hj
    rcases (ran_passed nested).mp hj with hj | hj
    · exact h.inside hj
    · exact hw.inner_inside reg inner (natural.body.mp hj)
  · intro k u j innerK mu hu mj
    rcases (ran_passed nested).mp hu with hu | hu
    · exact (ran_passed nested).mpr (.inl (h.loops innerK mu hu mj))
    · exact (ran_passed nested).mpr (.inr (natural.encloses (outer innerK) hu mu mj))
  · intro j hj
    by_cases hb : j ∈ l.body
    · rw [outputs_passed_of_mem nested hb]
      exact covers.length (nested j hb)
    · rw [outputs_passed_of_not_mem nested hb]
      exact h.length (((ran_passed nested).mp hj).resolve_right hb)
  · intro j hj
    rcases (ran_passed nested).mp hj with hj | hj
    · exact h.fits hj
    · exact covers.fits (nested j hj)
  · rw [summaries]
    exact Summaries.insert_sorted (Summaries.insertAll_sorted h.sorted)
  · rw [summaries]
    exact h.summarised_pass reg hw found inner covers
  · intro e he
    rw [summaries] at he
    rcases Summaries.mem_insert he with rfl | he
    · exact ⟨l, found, named⟩
    · rcases Summaries.mem_insertAll he with he | he
      · exact covers.headed he
      · exact h.headed he

/-- Passing an inner loop covers its whole body in one turn. -/
theorem Progress.pass (reg : lay.Regular) (hw : region.Walked lay)
    (h : Progress lay region r w (l.head :: queue) pending) (found : lay.loops[id]? = some l)
    (inner : region.Inner lay l.head) (covers : Covers lay (.ofLoop id l) r run.walk)
    (named : run.summary.head = l.head) : Progress lay region r (passed lay region w id l run).1
      (enqueue region queue (passed lay region w id l run).2) (pending.erase l.head) := by
  have natural := reg.natural found
  have nested := covers.body reg found
  have outer : ∀ {k}, region.Inner lay k → lay.flow.InLoop k l.head → k = l.head := fun innerK m =>
    h.outer List.mem_cons_self innerK m
  have fits : ∀ u ∈ l.body, (run.walk.outputs.get u).length = (lay.flow.succs u).length := by
    intro u hu
    obtain ⟨t, s⟩ := (natural.body.mp hu).leads
    exact covers.fits_edges (nested u hu) (List.ne_nil_of_mem s)
  have next : ∀ {n}, n ∈ (passed lay region w id l run).2 ↔ n ∉ l.body ∧ ∃ u ∈ l.body, lay.flow.Forward u n :=
    mem_passed_forward reg found fits
  refine h.advance (M := fun j => j ∈ l.body) (h.toLedger.pass reg hw found inner outer covers named)
    (ran_passed nested)
    (natural.body.mpr natural.head) (fun met => inputs_passed_ne (met.imp_left fun old => old.2)) ?_ next
  intro n k hn innerK m
  obtain ⟨out, u, hu, s⟩ := next.mp hn
  by_contra ne
  -- A loop that is entered from inside this one lies inside it, or this one inside it.
  exact out (natural.encloses (outer innerK) hu (m.pred (Ne.symm ne) s.1 (natural.body.mp hu).1) m)

/-! ## When the queue is empty -/

/-- Along a way from the root, one statement after the other has been carried out. -/
theorem Progress.covers (reg : lay.Regular) (hw : region.Walked lay) (unstopped : region.stops = [])
    (h : Progress lay region r w [] pending) : Covers lay region r w := by
  have settled : ∀ {n}, w.Ran n ∨ n ∈ ([] : List Nat) ∨ n ∈ region.stops → w.Ran n := by
    intro n met
    rw [unstopped] at met
    simpa using met
  have along : ∀ {n}, ReflTransGen (Avoiding lay.flow.Edge region.root) region.root n → region.Inside lay n →
    w.Ran n := by
    intro n way
    induction way with
    | refl => exact fun _ => settled h.root
    | tail way s ih =>
      rename_i u n
      intro inside
      have live : lay.flow.Live u := (hw.root_inside reg).1.trans (Avoiding.way way)
      have ran := ih (hw.inside_pred reg inside s.2 s.1 live)
      by_cases closes : lay.flow.InLoop n u
      · exact h.loops ⟨closes.head, inside, Region.notOwn_of_ne s.2⟩ closes ran closes.head
      · exact settled (h.ahead ran ((forward_iff s.1).mpr closes) inside.2)
  exact ⟨h.toLedger, fun inside => along (hw.dominates_root reg inside).way.2 inside⟩

/-! ## Walks and passes -/

structure Covering (lay : Layout) (region : Region) (r : Registry) (c : Config) : Prop where
  sound : c.context.Sound
  ext : r.Extends c.context.symbols
  usable : c.walk.All (State.Usable r c.context)
  progress : Progress lay region r c.walk c.queue c.pending

structure Covered (lay : Layout) (r : Registry) (id : Nat) (l : Loop) (run : LoopRun) (ctx : Context) : Prop where
  covers : Covers lay (.ofLoop id l) r run.walk
  usable : run.walk.All (State.Usable r ctx)
  named : run.summary.head = l.head

/-- Loops inside the region are walked as a whole, or else a function is applied to a wrong number of arguments. -/
def CoversLoops (lay : Layout) (region : Region) (r : Registry)
    (summarise : Nat → List State → ContextM LoopRun) : Prop :=
  ∀ {id l states ctx}, lay.loops[id]? = some l → region.Inner lay l.head → ctx.Sound → r.Extends ctx.symbols →
    Startable r ctx states → Attempts (Misapplied lay r) (summarise id states) ctx (Covered lay r id l)

/-- A turn that takes a position covers it, or stops on a call registered with another arity. -/
theorem take_attempts (reg : lay.Regular) (hw : region.Walked lay) (names : Names lay r)
    (loops : CoversLoops lay region r summarise) {postponed : Nat}
    (h : Covering lay region r ⟨w, i :: queue, pending, postponed, ctx⟩) :
    Attempts (Misapplied lay r) (take lay region summarise w i) ctx fun p ctx' =>
      Covering lay region r ⟨p.1, enqueue region queue p.2, pending.erase i, 0, ctx'⟩ := by
  obtain ⟨inside, some⟩ := h.progress.queued List.mem_cons_self
  have ins : Startable r ctx (w.inputs.get i) :=
    ⟨some, fun s hs => (h.usable.inputs i s hs).1, fun s hs => (h.usable.inputs i s hs).2⟩
  have later : ∀ {ctx'}, ctx.Extends ctx' → w.All (State.Usable r ctx') := fun e =>
    h.usable.mono fun s usable => ⟨usable.1.extends e, usable.2⟩
  unfold take
  cases pass : loopToPass? lay region i with
  | none =>
    refine (step_attempts names h.sound h.ext inside.1 ins).mono ?_
    rintro _ ctx' e hc' ⟨outs, rfl, length, usable, fits⟩
    refine ⟨hc', h.ext.trans e.symbols, ?_, h.progress.step reg pass length fits⟩
    have put : ({ w with outputs := w.outputs.put i outs } : Walk).All (State.Usable r ctx') :=
      ⟨(later e).inputs, (later e).outputs.put usable⟩
    exact put.deliverAll i fun d hd => usable d.2 (List.of_mem_zip hd).2
  | some id =>
    obtain ⟨l, found, rfl, inner⟩ := Region.loopToPass?_some reg inside pass
    unfold passLoop
    refine Attempts.bind (.inl (ContextM.ofExcept_yields h.sound (Layout.getLoop_eq_ok.mpr found))) ?_
    rintro _ _ _ _ ⟨rfl, rfl⟩
    refine (loops found inner h.sound h.ext ins).bind fun run ctx' e hc' covered => Attempts.pure hc' ?_
    refine ⟨hc', h.ext.trans e.symbols, ?_, h.progress.pass reg hw found inner covered.covers covered.named⟩
    exact All.leaveLoop ⟨(later e).inputs.takeOver covered.usable.inputs _,
      (later e).outputs.takeOver covered.usable.outputs _⟩
      l covered.usable.outputs l.exits

theorem covering_invariant (reg : lay.Regular) (hw : region.Walked lay) (names : Names lay r)
    (loops : CoversLoops lay region r summarise) :
    TurnInvariant lay region summarise (Misapplied lay r) (Covering lay region r) := by
  refine ⟨fun h => h.sound, ?_, ?_, fun h _ _ => take_attempts reg hw names loops h⟩
  · intro w i queue pending postponed ctx _ h skipped
    refine ⟨h.sound, h.ext, h.usable, h.progress.skip ?_⟩
    obtain ⟨inside, some⟩ := h.progress.queued List.mem_cons_self
    rcases skipped with stop | carriedOut | ⟨_, nothing⟩
    · exact .inr (List.contains_iff_mem.mp stop)
    · exact .inl ((h.progress.pending inside).resolve_right carriedOut)
    · exact absurd (List.eq_nil_of_length_eq_zero nothing) some
  · intro w i queue pending postponed ctx h _ _
    refine ⟨h.sound, h.ext, h.usable, h.progress.reorder fun {n} => ?_⟩
    rw [List.mem_append, List.mem_singleton, List.mem_cons]
    exact or_comm

/-- A walk comes to an empty queue, or a function is applied to a wrong number of arguments. -/
theorem through_attempts (reg : lay.Regular) (hw : region.Walked lay) (names : Names lay r)
    (loops : CoversLoops lay region r summarise) (hc : ctx.Sound) (ext : r.Extends ctx.symbols)
    (begin_ : Startable r ctx start) :
    Attempts (Misapplied lay r) (through lay region summarise start) ctx fun w ctx' =>
      w.All (State.Usable r ctx') ∧ ∃ pending, Progress lay region r w [] pending := by
  have begun : Covering lay region r ⟨.start region.root start, [region.root], lay.flow.positions, 0, ctx⟩ :=
    ⟨hc, ext, .start fun s hs => ⟨begin_.valid s hs, begin_.within s hs⟩, .start_progress reg hw begin_.some⟩
  refine ((covering_invariant reg hw names loops).run begun).mono fun w ctx' _ _ ended => ?_
  obtain ⟨pending, _, covering⟩ := ended
  exact ⟨covering.usable, pending, covering.progress⟩

/-- The summary of a loop covers its body whatever lies nested in it, by induction on the nesting. -/
theorem summarise_attempts (reg : lay.Regular) (names : Names lay r) {states : List State} (nesting : Nat)
    (found : lay.loops[id]? = some l) (deep : loopsWithin lay l ≤ nesting) (hc : ctx.Sound)
    (ext : r.Extends ctx.symbols) (ins : Startable r ctx states) :
    Attempts (Misapplied lay r) (Walk.summarise lay nesting id states) ctx (Covered lay r id l) := by
  refine summarise_induction reg (S := fun id l summarised => ∀ {ctx states}, ctx.Sound → r.Extends ctx.symbols →
    Startable r ctx states → Attempts (Misapplied lay r) (summarised states) ctx (Covered lay r id l))
    ?_ nesting found deep hc ext ins
  intro id l nested found loops ctx states hc ext ins
  have tours : Tours r (Misapplied lay r)
      (fun _ _ w ctx => w.All (State.Usable r ctx) ∧ Covers lay (.ofLoop id l) r w) l.head
      (through lay (.ofLoop id l) nested) := by
    refine ⟨fun hc ext ins => ?_, fun walked b hb => walked.1.inputs l.head b (List.mem_of_mem_drop hb)⟩
    refine (through_attempts reg (.loop found) names (fun found' inner => loops found' inner) hc ext ins).mono ?_
    rintro w ctx' _ _ ⟨usable, _, progress⟩
    exact ⟨usable, progress.covers reg (.loop found) rfl⟩
  refine (summariseWith_attempts names.registry names.operations found tours hc ext ins).mono ?_
  rintro run ctx' _ _ ⟨_, _, _, last⟩
  obtain ⟨_, c, _, _, e, usable, covers⟩ := last.walked
  exact ⟨covers, usable.mono fun s usable => ⟨usable.1.extends e, usable.2⟩, last.summary⟩

/-- Wherever it stops, the walk over a method comes to an empty queue, or a function is applied to a wrong number of
arguments. -/
theorem ofMethod_attempts (reg : lay.Regular) (names : Names lay r) (hc : ctx.Sound) (ext : r.Extends ctx.symbols)
    (stops : List Nat) :
    Attempts (Misapplied lay r) (ofMethod lay stops) ctx fun w _ =>
      ∃ pending, Progress lay (.whole stops) r w [] pending := by
  refine (through_attempts reg (.whole stops) names (fun {id l states ctx} found _ hc ext ins => ?_) hc ext
    (initial_startable r ctx)).mono fun w _ _ _ through => through.2
  exact summarise_attempts reg names _ found (loopsWithin_le lay l) hc ext ins

end Walk

end PathMerge
