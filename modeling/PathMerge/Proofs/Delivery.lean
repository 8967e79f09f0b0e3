/-
  PathMerge.Proofs.Delivery — which states are handed to which statement.

  `along outputs u n` are the states recorded at `u` for its edges to `n`, and `arrivals` are those of all
  positions in a list, as far as the walk keeps them. What a statement is handed when another one has
  been carried out, or a loop has been left, is exactly that (`get_deliverAll`, `get_leaveLoop`).

  A statement waits for as many states as there are edges to it that close no loop (`required_eq`), and
  so many have arrived when all their sources are done (`length_arrivals`).
-/

import PathMerge.Proofs.Loops

namespace PathMerge

/-! ## Maps of states -/

namespace StateMap

variable {m other : StateMap} {i j : Nat} {states : List State}

theorem get_put (m : StateMap) (i : Nat) (states : List State) (j : Nat) :
    (m.put i states).get j = if j = i then states else m.get j := rfl

theorem get_push (m : StateMap) (i : Nat) (s : State) (j : Nat) :
    (m.push i s).get j = if j = i then m.get i ++ [s] else m.get j := rfl

/-- Taking over replaces the states of the named positions and leaves the others. -/
theorem get_takeOver (m other : StateMap) (positions : List Nat) (j : Nat) :
    (m.takeOver other positions).get j =
      if j ∈ positions ∧ other.get j ≠ [] then other.get j else m.get j := by
  unfold takeOver
  induction positions generalizing m with
  | nil => simp
  | cons i rest ih =>
    rw [List.foldl_cons, ih]
    by_cases later : j ∈ rest ∧ other.get j ≠ []
    · rw [if_pos later, if_pos ⟨List.mem_cons_of_mem _ later.1, later.2⟩]
    · rw [if_neg later]
      by_cases e : j = i
      · subst e
        cases found : other.get j with
        | nil => simp
        | cons s states => simp [get_put]
      · have : (j ∈ i :: rest ∧ other.get j ≠ []) ↔ (j ∈ rest ∧ other.get j ≠ []) := by simp [e]
        rw [if_neg fun h => later (this.mp h)]
        split
        · rfl
        · rw [get_put, if_neg e]

def All (P : State → Prop) (m : StateMap) : Prop := ∀ i, ∀ s ∈ m.get i, P s

namespace All

variable {P Q : State → Prop}

theorem empty (P : State → Prop) : StateMap.empty.All P := fun _ => List.forall_mem_nil _

theorem mono (h : m.All P) (imp : ∀ s, P s → Q s) : m.All Q := fun i s hs => imp s (h i s hs)

theorem put (h : m.All P) (new : ∀ s ∈ states, P s) : (m.put i states).All P := by
  intro j s hs
  rw [get_put] at hs
  split at hs
  · exact new s hs
  · exact h j s hs

theorem push (h : m.All P) {s : State} (new : P s) : (m.push i s).All P :=
  h.put fun t ht => (List.mem_append.mp ht).elim (h i t) fun last => List.mem_singleton.mp last ▸ new

theorem takeOver (h : m.All P) (ho : other.All P) (positions : List Nat) : (m.takeOver other positions).All P := by
  intro j s hs
  rw [get_takeOver] at hs
  split at hs
  · exact ho j s hs
  · exact h j s hs

end All

end StateMap

/-- Positions that contribute nothing may be left out. -/
theorem flatMap_perm_of_subset {l k : List Nat} {f : Nat → List State} (nl : l.Nodup) (nk : k.Nodup)
    (sub : ∀ u ∈ k, u ∈ l) (rest : ∀ u ∈ l, u ∉ k → f u = []) : (l.flatMap f).Perm (k.flatMap f) := by
  have split : l.Perm (k ++ l.filter (· ∉ k)) := by
    refine (List.perm_ext_iff_of_nodup nl ?_).mpr fun u => ?_
    · refine List.nodup_append.mpr ⟨nk, nl.filter _, fun a ha b hb e => ?_⟩
      exact of_decide_eq_true (List.mem_filter.mp hb).2 (e ▸ ha)
    · rw [List.mem_append, List.mem_filter, decide_eq_true_eq]
      constructor
      · intro hu
        exact (Classical.em (u ∈ k)).imp (fun h => h) fun no => ⟨hu, no⟩
      · rintro (hu | hu)
        · exact sub u hu
        · exact hu.1
  have none : (l.filter (· ∉ k)).flatMap f = [] := by
    refine List.flatMap_eq_nil_iff.mpr fun u hu => ?_
    exact rest u (List.mem_filter.mp hu).1 (of_decide_eq_true (List.mem_filter.mp hu).2)
  refine (split.flatMap_right f).trans ?_
  rw [List.flatMap_append, none, List.append_nil]

namespace Walk

open PathMerge.Flow

variable {lay : Layout} {region : Region} {w : Walk} {u n i : Nat}

def along (lay : Layout) (outputs : StateMap) (u n : Nat) : List State :=
  ((lay.flow.succs u).zip (outputs.get u)).filterMap fun e => if e.1 = n then some e.2 else none

def keeps (lay : Layout) (region : Region) (u n : Nat) : Bool :=
  match lay.loopClosedBy? u n with
  | some id => region.loop?.map (·.1) = some id
  | none => true

def kept (lay : Layout) (region : Region) (outputs : StateMap) (n u : Nat) : List State :=
  if keeps lay region u n then along lay outputs u n else []

def arrivals (lay : Layout) (region : Region) (outputs : StateMap) (done : List Nat) (n : Nat) : List State :=
  done.flatMap (kept lay region outputs n)

theorem mem_along {outputs : StateMap} {s : State} (h : s ∈ along lay outputs u n) : lay.flow.Edge u n := by
  unfold along at h
  obtain ⟨e, he, found⟩ := List.mem_filterMap.mp h
  split at found
  · rename_i same
    exact same ▸ (List.of_mem_zip he).1
  · cases found

theorem along_eq_nil {outputs : StateMap} (no : ¬ lay.flow.Edge u n) : along lay outputs u n = [] :=
  List.eq_nil_iff_forall_not_mem.mpr fun _ h => no (mem_along h)

theorem along_congr {outputs outputs' : StateMap} (same : outputs.get u = outputs'.get u) :
    along lay outputs u n = along lay outputs' u n := by
  unfold along
  rw [same]

theorem arrivals_congr {outputs outputs' : StateMap} {done : List Nat}
    (same : ∀ u ∈ done, outputs.get u = outputs'.get u) :
    arrivals lay region outputs done n = arrivals lay region outputs' done n := by
  unfold arrivals kept
  refine List.flatMap_congr fun u hu => ?_
  rw [along_congr (same u hu)]

theorem arrivals_append (outputs : StateMap) (done more : List Nat) :
    arrivals lay region outputs (done ++ more) n =
      arrivals lay region outputs done n ++ arrivals lay region outputs more n :=
  List.flatMap_append

theorem arrivals_eq_nil {outputs : StateMap} {done : List Nat}
    (none : ∀ u ∈ done, lay.flow.Edge u n → keeps lay region u n = false) :
    arrivals lay region outputs done n = [] := by
  unfold arrivals kept
  refine List.flatMap_eq_nil_iff.mpr fun u hu => ?_
  by_cases s : lay.flow.Edge u n
  · rw [none u hu s]
    rfl
  · rw [along_eq_nil s]
    exact ite_self _

/-! ## Handing states over -/

/-- One delivery adds the state at its target, and only along an edge the region keeps. -/
theorem get_deliver (w : Walk) (u t : Nat) (s : State) (n : Nat) :
    (deliver lay region w u t s).1.inputs.get n = w.inputs.get n ++
      if keeps lay region u n then (if t = n then [s] else []) else [] := by
  unfold deliver keeps
  by_cases same : t = n
  · subst same
    cases lay.loopClosedBy? u t with
    | none => simp [StateMap.get_push]
    | some id =>
      by_cases mine : region.loop?.map (·.1) = some id
      · simp [mine, StateMap.get_push]
      · simp [mine]
  · have other : (w.inputs.push t s).get n = w.inputs.get n := by
      rw [StateMap.get_push, if_neg fun e => same e.symm]
    simp only [same, if_false, ite_self, List.append_nil]
    split
    · split
      · exact other
      · rfl
    · exact other

/-- Delivering along all edges adds to each position the states of the edges that lead to it. -/
theorem get_deliverAll (w : Walk) (u : Nat) (edges : List (Nat × State)) (n : Nat) :
    (deliverAll lay region w u edges).1.inputs.get n = w.inputs.get n ++
      if keeps lay region u n then edges.filterMap (fun e => if e.1 = n then some e.2 else none) else [] := by
  induction edges generalizing w with
  | nil => simp [deliverAll]
  | cons e rest ih =>
    obtain ⟨t, s⟩ := e
    show (deliverAll lay region (deliver lay region w u t s).1 u rest).1.inputs.get n = _
    rw [ih, get_deliver, List.append_assoc]
    congr 1
    by_cases keep : keeps lay region u n = true
    · rw [if_pos keep, if_pos keep, if_pos keep, List.filterMap_cons]
      by_cases same : t = n
      · simp [same]
      · simp [same]
    · rw [if_neg keep, if_neg keep, if_neg keep]
      rfl

/-- Handing states over changes nothing but what has arrived. -/
theorem deliverAll_frame (w : Walk) (u : Nat) (edges : List (Nat × State)) :
    (deliverAll lay region w u edges).1.outputs = w.outputs ∧
      (deliverAll lay region w u edges).1.summaries = w.summaries := by
  induction edges generalizing w with
  | nil => exact ⟨rfl, rfl⟩
  | cons e rest ih =>
    obtain ⟨t, s⟩ := e
    obtain ⟨outputs, summaries⟩ := ih (deliver lay region w u t s).1
    have one : (deliver lay region w u t s).1.outputs = w.outputs ∧
        (deliver lay region w u t s).1.summaries = w.summaries := by
      unfold deliver
      split
      · split <;> exact ⟨rfl, rfl⟩
      · exact ⟨rfl, rfl⟩
    exact ⟨outputs.trans one.1, summaries.trans one.2⟩

/-- A delivery asks for a visit of every target except the head of a loop the edge closes. -/
theorem mem_deliverAll (w : Walk) (u : Nat) (edges : List (Nat × State)) (n : Nat) :
    n ∈ (deliverAll lay region w u edges).2 ↔ n ∈ edges.map (·.1) ∧ lay.loopClosedBy? u n = none := by
  induction edges generalizing w with
  | nil => simp [deliverAll]
  | cons e rest ih =>
    obtain ⟨t, s⟩ := e
    have one : n ∈ (deliver lay region w u t s).2 ↔ n = t ∧ lay.loopClosedBy? u n = none := by
      unfold deliver
      cases closed : lay.loopClosedBy? u t with
      | some id =>
        have : ¬ (n = t ∧ lay.loopClosedBy? u n = none) := by
          rintro ⟨rfl, none⟩
          rw [none] at closed
          cases closed
        split
        · split <;> simpa using this
        · simp_all
      | none =>
        constructor
        · intro h
          have e := List.mem_singleton.mp h
          exact ⟨e, e ▸ closed⟩
        · intro h
          exact List.mem_singleton.mpr h.1
    show n ∈ (deliver lay region w u t s).2 ++ (deliverAll lay region (deliver lay region w u t s).1 u rest).2 ↔ _
    rw [List.mem_append, one, ih, List.map_cons, List.mem_cons]
    exact or_and_right.symm

/-- What goes from the exits of a loop to `n`. -/
theorem get_leaveLoop (w : Walk) (l : Loop) (outputs : StateMap) (exits : List Nat) (n : Nat) :
    (leaveLoop lay region w l outputs exits).1.inputs.get n = w.inputs.get n ++
      if l.contains n then [] else arrivals lay region outputs exits n := by
  induction exits generalizing w with
  | nil => simp [leaveLoop, arrivals]
  | cons e rest ih =>
    show (leaveLoop lay region (deliverAll lay region w e _).1 l outputs rest).1.inputs.get n = _
    rw [ih, get_deliverAll, List.append_assoc]
    congr 1
    by_cases inside : l.contains n = true
    · rw [if_pos inside, if_pos inside, List.append_nil]
      refine ite_eq_right_iff.mpr fun _ => List.filterMap_eq_nil_iff.mpr fun p hp => ?_
      have outside := (List.mem_filter.mp hp).2
      refine if_neg fun same => ?_
      rw [same, inside] at outside
      cases outside
    · rw [if_neg inside, if_neg inside]
      show _ = kept lay region outputs n e ++ arrivals lay region outputs rest n
      congr 1
      unfold kept along
      refine ite_congr rfl (fun _ => ?_) fun _ => rfl
      rw [List.filterMap_filter]
      refine List.filterMap_congr fun p _ => ?_
      by_cases same : p.1 = n
      · simp [same, inside]
      · simp [same]

theorem leaveLoop_frame (w : Walk) (l : Loop) (outputs : StateMap) (exits : List Nat) :
    (leaveLoop lay region w l outputs exits).1.outputs = w.outputs ∧
      (leaveLoop lay region w l outputs exits).1.summaries = w.summaries := by
  induction exits generalizing w with
  | nil => exact ⟨rfl, rfl⟩
  | cons e rest ih =>
    exact ⟨(ih _).1.trans (deliverAll_frame w e _).1, (ih _).2.trans (deliverAll_frame w e _).2⟩

/-- Leaving a loop asks for a visit of the targets outside it that its exits lead to. -/
theorem mem_leaveLoop (w : Walk) (l : Loop) (outputs : StateMap) (exits : List Nat) (n : Nat) :
    n ∈ (leaveLoop lay region w l outputs exits).2 ↔ l.contains n = false ∧
      ∃ e ∈ exits, n ∈ ((lay.flow.succs e).zip (outputs.get e)).map (·.1) ∧ lay.loopClosedBy? e n = none := by
  induction exits generalizing w with
  | nil => simp [leaveLoop]
  | cons e rest ih =>
    show n ∈ (deliverAll lay region w e _).2 ++ (leaveLoop lay region
      (deliverAll lay region w e _).1 l outputs rest).2 ↔ _
    rw [List.mem_append, mem_deliverAll, ih]
    have leaving : n ∈ (((lay.flow.succs e).zip (outputs.get e)).filter (!l.contains ·.1)).map (·.1) ↔
        n ∈ ((lay.flow.succs e).zip (outputs.get e)).map (·.1) ∧ l.contains n = false := by
      simp only [List.mem_map, List.mem_filter]
      constructor
      · rintro ⟨p, ⟨hp, out⟩, rfl⟩
        exact ⟨⟨p, hp, rfl⟩, by simpa using out⟩
      · rintro ⟨⟨p, hp, rfl⟩, out⟩
        exact ⟨p, ⟨hp, by simpa using out⟩, rfl⟩
    rw [leaving]
    simp only [List.exists_mem_cons_iff]
    tauto

structure All (P : State → Prop) (w : Walk) : Prop where
  inputs : w.inputs.All P
  outputs : w.outputs.All P

namespace All

variable {P Q : State → Prop}

theorem mono (h : w.All P) (imp : ∀ s, P s → Q s) : w.All Q := ⟨h.inputs.mono imp, h.outputs.mono imp⟩

theorem start {root : Nat} {states : List State} (all : ∀ s ∈ states, P s) : (Walk.start root states).All P :=
  ⟨(StateMap.All.empty P).put all, .empty P⟩

theorem deliver (h : w.All P) (source target : Nat) {s : State} (sent : P s) :
    (Walk.deliver lay region w source target s).1.All P := by
  have kept : ({ w with inputs := w.inputs.push target s } : Walk).All P := ⟨h.inputs.push sent, h.outputs⟩
  unfold Walk.deliver
  dsimp only
  split
  · split
    · exact kept
    · exact h
  · exact kept

theorem deliverAll (h : w.All P) (source : Nat) {edges : List (Nat × State)} (sent : ∀ e ∈ edges, P e.2) :
    (Walk.deliverAll lay region w source edges).1.All P := by
  induction edges generalizing w with
  | nil => exact h
  | cons e rest ih =>
    refine ih ?_ fun d hd => sent d (List.mem_cons_of_mem _ hd)
    exact h.deliver source e.1 (sent e List.mem_cons_self)

theorem leaveLoop (h : w.All P) (l : Loop) {outputs : StateMap} (recorded : outputs.All P) (exits : List Nat) :
    (Walk.leaveLoop lay region w l outputs exits).1.All P := by
  induction exits generalizing w with
  | nil => exact h
  | cons e rest ih =>
    refine ih (h.deliverAll e fun d hd => ?_)
    exact recorded e d.2 (List.of_mem_zip (List.mem_filter.mp hd).1).2

end All

/-! ## The queue -/

/-- The queue keeps what it has and takes in what lies in the region. -/
theorem mem_enqueue (queue next : List Nat) :
    n ∈ enqueue region queue next ↔ n ∈ queue ∨ (n ∈ next ∧ region.contains n = true) := by
  unfold enqueue
  induction next generalizing queue with
  | nil => simp
  | cons i rest ih =>
    rw [List.foldl_cons, ih, List.mem_cons]
    split
    · rename_i new
      rw [Bool.and_eq_true] at new
      rw [List.mem_append, List.mem_singleton]
      constructor
      · rintro ((old | rfl) | later)
        · exact .inl old
        · exact .inr ⟨.inl rfl, new.1⟩
        · exact .inr ⟨.inr later.1, later.2⟩
      · rintro (old | ⟨rfl | later, inside⟩)
        · exact .inl (.inl old)
        · exact .inl (.inr rfl)
        · exact .inr ⟨later, inside⟩
    · rename_i skipped
      constructor
      · exact fun h => h.imp id fun h => ⟨.inr h.1, h.2⟩
      · rintro (old | ⟨rfl | later, inside⟩)
        · exact .inl old
        · rw [inside, Bool.true_and, Bool.not_eq_true', Bool.not_eq_false, List.contains_iff_mem] at skipped
          exact .inl skipped
        · exact .inr ⟨later, inside⟩

theorem enqueue_nodup {queue : List Nat} (nodup : queue.Nodup) (next : List Nat) :
    (enqueue region queue next).Nodup := by
  unfold enqueue
  induction next generalizing queue with
  | nil => exact nodup
  | cons i rest ih =>
    rw [List.foldl_cons]
    refine ih ?_
    split
    · rename_i new
      rw [Bool.and_eq_true, Bool.not_eq_true', ← Bool.not_eq_true, List.contains_iff_mem] at new
      refine List.nodup_append.mpr ⟨nodup, List.nodup_singleton i, fun a ha b hb e => ?_⟩
      rw [List.mem_singleton.mp hb] at e
      exact new.2 (e ▸ ha)
    · exact nodup

/-! ## How many states -/

/-- The sources of the edges to `n` that close no loop, one entry for each edge. -/
def entries (lay : Layout) (n : Nat) : List Nat := (lay.flow.preds n).filter fun u => lay.loopClosedBy? u n = none

theorem mem_entries : u ∈ entries lay n ↔ lay.flow.Edge u n ∧ lay.loopClosedBy? u n = none := by
  unfold entries
  rw [List.mem_filter, mem_preds, decide_eq_true_eq]

/-- A position that is not the region's own head waits for one state from each entering edge. -/
theorem required_eq (reg : lay.Regular) (own : region.isOwnHead n = false) :
    required lay region n = (entries lay n).length := by
  unfold required entries
  rw [own]
  cases headed : lay.loopHeadedBy? n with
  | none =>
    have open_ : ∀ u, lay.loopClosedBy? u n = none := fun u =>
      reg.closedBy_none.mpr fun m => reg.headedBy_none.mp headed m.head
    simp [open_]
  | some id =>
    obtain ⟨l, found, rfl⟩ := Layout.Regular.headedBy_some headed
    simp only [Bool.false_eq_true, if_false, Option.bind_some, found]
    unfold Loop.entryEdges
    refine congrArg List.length (List.filter_congr fun u _ => ?_)
    have := (reg.natural found).contains (i := u)
    rw [Bool.eq_iff_iff, decide_eq_true_eq, reg.closedBy_none, ← this]
    simp

theorem length_along {outputs : StateMap} (fits : (outputs.get u).length = (lay.flow.succs u).length) :
    (along lay outputs u n).length = (lay.flow.succs u).count n := by
  unfold along
  generalize lay.flow.succs u = succs at fits
  generalize outputs.get u = states at fits
  induction succs generalizing states with
  | nil => rfl
  | cons t succs ih =>
    cases states with
    | nil => cases fits
    | cons s states =>
      rw [List.zip_cons_cons, List.filterMap_cons, List.count_cons]
      have rest := ih states (Nat.succ.inj fits)
      by_cases same : t = n
      · simp [same, rest]
      · simp [same, rest]

/-- Counting the edges into a position from its predecessors or from all positions gives one number. -/
theorem sum_counts (lay : Layout) (n : Nat) (p : Nat → Bool) :
    ((lay.flow.preds n).filter p).length =
      ((lay.flow.positions.filter p).map fun u => (lay.flow.succs u).count n).sum := by
  unfold preds
  generalize lay.flow.positions = positions
  induction positions with
  | nil => rfl
  | cons u rest ih =>
    rw [List.flatMap_cons, List.filter_append, List.length_append, ih]
    have one : (((lay.flow.succs u).filterMap fun t => if t = n then some u else none).filter p).length =
        if p u then (lay.flow.succs u).count n else 0 := by
      generalize lay.flow.succs u = succs
      induction succs with
      | nil => simp
      | cons t succs ih =>
        rw [List.filterMap_cons, List.count_cons]
        by_cases same : t = n
        · simp only [same, if_true, List.filter_cons, beq_self_eq_true]
          by_cases hp : p u = true
          · simp only [hp, if_true, List.length_cons] at ih ⊢
            rw [ih]
          · simp only [hp] at ih ⊢
            simpa using ih
        · simp only [same, if_false]
          rw [ih]
          simp [same]
    rw [one, List.filter_cons]
    by_cases hp : p u = true
    · simp [hp]
    · simp [hp]

/-- From statements that are done, as many states have arrived as they have edges. -/
theorem length_arrivals {outputs : StateMap} {done : List Nat} (nodup : done.Nodup)
    (inside : ∀ u ∈ done, u < lay.flow.size)
    (fits : ∀ u ∈ done, lay.flow.succs u ≠ [] → (outputs.get u).length = (lay.flow.succs u).length)
    (forward : ∀ u ∈ done, keeps lay region u n = decide (lay.loopClosedBy? u n = none)) :
    (arrivals lay region outputs done n).length = ((entries lay n).filter (· ∈ done)).length := by
  have same : (lay.flow.positions.filter fun u => decide (u ∈ done) && decide (lay.loopClosedBy? u n = none)).Perm
      (done.filter fun u => lay.loopClosedBy? u n = none) := by
    refine (List.perm_ext_iff_of_nodup (List.nodup_range.filter _) (nodup.filter _)).mpr fun u => ?_
    simp only [List.mem_filter, List.mem_range, Bool.and_eq_true, decide_eq_true_eq]
    exact ⟨fun h => h.2, fun h => ⟨inside u h.1, h⟩⟩
  unfold entries
  rw [List.filter_filter, sum_counts, (same.map _).sum_eq]
  unfold arrivals
  clear same
  induction done with
  | nil => rfl
  | cons u rest ih =>
    have ih := ih (List.nodup_cons.mp nodup).2 (fun v hv => inside v (List.mem_cons_of_mem _ hv))
      (fun v hv => fits v (List.mem_cons_of_mem _ hv)) fun v hv => forward v (List.mem_cons_of_mem _ hv)
    rw [List.flatMap_cons, List.length_append, ih, List.filter_cons]
    unfold kept
    rw [forward u List.mem_cons_self]
    by_cases none : lay.loopClosedBy? u n = none
    · simp only [none, decide_true, if_true, List.map_cons, List.sum_cons]
      congr 1
      by_cases empty : lay.flow.succs u = []
      · unfold along
        simp [empty]
      · exact length_along (fits u List.mem_cons_self empty)
    · simp [none]

end Walk

end PathMerge
