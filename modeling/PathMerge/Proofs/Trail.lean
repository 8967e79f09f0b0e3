/-
  PathMerge.Proofs.Trail — the way of one run through what a walk recorded.

  Under a valuation, a run of the method is followed forward through the graph. At each statement on the trail one
  seed applies and represents the machine there (`Holds`), and of the states behind it the one on the edge that the
  run took applies while the others are refuted (`Taken`). Every statement that the trail has passed by, and that
  cannot be reached from its end, has nothing but refuted states (`Trail.off`). So of all the states that arrive
  at the end of the trail one applies: the one that the trail came with (`Trail.sole_arrived`).

  Nothing on a trail depends on the symbols made up after its end was reached (`Trail.agree`). So these are free
  to be given the values that another iteration of a loop, or a call, asks for.
-/

import PathMerge.Proofs.Passes

namespace PathMerge

open Context PathMerge.Flow Relation

namespace Walk

/-! ## What a finished walk has recorded -/

structure Explored (lay : Layout) (r : Registry) (lo : Nat) (ctx : Context) (w : Walk) (done : List Nat)
    (visit : Nat → Visit) : Prop where
  tame : lay.Tame
  registry : r.Sound
  sound : ctx.Sound
  record : Record lay (.whole []) [.initial] done w
  all : ∀ {n}, lay.flow.Live n → n ∈ done
  solves : Solves lay (.whole []) r lo [.initial] done w ctx visit

variable {lay : Layout} {r : Registry} {lo : Nat} {ctx : Context} {w : Walk} {done : List Nat} {visit : Nat → Visit}
  {n u : Nat}

theorem kept_whole (reg : lay.Regular) {outputs : StateMap} {s : State} (hs : s ∈ kept lay (.whole []) outputs n u) :
    lay.flow.Forward u n ∧ s ∈ along lay outputs u n := by
  unfold kept at hs
  rw [(Region.Walked.whole []).keeps_eq reg rfl] at hs
  split at hs
  · rename_i open_
    exact ⟨(closedBy_none_iff reg (mem_along hs)).mp (of_decide_eq_true open_), hs⟩
  · cases hs

theorem kept_of_forward (reg : lay.Regular) (outputs : StateMap) (s : lay.flow.Forward u n) :
    kept lay (.whole []) outputs n u = along lay outputs u n := by
  unfold kept
  rw [(Region.Walked.whole []).keeps_eq reg rfl, if_pos (decide_eq_true ((closedBy_none_iff reg s.1).mpr s))]

theorem mem_along_iff {outputs : StateMap} {s : State} : s ∈ along lay outputs u n ↔
    ∃ k : Nat, (lay.flow.succs u)[k]? = some n ∧ (outputs.get u)[k]? = some s := by
  unfold along
  rw [List.mem_filterMap]
  constructor
  · rintro ⟨e, he, found⟩
    split at found
    · rename_i same
      cases found
      obtain ⟨k, hk⟩ := List.getElem?_of_mem he
      obtain ⟨target, state⟩ := List.getElem?_zip_eq_some.mp hk
      exact ⟨k, by rw [target, same], state⟩
    · cases found
  · rintro ⟨k, target, state⟩
    exact ⟨(n, s), List.mem_of_getElem? (List.getElem?_zip_eq_some.mpr ⟨target, state⟩), if_pos rfl⟩

namespace Explored

variable (x : Explored lay r lo ctx w done visit)

include x

theorem visited (live : lay.flow.Live n) : Visited lay r ctx n (visit n) (w.outputs.get n) :=
  x.solves.visited n (x.all live)

theorem live (hn : n ∈ done) : lay.flow.Live n := (x.record.inside hn).1

theorem arrived (live : lay.flow.Live n) : ∃ b, (visit n).arrived = (if n = root then [.initial] else []) ++ b ∧
    b.Perm (done.flatMap (kept lay (.whole []) w.outputs n)) := by
  rw [x.solves.arrived n (x.all live) rfl]
  exact x.record.arrived (Region.inside_whole.mpr live)

theorem order (live : lay.flow.Live u) (s : lay.flow.Forward u n) : (visit u).exit ≤ (visit n).arrival :=
  x.solves.order u (x.all live) n (x.all (live.edge s.1)) s

theorem back (edge : lay.flow.BackEdge u n) {b : State} (hb : b ∈ along lay w.outputs u n) :
    ComesBack ctx (visit n).seeds (visit n).modified b := by
  have head := edge.inLoop.head
  exact x.solves.back n (x.all head.1) ⟨head, Region.inside_whole.mpr head.1, rfl⟩ u edge b hb

theorem acyclic (live : lay.flow.Live n) : ¬ TransGen lay.flow.Forward n n := x.tame.reducible n live

theorem forward_wf : WellFounded fun u n => lay.flow.Live u ∧ lay.flow.Forward u n :=
  x.tame.reducible.wf x.tame.filled

end Explored

/-! ## Seeds and arrivals -/

section Seeds

variable {I : Interpretation} {v v' : Valuation} {names : Renaming} {modified : List SymbolId}
  {arrived seeds : List State} {s t : State}

/-- States with the same conditions apply and are refuted together. -/
theorem sole_of_paths {R : State → State → Prop} {l l' : List State} (same : ∀ {s t}, R s t → t.path = s.path)
    (related : List.Forall₂ R l l') (sole : State.Sole ctx I v s l) : ∃ t, State.Sole ctx I v t l' ∧ R s t := by
  have refuted : ∀ {l l' : List State}, List.Forall₂ R l l' → (∀ s ∈ l, s.Refuted ctx I v) →
    ∀ t ∈ l', t.Refuted ctx I v := by
    intro l l' related all t ht
    obtain ⟨s, hs, rel⟩ := Related.exists_left related ht
    unfold State.Refuted
    rw [same rel]
    exact all s hs
  obtain ⟨before, after, rfl, applies, rest⟩ := sole
  induction before generalizing l' with
  | nil =>
    cases related with
    | @cons _ t _ after' rel others =>
      refine ⟨t, ⟨[], after', rfl, ?_, refuted others rest⟩, rel⟩
      unfold State.Applies
      rw [same rel]
      exact applies
  | cons b before ih =>
    cases related with
    | @cons _ b' _ l' rel others =>
      obtain ⟨t, ⟨before', after', rfl, applies', rest'⟩, rel'⟩ :=
        ih others fun u hu => rest u (List.mem_cons_of_mem _ hu)
      refine ⟨t, ⟨b' :: before', after', rfl, applies', fun u hu => ?_⟩, rel'⟩
      rcases List.mem_cons.mp hu with rfl | hu
      · unfold State.Refuted
        rw [same rel]
        exact rest b List.mem_cons_self
      · exact rest' u hu

theorem sole_seed (anon : List.Forall₂ (Anonymised names modified ctx) arrived seeds)
    (sole : State.Sole ctx I v s arrived) :
    ∃ t, State.Sole ctx I v t seeds ∧ Anonymised names modified ctx s t :=
  sole_of_paths (fun rel => rel.path) anon sole

theorem sole_arrival (anon : List.Forall₂ (Anonymised names modified ctx) arrived seeds)
    (sole : State.Sole ctx I v t seeds) :
    ∃ s, State.Sole ctx I v s arrived ∧ Anonymised names modified ctx s t :=
  sole_of_paths (R := fun t s => Anonymised names modified ctx s t) (fun rel => rel.path.symm) anon.flip sole

theorem refuted_of_anonymised (anon : List.Forall₂ (Anonymised names modified ctx) arrived seeds)
    (all : ∀ s ∈ arrived, s.Refuted ctx I v) : ∀ t ∈ seeds, t.Refuted ctx I v := by
  intro t ht
  obtain ⟨s, hs, renamed⟩ := Related.exists_left anon ht
  unfold State.Refuted
  rw [renamed.path]
  exact all s hs

theorem sole_agree {k : Nat} (settled : ∀ s ∈ seeds, s.Settled ctx k)
    (agree : ∀ y : SymbolId, y.number < k → v y = v' y) (sole : State.Sole ctx I v s seeds) :
    State.Sole ctx I v' s seeds := by
  obtain ⟨before, after, rfl, applies, rest⟩ := sole
  refine ⟨before, after, rfl, ?_, fun t ht => ?_⟩
  · unfold State.Applies
    rw [← (settled s (by simp)).truth_agree agree]
    exact applies
  · unfold State.Refuted
    rw [← (settled t (by simp at ht ⊢; tauto)).truth_agree agree]
    exact rest t ht

end Seeds

/-! ## Machines and symbols -/

def Gives (r : Registry) (m : Machine) (y : SymbolId) (a : Value) : Prop :=
  y = Registry.heap ∧ a = .heap m.heap ∨ ∃ x, r.locals.lookup x = some y ∧ a = .scalar (m.locals x)

theorem Gives.unique {m : Machine} {y : SymbolId} {a b : Value} (hr : r.Sound) (ha : Gives r m y a)
    (hb : Gives r m y b) :
    a = b := by
  have apart : ∀ {x}, r.locals.lookup x = some Registry.heap → False := by
    intro x found
    obtain ⟨_, _, _, _, ne⟩ := hr.locals found
    exact ne rfl
  rcases ha with ⟨rfl, rfl⟩ | ⟨x, hx, rfl⟩
  · rcases hb with ⟨_, rfl⟩ | ⟨z, hz, _⟩
    · rfl
    · exact (apart hz).elim
  · rcases hb with ⟨rfl, _⟩ | ⟨z, hz, rfl⟩
    · exact (apart hx).elim
    · rw [hr.local_injective hx hz]

theorem Gives.lt {m : Machine} {y : SymbolId} {a : Value} (hr : r.Sound) (h : Gives r m y a) : y.number < r.size := by
  rcases h with ⟨rfl, _⟩ | ⟨x, hx, _⟩
  · exact Registry.get?_eq_some_lt hr.heap
  · obtain ⟨_, get, _⟩ := hr.locals hx
    exact Registry.get?_eq_some_lt get

theorem represents_iff {I : Interpretation} {v : Valuation} {s : State} {m : Machine} :
    s.Represents r ctx I v m ↔ ∀ y a, Gives r m y a → s.store.eval ctx I v y = some a := by
  constructor
  · rintro rep y a (⟨rfl, rfl⟩ | ⟨x, hx, rfl⟩)
    · exact rep.heap
    · exact rep.locals hx
  · exact fun h => ⟨h _ _ (.inl ⟨rfl, rfl⟩), fun {x id} found => h _ _ (.inr ⟨x, found, rfl⟩)⟩

theorem represents_agree {I : Interpretation} {v v' : Valuation} {s : State} {m : Machine} {k : Nat} (hr : r.Sound)
    (settled : s.Settled ctx k) (size : r.size ≤ k) (agree : ∀ y : SymbolId, y.number < k → v y = v' y)
    (rep : s.Represents r ctx I v m) : s.Represents r ctx I v' m := by
  rw [represents_iff] at rep ⊢
  intro y a gives
  rw [← settled.eval_agree agree (Nat.lt_of_lt_of_le (gives.lt hr) size)]
  exact rep y a gives

/-! ## Trails -/

def Holds (r : Registry) (ctx : Context) (I : Interpretation) (v : Valuation) (seeds : List State) (m : Machine) :
    Prop :=
  ∃ s, State.Sole ctx I v s seeds ∧ s.Represents r ctx I v m

/-- The state on the edge `k` applies and those on the others are refuted. -/
def Taken (ctx : Context) (I : Interpretation) (v : Valuation) (outs : List State) (k : Nat) : Prop :=
  ∃ o, outs[k]? = some o ∧ o.Applies ctx I v ∧ ∀ j o', outs[j]? = some o' → j ≠ k → o'.Refuted ctx I v

theorem Taken.agree {I : Interpretation} {v v' : Valuation} {outs : List State} {j k : Nat}
    (settled : ∀ s ∈ outs, s.Settled ctx k) (agree : ∀ y : SymbolId, y.number < k → v y = v' y)
    (taken : Taken ctx I v outs j) : Taken ctx I v' outs j := by
  obtain ⟨o, at_, applies, others⟩ := taken
  refine ⟨o, at_, ?_, fun l o' at' ne => ?_⟩
  · unfold State.Applies
    rw [← (settled o (List.mem_of_getElem? at_)).truth_agree agree]
    exact applies
  · unfold State.Refuted
    rw [← (settled o' (List.mem_of_getElem? at')).truth_agree agree]
    exact others l o' at' ne

/-- The statements that were passed, with the edges that were taken, and the statement that is reached. -/
inductive Trail (lay : Layout) (r : Registry) (ctx : Context) (w : Walk) (visit : Nat → Visit) (I : Interpretation)
    (v : Valuation) : List (Nat × Nat) → Nat → Prop
  | root : Trail lay r ctx w visit I v [] root
  | next {passed : List (Nat × Nat)} {q k n : Nat} (before : Trail lay r ctx w visit I v passed q)
      (holds : ∃ m, Holds r ctx I v (visit q).seeds m) (taken : Taken ctx I v (w.outputs.get q) k)
      (edge : (lay.flow.succs q)[k]? = some n) (forward : lay.flow.Forward q n) :
      Trail lay r ctx w visit I v ((q, k) :: passed) n

namespace Trail

variable {I : Interpretation} {v v' : Valuation} {passed : List (Nat × Nat)} {q k : Nat}

theorem live (trail : Trail lay r ctx w visit I v passed q) : lay.flow.Live q := by
  induction trail with
  | root => exact root_live _
  | next _ _ _ _ forward ih => exact ih.edge forward.1

/-- What is known of a statement that was passed. -/
theorem at_passed (trail : Trail lay r ctx w visit I v passed q) (hu : (u, k) ∈ passed) :
    Taken ctx I v (w.outputs.get u) k ∧ TransGen lay.flow.Forward u q ∧
      ∃ n, (lay.flow.succs u)[k]? = some n ∧ ((∃ j, (n, j) ∈ passed) ∨ n = q) := by
  induction trail with
  | root => cases hu
  | next before holds taken edge forward ih =>
    rcases List.mem_cons.mp hu with same | hu
    · cases same
      exact ⟨taken, .single forward, _, edge, .inr rfl⟩
    · obtain ⟨taken', way, n, edge', next⟩ := ih hu
      refine ⟨taken', way.tail forward, n, edge', .inl ?_⟩
      rcases next with ⟨j, hj⟩ | rfl
      · exact ⟨j, List.mem_cons_of_mem _ hj⟩
      · exact ⟨_, List.mem_cons_self⟩

theorem starts (trail : Trail lay r ctx w visit I v passed q) : (∃ k, (Flow.root, k) ∈ passed) ∨ q = Flow.root := by
  induction trail with
  | root => exact .inr rfl
  | next before _ _ _ _ ih =>
    rcases ih with ⟨k, hk⟩ | rfl
    · exact .inl ⟨k, List.mem_cons_of_mem _ hk⟩
    · exact .inl ⟨_, List.mem_cons_self⟩

/-- The trail up to a statement that was passed. -/
theorem cut (trail : Trail lay r ctx w visit I v passed q) (hu : (u, k) ∈ passed) :
    ∃ earlier, Trail lay r ctx w visit I v earlier u ∧ ∃ m, Holds r ctx I v (visit u).seeds m := by
  induction trail with
  | root => cases hu
  | next before holds _ _ _ ih =>
    rcases List.mem_cons.mp hu with same | hu
    · cases same
      exact ⟨_, before, holds⟩
    · exact ih hu

/-- A dominator of the end lies on the trail. -/
theorem dominated (trail : Trail lay r ctx w visit I v passed q) {d : Nat} (dom : lay.flow.Dominates d q) :
    d = q ∨ ∃ k, (d, k) ∈ passed := by
  by_contra none
  obtain ⟨ne, off⟩ := not_or.mp none
  have around : lay.flow.Around d q := by
    clear dom none
    induction trail with
    | root => exact ⟨Ne.symm ne, .refl⟩
    | next before _ _ _ forward ih =>
      refine (ih ?_ ?_).edge forward.1 (Ne.symm ne)
      · rintro rfl
        exact off ⟨_, List.mem_cons_self⟩
      · rintro ⟨k, hk⟩
        exact off ⟨k, List.mem_cons_of_mem _ hk⟩
  exact dom.2 around

/-- A state that goes from a statement on the trail to one that is not is refuted. -/
theorem leaves_trail {j : Nat} {s : State} (trail : Trail lay r ctx w visit I v passed q) (hu : (u, k) ∈ passed)
    (off : ∀ k, (n, k) ∉ passed) (ne : n ≠ q) (edge : (lay.flow.succs u)[j]? = some n)
    (at_ : (w.outputs.get u)[j]? = some s) : s.Refuted ctx I v := by
  obtain ⟨⟨_, _, _, others⟩, _, n', edge', next⟩ := trail.at_passed hu
  refine others j s at_ ?_
  rintro rfl
  rw [edge] at edge'
  cases edge'
  rcases next with ⟨l, hl⟩ | same
  · exact off l hl
  · exact ne same

variable (x : Explored lay r lo ctx w done visit)

include x

/-- The trail was made with symbols that were there when its end was reached. -/
theorem agree (agree : ∀ y : SymbolId, y.number < (visit q).arrival → v y = v' y)
    (trail : Trail lay r ctx w visit I v passed q) : Trail lay r ctx w visit I v' passed q := by
  induction trail with
  | root => exact .root
  | @next passed q k n before holds taken edge forward ih =>
    have visited := x.visited before.live
    have later := x.order before.live forward
    obtain ⟨size, entered, left⟩ := visited.times
    have sooner : ∀ {j}, j ≤ (visit n).arrival → ∀ y : SymbolId, y.number < j → v y = v' y :=
      fun le y hy => agree y (Nat.lt_of_lt_of_le hy le)
    obtain ⟨m, s, sole, rep⟩ := holds
    refine .next (ih (sooner (by omega))) ⟨m, s, ?_, ?_⟩ (taken.agree visited.left (sooner later)) edge forward
    · exact sole_agree visited.seeds (sooner (by omega)) sole
    · exact represents_agree x.registry (visited.seeds s sole.mem) (by omega) (sooner (by omega)) rep

/-- A statement the trail has left behind without passing it sends no state that could hold. -/
theorem off (trail : Trail lay r ctx w visit I v passed q) (live : lay.flow.Live u) (off : ∀ k, (u, k) ∉ passed)
    (behind : ¬ ReflTransGen lay.flow.Forward q u) : ∀ o ∈ w.outputs.get u, o.Refuted ctx I v := by
  induction u using x.forward_wf.induction with
  | _ u ih =>
    have visited := x.visited live
    have notRoot : u ≠ Flow.root := by
      rintro rfl
      rcases trail.starts with ⟨k, hk⟩ | rfl
      · exact off k hk
      · exact behind .refl
    have ne : u ≠ q := by
      rintro rfl
      exact behind .refl
    have arrived : ∀ s ∈ (visit u).arrived, s.Refuted ctx I v := by
      intro s hs
      obtain ⟨b, split, perm⟩ := x.arrived live
      rw [split, if_neg notRoot, List.nil_append] at hs
      obtain ⟨p, hp, hs⟩ := List.mem_flatMap.mp (perm.mem_iff.mp hs)
      obtain ⟨forward, hs⟩ := kept_whole x.tame.toRegular hs
      obtain ⟨j, edge, at_⟩ := mem_along_iff.mp hs
      by_cases on : ∃ k, (p, k) ∈ passed
      · obtain ⟨k, hk⟩ := on
        exact trail.leaves_trail hk off ne edge at_
      · refine ih p ⟨x.live hp, forward⟩ (x.live hp) (fun k hk => on ⟨k, hk⟩) (fun way => ?_) s (along_mem hs)
        exact behind (way.tail forward)
    obtain ⟨stmt, _, _, transfers⟩ := visited.carriedOut
    exact transfers.refuted (refuted_of_anonymised visited.renamed arrived)

end Trail

/-! ## Arriving -/

theorem split_at {α : Type} {l : List α} {k : Nat} {a : α} (h : l[k]? = some a) :
    ∃ before after, l = before ++ a :: after ∧ ∀ b ∈ before ++ after, ∃ j, j ≠ k ∧ l[j]? = some b := by
  obtain ⟨lt, rfl⟩ := List.getElem?_eq_some_iff.mp h
  refine ⟨l.take k, l.drop (k + 1), by simp, fun b hb => ?_⟩
  rcases List.mem_append.mp hb with hb | hb
  · obtain ⟨j, hj⟩ := List.getElem?_of_mem hb
    rw [List.getElem?_take] at hj
    split at hj
    · exact ⟨j, by omega, hj⟩
    · cases hj
  · obtain ⟨j, hj⟩ := List.getElem?_of_mem hb
    rw [List.getElem?_drop] at hj
    exact ⟨k + 1 + j, by omega, hj⟩

section Arriving

variable {I : Interpretation} {v : Valuation} {passed : List (Nat × Nat)} {q k : Nat} {o s : State}

/-- Of the edges from `q` to `n` only the one that is taken has a state that applies. -/
theorem sole_along {outputs : StateMap} (taken : Taken ctx I v (outputs.get q) k)
    (edge : (lay.flow.succs q)[k]? = some n) :
    ∃ o, (outputs.get q)[k]? = some o ∧ State.Sole ctx I v o (along lay outputs q n) := by
  obtain ⟨o, at_, applies, others⟩ := taken
  have pair : ((lay.flow.succs q).zip (outputs.get q))[k]? = some (n, o) := List.getElem?_zip_eq_some.mpr ⟨edge, at_⟩
  obtain ⟨before, after, split, rest⟩ := split_at pair
  let sent (l : List (Nat × State)) : List State := l.filterMap fun e => if e.1 = n then some e.2 else none
  have all : along lay outputs q n = sent before ++ o :: sent after := by
    unfold along
    rw [split, List.filterMap_append, List.filterMap_cons, if_pos rfl]
  refine ⟨o, at_, sent before, sent after, all, applies, fun t ht => ?_⟩
  rw [← List.filterMap_append] at ht
  obtain ⟨e, he, found⟩ := List.mem_filterMap.mp ht
  obtain ⟨j, ne, hj⟩ := rest e he
  split at found
  · cases found
    exact others j e.2 (List.getElem?_zip_eq_some.mp hj).2 ne
  · cases found

theorem sole_flatMap {f : Nat → List State} (nodup : done.Nodup) (hq : q ∈ done) (sole : State.Sole ctx I v s (f q))
    (others : ∀ u ∈ done, u ≠ q → ∀ t ∈ f u, t.Refuted ctx I v) : State.Sole ctx I v s (done.flatMap f) := by
  obtain ⟨before, after, rfl⟩ := List.append_of_mem hq
  have apart : ∀ u ∈ before ++ after, u ≠ q := by
    rintro u hu rfl
    exact (List.nodup_cons.mp (List.perm_middle.nodup_iff.mp nodup)).1 hu
  rw [List.flatMap_append, List.flatMap_cons, ← List.append_assoc]
  refine sole.append (fun t ht => ?_) fun t ht => ?_
  · obtain ⟨u, hu, ht⟩ := List.mem_flatMap.mp ht
    exact others u (by simp [hu]) (apart u (by simp [hu])) t ht
  · obtain ⟨u, hu, ht⟩ := List.mem_flatMap.mp ht
    exact others u (by simp [hu]) (apart u (by simp [hu])) t ht

/-- Where a trail goes on, the state it comes with is the one that applies. -/
theorem Trail.sole_arrived (x : Explored lay r lo ctx w done visit)
    (trail : Trail lay r ctx w visit I v ((q, k) :: passed) n) :
    ∃ o, (w.outputs.get q)[k]? = some o ∧ State.Sole ctx I v o (visit n).arrived := by
  have reg := x.tame.toRegular
  cases trail with
  | next before holds taken edge forward =>
    have trail := Trail.next before holds taken edge forward
    have liveQ := before.live
    have notRoot : n ≠ Flow.root := by
      rintro rfl
      exact forward.2 ⟨liveQ, fun around => around.1 rfl⟩
    -- The trail does not come back to `n`, and no predecessor of `n` comes after it.
    have new : ∀ j, (n, j) ∉ passed := fun j hj =>
      x.acyclic trail.live ((before.at_passed hj).2.1.tail forward)
    have ne : n ≠ q := fun same => x.acyclic trail.live (.single (same ▸ forward))
    obtain ⟨o, at_, sole⟩ := sole_along taken edge
    obtain ⟨b, split, perm⟩ := x.arrived trail.live
    refine ⟨o, at_, ?_⟩
    rw [split, if_neg notRoot, List.nil_append]
    refine State.Sole.perm perm.symm (sole_flatMap x.record.nodup (x.all liveQ) ?_ fun u hu other t ht => ?_)
    · rw [kept_of_forward reg _ forward]
      exact sole
    · obtain ⟨forward', ht⟩ := kept_whole reg ht
      obtain ⟨j, edge', at'⟩ := mem_along_iff.mp ht
      by_cases on : ∃ i, (u, i) ∈ passed
      · obtain ⟨i, hi⟩ := on
        exact before.leaves_trail hi new ne edge' at'
      · refine Trail.off x trail (x.live hu) (fun i hi => ?_) (fun way => ?_) t (along_mem ht)
        · rcases List.mem_cons.mp hi with same | hi
          · cases same
            exact other rfl
          · exact on ⟨i, hi⟩
        · exact x.acyclic trail.live (TransGen.tail' way forward')

end Arriving

/-! ## Going on -/

structure LaysOut (lay : Layout) (p : Method) : Prop where
  body : ∀ i : Nat, lay.body[i]? = p.body[i]?
  edges : ∀ {i : Nat} {stmt}, p.body[i]? = some stmt → lay.flow.succs i = stmt.successors i

section Going

variable {p : Method} {I : Interpretation} {v : Valuation} {passed : List (Nat × Nat)} {q : Nat} {stmt : Statement}
  {m m' : Machine} {e : Effect}

theorem Visited.transfers (visited : Visited lay r ctx q (visit q) (w.outputs.get q)) (laid : LaysOut lay p)
    (here : p.body[q]? = some stmt) : (visit q).unknowns.Of r (visit q).entry stmt (w.outputs.get q) ctx ∧
      Transfers r ctx stmt (visit q).seeds (visit q).unknowns (w.outputs.get q) := by
  obtain ⟨stmt', here', unknowns, transfers⟩ := visited.carriedOut
  rw [laid.body, here] at here'
  cases here'
  exact ⟨unknowns, transfers⟩

/-- Where a machine goes, the states do. -/
theorem Holds.goes (x : Explored lay r lo ctx w done visit) (laid : LaysOut lay p) (live : lay.flow.Live q)
    (holds : Holds r ctx I v (visit q).seeds m) (here : p.body[q]? = some stmt)
    (grants : Grants v (visit q).unknowns e stmt) (performed : stmt.perform I e m = some m') :
    Taken ctx I v (w.outputs.get q) (stmt.edge m) ∧
      ∃ o, (w.outputs.get q)[stmt.edge m]? = some o ∧ o.Represents r ctx I v m' := by
  obtain ⟨s, sole, rep⟩ := holds
  obtain ⟨_, transfers⟩ := (x.visited live).transfers laid here
  obtain ⟨o, at_, applies, rep', others⟩ := transfers.moves sole rep grants performed
  exact ⟨⟨o, at_, applies, others⟩, o, at_, rep'⟩

/-- Where a machine ends, one state is left, with its values. -/
theorem Holds.ends (x : Explored lay r lo ctx w done visit) (laid : LaysOut lay p) (live : lay.flow.Live q)
    (holds : Holds r ctx I v (visit q).seeds m) (here : p.body[q]? = some stmt) (terminal : stmt.isTerminal = true) :
    ∃ o, w.outputs.get q = [o] ∧ o.Applies ctx I v ∧ o.Concludes r ctx I v stmt m := by
  obtain ⟨s, sole, rep⟩ := holds
  obtain ⟨_, transfers⟩ := (x.visited live).transfers laid here
  exact transfers.ends sole rep terminal

/-- The initial state is the only one that arrives at the root. -/
theorem Explored.sole_initial (x : Explored lay r lo ctx w done visit) :
    State.Sole ctx I v .initial (visit root).arrived := by
  obtain ⟨b, split, perm⟩ := x.arrived (root_live _)
  have none : b = [] := by
    refine List.eq_nil_iff_forall_not_mem.mpr fun s hs => ?_
    obtain ⟨u, hu, hs⟩ := List.mem_flatMap.mp (perm.mem_iff.mp hs)
    exact (kept_whole x.tame.toRegular hs).1.2 ⟨x.live hu, fun around => around.1 rfl⟩
  rw [split, if_pos rfl, none]
  exact State.sole_singleton rfl

end Going

end Walk

end PathMerge
