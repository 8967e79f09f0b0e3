/-
  PathMerge.Proofs.Created — what is known of an analysis that was created.

  The method has passed its check, so its body is not empty; the graph has the successors of its
  statements as edges and the loops are those of the graph. An analysis is executed by one walk over the
  whole method.
-/

import PathMerge.Proofs.NaturalLoops
import PathMerge.Proofs.Turns

namespace PathMerge

/-! ## The graph of a body -/

namespace Flow

variable {body : List Statement} {g : Flow}

theorem edges_of_ofBody (h : ofBody body = .ok g) :
    g.edges = (body.zipIdx.map fun (s, i) => s.successors i).toArray := by
  unfold ofBody at h
  dsimp only at h
  split at h
  · cases h
    rfl
  · cases h

theorem size_of_ofBody (h : ofBody body = .ok g) : g.size = body.length := by
  unfold size
  rw [edges_of_ofBody h]
  simp

theorem succs_of_ofBody (h : ofBody body = .ok g) {i : Nat} {s : Statement} (hi : body[i]? = some s) :
    g.succs i = s.successors i := by
  unfold succs
  rw [edges_of_ofBody h]
  simp [List.getElem?_zipIdx, hi]

/-- Every edge from a live position leads on in the depth-first order, or to a dominator. -/
def climbs (g : Flow) : Bool :=
  let order := g.reversePostorder
  g.positions.all fun u => (g.succs u).all fun w =>
    !g.reachable.contains u || g.dominates w u || decide (order.idxOf u < order.idxOf w)

def isSealed (g : Flow) : Bool :=
  g.positions.all fun u => (g.succs u).all fun w => !g.reachable.contains w || g.reachable.contains u

theorem reducible_of_climbs (some : 0 < g.size) (h : g.climbs = true) : g.Reducible := by
  refine reducible_of_rank g.reversePostorder.idxOf fun u w live s => ?_
  have edges := List.all_eq_true.mp (List.all_eq_true.mp h u (List.mem_range.mpr s.source_lt)) w s
  rw [(contains_reachable some).mpr live, Bool.not_true, Bool.false_or] at edges
  rcases Bool.or_eq_true_iff.mp edges with dom | up
  · exact .inl ((dominates_iff some).mp dom)
  · exact .inr (of_decide_eq_true up)

theorem sealed_of_isSealed (some : 0 < g.size) (h : g.isSealed = true) : g.Sealed := by
  intro u n s live
  have edges := List.all_eq_true.mp (List.all_eq_true.mp h u (List.mem_range.mpr s.source_lt)) n s
  rw [(contains_reachable some).mpr live] at edges
  exact (contains_reachable some).mp (by simpa using edges)

end Flow

namespace Analysis

variable {m : Method} {settings : Settings} {a a' : Analysis}

structure Created (m : Method) (settings : Settings) (a : Analysis) : Prop where
  valid : m.validate = .ok ()
  method : a.method = m
  settings_eq : a.settings = settings
  body : a.layout.body = m.body.toArray
  flow : Flow.ofBody m.body = .ok a.layout.flow
  loops : a.layout.loops = a.layout.flow.loops.toArray
  unexecuted : a.walk? = none
  context : ∃ ctx, Context.create settings.bits Theory.all = .ok ctx ∧ Returns (registerSymbols m) ctx () a.context

theorem within_ok {α : Type} {ctx ctx' : Context} {x : ContextM α} {r : α} :
    within ctx x = .ok (r, ctx') ↔ Returns x ctx r ctx' := by
  unfold within Returns
  rcases x.run.run ctx with ⟨e | b, ctx''⟩
  · exact ⟨nofun, nofun⟩
  · constructor
    · intro h
      cases h
      rfl
    · intro h
      cases h
      rfl

theorem within_error {α : Type} {ctx : Context} {x : ContextM α} {e : Failure} :
    within ctx x = .error e ↔ ∃ ctx', Fails x ctx e ctx' := by
  unfold within Fails
  rcases x.run.run ctx with ⟨f | b, ctx'⟩
  · constructor
    · intro h
      cases h
      exact ⟨ctx', rfl⟩
    · rintro ⟨_, h⟩
      cases h
      rfl
  · exact ⟨nofun, nofun⟩

theorem ok_of_bind {α β : Type} {x : Except Failure α} {f : α → Except Failure β} {b : β} (h : x >>= f = .ok b) :
    ∃ a, x = .ok a ∧ f a = .ok b := by
  cases x with
  | error e => cases h
  | ok a => exact ⟨a, rfl, h⟩

/-- A method that passes its check has statements. -/
theorem size_pos_of_valid (valid : m.validate = .ok ()) {g : Flow} (flow : Flow.ofBody m.body = .ok g) :
    0 < g.size := by
  rw [Flow.size_of_ofBody flow]
  rcases empty : m.body with _ | ⟨s, rest⟩
  · unfold Method.validate Method.firstFault? at valid
    rw [empty] at valid
    cases valid
  · exact Nat.succ_pos _

theorem created_of_create (h : create m settings = .ok a) : Created m settings a := by
  obtain ⟨⟨⟩, valid, h⟩ := ok_of_bind h
  obtain ⟨ctx, made, h⟩ := ok_of_bind h
  obtain ⟨⟨⟨⟩, ctx'⟩, registered, h⟩ := ok_of_bind h
  obtain ⟨g, flow, h⟩ := ok_of_bind h
  obtain ⟨loops, found, h⟩ := ok_of_bind h
  obtain rfl := Except.ok.inj ((Flow.findLoops_eq (size_pos_of_valid valid flow)).symm.trans found)
  cases h
  exact ⟨valid, rfl, rfl, rfl, flow, rfl, rfl, ctx, made, within_ok.mp registered⟩

theorem exists_of_map {α : Type} {view : Analysis → α} {v : α} (h : (create m settings).map view = .ok v) :
    ∃ a, create m settings = .ok a ∧ view a = v := by
  cases created : create m settings with
  | error e =>
    rw [created] at h
    cases h
  | ok a =>
    rw [created] at h
    cases h
    exact ⟨a, rfl, rfl⟩

theorem Created.regular (created : Created m settings a) : a.layout.Regular :=
  ⟨size_pos_of_valid created.valid created.flow, created.loops⟩

/-- An analysis is executed by one walk over the method. -/
theorem execute_ok (unexecuted : a.walk? = none) : a.execute = .ok a' ↔
    ∃ w ctx, Returns (Walk.ofMethod a.layout a.settings.stops) a.context w ctx ∧
      a' = { a with context := ctx, walk? := some w } := by
  unfold execute
  rw [unexecuted]
  constructor
  · intro h
    obtain ⟨⟨w, ctx⟩, walked, h⟩ := ok_of_bind h
    cases h
    exact ⟨w, ctx, within_ok.mp walked, rfl⟩
  · rintro ⟨w, ctx, walked, rfl⟩
    dsimp only
    rw [within_ok.mpr walked]
    rfl

theorem execute_error (unexecuted : a.walk? = none) {e : Failure} : a.execute = .error e ↔
    ∃ ctx, Fails (Walk.ofMethod a.layout a.settings.stops) a.context e ctx := by
  unfold execute
  rw [unexecuted, ← within_error]
  dsimp only
  cases within a.context (Walk.ofMethod a.layout a.settings.stops) with
  | error f =>
    constructor
    · intro h
      cases h
      rfl
    · intro h
      cases h
      rfl
  | ok walked => exact ⟨nofun, nofun⟩

end Analysis

end PathMerge
