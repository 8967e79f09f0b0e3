/-
  PathMerge.Proofs.Execution — what has been recorded when an analysis is executed.

  Any method that passes its check is analysed completely, whatever its graph looks like: dead statements, statements
  that wait for ever for a dead one, cycles that are entered at several places. An executed analysis that stops nowhere
  has recorded states for the live statements and no others, one for each edge, and has one summary for each loop
  (`execute_covers`).
-/

import PathMerge.Proofs.Coverage
import PathMerge.Proofs.Registered

namespace PathMerge

open PathMerge.Flow

namespace Analysis

variable {m : Method} {settings : Settings} {a a' : Analysis}

theorem exists_of_execute {α : Type} {view : Analysis → α} {v : α}
    (h : (create m settings >>= execute).map view = .ok v) :
    ∃ a a', create m settings = .ok a ∧ a.execute = .ok a' ∧ view a' = v := by
  cases both : create m settings >>= execute with
  | error e =>
    rw [both] at h
    cases h
  | ok a' =>
    rw [both] at h
    obtain ⟨a, created, executed⟩ := ok_of_bind both
    exact ⟨a, a', created, executed, Except.ok.inj h⟩

/-- An analysis is executed, or a live call gives a function another number of arguments than are registered. -/
theorem Created.attempt (created : Created m settings a) :
    (∃ a', a.execute = .ok a') ∨ ∃ i stmt name n, a.layout.flow.Live i ∧ m.body[i]? = some stmt ∧
      stmt.applied? = some (name, n) ∧ a.context.symbols.arity? name ≠ some n ∧
      a.execute = .error (.defect (.wrongArity name n)) := by
  have attempt := Walk.ofMethod_attempts created.regular created.names created.sound.1 (.refl a.context.symbols)
    a.settings.stops
  rcases attempt with ⟨w, ctx, walked, _⟩ | ⟨e, ctx, failed, i, stmt, name, n, live, here, applied, misfit, rfl⟩
  · exact .inl ⟨_, (execute_ok created.unexecuted).mpr ⟨w, ctx, walked, rfl⟩⟩
  · rw [created.getElem?_body] at here
    exact .inr ⟨i, stmt, name, n, live, here, applied, misfit, (execute_error created.unexecuted).mpr ⟨ctx, failed⟩⟩

/-- Without pure calls nothing can fail. -/
theorem Created.executes_callless (created : Created m settings a) (none : ∀ stmt ∈ m.body, stmt.applied? = none) :
    ∃ a', a.execute = .ok a' := by
  refine created.attempt.resolve_right ?_
  rintro ⟨i, stmt, name, n, _, here, applied, _⟩
  rw [none stmt (List.mem_of_getElem? here)] at applied
  cases applied

theorem Created.progress (created : Created m settings a) (executed : a.execute = .ok a') :
    ∃ w pending, a'.walk? = some w ∧ a'.layout = a.layout ∧
      Walk.Progress a.layout (.whole settings.stops) a.context.symbols w [] pending := by
  obtain ⟨w, ctx, walked, rfl⟩ := (execute_ok created.unexecuted).mp executed
  obtain ⟨_, _, pending, progress⟩ := (Walk.ofMethod_attempts created.regular created.names created.sound.1
    (.refl a.context.symbols) a.settings.stops).of_returns walked
  rw [created.settings_eq] at progress
  exact ⟨w, pending, rfl, rfl, progress⟩

theorem Created.covers (created : Created m settings a) (unstopped : settings.stops = [])
    (executed : a.execute = .ok a') :
    ∃ w, a'.walk? = some w ∧ a'.layout = a.layout ∧ Walk.Covers a.layout (.whole []) a.context.symbols w := by
  obtain ⟨w, pending, recorded, same, progress⟩ := created.progress executed
  rw [unstopped] at progress
  exact ⟨w, recorded, same, progress.covers created.regular (.whole []) rfl⟩

end Analysis

namespace Walk.Covers

variable {lay : Layout} {r : Registry} {w : Walk} {i : Nat}

theorem ran_iff (h : Covers lay (.whole []) r w) : w.Ran i ↔ lay.flow.Live i :=
  ⟨fun ran => (h.inside ran).1, fun live => h.all (Region.inside_whole.mpr live)⟩

/-- The loops are summarised one by one, in their order. -/
theorem keys_eq (reg : lay.Regular) (h : Covers lay (.whole []) r w) :
    w.summaries.keys = List.range lay.loops.size := by
  refine h.sorted.eq_of_mem_iff List.pairwise_lt_range fun id => ?_
  rw [h.summarised, List.mem_range]
  constructor
  · rintro ⟨l, found, _⟩
    exact (Array.getElem?_eq_some_iff.mp found).1
  · intro lt
    have found : lay.loops[id]? = some lay.loops[id] := Array.getElem?_eq_getElem lt
    have head := (reg.natural found).head
    exact ⟨_, found, ⟨head, Region.inside_whole.mpr head.1, rfl⟩, h.ran_iff.mpr head.1⟩

end Walk.Covers

/-- Whatever its graph, an analysis that is executed without stops has recorded states after exactly the live
statements, one for each edge or one at an end, and summarised each loop once. -/
theorem execute_covers {m : Method} {settings : Settings} {a a' : Analysis}
    (created : Analysis.create m settings = .ok a) (unstopped : settings.stops = []) (executed : a.execute = .ok a') :
    (∀ i, a'.outputs i ≠ [] ↔ a.layout.flow.Live i) ∧
      (∀ i, a.layout.flow.Live i → a.layout.flow.isTail i = false →
        (a'.outputs i).length = (a.layout.flow.succs i).length) ∧
      (∀ i, a.layout.flow.Live i → a.layout.flow.isTail i = true → (a'.outputs i).length = 1) ∧
      a'.summaries.keys = List.range a.layout.loops.size ∧
      ∀ e ∈ a'.summaries, (a.layout.loops[e.1]?).map (·.head) = some e.2.head := by
  have made := Analysis.created_of_create created
  obtain ⟨w, recorded, _, covers⟩ := made.covers unstopped executed
  have outputs : ∀ i, a'.outputs i = w.outputs.get i := by
    intro i
    unfold Analysis.outputs
    rw [recorded]
  have summaries : a'.summaries = w.summaries := by
    unfold Analysis.summaries
    rw [recorded]
  refine ⟨fun i => ?_, fun i live inner => ?_, fun i live tail => ?_, ?_, fun e he => ?_⟩
  · rw [outputs]
    exact covers.ran_iff
  · rw [outputs]
    refine covers.fits_edges (covers.ran_iff.mpr live) fun none => ?_
    rw [isTail, none] at inner
    cases inner
  · rw [outputs, covers.length (covers.ran_iff.mpr live), List.isEmpty_iff.mp tail]
    rfl
  · rw [summaries]
    exact covers.keys_eq made.regular
  · rw [summaries] at he
    obtain ⟨l, found, head⟩ := covers.headed he
    rw [found, Option.map_some, head]

/-- Counts its parameter down to zero, but first runs through a cycle that is entered at two places, one of them also
from the dead statement at the end. -/
def tangledMethod : Method where
  owner := "Counter"
  name := "drain"
  params := [("x", .int)]
  locals := []
  result? := some .int
  body := [
    .branch ⟨.eq, .var "x", .int 0⟩ 2,
    .assign "x" (.binary .sub (.var "x") (.int 1)),
    .branch ⟨.eq, .var "x", .int 7⟩ 1,
    .branch ⟨.le, .var "x", .int 0⟩ 6,
    .assign "x" (.binary .sub (.var "x") (.int 1)),
    .jump 3,
    .ret (some (.var "x")),
    .jump 1]

/-- The statement at the end of the tangled method is dead, and of its two cycles the one that counts down is a loop.
-/
theorem execute_covers_tangled : ∃ a a', Analysis.create tangledMethod ⟨4, []⟩ = .ok a ∧ a.execute = .ok a' ∧
    (a'.outputs 2).length = 2 ∧ a'.outputs 7 = [] ∧ a'.summaries.keys = [0] := by
  have shape : (Analysis.create tangledMethod ⟨4, []⟩).map (fun a =>
      ([2, 7].map a.layout.flow.reachable.contains, a.layout.flow.succs 2, a.layout.loops.size)) =
        .ok ([true, false], [3, 1], 1) := by cbv
  obtain ⟨a, created, shape⟩ := Analysis.exists_of_map shape
  simp only [List.map_cons, List.map_nil, Prod.mk.injEq, List.cons.injEq, and_true] at shape
  obtain ⟨⟨live, dead⟩, edges, loops⟩ := shape
  have made := Analysis.created_of_create created
  rw [contains_reachable made.regular.filled] at live
  rw [← Bool.not_eq_true, contains_reachable made.regular.filled] at dead
  obtain ⟨a', executed⟩ := made.executes_callless (by decide)
  obtain ⟨recorded, branching, _, keys, _⟩ := execute_covers created rfl executed
  refine ⟨a, a', created, executed, ?_, ?_, ?_⟩
  · rw [branching 2 live (by rw [isTail, edges]; rfl), edges]
    rfl
  · exact not_not.mp fun some => dead ((recorded 7).mp some)
  · rw [keys, loops]
    rfl

end PathMerge
