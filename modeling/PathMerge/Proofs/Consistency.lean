/-
  PathMerge.Proofs.Consistency — what can never go wrong.

  Whatever a walk is over and wherever it stops, only live statements of its region are queued, and only once they have
  been handed a state (`Grounded`). So the statement exists, exactly one rule is for it and there is something to
  merge; and the states that come back to the head of a loop stand behind those it was entered with. Every loop lies
  inside the method, and the immediate dominators of all live positions are known. An execution can fail in one way
  only: a function is applied to another number of arguments than it is registered with (`execute_consistent`).
-/

import PathMerge.Proofs.DominatorTree
import PathMerge.Proofs.Execution

namespace PathMerge

open Context PathMerge.Flow Relation

namespace Walk

variable {lay : Layout} {region : Region} {summarise : Nat → List State → ContextM LoopRun} {start : List State}
  {c c' : Config}

structure Grounded (lay : Layout) (region : Region) (start : List State) (c : Config) : Prop where
  queued : ∀ {n}, n ∈ c.queue → region.Inside lay n ∧ c.walk.inputs.get n ≠ []
  seeds : start <+: c.walk.inputs.get region.root

theorem Grounded.of_queue {w : Walk} {queue queue' pending pending' : List Nat} {postponed postponed' : Nat}
    {ctx ctx' : Context} (h : Grounded lay region start ⟨w, queue, pending, postponed, ctx⟩)
    (sub : ∀ {n}, n ∈ queue' → n ∈ queue) :
    Grounded lay region start ⟨w, queue', pending', postponed', ctx'⟩ :=
  ⟨fun hn => h.queued (sub hn), h.seeds⟩

/-- The queue after a statement has been taken holds statements that have been handed a state. -/
theorem Grounded.advance {w w' : Walk} {i : Nat} {queue next pending pending' : List Nat} {postponed postponed' : Nat}
    {ctx ctx' : Context} (h : Grounded lay region start ⟨w, i :: queue, pending, postponed, ctx⟩)
    (live : ∀ {n}, n ∈ next → lay.flow.Live n) (met : ∀ {n}, w.inputs.get n ≠ [] ∨ n ∈ next → w'.inputs.get n ≠ [])
    (seeds : w.inputs.get region.root <+: w'.inputs.get region.root) :
    Grounded lay region start ⟨w', enqueue region queue next, pending', postponed', ctx'⟩ := by
  refine ⟨fun {n} hn => ?_, h.seeds.trans seeds⟩
  rcases (mem_enqueue queue next).mp hn with old | ⟨new, contains⟩
  · obtain ⟨inside, some⟩ := h.queued (List.mem_cons_of_mem _ old)
    exact ⟨inside, met (.inl some)⟩
  · exact ⟨⟨live new, contains⟩, met (.inr new)⟩

/-- A turn queues only positions of the region that have states waiting, and never loses the states the walk started
with. -/
theorem Grounded.turn (reg : lay.Regular) (hw : region.Walked lay) (h : Grounded lay region start c)
    (t : Turn lay region summarise c c') : Grounded lay region start c' := by
  cases t with
  | discard stop => exact h.of_queue (List.mem_cons_of_mem _)
  | late go carriedOut => exact h.of_queue (List.mem_cons_of_mem _)
  | drop go open_ waits stalled nothing => exact h.of_queue (List.mem_cons_of_mem _)
  | postpone go open_ waits room =>
    refine h.of_queue fun {n} hn => ?_
    rw [List.mem_append, List.mem_singleton] at hn
    exact List.mem_cons.mpr hn.symm
  | @take w i queue pending postponed ctx ctx' r go open_ due taken =>
    obtain ⟨inside, _⟩ := h.queued List.mem_cons_self
    unfold Walk.take at taken
    cases pass : loopToPass? lay region i with
    | none =>
      rw [pass] at taken
      obtain ⟨outs, _, _, rfl⟩ := returns_step.mp taken
      refine h.advance (fun {n} hn => ?_) inputs_recorded_ne ?_
      · obtain ⟨e, he, rfl⟩ := List.mem_map.mp (mem_recorded.mp hn).1
        exact inside.1.edge (List.of_mem_zip he).1
      · rw [inputs_recorded]
        exact List.prefix_append _ _
    | some id =>
      rw [pass] at taken
      obtain ⟨l, found, rfl, inner⟩ := Region.loopToPass?_some reg inside pass
      obtain ⟨l', run, found', _, rfl⟩ := returns_passLoop.mp taken
      cases found.symm.trans found'
      have natural := reg.natural found
      refine h.advance (fun {n} hn => ?_) inputs_passed_ne ?_
      · obtain ⟨_, u, hu, sent, _⟩ := mem_passed.mp hn
        obtain ⟨e, he, rfl⟩ := List.mem_map.mp sent
        exact (natural.exits.mp hu).1.1.edge (List.of_mem_zip he).1
      · -- The root lies in no nested loop, so its states are not replaced by those of the loop's walk.
        have own : ¬ (region.root ∈ l.body ∧ region.root ≠ l.head ∧ run.walk.inputs.get region.root ≠ []) := fun no =>
          no.2.1 (hw.inner_root reg inner (natural.body.mp no.1)).symm
        rw [inputs_passed, if_neg own]
        exact List.prefix_append _ _

theorem Grounded.turns (reg : lay.Regular) (hw : region.Walked lay) (h : Grounded lay region start c)
    (turns : ReflTransGen (Turn lay region summarise) c c') : Grounded lay region start c' := by
  induction turns with
  | refl => exact h
  | tail _ t ih => exact ih.turn reg hw t

theorem initial_grounded (reg : lay.Regular) (hw : region.Walked lay) (some : start ≠ []) (ctx : Context) :
    Grounded lay region start (.initial lay region start ctx) := by
  have own : (Config.initial lay region start ctx).walk.inputs.get region.root = start := if_pos rfl
  refine ⟨fun {n} hn => ?_, ?_⟩
  · rw [List.mem_singleton.mp hn, own]
    exact ⟨hw.root_inside reg, some⟩
  · rw [own]

end Walk

/-- Wherever it stops, an analysis is executed unless a live call gives a pure method another number of arguments
than it is registered with. In every walk each queued statement exists and has one rule for the states it was handed,
and the states at the root start with those it was entered with. Loops lie inside the method, and the dominator tree
is found and has the immediate dominator of each live position. -/
theorem execute_consistent {m : Method} {settings : Settings} {a : Analysis}
    (created : Analysis.create m settings = .ok a) :
    ((∃ a', a.execute = .ok a') ∨ ∃ i stmt name n, a.layout.flow.Live i ∧ m.body[i]? = some stmt ∧
        stmt.applied? = some (name, n) ∧ a.context.symbols.arity? name ≠ some n ∧
        a.execute = .error (.defect (.wrongArity name n))) ∧
      (∀ region summarise states ctx c, region.Walked a.layout → states ≠ [] →
        ReflTransGen (Walk.Turn a.layout region summarise) (.initial a.layout region states ctx) c →
          (∀ i ∈ c.queue, ∃ stmt rule, m.body[i]? = some stmt ∧ Rule.select stmt (c.walk.inputs.get i) = .ok rule) ∧
            states <+: c.walk.inputs.get region.root) ∧
      (∀ l ∈ a.layout.loops, l.head ∈ l.body ∧ l.exits ⊆ l.body ∧ ∀ i ∈ l.body, i < m.body.length) ∧
      ∃ tree, a.layout.flow.dominatorTree = .ok tree ∧
        ∀ i, a.layout.flow.Live i → ∃ d, tree.get? i = some d ∧ a.layout.flow.Immediate d i := by
  have made := Analysis.created_of_create created
  have inside : ∀ {i}, a.layout.flow.Live i → i < m.body.length := by
    intro i live
    rw [← Flow.size_of_ofBody made.flow]
    exact live.lt made.regular.filled
  refine ⟨made.attempt, fun region summarise states ctx c hw some turns => ?_, fun l hl => ?_, ?_⟩
  · have grounded := (Walk.initial_grounded made.regular hw some ctx).turns made.regular hw turns
    refine ⟨fun i hi => ?_, grounded.seeds⟩
    obtain ⟨⟨live, _⟩, handed⟩ := grounded.queued hi
    exact ⟨_, _, List.getElem?_eq_getElem (inside live), select_eq handed _⟩
  · obtain ⟨id, found⟩ := Array.getElem?_of_mem hl
    have natural := made.regular.natural found
    refine ⟨natural.body.mpr natural.head, fun i hi => natural.body.mpr (natural.exits.mp hi).1, fun i hi => ?_⟩
    exact inside (natural.body.mp hi).1
  · obtain ⟨_, tree, done, complete⟩ := dominatorTree_complete made.regular.filled
    refine ⟨tree, done, fun i live => ?_⟩
    obtain ⟨d, parent⟩ := complete.full i live
    exact ⟨d, parent, complete.immediate parent⟩

/-- Stopping inside its first cycle starves the rest of the tangled method, but does no harm. -/
theorem execute_consistent_tangled : ∃ a a', Analysis.create tangledMethod ⟨4, [2]⟩ = .ok a ∧ a.execute = .ok a' ∧
    a.layout.flow.Immediate 2 3 := by
  have shape : (Analysis.create tangledMethod ⟨4, [2]⟩).map (fun a =>
      (a.layout.flow.reachable.contains 3, a.layout.flow.dominatorTree.map (·.get? 3))) =
        .ok (true, .ok (some 2)) := by cbv
  obtain ⟨a, created, shape⟩ := Analysis.exists_of_map shape
  obtain ⟨live, parent⟩ := Prod.mk.inj shape
  rw [contains_reachable (Analysis.created_of_create created).regular.filled] at live
  obtain ⟨executed, _, _, tree, done, dominators⟩ := execute_consistent created
  obtain ⟨d, found, immediate⟩ := dominators 3 live
  rw [done] at parent
  cases found.symm.trans (Except.ok.inj parent)
  rcases executed with ⟨a', executed⟩ | ⟨i, stmt, name, n, _, here, applied, _⟩
  · exact ⟨a, a', created, executed, immediate⟩
  · have callless : ∀ stmt ∈ tangledMethod.body, stmt.applied? = none := by decide
    cases (callless stmt (List.mem_of_getElem? here)).symm.trans applied

end PathMerge
