/-
  PathMerge.Proofs.Termination — every analysis comes to an end.

  Three things could go on for ever: the turns of a walk, the passes over a loop and the descent into nested loops. The
  turns cannot (`Walk.turn_wf`). The other two are bounded in the definitions, and the bounds are never met: an
  execution does not fail by `boundExceeded`, and with any larger bounds it does the same (`ofMethodWithin_eq`). For an
  action that differs from another one only in its bounds there is one notion, `Approximates`, which all that a walk is
  made of preserves.
-/

import PathMerge.Proofs.Execution

namespace PathMerge

open Relation PathMerge.Flow

/-- Unless `x` goes over a bound, `y` does the same. -/
def Approximates {α : Type} (x y : ContextM α) : Prop :=
  ∀ ctx, x.run.run ctx = y.run.run ctx ∨ ∃ ctx', Fails x ctx (.defect .boundExceeded) ctx'

namespace Approximates

variable {α β : Type} {x y : ContextM α} {f g : α → ContextM β}

theorem refl (x : ContextM α) : Approximates x x := fun _ => .inl rfl

theorem bound (y : ContextM α) : Approximates (throw (.defect .boundExceeded)) y := fun ctx => .inr ⟨ctx, rfl⟩

theorem bind (first : Approximates x y) (rest : ∀ a, Approximates (f a) (g a)) : Approximates (x >>= f) (y >>= g) := by
  intro ctx
  rcases first ctx with same | ⟨ctx', failed⟩
  · rw [run_bind, run_bind, ← same]
    rcases result : x.run.run ctx with ⟨e | a, ctx'⟩
    · exact .inl rfl
    · rcases rest a ctx' with same | ⟨_, failed⟩
      · exact .inl same
      · exact .inr ⟨_, fails_bind_right result failed⟩
  · exact .inr ⟨ctx', fails_bind_left failed⟩

theorem bind_right (x : ContextM α) (rest : ∀ a, Approximates (f a) (g a)) : Approximates (x >>= f) (x >>= g) :=
  (refl x).bind rest

end Approximates

namespace Walk

variable {lay : Layout} {region : Region} {nested nested' : Nat → List State → ContextM LoopRun}

/-! ## Walks -/

theorem passLoop_approximates (loops : ∀ id states, Approximates (nested id states) (nested' id states)) (w : Walk)
    (id : Nat) : Approximates (passLoop lay region nested w id) (passLoop lay region nested' w id) :=
  .bind_right _ fun _ => (loops _ _).bind fun _ => .refl _

theorem take_approximates (loops : ∀ id states, Approximates (nested id states) (nested' id states)) (w : Walk)
    (i : Nat) :
    Approximates (take lay region nested w i) (take lay region nested' w i) := by
  unfold take
  split
  · exact passLoop_approximates loops w _
  · exact .refl _

theorem run_approximates (loops : ∀ id states, Approximates (nested id states) (nested' id states)) (w : Walk)
    (queue pending : List Nat) (postponed : Nat) :
    Approximates (run lay region nested w queue pending postponed)
      (run lay region nested' w queue pending postponed) := by
  induction w, queue, pending, postponed using run_induction lay region with
  | empty w pending postponed =>
    rw [run, run]
    exact .refl _
  | skip same ih =>
    rw [same, same]
    exact ih
  | take same ih =>
    rw [same, same]
    exact (take_approximates loops _ _).bind ih

theorem through_approximates (loops : ∀ id states, Approximates (nested id states) (nested' id states))
    (states : List State) : Approximates (through lay region nested states) (through lay region nested' states) :=
  run_approximates loops _ _ _ _

/-! ## Passes -/

/-- Allowing more passes changes nothing about a loop whose passes have come to an end. -/
theorem passes_approximate {entry : LoopEntry} {walk walk' : List State → ContextM Walk}
    (walks : ∀ seeds, Approximates (walk seeds) (walk' seeds)) {limit limit' : Nat} (le : limit ≤ limit')
    (modified : List SymbolId) (names : Renaming) (passes : Nat) :
    Approximates (passesWithin entry walk limit modified names passes)
      (passesWithin entry walk' limit' modified names passes) := by
  induction limit generalizing limit' modified names passes with
  | zero => exact .bound _
  | succ limit ih =>
    obtain ⟨more, rfl⟩ : ∃ more, limit' = more + 1 := ⟨limit' - 1, by omega⟩
    unfold passesWithin
    refine .bind_right _ fun renamed => ?_
    obtain ⟨seeds, names⟩ := renamed
    refine .bind_right _ fun merged => .bind_right _ fun simplified => ?_
    refine (walks seeds).bind fun w => .bind_right _ fun changed => ?_
    dsimp only
    split
    · exact .refl _
    · exact ih (by omega) _ _ _

/-! ## Nested loops -/

def summariseWithin (lay : Layout) (limit : Nat → Nat) : (nesting : Nat) → (id : Nat) → List State → ContextM LoopRun
  | 0, _, _ => throw (.defect .boundExceeded)
  | nesting + 1, id, states => do
    let l ← ContextM.ofExcept (lay.getLoop id)
    let store := (← (← State.merge states).simplify).store
    let passes := limit (← get).symbols.size
    passesWithin ⟨l.head, states, store⟩ (through lay (.ofLoop id l) (summariseWithin lay limit nesting)) passes [] [] 1

/-- As `ofMethod`, with these bounds on the passes and on the nesting of loops. -/
def ofMethodWithin (lay : Layout) (limit : Nat → Nat) (nesting : Nat) (stops : List Nat) : ContextM Walk :=
  through lay (.whole stops) (summariseWithin lay limit nesting) [.initial]

theorem summarise_approximates {limit : Nat → Nat} (room : ∀ n, n < limit n) {nesting nesting' : Nat}
    (le : nesting ≤ nesting') (id : Nat) (states : List State) :
    Approximates (summarise lay nesting id states) (summariseWithin lay limit nesting' id states) := by
  induction nesting generalizing nesting' id states with
  | zero => exact .bound _
  | succ nesting ih =>
    obtain ⟨more, rfl⟩ : ∃ more, nesting' = more + 1 := ⟨nesting' - 1, by omega⟩
    refine .bind_right _ fun l => .bind_right _ fun merged => .bind_right _ fun simplified =>
      .bind_right _ fun ctx => ?_
    exact passes_approximate (through_approximates (ih (by omega))) (room _) _ _ _

theorem ofMethod_approximates {limit : Nat → Nat} (room : ∀ n, n < limit n) {nesting : Nat}
    (deep : lay.loops.size ≤ nesting) (stops : List Nat) :
    Approximates (ofMethod lay stops) (ofMethodWithin lay limit nesting stops) :=
  through_approximates (summarise_approximates room deep) _

/-- A loop that is passed on a walk over the body of another one is smaller. -/
theorem body_ssubset (reg : lay.Regular) {id i n : Nat} {l k : Loop} (found : lay.loops[id]? = some l) (hi : i ∈ l.body)
    (pass : loopToPass? lay (.ofLoop id l) i = some n) (found' : lay.loops[n]? = some k) :
    k.body.toFinset ⊂ l.body.toFinset := by
  have natural := reg.natural found
  have inside : lay.flow.InLoop l.head i := natural.body.mp hi
  obtain ⟨k', found'', rfl, _, _, other⟩ :=
    Region.loopToPass?_some reg ((Region.inside_ofLoop reg found).mpr inside) pass
  cases found'.symm.trans found''
  have natural' := reg.natural found'
  have ne : k.head ≠ l.head := of_decide_eq_false other
  rw [Finset.ssubset_iff_of_subset]
  · refine ⟨l.head, List.mem_toFinset.mpr (natural.body.mpr natural.head), fun mem => ?_⟩
    exact ne (inside.antisymm (natural'.body.mp (List.mem_toFinset.mp mem))).symm
  · intro j hj
    rw [List.mem_toFinset, natural'.body] at hj
    rw [List.mem_toFinset, natural.body]
    exact inside.trans hj

end Walk

namespace Analysis

variable {m : Method} {settings : Settings} {a : Analysis}

theorem Created.within_bounds (created : Created m settings a) :
    ¬ ∃ ctx, Fails (Walk.ofMethod a.layout a.settings.stops) a.context (.defect .boundExceeded) ctx := by
  intro exceeded
  have failed := (execute_error created.unexecuted).mpr exceeded
  rcases created.attempt with ⟨a', executed⟩ | ⟨i, stmt, name, n, _, _, _, _, failed'⟩
  · cases failed.symm.trans executed
  · cases failed.symm.trans failed'

/-- With larger bounds the walk over the method does just the same. -/
theorem Created.ofMethodWithin_eq (created : Created m settings a) {limit : Nat → Nat} (room : ∀ n, n < limit n)
    {nesting : Nat} (deep : a.layout.loops.size ≤ nesting) :
    (Walk.ofMethodWithin a.layout limit nesting a.settings.stops).run.run a.context =
      (Walk.ofMethod a.layout a.settings.stops).run.run a.context := by
  have same := Walk.ofMethod_approximates room deep a.settings.stops a.context
  exact (same.resolve_right created.within_bounds).symm

end Analysis

/-- An analysis always ends, wherever it stops. No walk takes turns for ever, and one that returns has emptied its
queue; the passes over a loop end with a stable set of modified symbols; loops are passed on walks over larger loops
only. The bounds on passes and nesting are never met and larger ones make no difference. -/
theorem execute_terminates {m : Method} {settings : Settings} {a : Analysis}
    (created : Analysis.create m settings = .ok a) :
    (∀ region summarise, WellFounded fun c' c => Walk.Turn a.layout region summarise c c') ∧
      (∀ region summarise states ctx w ctx', Returns (Walk.through a.layout region summarise states) ctx w ctx' →
        ∃ c, ReflTransGen (Walk.Turn a.layout region summarise) (.initial a.layout region states ctx) c ∧
          c.queue = [] ∧ c.walk = w) ∧
      (∀ nesting id l states ctx run ctx', a.layout.loops[id]? = some l →
        Returns (Walk.summarise a.layout (nesting + 1) id states) ctx run ctx' →
        Walk.Stable l.head (Walk.through a.layout (.ofLoop id l) (Walk.summarise a.layout nesting)) run) ∧
      (∀ id l i n k, a.layout.loops[id]? = some l → i ∈ l.body → Walk.loopToPass? a.layout (.ofLoop id l) i = some n →
        a.layout.loops[n]? = some k → k.body.toFinset ⊂ l.body.toFinset) ∧
      a.execute ≠ .error (.defect .boundExceeded) ∧
      ∀ limit nesting, (∀ n, n < limit n) → a.layout.loops.size ≤ nesting →
        (Walk.ofMethodWithin a.layout limit nesting settings.stops).run.run a.context =
          (Walk.ofMethod a.layout settings.stops).run.run a.context := by
  have made := Analysis.created_of_create created
  refine ⟨fun _ _ => Walk.turn_wf, fun region summarise states ctx w ctx' h => ?_,
    fun nesting id l states ctx run ctx' found h => Walk.stable_of_summarise found h,
    fun id l i n k found hi pass found' => Walk.body_ssubset made.regular found hi pass found', fun failed => ?_,
    fun limit nesting room deep => ?_⟩
  · obtain ⟨pending, postponed, turns⟩ := Walk.turns_of_returns h
    exact ⟨_, turns, rfl, rfl⟩
  · exact made.within_bounds ((Analysis.execute_error made.unexecuted).mp failed)
  · rw [← made.settings_eq]
    exact made.ofMethodWithin_eq room deep

def nestedMethod : Method where
  owner := "Counter"
  name := "rounds"
  params := [("x", .int)]
  locals := [("y", .int)]
  result? := none
  body := [
    .branch ⟨.le, .var "x", .int 0⟩ 7,
    .assign "y" (.use (.var "x")),
    .branch ⟨.le, .var "y", .int 0⟩ 5,
    .assign "y" (.binary .sub (.var "y") (.int 1)),
    .jump 2,
    .assign "x" (.binary .sub (.var "x") (.int 1)),
    .jump 0,
    .ret none]

theorem execute_terminates_nested : ∃ a l k, Analysis.create nestedMethod ⟨4, [5]⟩ = .ok a ∧
    a.layout.loops.toList = [l, k] ∧ k.body.toFinset ⊂ l.body.toFinset ∧
    a.execute ≠ .error (.defect .boundExceeded) ∧
    (Walk.ofMethodWithin a.layout (· + 100) 100 [5]).run.run a.context =
      (Walk.ofMethod a.layout [5]).run.run a.context := by
  have shape : (Analysis.create nestedMethod ⟨4, [5]⟩).map (fun a => (a.layout.loops,
      Walk.loopToPass? a.layout (.ofLoop 0 ⟨0, [0, 1, 2, 3, 4, 5, 6], [0]⟩) 2)) =
        .ok (#[⟨0, [0, 1, 2, 3, 4, 5, 6], [0]⟩, ⟨2, [2, 3, 4], [2]⟩], some 1) := by cbv
  obtain ⟨a, created, shape⟩ := Analysis.exists_of_map shape
  obtain ⟨loops, pass⟩ := Prod.mk.inj shape
  obtain ⟨_, _, _, smaller, bounded, same⟩ := execute_terminates created
  refine ⟨a, _, _, created, by rw [loops], ?_, bounded, same (· + 100) 100 (by omega) (by simp [loops])⟩
  exact smaller 0 _ 2 1 _ (by rw [loops]; rfl) (by decide) pass (by rw [loops]; rfl)

end PathMerge
