/-
  PathMerge.Proofs.Soundness — every run of a method is covered by the state where it ends.

  A run is followed step by step, along a trail that leads forward from the root (`Reached`). The valuation is
  made up on the way. At a call that is not pure its unknowns are given the values that the call leaves behind.
  At the head of a loop the fresh symbols are given the values that the machine has there (`Trail.enter`). When
  the run comes back to the head, the trail is cut there and entered anew: what is not modified comes back
  unchanged (`ComesBack`), and all else is free to take the values of the next iteration. So the trail never
  grows with the number of iterations.
-/

import PathMerge.Proofs.Registered
import PathMerge.Proofs.Trail

namespace PathMerge

open Context PathMerge.Flow Relation

namespace Walk

variable {lay : Layout} {r : Registry} {lo : Nat} {ctx : Context} {w : Walk} {done : List Nat} {visit : Nat → Visit}
  {I : Interpretation} {v v₀ : Valuation} {passed : List (Nat × Nat)} {n q : Nat} {m m' : Machine}

/-! ## Values for fresh symbols -/

open Classical in
/-- The valuation `v`, where the names of symbols are given the values of the symbols. -/
noncomputable def revalued (r : Registry) (names : Renaming) (m : Machine) (v : Valuation) : Valuation := fun y =>
  if h : ∃ a z, names.lookup z = some y ∧ Gives r m z a then h.choose else v y

theorem revalued_name {names : Renaming} {y z : SymbolId} {a : Value} (hr : r.Sound) (ren : Renames lo ctx names)
    (named : names.lookup z = some y) (gives : Gives r m z a) : revalued r names m v y = a := by
  have h : ∃ a z, names.lookup z = some y ∧ Gives r m z a := ⟨a, z, named, gives⟩
  unfold revalued
  rw [dif_pos h]
  obtain ⟨z', named', gives'⟩ := h.choose_spec
  obtain rfl := ren.injective named named'
  exact gives'.unique hr gives

theorem revalued_old {names : Renaming} {y : SymbolId} (ren : Renames lo ctx names) (old : y.number < lo) :
    revalued r names m v y = v y := by
  unfold revalued
  refine dif_neg fun ⟨_, _, named, _⟩ => ?_
  have := (ren.new named).1
  omega

/-- The valuation `v`, where the unknowns of a call are given the values it leaves behind. -/
def granting (v : Valuation) (u : Unknowns) (e : Effect) : Valuation := fun y =>
  if y = u.heap then .heap e.heap else if y = u.result then .scalar e.result else v y

theorem granting_grants {u : Unknowns} (distinct : u.heap ≠ u.result) (v : Valuation) (e : Effect) (stmt : Statement) :
    Grants (granting v u e) u e stmt := by
  refine fun _ => ⟨if_pos rfl, fun _ => ?_⟩
  unfold granting
  rw [if_neg (Ne.symm distinct), if_pos rfl]

theorem granting_old {stmt : Statement} {u : Unknowns} {e : Effect} {outs : List State} {k : Nat}
    (h : u.Of r k stmt outs ctx) {y : SymbolId} (old : y.number < k) : granting v u e y = v y := by
  have heap := h.heap_new
  have result := h.result_new
  unfold granting
  rw [if_neg, if_neg]
  · rintro rfl
    omega
  · rintro rfl
    omega

/-! ## Arriving with any values for what is modified -/

/-- Where a machine arrives at a loop head, the fresh names can be valued so that the seeds hold its values. -/
theorem Trail.enter (x : Explored lay r lo ctx w done visit) (trail : Trail lay r ctx w visit I v passed n) {s : State}
    (sole : State.Sole ctx I v s (visit n).arrived)
    (unmodified : ∀ y a, y ∉ (visit n).modified → Gives r m y a → s.store.eval ctx I v y = some a) :
    ∃ v', (∀ y : SymbolId, y.number < (visit n).arrival → v' y = v y) ∧ Trail lay r ctx w visit I v' passed n ∧
      Holds r ctx I v' (visit n).seeds m := by
  have visited := x.visited trail.live
  obtain ⟨size, _, _⟩ := visited.times
  let v' := revalued r (visit n).names m v
  have agree : ∀ y : SymbolId, y.number < (visit n).arrival → v y = v' y :=
    fun y hy => (revalued_old visited.names hy).symm
  obtain ⟨t, sole', renamed⟩ := sole_seed visited.renamed (sole_agree visited.arrived agree sole)
  refine ⟨v', fun y hy => (agree y hy).symm, trail.agree x agree, t, sole', represents_iff.mpr fun y a gives => ?_⟩
  by_cases hy : y ∈ (visit n).modified
  · obtain ⟨z, named, value⟩ := renamed.renamed y hy
    rw [value]
    exact congrArg some (revalued_name x.registry visited.names named gives)
  · have lt := Nat.lt_of_lt_of_le (gives.lt x.registry) size
    rw [renamed.others y hy, ← (visited.arrived s sole.mem).eval_agree agree lt]
    exact unmodified y a hy gives

/-! ## Following a run -/

/-- For some valuation of the fresh symbols a trail leads to the statement, with the values of the machine. -/
def Reached (lay : Layout) (r : Registry) (ctx : Context) (w : Walk) (visit : Nat → Visit) (I : Interpretation)
    (v₀ : Valuation) (c : Nat × Machine) : Prop :=
  ∃ v passed, (∀ y : SymbolId, y.number < r.size → v y = v₀ y) ∧ Trail lay r ctx w visit I v passed c.1 ∧
    Holds r ctx I v (visit c.1).seeds c.2

/-- Entering a statement keeps the values of all symbols that there were at the start. -/
theorem Trail.reached (x : Explored lay r lo ctx w done visit) (trail : Trail lay r ctx w visit I v passed n)
    (initially : ∀ y : SymbolId, y.number < r.size → v y = v₀ y) {s : State}
    (sole : State.Sole ctx I v s (visit n).arrived)
    (unmodified : ∀ y a, y ∉ (visit n).modified → Gives r m y a → s.store.eval ctx I v y = some a) :
    Reached lay r ctx w visit I v₀ (n, m) := by
  obtain ⟨v', agree, trail', holds⟩ := trail.enter x sole unmodified
  obtain ⟨size, _, _⟩ := (x.visited trail.live).times
  refine ⟨v', passed, fun y hy => ?_, trail', holds⟩
  rw [agree y (Nat.lt_of_lt_of_le hy size)]
  exact initially y hy

theorem Explored.reached_root (x : Explored lay r lo ctx w done visit) (rep : State.initial.Represents r ctx I v₀ m) :
    Reached lay r ctx w visit I v₀ (root, m) :=
  Trail.reached x .root (fun _ _ => rfl) x.sole_initial fun y a _ gives => represents_iff.mp rep y a gives

/-- The next iteration: the trail up to the head of the loop is entered with the values that came back. -/
theorem Trail.turn_back (x : Explored lay r lo ctx w done visit) (trail : Trail lay r ctx w visit I v passed q)
    (holds : Holds r ctx I v (visit q).seeds m) (initially : ∀ y : SymbolId, y.number < r.size → v y = v₀ y)
    (back : lay.flow.BackEdge q n) {b : State} (hb : b ∈ along lay w.outputs q n) (rep : b.Represents r ctx I v m') :
    Reached lay r ctx w visit I v₀ (n, m') := by
  have earlier : ∃ earlier, Trail lay r ctx w visit I v earlier n ∧ ∃ m, Holds r ctx I v (visit n).seeds m := by
    rcases trail.dominated back.2 with rfl | ⟨k, hk⟩
    · exact ⟨passed, trail, m, holds⟩
    · exact trail.cut hk
  obtain ⟨earlier, trail', _, t, sole, repHead⟩ := earlier
  obtain ⟨s, sole', renamed⟩ := sole_arrival (x.visited trail'.live).renamed sole
  refine trail'.reached x initially sole' fun y a hy gives => ?_
  -- An unmodified symbol has some value at the head, and comes back with it.
  have same : ∃ a', t.store.eval ctx I v y = some a' := by
    rcases gives with ⟨rfl, _⟩ | ⟨z, hz, _⟩
    · exact ⟨_, repHead.heap⟩
    · exact ⟨_, repHead.locals hz⟩
  obtain ⟨a', before⟩ := same
  have after := x.back back hb I v t y sole hy a' before
  rw [represents_iff.mp rep y a gives] at after
  rw [← renamed.others y hy, before, after]

/-- Every step of the machine is matched by an edge of the walk. -/
theorem Reached.step {p : Method} (x : Explored lay r lo ctx w done visit) (laid : LaysOut lay p)
    {allowed : Nat → Effect → Prop} {c c' : Nat × Machine} (reached : Reached lay r ctx w visit I v₀ c)
    (step : p.Step I allowed c c') : Reached lay r ctx w visit I v₀ c' := by
  obtain ⟨v, passed, initially, trail, s, sole, rep⟩ := reached
  cases step with
  | @step q n stmt e m m' here _ performed next =>
    have visited : Visited lay r ctx q (visit q) (w.outputs.get q) := x.visited trail.live
    obtain ⟨size, entered, _⟩ := visited.times
    have unknowns := (visited.transfers laid here).1
    -- What a call leaves behind is unknown up to here.
    have agree : ∀ y : SymbolId, y.number < (visit q).entry → v y = granting v (visit q).unknowns e y :=
      fun y hy => (granting_old unknowns hy).symm
    have trail := trail.agree x fun y hy => agree y (Nat.lt_of_lt_of_le hy entered)
    have holds : Holds r ctx I (granting v (visit q).unknowns e) (visit q).seeds m :=
      ⟨s, sole_agree visited.seeds agree sole,
        represents_agree x.registry (visited.seeds s sole.mem) (Nat.le_trans size entered) agree rep⟩
    have initially : ∀ y : SymbolId, y.number < r.size → granting v (visit q).unknowns e y = v₀ y := by
      intro y hy
      rw [← agree y (by omega)]
      exact initially y hy
    obtain ⟨taken, o, at_, repO⟩ :=
      holds.goes x laid trail.live here (granting_grants unknowns.distinct v e stmt) performed
    have edge : (lay.flow.succs q)[stmt.edge m]? = some n := by
      rw [laid.edges here]
      exact next
    by_cases back : lay.flow.Dominates n q
    · exact trail.turn_back x holds initially ⟨List.mem_of_getElem? edge, back⟩ (mem_along_iff.mpr ⟨_, edge, at_⟩) repO
    · have trail := Trail.next trail ⟨m, holds⟩ taken edge ⟨List.mem_of_getElem? edge, back⟩
      obtain ⟨o', at', sole⟩ := trail.sole_arrived x
      rw [at_] at at'
      cases at'
      exact trail.reached x initially sole fun y a _ gives => represents_iff.mp repO y a gives

theorem Reached.run {p : Method} (x : Explored lay r lo ctx w done visit) (laid : LaysOut lay p)
    {allowed : Nat → Effect → Prop} {c c' : Nat × Machine} (reached : Reached lay r ctx w visit I v₀ c)
    (run : p.Runs I allowed c c') : Reached lay r ctx w visit I v₀ c' := by
  induction run with
  | refl => exact reached
  | tail _ step ih => exact ih.step x laid step

end Walk

/-! ## Analyses -/

namespace Analysis

open Walk

variable {p : Method} {settings : Settings} {a : Analysis}

theorem Created.laysOut (created : Created p settings a) : LaysOut a.layout p :=
  ⟨created.getElem?_body, Flow.succs_of_ofBody created.flow⟩

theorem Created.sealed_of_reachable (created : Created p settings a)
    (reachable : ∀ i < p.body.length, a.layout.flow.Live i) : a.layout.flow.Sealed := by
  intro u n s _
  refine reachable u ?_
  rw [← Flow.size_of_ofBody created.flow]
  exact s.source_lt

theorem Created.explores (created : Created p settings a) (unstopped : settings.stops = []) (arity : p.OneArity)
    (tame : a.layout.Tame) : ∃ a' w done visit, a.execute = .ok a' ∧ a'.walk? = some w ∧ a'.layout = a.layout ∧
      a.context.Extends a'.context ∧
      Explored a.layout a.context.symbols a.context.symbols.size a'.context w done visit := by
  obtain ⟨a', w, executed, walked, layout, e, hc, done, visit, rec, all, solves⟩ :=
    created.executes unstopped arity tame
  exact ⟨a', w, done, visit, executed, walked, layout, e, tame, created.sound.1.symbols, hc, rec,
    fun live => all (Region.inside_whole.mpr live), solves⟩

/-- Nothing comes after a statement that ends the method. -/
theorem Created.mem_tails (created : Created p settings a) {t : Nat} {stmt : Statement} (here : p.body[t]? = some stmt)
    (terminal : stmt.isTerminal = true) : t ∈ a.layout.flow.tails := by
  have ends : stmt.successors t = [] := by
    cases stmt <;> first | rfl | cases terminal
  refine List.mem_filter.mpr ⟨List.mem_range.mpr ?_, ?_⟩
  · rw [Flow.size_of_ofBody created.flow]
    exact (List.getElem?_eq_some_iff.mp here).1
  · unfold Flow.isTail
    rw [Flow.succs_of_ofBody created.flow here, ends]
    rfl

theorem Created.mem_leaves (created : Created p settings a) {a' : Analysis} {w : Walk} (walked : a'.walk? = some w)
    (layout : a'.layout = a.layout) {t : Nat} {stmt : Statement} (here : p.body[t]? = some stmt)
    (terminal : stmt.isTerminal = true) : (t, w.outputs.get t) ∈ a'.leaves := by
  have outputs : a'.outputs t = w.outputs.get t := by
    unfold outputs
    rw [walked]
  rw [← outputs]
  refine List.mem_map.mpr ⟨t, ?_, rfl⟩
  rw [layout]
  exact created.mem_tails here terminal

end Analysis

open Walk Analysis

/-- Soundness, with loops. A reducible method all of whose statements can be reached, and whose calls of a pure
method all have one arity, can be executed. Whatever run it makes from the initial values that `v` gives, if the run
ends then for some extension of `v` to the fresh symbols the state recorded where it ends applies and has the final
values. -/
theorem leaf_covers_run {p : Method} {settings : Settings} {a : Analysis} (created : Analysis.create p settings = .ok a)
    (unstopped : settings.stops = []) (reachable : ∀ i < p.body.length, a.layout.flow.Live i)
    (reducible : a.layout.flow.Reducible) (arity : p.OneArity) :
    ∃ a', a.execute = .ok a' ∧ ∀ {I v m₀ t m stmt}, State.initial.Represents a.context.symbols a.context I v m₀ →
      p.Runs I (fun _ _ => True) (0, m₀) (t, m) → p.body[t]? = some stmt → stmt.isTerminal = true →
        ∃ v', (∀ y : SymbolId, y.number < a.context.symbols.size → v' y = v y) ∧
          ∃ s, (t, [s]) ∈ a'.leaves ∧ s.Applies a'.context I v' ∧
            s.Concludes a.context.symbols a'.context I v' stmt m := by
  have made := created_of_create created
  have tame : a.layout.Tame := ⟨made.regular, reducible, made.sealed_of_reachable reachable⟩
  obtain ⟨a', w, done, visit, executed, walked, layout, e, x⟩ := made.explores unstopped arity tame
  refine ⟨a', executed, fun {I v m₀ t m stmt} initially run here terminal => ?_⟩
  have laid := made.laysOut
  have rep := (State.represents_extends made.sound.1 e (State.initial_valid a.context)).mpr initially
  obtain ⟨v', passed, agree, trail, holds⟩ := (x.reached_root rep).run x laid run
  obtain ⟨s, only, applies, concludes⟩ := holds.ends x laid trail.live here terminal
  refine ⟨v', agree, s, ?_, applies, concludes⟩
  rw [← only]
  exact made.mem_leaves walked layout here terminal

def createsWhole (check : Flow → Bool) (m : Method) (settings : Settings) : Bool :=
  match Analysis.create m settings with
  | .ok a => a.layout.flow.positions.all a.layout.flow.reachable.contains && check a.layout.flow
  | .error _ => false

theorem of_createsWhole {check : Flow → Bool} {m : Method} {settings : Settings}
    (h : createsWhole check m settings = true) : ∃ a, Analysis.create m settings = .ok a ∧
      0 < a.layout.flow.size ∧ (∀ i < m.body.length, a.layout.flow.Live i) ∧ check a.layout.flow = true := by
  unfold createsWhole at h
  split at h
  · rename_i a created
    rw [Bool.and_eq_true] at h
    have made := created_of_create created
    have some := made.regular.filled
    refine ⟨a, created, some, fun i hi => ?_, h.2⟩
    rw [← Flow.size_of_ofBody made.flow] at hi
    exact (Flow.contains_reachable some).mp (List.all_eq_true.mp h.1 i (List.mem_range.mpr hi))
  · cases h

def triangleMethod : Method where
  owner := "Numbers"
  name := "triangle"
  params := [("n", .int)]
  locals := [("i", .int), ("sum", .int)]
  result? := some .int
  body := [
    .assign "i" (.use (.int 0)),
    .assign "sum" (.use (.int 0)),
    .branch ⟨.ge, .var "i", .var "n"⟩ 6,
    .assign "sum" (.binary .add (.var "sum") (.var "i")),
    .assign "i" (.binary .add (.var "i") (.int 1)),
    .jump 2,
    .ret (some (.var "sum"))]

def Machine.twos : Machine := ⟨fun _ _ => .int 0, fun _ => .int 2⟩

/-- The loop is entered twice. -/
theorem triangleMethod_runs (I : Interpretation) : ∃ m, m.locals "sum" = .int 1 ∧
    triangleMethod.Runs I (fun _ _ => True) (0, .twos) (6, m) := by
  have go : ∀ {i j m m' s}, triangleMethod.body[i]? = some s → s.perform I ⟨fun _ _ => .int 0, .int 0⟩ m = some m' →
      (s.successors i)[s.edge m]? = some j → triangleMethod.Step I (fun _ _ => True) (i, m) (j, m') :=
    fun here performed next => .step here trivial performed next
  refine ⟨_, ?_, .head (go rfl rfl rfl) <| .head (go rfl rfl rfl) <| .head (go rfl rfl rfl) <|
    .head (go rfl rfl rfl) <| .head (go rfl rfl rfl) <| .head (go rfl rfl rfl) <| .head (go rfl rfl rfl) <|
    .head (go rfl rfl rfl) <| .head (go rfl rfl rfl) <| .head (go rfl rfl rfl) <| .head (go rfl rfl rfl) .refl⟩
  rfl

/-- In the leaf of that method, some values of the fresh symbols give the result 1. -/
theorem leaf_covers_run_triangle : ∃ a a', Analysis.create triangleMethod ⟨4, []⟩ = .ok a ∧ a.execute = .ok a' ∧
    ∀ I, ∃ v' s id, (6, [s]) ∈ a'.leaves ∧ s.Applies a'.context I v' ∧ a.context.symbols.result? = some id ∧
      s.store.eval a'.context I v' id = some (.int 1) := by
  obtain ⟨a, created, some, reachable, climbs⟩ :=
    of_createsWhole (show createsWhole Flow.climbs triangleMethod ⟨4, []⟩ = true by cbv)
  obtain ⟨a', executed, covered⟩ := leaf_covers_run created rfl reachable (Flow.reducible_of_climbs some climbs)
    (by simp [Method.OneArity, triangleMethod])
  refine ⟨a, a', created, executed, fun I => ?_⟩
  obtain ⟨m, sum, run⟩ := triangleMethod_runs I
  have rep := State.initial_represents (created_of_create created).sound.1.symbols a.context I .twos
  obtain ⟨v', _, s, leaf, applies, concludes⟩ := covered rep run rfl rfl
  obtain ⟨id, result, value⟩ := concludes.result rfl
  refine ⟨v', s, id, leaf, applies, result, value.trans ?_⟩
  rw [Operand.value, sum]

end PathMerge
