/-
  PathMerge.Proofs.Exactness — methods without loops, exactly.

  In a method without loops nothing is renamed, so the valuation stays as it is: it fixes what every call leaves behind,
  and with that the run (`step_unique`). The run is followed along a trail as long as it lasts (`Followed.step`),
  and it lasts no longer than there are statements ahead. Where it ends, one state is left, and the states at all
  other ends are refuted since the trail has passed them by (`Followed.sole_leaf`).
-/

import PathMerge.Proofs.Soundness

namespace PathMerge

open Context PathMerge.Flow Relation

/-! ## Graphs without cycles -/

namespace Flow

variable {g : Flow} {i u n : Nat}

def Acyclic (g : Flow) : Prop := ∀ i, ¬ TransGen g.Edge i i

def ascends (g : Flow) : Bool := g.positions.all fun u => (g.succs u).all fun n => decide (u < n)

theorem acyclic_of_ascends (h : g.ascends = true) : g.Acyclic := by
  have higher : ∀ {u n}, TransGen g.Edge u n → u < n := by
    intro u n way
    induction way with
    | single s =>
      exact of_decide_eq_true (List.all_eq_true.mp (List.all_eq_true.mp h u (List.mem_range.mpr s.source_lt)) _ s)
    | tail _ s ih =>
      have up := List.all_eq_true.mp (List.all_eq_true.mp h _ (List.mem_range.mpr s.source_lt)) _ s
      exact Nat.lt_trans ih (of_decide_eq_true up)
  exact fun i cycle => Nat.lt_irrefl i (higher cycle)

namespace Acyclic

variable (acyclic : g.Acyclic)

include acyclic

theorem not_backEdge : ¬ g.BackEdge u n := fun back => acyclic n (TransGen.tail' (Avoiding.way back.2.way.2) back.1)

theorem forward (s : g.Edge u n) : g.Forward u n := ⟨s, fun dom => acyclic.not_backEdge ⟨s, dom⟩⟩

theorem reducible : g.Reducible :=
  fun i _ cycle => acyclic i (TransGen.mono (fun _ _ s => s.1 : g.Forward ≤ g.Edge) i i cycle)

theorem not_inLoop : ¬ g.InLoop i i := by
  rintro ⟨_, _, back, _⟩
  exact acyclic.not_backEdge back

/-- There is an end to what lies ahead. -/
theorem ahead_wf : WellFounded fun n u => g.Edge u n := by
  have : IsStrictOrder Nat (fun n u => TransGen g.Edge u n) := {
    irrefl := fun i cycle => acyclic i cycle
    trans := fun _ _ _ s t => t.trans s }
  have inside : ∀ {n u}, TransGen g.Edge u n → u ∈ Set.Iio g.size ∧ n ∈ Set.Iio g.size := by
    intro n u way
    obtain ⟨_, first, _⟩ := TransGen.head'_iff.mp way
    obtain ⟨_, _, last⟩ := TransGen.tail'_iff.mp way
    exact ⟨first.source_lt, last.target_lt⟩
  have wf := (Set.finite_Iio g.size).wellFoundedOn (r := fun n u => TransGen g.Edge u n)
  rw [Set.wellFoundedOn_iff] at wf
  exact Subrelation.wf (fun s => ⟨.single s, (inside (.single s)).2, (inside (.single s)).1⟩) wf

end Acyclic

end Flow

/-! ## Runs that a valuation fixes -/

/-- Every call leaves behind the values that the valuation gives to its unknowns. -/
def Method.granted (p : Method) (v : Valuation) (u : Nat → Unknowns) (i : Nat) (e : Effect) : Prop :=
  ∀ stmt, p.body[i]? = some stmt → Grants v (u i) e stmt

/-- A statement performs alike under any two effects it is granted. -/
theorem Statement.perform_granted {I : Interpretation} {v : Valuation} {u : Unknowns} {e e' : Effect} {m : Machine}
    {stmt : Statement} (h : Grants v u e stmt) (h' : Grants v u e' stmt) :
    stmt.perform I e m = stmt.perform I e' m := by
  by_cases impure : stmt.isImpure = true
  · obtain ⟨heap, result⟩ := h impure
    obtain ⟨heap', result'⟩ := h' impure
    rw [heap] at heap'
    have heaps : e.heap = e'.heap := by injection heap'
    cases stmt with
    | call target? receiver? callee args =>
      cases target? with
      | none => simp only [perform, heaps]
      | some x =>
        have same := (result rfl).symm.trans (result' rfl)
        have results : e.result = e'.result := by injection same
        simp only [perform, heaps, results]
    | _ => cases impure
  · cases stmt with
    | call target? receiver? callee args =>
      have isPure : Purity.isPure callee.signature = true := by
        have : (!Purity.isPure callee.signature) ≠ true := impure
        simpa using this
      cases target? with
      | none => simp only [perform, if_pos isPure]
      | some x => simp only [perform, if_pos isPure]
    | _ => rfl

namespace Method

variable {p : Method} {I : Interpretation} {v : Valuation} {u : Nat → Unknowns} {c c₁ c₂ : Nat × Machine}

theorem step_unique (h₁ : p.Step I (p.granted v u) c c₁) (h₂ : p.Step I (p.granted v u) c c₂) : c₁ = c₂ := by
  obtain ⟨here₁, permitted₁, performed₁, next₁⟩ := h₁
  obtain ⟨here₂, permitted₂, performed₂, next₂⟩ := h₂
  rw [here₁] at here₂
  cases here₂
  rw [Statement.perform_granted (permitted₁ _ here₁) (permitted₂ _ here₁), performed₂] at performed₁
  rw [next₁] at next₂
  cases performed₁
  cases next₂
  rfl

/-- All runs that end, end in the same way. -/
theorem ends_unique (run₁ : p.Runs I (p.granted v u) c c₁) (ends₁ : p.Ends c₁) (run₂ : p.Runs I (p.granted v u) c c₂)
    (ends₂ : p.Ends c₂) : c₁ = c₂ := by
  have stays : ∀ {a b}, p.Ends a → p.Runs I (p.granted v u) a b → a = b := by
    intro a b ends run
    rcases run.cases_head with same | ⟨_, step, _⟩
    · exact same
    · exact absurd step ends.no_step
  have unique : Relator.RightUnique (p.Step I (p.granted v u)) := fun _ _ _ => step_unique
  rcases ReflTransGen.total_of_right_unique unique run₁ run₂ with run | run
  · exact stays ends₁ run
  · exact (stays ends₂ run).symm

/-- If one run ends, none comes to a halt before. -/
theorem safe_of_ends (run : p.Runs I (p.granted v u) c c₁) (ends : p.Ends c₁) : p.Safe I (p.granted v u) c := by
  have unique : Relator.RightUnique (p.Step I (p.granted v u)) := fun _ _ _ => step_unique
  intro c₂ run₂
  rcases ReflTransGen.total_of_right_unique unique run₂ run with rest | beyond
  · rcases rest.cases_head with rfl | ⟨c₃, step, _⟩
    · exact .inl ends
    · exact .inr ⟨c₃, step⟩
  · rcases beyond.cases_head with rfl | ⟨c₃, step, _⟩
    · exact .inl ends
    · exact absurd step ends.no_step

end Method

/-! ## Following the run -/

theorem Unknowns.Of.weaken {r : Registry} {j k : Nat} {stmt : Statement} {u : Unknowns} {outs : List State}
    {ctx : Context} (le : j ≤ k) (h : u.Of r k stmt outs ctx) : u.Of r j stmt outs ctx :=
  ⟨Nat.le_trans le h.heap_new, Nat.le_trans le h.result_new, h.distinct, h.heap, h.result⟩

namespace Walk

variable {lay : Layout} {r : Registry} {lo : Nat} {ctx : Context} {w : Walk} {done : List Nat} {visit : Nat → Visit}
  {p : Method} {I : Interpretation} {v : Valuation} {passed : List (Nat × Nat)} {n t : Nat} {m : Machine}
  {c c' : Nat × Machine}

/-- A trail leads to the statement, with the values of the machine. -/
def Followed (lay : Layout) (r : Registry) (ctx : Context) (w : Walk) (visit : Nat → Visit) (I : Interpretation)
    (v : Valuation) (c : Nat × Machine) : Prop :=
  ∃ passed, Trail lay r ctx w visit I v passed c.1 ∧ Holds r ctx I v (visit c.1).seeds c.2

/-- Where no loop begins, statements are carried out on what arrives. -/
theorem Explored.holds (x : Explored lay r lo ctx w done visit) (acyclic : lay.flow.Acyclic) (live : lay.flow.Live n)
    {s : State} (sole : State.Sole ctx I v s (visit n).arrived) (rep : s.Represents r ctx I v m) :
    Holds r ctx I v (visit n).seeds m := by
  obtain ⟨t, sole', renamed⟩ := sole_seed (x.visited live).renamed sole
  have plain := x.solves.plain n (x.all live) (x.tame.headedBy_none.mpr acyclic.not_inLoop)
  refine ⟨t, sole', rep.mono fun y => .of_eq ?_⟩
  rw [renamed.others y (by rw [plain]; exact List.not_mem_nil)]

theorem Followed.step (x : Explored lay r lo ctx w done visit) (laid : LaysOut lay p) (acyclic : lay.flow.Acyclic)
    (followed : Followed lay r ctx w visit I v c)
    (step : p.Step I (p.granted v fun i => (visit i).unknowns) c c') : Followed lay r ctx w visit I v c' := by
  obtain ⟨passed, trail, holds⟩ := followed
  cases step with
  | @step q n stmt e m m' here permitted performed next =>
    obtain ⟨taken, o, at_, rep⟩ := holds.goes x laid trail.live here (permitted stmt here) performed
    have edge : (lay.flow.succs q)[stmt.edge m]? = some n := by
      rw [laid.edges here]
      exact next
    have trail := Trail.next trail ⟨m, holds⟩ taken edge (acyclic.forward (List.mem_of_getElem? edge))
    obtain ⟨o', at', sole⟩ := trail.sole_arrived x
    rw [at_] at at'
    cases at'
    exact ⟨_, trail, x.holds acyclic trail.live sole rep⟩

/-- A run that comes to no halt ends. -/
theorem Followed.run (x : Explored lay r lo ctx w done visit) (laid : LaysOut lay p) (acyclic : lay.flow.Acyclic)
    (followed : Followed lay r ctx w visit I v c) (safe : p.Safe I (p.granted v fun i => (visit i).unknowns) c) :
    ∃ c', p.Runs I (p.granted v fun i => (visit i).unknowns) c c' ∧ p.Ends c' ∧ Followed lay r ctx w visit I v c' := by
  obtain ⟨i, m⟩ := c
  induction i using acyclic.ahead_wf.induction generalizing m with
  | _ i ih =>
    rcases safe _ .refl with ends | ⟨⟨n, m'⟩, step⟩
    · exact ⟨_, .refl, ends, followed⟩
    · have ahead : lay.flow.Edge i n := by
        obtain ⟨here, _, _, next⟩ := step
        show n ∈ lay.flow.succs i
        rw [laid.edges here]
        exact List.mem_of_getElem? next
      obtain ⟨c', run, ends, followed'⟩ := ih n ahead m' (followed.step x laid acyclic step)
        fun c' run => safe c' (run.head step)
      exact ⟨c', run.head step, ends, followed'⟩

/-- At the end of the trail one state is left, and it is the only one that applies among all that are left. -/
theorem Followed.sole_leaf (x : Explored lay r lo ctx w done visit) (laid : LaysOut lay p)
    (reachable : ∀ i < lay.flow.size, lay.flow.Live i) {stmt : Statement}
    (followed : Followed lay r ctx w visit I v (t, m)) (here : p.body[t]? = some stmt)
    (terminal : stmt.isTerminal = true) (tail : t ∈ lay.flow.tails) :
    ∃ s, w.outputs.get t = [s] ∧ s.Concludes r ctx I v stmt m ∧
      State.Sole ctx I v s (lay.flow.tails.flatMap w.outputs.get) := by
  obtain ⟨passed, trail, holds⟩ := followed
  obtain ⟨s, only, applies, concludes⟩ := holds.ends x laid trail.live here terminal
  have none : ∀ {i j}, i ∈ lay.flow.tails → ¬ lay.flow.Edge i j := by
    intro i j hi edge
    have := List.isEmpty_iff.mp (List.mem_filter.mp hi).2
    unfold Edge at edge
    rw [this] at edge
    cases edge
  refine ⟨s, only, concludes, sole_flatMap (List.nodup_range.filter _) tail ?_ fun i hi ne o ho => ?_⟩
  · rw [only]
    exact State.sole_singleton applies
  · refine Trail.off x trail (reachable i (List.mem_range.mp (List.mem_filter.mp hi).1)) (fun k hk => ?_)
      (fun way => ?_) o ho
    · obtain ⟨_, _, j, edge, _⟩ := trail.at_passed hk
      exact none hi (List.mem_of_getElem? edge)
    · rcases way.cases_head with same | ⟨j, first, _⟩
      · exact ne same.symm
      · exact none tail first.1

end Walk

/-! ## Analyses -/

open Walk Analysis

/-- Exactness, without loops. A method without cycles all of whose statements can be reached, and whose calls of a
pure method all have one arity, can be executed. Each of its calls that is not pure then has fresh symbols `u`, which
are what the heap and its target hold after it. For every valuation of all symbols, if the run that it fixes comes to
no halt then it ends, and of all leaf states exactly one applies: the one where the run ends, with the final values.
-/
theorem leaves_exact {p : Method} {settings : Settings} {a : Analysis} (created : Analysis.create p settings = .ok a)
    (unstopped : settings.stops = []) (reachable : ∀ i < p.body.length, a.layout.flow.Live i)
    (acyclic : a.layout.flow.Acyclic) (arity : p.OneArity) :
    ∃ a' u, a.execute = .ok a' ∧
      (∀ {i stmt}, p.body[i]? = some stmt → stmt.isImpure = true →
        (u i : Unknowns).Of a.context.symbols a.context.symbols.size stmt (a'.outputs i) a'.context) ∧
      ∀ {I v m₀}, State.initial.Represents a.context.symbols a.context I v m₀ → p.Safe I (p.granted v u) (0, m₀) →
        ∃ t m stmt s, p.Runs I (p.granted v u) (0, m₀) (t, m) ∧ p.body[t]? = some stmt ∧ stmt.isTerminal = true ∧
          (∀ c, p.Runs I (p.granted v u) (0, m₀) c → p.Ends c → c = (t, m)) ∧
          (t, [s]) ∈ a'.leaves ∧ State.Sole a'.context I v s a'.leafStates ∧
          s.Concludes a.context.symbols a'.context I v stmt m := by
  have made := created_of_create created
  have tame : a.layout.Tame := ⟨made.regular, acyclic.reducible, made.sealed_of_reachable reachable⟩
  obtain ⟨a', w, done, visit, executed, walked, layout, e, x⟩ := made.explores unstopped arity tame
  have laid := made.laysOut
  have outputs : a'.outputs = w.outputs.get := by
    funext i
    unfold Analysis.outputs
    rw [walked]
  refine ⟨a', fun i => (visit i).unknowns, executed, fun {i stmt} here _ => ?_, fun {I v m₀} initially safe => ?_⟩
  · have visited := x.visited (reachable i (List.getElem?_eq_some_iff.mp here).1)
    obtain ⟨size, entered, _⟩ := visited.times
    rw [outputs]
    exact (visited.transfers laid here).1.weaken (Nat.le_trans size entered)
  · have rep := (State.represents_extends made.sound.1 e (State.initial_valid a.context)).mpr initially
    have start : Followed a.layout a.context.symbols a'.context w visit I v (root, m₀) :=
      ⟨[], .root, x.holds acyclic (root_live _) x.sole_initial rep⟩
    obtain ⟨⟨t, m⟩, run, ⟨stmt, here, terminal⟩, followed⟩ := start.run x laid acyclic safe
    have tail := made.mem_tails here terminal
    have live : ∀ i < a.layout.flow.size, a.layout.flow.Live i := by
      rw [Flow.size_of_ofBody made.flow]
      exact reachable
    obtain ⟨s, only, concludes, sole⟩ := followed.sole_leaf x laid live here terminal tail
    refine ⟨t, m, stmt, s, run, here, terminal, fun c run' ends => ?_, ?_, ?_, concludes⟩
    · exact Method.ends_unique run' ends run ⟨stmt, here, terminal⟩
    · rw [← only]
      exact made.mem_leaves walked layout here terminal
    · have leaves : a'.leafStates = a.layout.flow.tails.flatMap w.outputs.get := by
        unfold Analysis.leafStates Analysis.leaves
        rw [List.flatMap_map, layout, outputs]
      rw [leaves]
      exact sole

def absoluteMethod : Method where
  owner := "Numbers"
  name := "absolute"
  params := [("x", .int)]
  locals := [("y", .int)]
  result? := some .int
  body := [
    .branch ⟨.ge, .var "x", .int 0⟩ 3,
    .assign "y" (.neg (.var "x")),
    .jump 4,
    .assign "y" (.use (.var "x")),
    .ret (some (.var "y"))]

theorem absoluteMethod_runs {I : Interpretation} {v : Valuation} {u : Nat → Unknowns} {m : Machine} {n : Int}
    (given : m.locals "x" = .int n) :
    absoluteMethod.Runs I (absoluteMethod.granted v u) (0, m) (4, m.set "y" (.int |n|)) := by
  have permitted : ∀ i e, absoluteMethod.granted v u i e := by
    intro i e stmt here impure
    have all : ∀ s ∈ absoluteMethod.body, s.isImpure = false := by decide
    rw [all stmt (List.mem_of_getElem? here)] at impure
    cases impure
  have go : ∀ {i j m m' s}, absoluteMethod.body[i]? = some s → s.perform I ⟨m.heap, .int 0⟩ m = some m' →
      (s.successors i)[s.edge m]? = some j → absoluteMethod.Step I (absoluteMethod.granted v u) (i, m) (j, m') :=
    fun here performed next => .step here (permitted _ _) performed next
  have cond : (⟨.ge, .var "x", .int 0⟩ : Condition).value m = some (decide (0 ≤ n)) := by
    simp [Condition.value, Operand.value, given, Comparison.value]
  have stays : ∀ e, (Statement.branch ⟨.ge, .var "x", .int 0⟩ 3).perform I e m = some m := by
    simp [Statement.perform, cond]
  by_cases positive : 0 ≤ n
  · refine .head (go rfl (stays _) (j := 3) ?_) <| .head (go rfl ?_ rfl) .refl
    · simp [Statement.edge, cond, positive, Statement.successors]
    · simp [Statement.perform, RightSide.value, Operand.value, given, abs_of_nonneg positive]
  · refine .head (go rfl (stays _) (j := 1) ?_) <| .head (go rfl ?_ rfl) <| .head (go rfl rfl rfl) .refl
    · simp [Statement.edge, cond, positive, Statement.successors]
    · simp [Statement.perform, RightSide.value, Operand.value, given, Scalar.negative?,
        abs_of_neg (Int.not_le.mp positive)]

/-- Of all leaf states of that method exactly one applies, and it gives the absolute value. -/
theorem leaves_exact_absolute : ∃ a a', Analysis.create absoluteMethod ⟨4, []⟩ = .ok a ∧ a.execute = .ok a' ∧
    ∀ {I v m n}, State.initial.Represents a.context.symbols a.context I v m → m.locals "x" = .int n →
      ∃ s id, State.Sole a'.context I v s a'.leafStates ∧ a.context.symbols.result? = some id ∧
        s.store.eval a'.context I v id = some (.int |n|) := by
  obtain ⟨a, created, _, reachable, ascends⟩ :=
    of_createsWhole (show createsWhole Flow.ascends absoluteMethod ⟨4, []⟩ = true by cbv)
  obtain ⟨a', u, executed, _, exact⟩ := leaves_exact created rfl reachable (Flow.acyclic_of_ascends ascends)
    (by simp [Method.OneArity, absoluteMethod])
  refine ⟨a, a', created, executed, fun {I v m n} rep given => ?_⟩
  have run := absoluteMethod_runs (I := I) (v := v) (u := u) given
  obtain ⟨t, m', stmt, s, _, here, _, only, _, sole, concludes⟩ := exact rep (Method.safe_of_ends run ⟨_, rfl, rfl⟩)
  obtain ⟨rfl, rfl⟩ := Prod.mk.inj (only _ run ⟨_, rfl, rfl⟩)
  cases here
  obtain ⟨id, result, value⟩ := concludes.result rfl
  exact ⟨s, id, sole, result, value⟩

/-- Has a local that is called like the result and has its sort. -/
def shadowingMethod : Method where
  owner := "Numbers"
  name := "five"
  params := []
  locals := [("result", .int)]
  result? := some .int
  body := [.assign "result" (.use (.int 3)), .ret (some (.int 5))]

/-- A local may be the result symbol itself. Then the leaf gives the result for it, which here is 5, and not the
value that it has when the method ends, which is 3. -/
theorem local_gives_way_to_result : ∃ a a' s id, Analysis.create shadowingMethod ⟨4, []⟩ = .ok a ∧
    a.execute = .ok a' ∧ a'.leafStates = [s] ∧ a.context.symbols.locals.lookup "result" = some id ∧
    ∀ I v m, shadowingMethod.Runs I (fun _ _ => True) (0, m) (1, m.set "result" (.int 3)) ∧
      (m.set "result" (.int 3)).locals "result" = .int 3 ∧ s.store.eval a'.context I v id = some (.int 5) := by
  have computed : (do
      let a ← Analysis.create shadowingMethod ⟨4, []⟩
      let a' ← a.execute
      return (a.context.symbols.locals.lookup "result", a'.leafStates.map (·.store.get? ⟨18⟩),
        a'.context.pool.node? ⟨3, false⟩) :
      Except Failure _) = .ok (some ⟨18⟩, [some ⟨3, false⟩], some (.literal (.int 5))) := by
    cbv
  obtain ⟨a, created, computed⟩ := ok_of_bind computed
  obtain ⟨a', executed, computed⟩ := ok_of_bind computed
  obtain ⟨known, leaves, node⟩ : a.context.symbols.locals.lookup "result" = some ⟨18⟩ ∧
      a'.leafStates.map (·.store.get? ⟨18⟩) = [some ⟨3, false⟩] ∧ a'.context.pool.node? ⟨3, false⟩ =
      some (.literal (.int 5)) := by
    simpa using Except.ok.inj computed
  obtain ⟨s, leaf, bound⟩ := List.map_eq_singleton_iff.mp leaves
  refine ⟨a, a', s, ⟨18⟩, created, executed, leaf, known, fun I v m => ⟨?_, ?_, ?_⟩⟩
  · exact .single (.step (e := ⟨m.heap, .int 0⟩) rfl trivial rfl rfl)
  · simp [Machine.set]
  · rw [Store.eval_bound bound]
    show Pool.readWithin _ _ 3 _ = _
    unfold Pool.readWithin
    rw [node]
    rfl

end PathMerge
