/-
  PathMerge.Proofs.Unwritten — symbols that a loop does not write.

  What a loop writes can be read off its statements (`Layout.written`): the locals they define, and the heap. A symbol
  that a statement does not write is bound after it as before it (`run_keeps`). So on a walk over the body every state
  that is recorded binds the symbols that the loop does not write as the merged seeds do, handle by handle
  (`Round.Made.records`). Only the head sees the seeds themselves, and it sees them in the first turn, when merging and
  simplifying them again gives what it gave before.

  A symbol that is found changed is therefore one that the loop writes, and since every round but the last finds another
  one, there are at most as many rounds as written symbols, and one (`modified_precise`).
-/

import PathMerge.Proofs.Rounds
import PathMerge.Proofs.Termination

namespace PathMerge

open Relation

/-! ## What is written -/

def Statement.written (r : Registry) (stmt : Statement) : List SymbolId :=
  (stmt.defined?.bind (r.locals.lookup ·)).toList ++ if stmt.changesHeap then [Registry.heap] else []

/-- The symbols of the locals that statements of the loop define, and the heap if one of them writes to a field or to
an array or calls a method that is not pure. -/
def Layout.written (lay : Layout) (r : Registry) (l : Loop) : Finset SymbolId :=
  (l.body.flatMap fun i => lay.body[i]?.toList.flatMap (Statement.written r)).toFinset

theorem Statement.mem_written {r : Registry} {stmt : Statement} {y : SymbolId} : y ∈ stmt.written r ↔
    (∃ x, stmt.defined? = some x ∧ r.locals.lookup x = some y) ∨ stmt.changesHeap = true ∧ y = Registry.heap := by
  unfold written
  rw [List.mem_append, Option.mem_toList, Option.bind_eq_some_iff]
  refine or_congr_right ?_
  split
  · rename_i changes
    simp [changes]
  · rename_i changes
    simp [changes]

/-- A statement that leads on binds what it writes. -/
theorem Statement.binds_of_leads {r : Registry} {stmt : Statement} {i : Nat} {y : SymbolId}
    (leads : stmt.successors i ≠ []) (binds : stmt.Binds r y) : y ∈ stmt.written r := by
  rw [mem_written]
  rcases binds with target | heap | ⟨⟨a, rfl⟩, _⟩
  · exact .inl target
  · exact .inr heap
  · exact absurd rfl leads

theorem Layout.mem_written {lay : Layout} {r : Registry} {l : Loop} {y : SymbolId} :
    y ∈ lay.written r l ↔ ∃ i ∈ l.body, ∃ stmt, lay.body[i]? = some stmt ∧ y ∈ stmt.written r := by
  unfold written
  simp only [List.mem_toFinset, List.mem_flatMap, Option.mem_toList]

theorem Layout.written_mono {lay : Layout} {r : Registry} {l k : Loop} (inside : ∀ i ∈ k.body, i ∈ l.body) :
    lay.written r k ⊆ lay.written r l := by
  intro y hy
  rw [mem_written] at hy ⊢
  obtain ⟨i, hi, rest⟩ := hy
  exact ⟨i, inside i hi, rest⟩

/-! ## Statements -/

section Statements

variable {r : Registry} {ctx ctx' : Context} {s : State} {stmt : Statement}

theorem eq_of_replicated {x : ContextM State} {n : Nat} {outs : List State}
    (ret : Returns (Rule.replicate n <$> x) ctx outs ctx') : ∃ t, Returns x ctx t ctx' ∧ ∀ o ∈ outs, o = t := by
  rw [map_eq_pure_bind] at ret
  obtain ⟨t, c, made, ret⟩ := returns_of_bind ret
  cases ret
  exact ⟨t, made, fun o ho => List.eq_of_mem_replicate ho⟩

/-- A statement leaves the symbols that it does not bind as they were. -/
theorem run_keeps (ready : s.Ready r ctx) (sup : stmt.Supported r) {i n : Nat} (leads : stmt.successors i ≠ [])
    {outs : List State} (ret : Returns (stmt.rule.run stmt n s) ctx outs ctx') {y : SymbolId}
    (unbound : ¬ stmt.Binds r y) :
    ∀ o ∈ outs, o.store.get? y = s.store.get? y := by
  have follows : ∀ {x : ContextM State}, Returns (Rule.replicate n <$> x) ctx outs ctx' →
      Yields x ctx (fun t c => ∃ u, Follows r ctx s stmt u t c) → ∀ o ∈ outs, o.store.get? y = s.store.get? y := by
    intro x ret yields o ho
    obtain ⟨t, made, same⟩ := eq_of_replicated ret
    obtain ⟨_, _, _, f⟩ := yields.of_returns made
    rw [same o ho]
    exact f.keeps unbound
  have unchanged : Returns (pure (Rule.replicate n s) : ContextM (List State)) ctx outs ctx' →
      ∀ o ∈ outs, o.store.get? y = s.store.get? y := by
    intro ret o ho
    cases ret
    rw [List.eq_of_mem_replicate ho]
  have any : Unknowns := ⟨⟨0⟩, ⟨0⟩⟩
  cases stmt with
  | assign x value => exact follows ret ((assign_yields ready sup).mono fun _ _ _ _ f => ⟨any, f⟩)
  | readField x base field => exact follows ret ((readField_yields ready sup).mono fun _ _ _ _ f => ⟨any, f⟩)
  | writeField base field value => exact follows ret ((writeField_yields ready sup).mono fun _ _ _ _ f => ⟨any, f⟩)
  | readArray x array index => exact follows ret ((readArray_yields ready sup).mono fun _ _ _ _ f => ⟨any, f⟩)
  | writeArray array index value => exact follows ret ((writeArray_yields ready sup).mono fun _ _ _ _ f => ⟨any, f⟩)
  | arrayLength x array => exact follows ret ((measureArray_yields ready sup).mono fun _ _ _ _ f => ⟨any, f⟩)
  | call target? receiver? callee args =>
    cases pure : Purity.isPure callee.signature with
    | false =>
      rw [show (Statement.call target? receiver? callee args).rule = .impureCall from if_neg (by simp [pure])] at ret
      exact follows ret ((callImpure_yields ready pure sup).mono fun _ _ _ _ f => ⟨f.choose, f.choose_spec.1⟩)
    | true =>
      rw [show (Statement.call target? receiver? callee args).rule =
        .ofPureCall target? receiver? from if_pos pure] at ret
      cases target? with
      | none => exact unchanged ret
      | some x =>
        have called := (callPure_yields ready sup pure).mono fun t c _ _ f => (⟨any, f⟩ : ∃ u, Follows r ctx s _ u t c)
        cases receiver? with
        | none => exact follows ret called
        | some receiver => exact follows ret called
  | branch cond goal =>
    obtain ⟨guard, c, _, ret⟩ := returns_of_bind ret
    cases ret
    intro o ho
    simp only [List.mem_cons, List.not_mem_nil, or_false] at ho
    rcases ho with rfl | rfl <;> rfl
  | jump goal => exact unchanged ret
  | skip => exact unchanged ret
  | unmodelled text => exact unchanged ret
  | ret value? => exact absurd rfl leads
  | raise value => exact absurd rfl leads

end Statements

theorem ContextM.Stands.asSymbol? {ctx : Context} {y : SymbolId} {h : Handle} (stands : ContextM.Stands ctx y h) :
    ctx.asSymbol? h = .ok (some y) := by
  have node : ctx.node h = .ok (.symbol y) := InternTable.value_eq_ok.mpr stands.node
  unfold Context.asSymbol?
  rw [stands.sign, node]
  rfl

/-- The state is simplified, and binds the symbols outside `W` as `o` says. -/
structure State.Frames (W : Finset SymbolId) (o : SymbolId → Option Handle) (ctx : Context) (s : State) : Prop where
  simplified : s.Simplified ctx
  same : ∀ x, x ∉ W → s.store.get? x = o x

theorem State.Frames.later {W : Finset SymbolId} {o : SymbolId → Option Handle} {ctx ctx' : Context} {s : State}
    (later : ctx.Later ctx') (tidy : ctx'.pool.Tidy) (h : s.Frames W o ctx) : s.Frames W o ctx' :=
  ⟨h.simplified.later later tidy, h.same⟩

/-- Of a list of states simplified one after another, each was simplified in some context on the way. -/
theorem simplifyAll_each {ctx ctx' : Context} (hc : ctx.Reliable) {raw outs : List State}
    (valid : ∀ s ∈ raw, s.Valid ctx) (ret : Returns (raw.mapM State.simplify) ctx outs ctx') :
    ∀ t ∈ outs, t.Simplified ctx' ∧ ∃ s ∈ raw, ∃ c c', ctx.Later c ∧ c.Reliable ∧ Returns s.simplify c t c' := by
  have each : Uniform (raw.mapM State.simplify) ctx fun outs c' =>
      List.Forall₂ (fun s t => t.Simplified c' ∧ ∃ c c', ctx.Later c ∧ c.Reliable ∧ Returns s.simplify c t c')
        raw outs := by
    refine Uniform.mapM (P := fun s t c' => t.Simplified c' ∧ ∃ c c',
      ctx.Later c ∧ c.Reliable ∧ Returns s.simplify c t c')
      raw hc ?_ fun s hs c later hc => ?_
    · intro s t c c' later hc one
      exact ⟨one.1.later later hc.sound.pool.tidy, one.2⟩
    · refine (State.simplify_simplified hc ((valid s hs).extends later.extends)).returned.mono fun t c' _ _ one => ?_
      exact ⟨one.2, c, c', later, hc, one.1⟩
  intro t ht
  obtain ⟨s, hs, simplified, made⟩ := Related.exists_left (each.of_returns ret).2 ht
  exact ⟨simplified, s, hs, made⟩

namespace Walk

variable {lay : Layout} {region : Region} {r : Registry} {ctx ctx' : Context} {nesting id i : Nat} {l : Loop}
  {states seeds outs : List State} {w : Walk} {W : Finset SymbolId} {o : SymbolId → Option Handle}

/-- Carrying out a statement merges what arrived, runs the rule, and simplifies what comes out. -/
theorem returns_carryOut {stmt : Statement} (here : lay.body[i]? = some stmt) (some : states ≠ [])
    (ret : Returns (carryOut lay i states) ctx outs ctx') :
    ∃ merged raw c c', Returns (State.merge states) ctx merged c ∧
      Returns (stmt.rule.run stmt (lay.flow.succs i).length merged) c raw c' ∧
      Returns (raw.mapM State.simplify) c' outs ctx' := by
  unfold carryOut at ret
  obtain ⟨stmt', _, asked, ret⟩ := returns_of_bind ret
  obtain ⟨got, rfl⟩ := ContextM.returns_ofExcept.mp asked
  cases (Layout.statement_eq_ok.mp got).symm.trans here
  obtain ⟨rule, _, asked, ret⟩ := returns_of_bind ret
  obtain ⟨got, rfl⟩ := ContextM.returns_ofExcept.mp asked
  rw [select_eq some] at got
  cases got
  obtain ⟨raw, c', applied, simplified⟩ := returns_of_bind ret
  obtain ⟨merged, c, merges, ran⟩ := returns_of_bind applied
  exact ⟨merged, raw, c, c', merges, ran, simplified⟩

/-- What a statement of the loop does not write is bound after it as in the merged states before it, simplified. -/
theorem carryOut_frames (names : Names lay r) (live : lay.flow.Live i) (leads : lay.flow.succs i ≠ [])
    (hc : ctx.Reliable) (ext : r.Extends ctx.symbols) (ins : Startable r ctx states)
    (writes : ∀ {stmt}, lay.body[i]? = some stmt → ∀ y ∈ stmt.written r, y ∈ W)
    (ret : Returns (carryOut lay i states) ctx outs ctx')
    (sent : ∀ {m c}, Returns (State.merge states) ctx m c → ∀ x, x ∉ W → State.SimplifiesTo c m x (o x)) :
    ∀ t ∈ outs, t.Frames W o ctx' := by
  obtain ⟨stmt, here, edges, named⟩ := names.statement live
  have fits : stmt.Fits r := by
    intro name n applied
    by_contra misfit
    obtain ⟨_, _, failed, _⟩ := carryOut_misfit (F := fun _ => True) here named ins.some names.registry hc.sound ext
      ins.valid ins.within applied misfit trivial
    cases failed.symm.trans ret
  rw [edges] at leads
  obtain ⟨merged, raw, c, c', merges, ran, simplifies⟩ := returns_carryOut here ins.some ret
  have merging := State.merge_uniform hc ins.valid
  obtain ⟨hc₁, valid⟩ := merging.of_returns merges
  obtain ⟨_, _, joins⟩ := (State.merge_yields hc.sound ins.some ins.valid).of_returns merges
  have ready : merged.Ready r c :=
    ⟨names.registry, hc₁.sound, ext.trans (merging.later_of_returns merges).symbols, valid, joins.within ins.within⟩
  have running := Rule.run_uniform hc₁ valid stmt.rule stmt (lay.flow.succs i).length
  obtain ⟨hc₂, valids⟩ := running.of_returns ran
  intro t ht
  obtain ⟨simplified, s, hs, c₁, c₂, later, hc₃, one⟩ := simplifyAll_each hc₂ valids simplifies t ht
  refine ⟨simplified, fun x hx => ?_⟩
  have same : s.store.get? x = merged.store.get? x := run_keeps ready (named.supported fits) leads ran
    (fun binds => hx (writes here x (Statement.binds_of_leads leads binds))) s hs
  exact sent merges x hx ((running.later_of_returns ran).trans later) hc₃ ((valids s hs).extends later.extends) same one

/-! ## Walks -/

structure Records (P : State → Prop) (root : Nat) (seeds : List State) (w : Walk) : Prop where
  outputs : w.outputs.All P
  inputs : ∀ n, ∃ more, w.inputs.get n = (if n = root then seeds else []) ++ more ∧ ∀ s ∈ more, P s

namespace Records

variable {P Q : State → Prop} {root n : Nat}

theorem mono (h : Records P root seeds w) (imp : ∀ s, P s → Q s) : Records Q root seeds w := by
  refine ⟨h.outputs.mono imp, fun n => ?_⟩
  obtain ⟨more, inputs, all⟩ := h.inputs n
  exact ⟨more, inputs, fun s hs => imp s (all s hs)⟩

theorem start (P : State → Prop) (root : Nat) (seeds : List State) : Records P root seeds (.start root seeds) :=
  ⟨.empty P, fun _ => ⟨[], (List.append_nil _).symm, List.forall_mem_nil _⟩⟩

theorem elsewhere (h : Records P root seeds w) (ne : n ≠ root) : ∀ s ∈ w.inputs.get n, P s := by
  obtain ⟨more, inputs, all⟩ := h.inputs n
  rw [inputs, if_neg ne]
  exact all

theorem back {p : Pass} (h : Records P root p.seeds p.walk) : ∀ b ∈ p.back root, P b := by
  obtain ⟨more, inputs, all⟩ := h.inputs root
  unfold Pass.back
  rw [inputs, if_pos rfl, List.drop_left]
  exact all

theorem kept {outputs : StateMap} (all : outputs.All P) {u : Nat} : ∀ s ∈ Walk.kept lay region outputs n u, P s := by
  intro s hs
  unfold Walk.kept at hs
  split at hs
  · exact all u s (along_mem hs)
  · cases hs

theorem recorded (h : Records P root seeds w) (new : ∀ s ∈ outs, P s) :
    Records P root seeds (recorded lay region w i outs).1 := by
  have outputs : (Walk.recorded lay region w i outs).1.outputs.All P := by
    intro u s hs
    rw [outputs_recorded] at hs
    split at hs
    · exact new s hs
    · exact h.outputs u s hs
  refine ⟨outputs, fun n => ?_⟩
  obtain ⟨more, inputs, all⟩ := h.inputs n
  refine ⟨more ++ Walk.kept lay region (Walk.recorded lay region w i outs).1.outputs n i, ?_, fun s hs => ?_⟩
  · rw [inputs_recorded, inputs, List.append_assoc]
  · rcases List.mem_append.mp hs with hs | hs
    · exact all s hs
    · exact kept outputs s hs

/-- Passing a loop keeps what is known of all recorded states, if it is known of those its own walk recorded. -/
theorem passed {run : LoopRun} {starts : List State} (h : Records P root seeds w) (away : root ∉ l.body)
    (nested : Records P l.head starts run.walk) : Records P root seeds (passed lay region w id l run).1 := by
  refine ⟨fun u s hs => ?_, fun n => ?_⟩
  · rw [show (Walk.passed lay region w id l run).1.outputs = _ from (leaveLoop_frame _ _ _ _).1,
      StateMap.get_takeOver] at hs
    split at hs
    · exact nested.outputs u s hs
    · exact h.outputs u s hs
  · rw [inputs_passed]
    by_cases replaced : n ∈ l.body ∧ n ≠ l.head ∧ run.walk.inputs.get n ≠ []
    · have ne : n ≠ root := fun same => away (same ▸ replaced.1)
      rw [if_pos replaced, if_pos replaced.1, List.append_nil, if_neg ne]
      exact ⟨_, rfl, nested.elsewhere replaced.2.1⟩
    · obtain ⟨more, inputs, all⟩ := h.inputs n
      rw [if_neg replaced, inputs, List.append_assoc]
      refine ⟨_, rfl, fun s hs => ?_⟩
      rcases List.mem_append.mp hs with hs | hs
      · exact all s hs
      · split at hs
        · cases hs
        · obtain ⟨u, _, hs⟩ := List.mem_flatMap.mp hs
          exact kept nested.outputs s hs

end Records

def FramesLoops (lay : Layout) (region : Region) (r : Registry) (W : Finset SymbolId) (o : SymbolId → Option Handle)
    (nested : Nat → List State → ContextM LoopRun) : Prop :=
  ∀ {id l states ctx run ctx'}, lay.loops[id]? = some l → region.Inner lay l.head → ctx.Reliable →
    r.Extends ctx.symbols →
    Startable r ctx states → (∀ s ∈ states, s.Frames W o ctx) → Returns (nested id states) ctx run ctx' →
    ∃ starts, Records (State.Frames W o ctx') l.head starts run.walk

structure Config.Framed (lay : Layout) (r : Registry) (id : Nat) (l : Loop) (W : Finset SymbolId)
    (o : SymbolId → Option Handle) (seeds : List State) (c : Config) : Prop where
  fit : c.Fit lay (.ofLoop id l) r
  left : l.head ∉ c.pending
  records : Records (State.Frames W o c.context) l.head seeds c.walk

section Loop

variable (reg : lay.Regular) (names : Names lay r) (found : lay.loops[id]? = some l)
  (deep : NestsWithin lay (.ofLoop id l) nesting) (writes : lay.written r l ⊆ W)

include reg found writes in
theorem writes_of_inside (inside : (Region.ofLoop id l).Inside lay i) {stmt : Statement}
    (here : lay.body[i]? = some stmt) :
    ∀ y ∈ stmt.written r, y ∈ W := by
  intro y hy
  have body := (reg.natural found).body.mpr ((Region.inside_ofLoop reg found).mp inside)
  exact writes (Layout.mem_written.mpr ⟨i, body, stmt, here, hy⟩)

include reg found in
theorem leads_of_inside (inside : (Region.ofLoop id l).Inside lay i) : lay.flow.succs i ≠ [] := by
  obtain ⟨t, s⟩ := ((Region.inside_ofLoop reg found).mp inside).leads
  exact List.ne_nil_of_mem s

include reg names found deep writes

/-- A turn leaves every symbol the loop does not write bound as it was. -/
theorem Config.Framed.turn (loops : FramesLoops lay (.ofLoop id l) r W o (summarise lay nesting)) {c c' : Config}
    (h : c.Framed lay r id l W o seeds) (t : Turn lay (.ofLoop id l) (summarise lay nesting) c c') :
    c'.Framed lay r id l W o seeds := by
  obtain ⟨fit, later⟩ := h.fit.turn reg (.loop found) names deep t
  have old := h.records.mono fun s frames => frames.later later fit.reliable.sound.pool.tidy
  cases t with
  | discard => exact ⟨fit, h.left, old⟩
  | late => exact ⟨fit, h.left, old⟩
  | postpone => exact ⟨fit, h.left, old⟩
  | drop => exact ⟨fit, h.left, old⟩
  | @take w i queue pending postponed ctx ctx' p go open_ due taken =>
    refine ⟨fit, fun left => h.left (List.mem_of_mem_erase left), ?_⟩
    have ne : i ≠ l.head := fun same => h.left (same ▸ open_)
    have frames := h.records.elsewhere ne
    obtain ⟨inside, some⟩ := h.fit.progress.queued List.mem_cons_self
    have ins : Startable r ctx (w.inputs.get i) := ⟨some, fun s hs => (h.fit.usable.inputs i s hs).1,
      fun s hs => (h.fit.usable.inputs i s hs).2⟩
    unfold Walk.take at taken
    cases pass : loopToPass? lay (.ofLoop id l) i with
    | none =>
      rw [pass] at taken
      obtain ⟨outs, carried, _, rfl⟩ := returns_step.mp taken
      refine old.recorded (carryOut_frames names inside.1 (leads_of_inside reg found inside) h.fit.reliable
        h.fit.ext ins
        (writes_of_inside reg found writes inside) carried fun {m c} merges x hx => ?_)
      -- All the states that are merged bind `x` to the same simplified value.
      have uniform := State.merge_uniform h.fit.reliable ins.valid
      obtain ⟨s, hs⟩ := List.exists_mem_of_ne_nil _ some
      have fixed : State.Fixed c x (o x) := (frames s hs).same x hx ▸ ((frames s hs).simplified.fixed x).later
        (uniform.later_of_returns merges) (uniform.of_returns merges).1.sound.pool.tidy
      have same := State.merge_get? (fun s hs => (frames s hs).same x hx) merges
      rw [← same] at fixed ⊢
      exact fixed.simplifiesTo
    | some n =>
      rw [pass] at taken
      obtain ⟨k, run, foundK, summed, rfl⟩ := returns_passLoop.mp taken
      obtain ⟨k', foundK', rfl, inner⟩ := Region.loopToPass?_some reg inside pass
      cases foundK.symm.trans foundK'
      obtain ⟨starts, nested⟩ := loops foundK inner h.fit.reliable h.fit.ext ins frames summed
      refine old.passed (fun body => ne ?_) nested
      exact (Region.Walked.loop found).inner_root reg inner ((reg.natural foundK).body.mp body)

/-- The first turn of a walk over the body takes the head. -/
theorem Config.Framed.first {seed : State} {c₀ : Context} {c' : Config} (hc : ctx.Reliable)
    (ext : r.Extends ctx.symbols) (begin_ : Startable r ctx seeds) (merged : State.MergesTo c₀ seeds seed ctx)
    (seeded : ∀ x, x ∉ W → seed.store.get? x = o x)
    (t : Turn lay (.ofLoop id l) (summarise lay nesting) (.initial lay (.ofLoop id l) seeds ctx) c') :
    c'.Framed lay r id l W o seeds := by
  obtain ⟨fit, later⟩ := (initial_fit reg (.loop found) hc ext begin_).turn reg (.loop found) names deep t
  have inside := (Region.Walked.loop found).root_inside reg
  have own : (Region.ofLoop id l).isOwnHead l.head = true := decide_eq_true rfl
  have ready : ∀ {w : Walk}, ¬ Waiting lay (.ofLoop id l) w l.head := by
    intro w waits
    unfold Waiting required at waits
    rw [if_pos own] at waits
    exact Nat.not_lt_zero _ waits
  generalize start : Config.initial lay (.ofLoop id l) seeds ctx = c at t
  cases t with
  | discard stop =>
    cases start
    cases stop
  | late _ carriedOut =>
    cases start
    exact absurd (List.mem_range.mpr (inside.1.lt reg.filled)) carriedOut
  | postpone _ _ waits _ =>
    cases start
    exact absurd waits ready
  | drop _ _ waits _ _ =>
    cases start
    exact absurd waits ready
  | take _ _ _ taken =>
    cases start
    refine ⟨fit, fun left => (List.nodup_range.mem_erase_iff.mp left).1 rfl, ?_⟩
    change Returns (Walk.take lay (.ofLoop id l) (summarise lay nesting) (.start l.head seeds) l.head) _ _ _ at taken
    unfold Walk.take loopToPass? at taken
    rw [if_pos own] at taken
    obtain ⟨outs, carried, _, rfl⟩ := returns_step.mp taken
    have arrived : (Walk.start l.head seeds).inputs.get l.head = seeds := if_pos rfl
    rw [arrived] at carried
    refine (Records.start _ l.head seeds).recorded
      (carryOut_frames names inside.1 (leads_of_inside reg found inside) hc ext
      begin_ (writes_of_inside reg found writes inside) carried fun merges x hx => ?_)
    rw [← seeded x hx]
    exact merged.again (.refl ctx) hc merges

/-- What a walk over the body records binds the symbols that the loop does not write as the merged seeds do. -/
theorem through_records (loops : FramesLoops lay (.ofLoop id l) r W o (summarise lay nesting)) {seed : State}
    {c₀ : Context} (hc : ctx.Reliable) (ext : r.Extends ctx.symbols) (begin_ : Startable r ctx seeds)
    (merged : State.MergesTo c₀ seeds seed ctx) (seeded : ∀ x, x ∉ W → seed.store.get? x = o x)
    (walked : Returns (through lay (.ofLoop id l) (summarise lay nesting) seeds) ctx w ctx') :
    Records (State.Frames W o ctx') l.head seeds w := by
  obtain ⟨pending, postponed, turns⟩ := turns_of_returns walked
  have framed : ∀ {c : Config}, ReflTransGen (Turn lay (.ofLoop id l) (summarise lay nesting))
      (.initial lay (.ofLoop id l) seeds ctx) c → c = .initial lay (.ofLoop id l) seeds ctx ∨
      c.Framed lay r id l W o seeds := by
    intro c turns
    induction turns with
    | refl => exact .inl rfl
    | tail _ t ih =>
      rcases ih with rfl | framed
      · exact .inr (.first reg names found deep writes hc ext begin_ merged seeded t)
      · exact .inr (framed.turn reg names found deep writes loops t)
  rcases framed turns with same | done
  · cases same
  · exact done.records

end Loop

/-! ## Changed symbols -/

/-- On simplified bindings a symbol differs exactly when the two handles do. -/
theorem differs_exact (hc : ctx.Reliable) {s t : State} {x : SymbolId} (hs : State.Fixed ctx x (s.store.get? x))
    (ht : State.Fixed ctx x (t.store.get? x)) (registered : x.number < ctx.symbols.size)
    (bound : s.store.get? x = none → t.store.get? x ≠ none) :
    Uniform (differs s.store.flatten t.store.flatten x) ctx fun b _ =>
      b = decide (t.store.get? x ≠ s.store.get? x) := by
  have symbol : Uniform (ContextM.symbol x) ctx fun k c => ContextM.Stands c x k :=
    .steady (ContextM.intern_steady _) hc (ContextM.symbol_yields hc.sound registered)
  have ne : ∀ {h k : Handle} {c : Context}, ctx.Later c → c.Reliable → State.Fixed ctx x (some h) →
    ContextM.Stands c x k →
      h ≠ k := by
    rintro h _ c later hc fixed stands rfl
    obtain ⟨answer, asked, other⟩ := (fixed.later later hc.sound.pool.tidy h rfl).other
    rw [stands.asSymbol?] at asked
    cases asked
    exact other rfl
  unfold differs State.valueIn
  rw [Store.find?_flatten, Store.find?_flatten]
  cases before : s.store.get? x with
  | none =>
    cases after : t.store.get? x with
    | none => exact absurd after (bound before)
    | some k =>
      refine symbol.bind fun h c later hc stands => Uniform.pure hc ?_
      have := ne later hc (after ▸ ht) stands
      simp [this.symm]
  | some h =>
    cases after : t.store.get? x with
    | none =>
      rw [pure_bind]
      refine symbol.bind fun k c later hc stands => Uniform.pure hc ?_
      have := ne later hc (before ▸ hs) stands
      simp [this]
    | some k =>
      refine Uniform.pure hc ?_
      simp [eq_comm]

/-- Between simplified states a symbol is found changed exactly if it is bound differently. -/
theorem changedSymbols_exact (hc : ctx.Reliable) {s : State} (hs : s.Simplified ctx) {back : List State}
    (simplified : ∀ b ∈ back, b.Simplified ctx) :
    Uniform (changedSymbols s.store.flatten back) ctx fun changed _ =>
      ∀ x, x ∈ changed ↔ ∃ b ∈ back, b.store.get? x ≠ s.store.get? x := by
  have each : Uniform (back.mapM fun b => (s.store.flatten.map (·.1) ++ b.store.flatten.map (·.1)).filterM
      (differs s.store.flatten b.store.flatten)) ctx fun kepts _ =>
      List.Forall₂ (fun b kept => ∀ x, x ∈ kept ↔ b.store.get? x ≠ s.store.get? x) back kepts := by
    refine Uniform.mapM (P := fun (b : State) (kept : List SymbolId) _ => ∀ x, x ∈ kept ↔
      b.store.get? x ≠ s.store.get? x) back hc
      (fun _ _ exact_ => exact_) fun b hb c later hc => ?_
    have hs := hs.later later hc.sound.pool.tidy
    have hb := (simplified b hb).later later hc.sound.pool.tidy
    have keys : ∀ {x}, x ∈ s.store.flatten.map (·.1) ++ b.store.flatten.map (·.1) ↔
        ∃ h, s.store.get? x = some h ∨ b.store.get? x = some h := by
      intro x
      rw [List.mem_append, Store.mem_flatten_keys, Store.mem_flatten_keys, exists_or]
    refine (Uniform.filterM (P := fun x a => a = decide (b.store.get? x ≠ s.store.get? x)) _ hc
      fun x hx c' later' hc' => ?_).mono fun kept _ _ _ fate x => ⟨fun hx => ?_, fun other => ?_⟩
    · obtain ⟨h, bound⟩ := keys.mp hx
      have registered : x.number < c'.symbols.size := by
        rcases bound with bound | bound
        · exact ((hs.valid.extends later'.extends).store bound).2
        · exact ((hb.valid.extends later'.extends).store bound).2
      refine differs_exact hc' ((hs.fixed x).later later' hc'.sound.pool.tidy)
        ((hb.fixed x).later later' hc'.sound.pool.tidy)
        registered fun none none' => ?_
      rw [none, none'] at bound
      rcases bound with bound | bound <;> cases bound
    · exact of_decide_eq_true (fate.1 x hx).2.symm
    · have key : ∃ h, s.store.get? x = some h ∨ b.store.get? x = some h := by
        by_contra unbound
        rw [not_exists] at unbound
        refine other ?_
        rw [Option.eq_none_iff_forall_ne_some.mpr fun h bound => unbound h (.inr bound),
          Option.eq_none_iff_forall_ne_some.mpr fun h bound => unbound h (.inl bound)]
      refine (fate.2 x (keys.mpr key)).resolve_right fun same => ?_
      exact of_decide_eq_false same.symm other
  unfold changedSymbols
  refine each.bind fun kepts c _ hc fates => Uniform.pure hc fun x => ?_
  rw [SymbolId.mem_ofList, List.mem_flatten]
  constructor
  · rintro ⟨kept, hk, hx⟩
    obtain ⟨b, hb, fate⟩ := Related.exists_left fates hk
    exact ⟨b, hb, (fate x).mp hx⟩
  · rintro ⟨b, hb, other⟩
    obtain ⟨kept, hk, fate⟩ := Related.exists_right fates hb
    exact ⟨kept, hk, (fate x).mpr other⟩

/-! ## Rounds -/

/-- Loops that nest no deeper than this are walked with the bindings they are entered with, apart from what they
write. -/
def FramesWithin (lay : Layout) (r : Registry) (nesting : Nat) : Prop :=
  ∀ {id l states ctx run ctx' W o}, Entrance lay r nesting id l states ctx → lay.written r l ⊆ W →
    (∀ s ∈ states, s.Frames W o ctx) → Returns (summarise lay nesting id states) ctx run ctx' →
    ∃ starts, Records (State.Frames W o ctx') l.head starts run.walk

theorem FramesWithin.loops (reg : lay.Regular) (frames : FramesWithin lay r nesting)
    (entrance : Entrance lay r (nesting + 1) id l states ctx) (writes : lay.written r l ⊆ W) :
    FramesLoops lay (.ofLoop id l) r W o (summarise lay nesting) := by
  intro n k states c run c' found inner hc ext ins framed ret
  have body : ∀ i ∈ k.body, i ∈ l.body := by
    intro i hi
    have inside := (Region.Walked.loop entrance.found).inner_inside reg inner ((reg.natural found).body.mp hi)
    exact (reg.natural entrance.found).body.mpr ((Region.inside_ofLoop reg entrance.found).mp inside)
  exact frames ⟨found, entrance.nestsWithin reg n k found inner, hc, ext, ins⟩
    ((Layout.written_mono body).trans writes) framed ret

section Rounds

variable {base : Context} {store : Store} {rd rd' : Round} {p : Pass} {before after : Context}

/-- What the pass records binds what the loop does not write as the merged seeds do. -/
theorem Round.Made.records (reg : lay.Regular) (names : Names lay r)
    (entrance : Entrance lay r (nesting + 1) id l states ctx) (frames : FramesWithin lay r nesting)
    (fit : rd.Fit r base ⟨l.head, states, store⟩)
    (made : rd.Made lay r base nesting id l states store p before after ctx') (writes : lay.written r l ⊆ W)
    (seeded : ∀ x, x ∉ W → p.seed.store.get? x = o x) :
    Records (State.Frames W o after) l.head p.seeds p.walk := by
  obtain ⟨c, _, merged⟩ := made.started.merges
  exact through_records reg names entrance.found (entrance.nestsWithin reg) writes (frames.loops reg entrance writes)
    made.started.reliable (fit.ext.trans made.started.later.symbols) made.started.begin_ merged seeded made.walked

theorem Round.Made.mem_changed (made : rd.Made lay r base nesting id l states store p before after ctx')
    (simplified : ∀ b ∈ p.back l.head, b.Simplified after) {x : SymbolId} :
    x ∈ p.changed ↔ ∃ b ∈ p.back l.head, b.store.get? x ≠ p.seed.store.get? x :=
  ((changedSymbols_exact made.toured.reliable
    (made.started.simplified.later made.later made.toured.reliable.sound.pool.tidy) simplified).of_returns
    made.compared).2 x

/-- What changes is written. -/
theorem Round.Made.changed_written (reg : lay.Regular) (names : Names lay r)
    (entrance : Entrance lay r (nesting + 1) id l states ctx) (frames : FramesWithin lay r nesting)
    (fit : rd.Fit r base ⟨l.head, states, store⟩)
    (made : rd.Made lay r base nesting id l states store p before after ctx') :
    ∀ x ∈ p.changed, x ∈ lay.written r l := by
  have records := made.records (W := lay.written r l) (o := fun x => p.seed.store.get? x) reg names entrance frames fit
    (Finset.Subset.refl _) fun _ _ => rfl
  intro x hx
  obtain ⟨b, hb, other⟩ := (made.mem_changed fun b hb => (records.back b hb).simplified).mp hx
  by_contra unwritten
  exact other ((records.back b hb).same x unwritten)

/-- However many rounds are made, only symbols the loop writes are ever counted as modified. -/
theorem modified_written (reg : lay.Regular) (names : Names lay r)
    (entrance : Entrance lay r (nesting + 1) id l states ctx) (frames : FramesWithin lay r nesting)
    (fit : rd.Fit r base ⟨l.head, states, store⟩) (sub : ∀ x ∈ rd.modified, x ∈ lay.written r l)
    (nexts : ReflTransGen (Round.Next ⟨l.head, states, store⟩
      (through lay (.ofLoop id l) (summarise lay nesting))) rd rd') :
    ∀ x ∈ rd'.modified, x ∈ lay.written r l := by
  induction nexts with
  | refl => exact sub
  | tail nexts next ih =>
    have fit := (fit.nexts reg names entrance nexts).1
    obtain ⟨makes, _⟩ := next
    obtain ⟨_, _, _, made⟩ := fit.made reg names entrance makes
    intro x hx
    rcases List.mem_append.mp (SymbolId.mem_ofList.mp hx) with hx | hx
    · exact ih x hx
    · exact made.changed_written reg names entrance frames fit x (List.mem_filter.mp hx).1

/-- The symbols that are not modified are bound in the merged seeds as in all the states that enter the loop. -/
theorem Started.get? {entry : LoopEntry} {seed : State} {names : Renaming} {x : SymbolId} {value : Option Handle}
    (h : Started r base rd entry seeds names seed ctx) (unmodified : x ∉ rd.modified)
    (all : ∀ s ∈ entry.states, s.store.get? x = value) (fixed : State.Fixed rd.context x value) :
    seed.store.get? x = value := by
  obtain ⟨c, later, merged⟩ := h.merges
  refine merged.get? (fun t ht => ?_) (fixed.later later merged.reliable.sound.pool.tidy)
  obtain ⟨s, hs, rebound⟩ := Related.exists_left h.rebound ht
  exact (rebound.others x unmodified).trans (all s hs)

end Rounds

theorem Digests.modified_written (reg : lay.Regular) (names : Names lay r) {d : Digest} {run : LoopRun}
    (entrance : Entrance lay r (nesting + 1) id l states ctx) (frames : FramesWithin lay r nesting)
    (digests : Digests lay nesting id l states ctx d run ctx') : ∀ x ∈ d.round.modified, x ∈ lay.written r l := by
  obtain ⟨_, _, _, _, merges, simplifies, rounds, _⟩ := digests
  exact Walk.modified_written reg names entrance frames (entrance.first merges simplifies).1
    (List.forall_mem_nil _) rounds

/-- Summarising a loop leaves alone what the loop does not write, by induction on the nesting. -/
theorem summarise_frames (reg : lay.Regular) (names : Names lay r) (nesting : Nat) : FramesWithin lay r nesting := by
  induction nesting with
  | zero =>
    intro id l states ctx run ctx' W o _ _ _ ret
    cases ret
  | succ nesting ih =>
    intro id l states ctx run ctx' W o entrance writes framed ret
    obtain ⟨d, digests⟩ := digests_of_returns entrance.found ret
    obtain ⟨before, after, compared, closes⟩ := digests.closes reg names entrance
    have modified := digests.modified_written reg names entrance ih
    have seeded : ∀ x, x ∉ W → d.last.seed.store.get? x = o x := by
      intro x hx
      obtain ⟨s, hs⟩ := List.exists_mem_of_ne_nil _ entrance.ins.some
      have fixed : State.Fixed ctx x (o x) := (framed s hs).same x hx ▸ (framed s hs).simplified.fixed x
      refine closes.made.started.get? (fun hm => hx (writes (modified x hm))) (fun s hs => (framed s hs).same x hx) ?_
      exact fixed.later closes.fit.since closes.fit.reliable.sound.pool.tidy
    have records := closes.made.records reg names entrance ih closes.fit writes seeded
    obtain ⟨hc', later⟩ := closes.made.summed closes.fit closes.summed
    refine ⟨d.last.seeds, closes.walk ▸ records.mono fun s framed => ?_⟩
    exact framed.later (closes.made.later'.trans later) hc'.sound.pool.tidy

/-- In the last pass no symbol changes but the modified ones. -/
theorem Closes.back (reg : lay.Regular) (names : Names lay r) {d : Digest} {run : LoopRun}
    {before after compared : Context} (entrance : Entrance lay r (nesting + 1) id l states ctx)
    (h : Closes lay r nesting id l states ctx d before after compared run ctx') :
    ∀ b ∈ d.last.back l.head, b.Simplified after ∧
      ∀ x, x ∉ d.round.modified → b.store.get? x = d.last.seed.store.get? x := by
  have records := h.made.records (W := lay.written r l) (o := fun x => d.last.seed.store.get? x) reg names entrance
    (summarise_frames reg names nesting) h.fit (Finset.Subset.refl _) fun _ _ => rfl
  have simplified : ∀ b ∈ d.last.back l.head, b.Simplified after := fun b hb => (records.back b hb).simplified
  refine fun b hb => ⟨simplified b hb, fun x unmodified => ?_⟩
  by_contra other
  have changed := (h.made.mem_changed simplified).mpr ⟨b, hb, other⟩
  exact List.filter_eq_nil_iff.mp h.stable x changed (by simpa using unmodified)

end Walk

/-- A loop modifies nothing that its statements do not write. There are no more passes than written symbols, and one;
and in the last pass every state that comes back to the head binds each symbol that is not modified to the same
handle as the merged and simplified seeds do. This is so of every loop that is summarised in a run of an accepted
method, and those are all whose summaries an executed analysis holds. -/
theorem modified_precise {m : Method} {settings : Settings} {a : Analysis}
    (created : Analysis.create m settings = .ok a) :
    (∀ {nesting id : Nat} {l : Loop} {states : List State} {ctx : Context} {run : LoopRun} {ctx' : Context},
      Walk.Summarised a.layout settings.stops a.context nesting id l states ctx run ctx' →
      ∃ n d, nesting = n + 1 ∧ Walk.Digests a.layout n id l states ctx d run ctx' ∧
        (∀ x ∈ run.summary.modified, x ∈ a.layout.written a.context.symbols l) ∧
        run.summary.passes ≤ (a.layout.written a.context.symbols l).card + 1 ∧
        ∀ b ∈ d.last.back l.head, ∀ x, x ∉ run.summary.modified → b.store.get? x = d.last.seed.store.get? x) ∧
    ∀ a', a.execute = .ok a' → ∀ e ∈ a'.summaries, ∃ nesting l states ctx run ctx',
      Walk.Summarised a.layout settings.stops a.context nesting e.1 l states ctx run ctx' ∧ run.summary = e.2 := by
  have made := Analysis.created_of_create created
  refine ⟨fun {nesting id l states ctx run ctx'} summarised => ?_, fun a' executed e he => ?_⟩
  · have entrance := summarised.entered.entrance made.regular made.names made.reached.reliable
    obtain ⟨n, d, rfl, digests⟩ := summarised.digests
    obtain ⟨before, after, compared, closes⟩ := digests.closes made.regular made.names entrance
    obtain ⟨_, _, _, _, _, _, _, _, _, summary⟩ := Walk.returns_summaryOf closes.summed
    have modified :=
      digests.modified_written made.regular made.names entrance (Walk.summarise_frames made.regular made.names n)
    rw [summary]
    refine ⟨n, d, rfl, digests, modified, ?_, fun b hb => (closes.back made.regular made.names entrance b hb).2⟩
    calc d.round.passes ≤ d.round.modified.length + 1 := closes.fit.counted
      _ = d.round.modified.toFinset.card + 1 := by rw [List.toFinset_card_of_nodup closes.fit.nodup]
      _ ≤ (a.layout.written a.context.symbols l).card + 1 :=
        Nat.succ_le_succ (Finset.card_le_card fun x hx => modified x (List.mem_toFinset.mp hx))
  · obtain ⟨w, ctx, walked, rfl⟩ := (Analysis.execute_ok made.unexecuted).mp executed
    rw [made.settings_eq] at walked
    exact Walk.summarised_of_mem walked e he

/-- The inner loop of the nested counting loops writes `y` only, so it modifies nothing else, `x` least of all, and
two passes over it are enough. -/
theorem modified_precise_nested : ∃ a a' y s, Analysis.create nestedMethod ⟨4, []⟩ = .ok a ∧ a.execute = .ok a' ∧
    a.context.symbols.locals.lookup "y" = some y ∧ (1, s) ∈ a'.summaries ∧ (∀ x ∈ s.modified, x = y) ∧
      s.passes ≤ 2 := by
  have shape : (Analysis.create nestedMethod ⟨4, []⟩).map (fun a => (a.layout.loops,
      a.layout.loops[1]?.map fun k => k.body.flatMap fun i =>
        a.layout.body[i]?.toList.flatMap (Statement.written a.context.symbols),
      a.context.symbols.locals.lookup "y")) =
        .ok (#[⟨0, [0, 1, 2, 3, 4, 5, 6], [0]⟩, ⟨2, [2, 3, 4], [2]⟩], some [⟨19⟩], some ⟨19⟩) := by cbv
  obtain ⟨a, created, shape⟩ := Analysis.exists_of_map shape
  simp only [Prod.mk.injEq] at shape
  obtain ⟨loops, written, y⟩ := shape
  have made := Analysis.created_of_create created
  obtain ⟨a', executed⟩ := made.executes_callless (by decide)
  obtain ⟨w, recorded, _, covers⟩ := made.covers rfl executed
  have found : a.layout.loops[1]? = some ⟨2, [2, 3, 4], [2]⟩ := by rw [loops]; rfl
  have summaries : a'.summaries = w.summaries := by
    unfold Analysis.summaries
    rw [recorded]
  have key : 1 ∈ a'.summaries.keys := by
    rw [summaries, covers.keys_eq made.regular, List.mem_range]
    exact (Array.getElem?_eq_some_iff.mp found).1
  obtain ⟨⟨_, s⟩, summarised, rfl⟩ := List.mem_map.mp key
  obtain ⟨precise, all⟩ := modified_precise created
  obtain ⟨_, l, _, _, run, _, inner, same⟩ := all a' executed _ summarised
  obtain ⟨_, _, _, _, modified, passes, _⟩ := precise inner
  have only : a.layout.written a.context.symbols l = {⟨19⟩} := by
    rw [inner.entered.found, Option.map_some] at written
    exact congrArg List.toFinset (Option.some.inj written)
  rw [only, same] at modified passes
  exact ⟨a, a', ⟨19⟩, s, created, executed, y, summarised, fun x hx => Finset.mem_singleton.mp (modified x hx), passes⟩

end PathMerge
