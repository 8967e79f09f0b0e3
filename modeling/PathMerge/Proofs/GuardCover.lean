/-
  PathMerge.Proofs.GuardCover — the guards of a chain of conditions cover every case.

  Of the conditions `a₁ … aₙ` the first one that holds is selected by its guard, the condition under the complements
  of all earlier ones (`guardsAfter`). Below a disjunction each guard stands for one clause, its operands (`Guard`). The
  first guard is a unit and refutes an alternative of the second one, which becomes a unit in turn: along the chain
  every condition is derived (`guards_derive`). So the guards are interchangeable with the conditions, and beside them
  the complements of all conditions are refuted one by one until nothing is left.

  This is said of clauses and not of the steps of `join`, so the order in which handles stand, were made or are
  shortened does not matter.
-/

import PathMerge.Proofs.Regrouping

namespace PathMerge

open Pool Context ContextM

/-- The operands of the guards of `conditions`, each after the complements of those before it. -/
def guardsAfter (earlier : List Handle) : (conditions : List Handle) → List (List Handle)
  | [] => []
  | a :: rest => (earlier ++ [a]) :: guardsAfter (earlier ++ [-a]) rest

variable {c : Connective} {p q : Pool} {ctx : Context} {a g h k : Handle}
  {earlier conditions ops flat guards items : List Handle} {operands : List (List Handle)}

theorem of_mem_guardsAfter (mem : ops ∈ guardsAfter earlier conditions) :
    ∃ before a after, conditions = before ++ a :: after ∧ ops = earlier ++ before.map (-·) ++ [a] := by
  induction conditions generalizing earlier with
  | nil => cases mem
  | cons b rest ih =>
    rcases List.mem_cons.mp mem with rfl | mem
    · exact ⟨[], b, rest, rfl, by simp⟩
    · obtain ⟨before, a, after, rfl, rfl⟩ := ih mem
      exact ⟨b :: before, a, after, rfl, by simp⟩

/-! ## A guard stands for its operands -/

namespace Pool

theorem Atom.extends (e : p.Extends q) (here : p.Has h) (atom : p.Atom h) : q.Atom h :=
  ⟨atom.not_tt, atom.not_ff, by rw [e.node? here]; exact atom.plain⟩

theorem Atom.ne_neutral (atom : p.Atom h) (c : Connective) : h ≠ c.neutral := by
  cases c with
  | conj => exact atom.not_tt
  | disj => exact atom.not_ff

theorem Atom.ne_absorbing (atom : p.Atom h) (c : Connective) : h ≠ c.absorbing :=
  c.dual_neutral ▸ atom.ne_neutral c.dual

structure Literals (p : Pool) (ops : List Handle) : Prop where
  has : ∀ x ∈ ops, p.Has x
  atoms : ∀ x ∈ ops, p.Atom x
  consistent : ∀ x ∈ ops, -x ∉ ops

theorem Literals.extends (e : p.Extends q) (l : p.Literals ops) : q.Literals ops :=
  ⟨fun x hx => e.has (l.has x hx), fun x hx => (l.atoms x hx).extends e (l.has x hx), l.consistent⟩

theorem Literals.congr (l : p.Literals ops) (same : ∀ h, h ∈ ops ↔ h ∈ flat) : p.Literals flat := by
  obtain ⟨has, atoms, consistent⟩ := l
  simp only [same] at has atoms consistent
  exact ⟨has, atoms, consistent⟩

structure Guard (q : Pool) (c : Connective) (ops : List Handle) (g : Handle) : Prop where
  normal : q.NegationNormal g
  clause : ∀ t, q.Clause c g t ↔ t = {x | x ∈ ops}

theorem Guard.congr (same : ∀ h, h ∈ ops ↔ h ∈ flat) (guard : q.Guard c flat g) : q.Guard c ops g := by
  have sets : {x | x ∈ ops} = {x | x ∈ flat} := Set.ext same
  exact ⟨guard.normal, sets ▸ guard.clause⟩

end Pool

/-- There is nothing to flatten among atoms. -/
theorem Flattened.mem_atoms (atoms : ∀ x ∈ ops, p.Atom x) (f : Flattened p c ops flat) : h ∈ flat ↔ h ∈ ops := by
  constructor
  · intro hh
    rcases f.origin h hh with here | ⟨k, hk, inner, hn, _⟩
    · exact here
    · exact absurd hn ((atoms k hk).plain _ _)
  · intro hh
    rcases f.kept h hh with neutral | there | ⟨inner, hn, _⟩
    · exact absurd neutral ((atoms h hh).ne_neutral c)
    · exact there
    · exact absurd hn ((atoms h hh).plain _ _)

/-- Literals joined by the dual connective make a formula with one clause, the set of them. -/
theorem joined_guard (hp : p.Sound) (l : p.Literals ops) {steps : Nat} {p' : Pool}
    (ret : Returns (PoolM.joinWithin (steps + 1) c.dual ops) p g p') (hq : q.Sound) (e : p'.Extends q) :
    q.Guard c ops g := by
  have ⟨has, atoms, consistent⟩ := l
  have later : p.Extends q := fun hn => e ((joinWithin_joined hp has ret).1 hn)
  have normal : ∀ x ∈ ops, q.NegationNormal x := fun x hx => .leaf ((l.extends later).atoms x hx).plain
  refine ⟨(joinWithin_interchangeable _ c.dual hp has ret hq e normal).1, fun t => ?_⟩
  -- Nothing is absorbed, since no operand is a junction.
  have plain : ∀ {h before after inner}, Flattened p c.dual ops (before ++ h :: after) →
      p.node? h ≠ some (.junction c.dual.dual inner) := fun flat =>
    (atoms _ ((flat.mem_atoms atoms).mp (by simp))).plain _ _
  cases joinStep hp has ret with
  | absorbed _ _ decided =>
    rcases decided with there | ⟨flat, f, x, hx, hx'⟩
    · exact absurd rfl ((atoms _ there).ne_absorbing c.dual)
    · exact absurd ((f.mem_atoms atoms).mp hx') (consistent x ((f.mem_atoms atoms).mp hx))
  | empty result _ flat =>
    have none_ : {x | x ∈ ops} = ∅ := by
      ext x
      simp [← flat.mem_atoms atoms]
    rw [result, c.dual_neutral, clause_absorbing hq, none_]
  | single flat _ =>
    have one : {x | x ∈ ops} = {g} := by
      ext x
      simp [← flat.mem_atoms atoms]
    have here : g ∈ ops := (flat.mem_atoms atoms).mp (by simp)
    rw [clause_atom ((l.extends later).atoms g here), one]
  | @node made flat ret =>
    have all : {x | x ∈ ops} = {x | x ∈ made} := by
      ext x
      simp [← flat.mem_atoms atoms]
    obtain ⟨sign, node, _⟩ := returns_intern ret
    rw [clause_dual hq (e node) sign, all]
  | drop flat _ held =>
    obtain ⟨inner, hn, _⟩ := held
    exact absurd hn (plain flat)
  | shrink flat dual => exact absurd dual (plain flat)

/-- Building a guard gives a handle that stands for its operands ever after. -/
theorem guard_yields (hc : ctx.Sound) (l : ctx.pool.Literals ops) :
    Yields (ContextM.conj ops) ctx fun g ctx' => ctx'.Has g ∧
      ∀ q : Pool, q.Sound → ctx'.pool.Extends q → q.Guard .disj ops g := by
  obtain ⟨g, ctx', ret, e, hc', made⟩ := ContextM.join_yields hc .conj l.has
  refine ⟨g, ctx', ret, e, hc', made.1, fun q hq later => ?_⟩
  obtain ⟨p', run, rfl⟩ := returns_onPool.mp ret
  obtain ⟨steps, run⟩ := returns_joinWithin run
  exact joined_guard (c := .disj) hc.pool l run hq later

/-! ## Along the chain -/

def Guards (q : Pool) (operands : List (List Handle)) (guards : List Handle) : Prop :=
  List.Forall₂ (fun ops g => q.Guard .disj ops g) operands guards

theorem Guards.congr {listed : List (List Handle)}
    (same : List.Forall₂ (fun xs ys => ∀ h, h ∈ xs ↔ h ∈ ys) listed operands) (all : Guards q operands guards) :
    Guards q listed guards := by
  induction same generalizing guards with
  | nil => exact all
  | cons one _ ih =>
    cases all with
    | cons guard rest => exact .cons (guard.congr one) (ih rest)

/-- If all earlier conditions are derived, so are the others. -/
theorem guards_derive (all : Guards q (guardsAfter earlier conditions) guards) (sub : ∀ g ∈ guards, g ∈ items)
    (atoms : ∀ a ∈ conditions, q.Atom a) (before : ∀ x ∈ earlier, q.Derives .disj items {-x}) :
    ∀ a ∈ conditions, q.Derives .disj items {a} := by
  induction conditions generalizing earlier guards with
  | nil => exact List.forall_mem_nil _
  | cons a rest ih =>
    cases all with
    | @cons _ g _ guards guard others =>
      obtain ⟨first, later⟩ := List.forall_mem_cons.mp atoms
      obtain ⟨here, there⟩ := List.forall_mem_cons.mp sub
      have whole : q.Derives .disj items {x | x ∈ earlier ++ [a]} := .operand here ((guard.clause _).mpr rfl)
      have alone : q.Derives .disj items {a} := by
        refine .resolve whole (by simp) (fun y hy other => before y ?_) ((unfolds_atom first).mpr rfl)
        simpa [Set.mem_singleton_iff.not.mp other] using hy
      refine List.forall_mem_cons.mpr ⟨alone, ih others there later fun x hx => ?_⟩
      rcases List.mem_append.mp hx with hx | hx
      · exact before x hx
      · rw [List.mem_singleton.mp hx, Handle.neg_neg]
        exact alone

/-- Beside the conditions no guard is needed, and the other way round. -/
theorem guards_interchangeable (all : Guards q (guardsAfter [] conditions) guards)
    (atoms : ∀ a ∈ conditions, q.Atom a) : q.Interchangeable .disj guards conditions := by
  refine ⟨fun a ha t clause => ?_, fun g hg t clause => ?_⟩
  · obtain rfl := (clause_atom (atoms a ha)).mp clause
    exact .derived (guards_derive all (fun g hg => hg) atoms (List.forall_mem_nil _) a ha)
  · obtain ⟨ops, mem, guard⟩ := Related.exists_left all hg
    obtain ⟨before, a, after, rfl, rfl⟩ := of_mem_guardsAfter mem
    obtain rfl := (guard.clause t).mp clause
    have here : a ∈ before ++ a :: after := by simp
    exact .unit (by simp) (.operand here (.atom (atoms a here)))

/-- The guards and what is left if no condition holds decide. -/
theorem guards_exhaust (all : Guards q (guardsAfter [] conditions) guards) (atoms : ∀ a ∈ conditions, q.Atom a)
    (last : q.Guard .disj (conditions.map (-·)) h) : q.Derives .disj (h :: guards) ∅ := by
  have each : ∀ a ∈ conditions, q.Derives .disj (h :: guards) {a} :=
    guards_derive all (fun g hg => List.mem_cons_of_mem h hg) atoms (List.forall_mem_nil _)
  refine .resolve (.operand List.mem_cons_self ((last.clause _).mpr rfl)) (Set.empty_subset _) (fun y hy _ => ?_)
    (unfolds_empty.mpr rfl)
  obtain ⟨a, ha, rfl⟩ := List.mem_map.mp hy
  rw [Handle.neg_neg]
  exact each a ha

/-! ## The guards of a chain, built and joined -/

/-- Operands that stand for the same give the same handle, joined one after the other. -/
theorem joined_alike {xs ys : List Handle} (hc : ctx.Sound)
    (left : ∀ h ∈ xs, ctx.Has h ∧ ctx.pool.NegationNormal h) (right : ∀ h ∈ ys, ctx.Has h ∧ ctx.pool.NegationNormal h)
    (same : ∀ q : Pool, q.Sound → ctx.pool.Extends q → q.Interchangeable c xs ys) :
    ∃ k ctx₁ ctx₂, Returns (onPool (PoolM.join c xs)) ctx k ctx₁ ∧ Returns (onPool (PoolM.join c ys)) ctx₁ k ctx₂ := by
  have hasLeft : ∀ h ∈ xs, ctx.Has h := fun h hh => (left h hh).1
  obtain ⟨k, ctx₁, ret₁, e₁, hc₁, _⟩ := ContextM.join_yields hc c hasLeft
  have hasRight : ∀ h ∈ ys, ctx₁.Has h := fun h hh => e₁.has (right h hh).1
  obtain ⟨k', ctx₂, ret₂, e₂, hc₂, _⟩ := ContextM.join_yields hc₁ c hasRight
  have e : ctx.pool.Extends ctx₂.pool := (e₁.trans e₂).pool
  have normal : ∀ h ∈ xs ++ ys, ctx₂.pool.NegationNormal h := by
    intro h hh
    obtain ⟨has, normal⟩ := (List.mem_append.mp hh).elim (left h) (right h)
    exact normal.extends hc.pool e has
  have equal := join_eq hc hasLeft ret₁ hc₁ hasRight ret₂ hc₂.pool e₂.pool (fun hn => hn) normal (same _ hc₂.pool e)
  exact ⟨k, ctx₁, ctx₂, ret₁, equal ▸ ret₂⟩

/-- Operands that derive everything give the absorbing handle. -/
theorem joined_absorbing (hc : ctx.Sound) (all : ∀ h ∈ items, ctx.Has h ∧ ctx.pool.NegationNormal h)
    (decided : ∀ q : Pool, q.Sound → ctx.pool.Extends q → q.Derives c items ∅) :
    ∃ ctx₁, Returns (onPool (PoolM.join c items)) ctx c.absorbing ctx₁ := by
  have has : ∀ h ∈ items, ctx.Has h := fun h hh => (all h hh).1
  obtain ⟨k, ctx₁, ret, e, hc₁, _⟩ := ContextM.join_yields hc c has
  have i := (join_interchangeable hc has ret hc₁.pool (fun hn => hn)
    fun h hh => (all h hh).2.extends hc.pool e.pool (has h hh)).2
  have j := absorbing_interchangeable hc₁.pool (decided _ hc₁.pool e.pool)
  obtain rfl := (i.trans hc₁.pool j.symm).eq_absorbing hc₁.pool
  exact ⟨ctx₁, ret⟩

/-- Handles of different nodes, neither truth nor junctions, of either sign. -/
structure Pool.Distinct (p : Pool) (conditions : List Handle) : Prop where
  plain : ∀ a ∈ conditions, ∃ n, p.node? a = some n ∧ n ≠ .truth ∧ ∀ c inner, n ≠ .junction c inner
  apart : (conditions.map (·.index)).Nodup

namespace Pool.Distinct

theorem literals (hp : p.Sound) (d : p.Distinct ops) : p.Literals ops := by
  refine ⟨fun a ha => ?_, fun a ha => ?_, fun a ha => ?_⟩
  · obtain ⟨n, hn, _⟩ := d.plain a ha
    exact has_of_node hn
  · obtain ⟨n, hn, notTruth, notJunction⟩ := d.plain a ha
    refine ⟨?_, ?_, fun c inner hn' => notJunction c inner (Option.some.inj (hn.symm.trans hn'))⟩
    · rintro rfl
      exact notTruth (Option.some.inj (hn.symm.trans hp.truth))
    · rintro rfl
      exact notTruth (Option.some.inj (hn.symm.trans hp.truth))
  · intro ha'
    exact a.neg_ne (List.inj_on_of_nodup_map d.apart ha' ha rfl)

theorem complements (d : p.Distinct ops) : p.Distinct (ops.map (-·)) :=
  ⟨List.forall_mem_map.mpr d.plain, by simpa [Function.comp_def] using d.apart⟩

theorem guard (d : p.Distinct conditions) (mem : ops ∈ guardsAfter [] conditions) : p.Distinct ops := by
  obtain ⟨before, a, after, rfl, rfl⟩ := of_mem_guardsAfter mem
  obtain ⟨plain, apart⟩ := d
  simp only [List.forall_mem_append, List.forall_mem_cons] at plain
  refine ⟨?_, apart.sublist ?_⟩
  · simp only [List.nil_append, List.forall_mem_append, List.forall_mem_map, List.forall_mem_singleton]
    exact ⟨plain.1, plain.2.1⟩
  · simp [Function.comp_def]

end Pool.Distinct

/-- Building the guards of a chain gives handles that stand for their operands ever after. -/
theorem guards_yield (hc : ctx.Sound) (d : ctx.pool.Distinct conditions)
    (each : List.Forall₂ (fun xs ys => ∀ h, h ∈ xs ↔ h ∈ ys) (guardsAfter [] conditions) operands) :
    Yields (operands.mapM ContextM.conj) ctx fun guards ctx' => (∀ g ∈ guards, ctx'.Has g) ∧
      ∀ q : Pool, q.Sound → ctx'.pool.Extends q → Guards q (guardsAfter [] conditions) guards := by
  have built : Yields (operands.mapM ContextM.conj) ctx fun guards ctx' => List.Forall₂ (fun ops g => ctx'.Has g ∧
      ∀ q : Pool, q.Sound → ctx'.pool.Extends q → q.Guard .disj ops g) operands guards := by
    refine Yields.mapM operands (fun ops g c₁ c₂ _ _ e _ made => ?_) hc fun ops hops c₁ e hc₁ => ?_
    · exact ⟨e.has made.1, fun q hq later => made.2 q hq fun hn => later (e.pool hn)⟩
    · obtain ⟨ops', mem, same⟩ := Related.exists_left each hops
      exact guard_yields hc₁ ((((d.guard mem).literals hc.pool).congr same).extends e.pool)
  refine built.mono fun guards ctx' _ _ all => ⟨fun g hg => ?_, fun q hq later => ?_⟩
  · obtain ⟨_, _, has, _⟩ := Related.exists_left all hg
    exact has
  · exact .congr each (all.imp fun _ _ h => h.2 q hq later)

/-- The guards of the chain and the complements of all its conditions are there, and stand for their operands. -/
structure Context.Guarded (ctx : Context) (conditions guards : List Handle) (rest : Handle) : Prop where
  literals : ctx.pool.Literals conditions
  has : ∀ g ∈ rest :: guards, ctx.Has g
  guards : ∀ q : Pool, q.Sound → ctx.pool.Extends q → Guards q (guardsAfter [] conditions) guards
  rest : ∀ q : Pool, q.Sound → ctx.pool.Extends q → q.Guard .disj (conditions.map (-·)) rest

namespace Context.Guarded

variable {rest : Handle} {alone : List Handle}

theorem «extends» {ctx' : Context} (e : ctx.Extends ctx') (guarded : ctx.Guarded conditions guards rest) :
    ctx'.Guarded conditions guards rest where
  literals := guarded.literals.extends e.pool
  has g hg := e.has (guarded.has g hg)
  guards q hq later := guarded.guards q hq fun hn => later (e.pool hn)
  rest q hq later := guarded.rest q hq fun hn => later (e.pool hn)

section

variable (hc : ctx.Sound) (guarded : ctx.Guarded conditions guards rest)

include hc guarded

theorem normal : ∀ g ∈ rest :: guards, ctx.Has g ∧ ctx.pool.NegationNormal g := by
  intro g hg
  refine ⟨guarded.has g hg, ?_⟩
  rcases List.mem_cons.mp hg with rfl | hg
  · exact (guarded.rest _ hc.pool fun hn => hn).normal
  · obtain ⟨_, _, guard⟩ := Related.exists_left (guarded.guards _ hc.pool fun hn => hn) hg
    exact guard.normal

theorem exhaustive (same : ∀ h, h ∈ items ↔ h ∈ rest :: guards) :
    ∃ ctx₁, Returns (ContextM.disj items) ctx .tt ctx₁ := by
  refine joined_absorbing (c := .disj) hc (fun h hh => guarded.normal hc h ((same h).mp hh)) fun q hq e => ?_
  have none_ := guards_exhaust (guarded.guards q hq e) (guarded.literals.extends e).atoms (guarded.rest q hq e)
  exact ((Interchangeable.of_mem same).left.derives hq none_).derives_empty

theorem interchangeable (same : ∀ h, h ∈ items ↔ h ∈ guards) (same' : ∀ h, h ∈ alone ↔ h ∈ conditions) :
    (∃ k ctx₁ ctx₂, Returns (ContextM.disj items) ctx k ctx₁ ∧ Returns (ContextM.disj alone) ctx₁ k ctx₂) ∧
    ∃ k ctx₁ ctx₂, Returns (ContextM.disj alone) ctx k ctx₁ ∧ Returns (ContextM.disj items) ctx₁ k ctx₂ := by
  have left : ∀ h ∈ items, ctx.Has h ∧ ctx.pool.NegationNormal h := fun h hh =>
    guarded.normal hc h (List.mem_cons_of_mem rest ((same h).mp hh))
  have right : ∀ h ∈ alone, ctx.Has h ∧ ctx.pool.NegationNormal h := fun h hh =>
    ⟨guarded.literals.has h ((same' h).mp hh), .leaf (guarded.literals.atoms h ((same' h).mp hh)).plain⟩
  have both : ∀ q : Pool, q.Sound → ctx.pool.Extends q → q.Interchangeable .disj items alone := by
    intro q hq e
    have i := guards_interchangeable (guarded.guards q hq e) (guarded.literals.extends e).atoms
    exact ((Interchangeable.of_mem same).trans hq i).trans hq (.of_mem fun h => (same' h).symm)
  exact ⟨joined_alike hc left right both, joined_alike hc right left fun q hq e => (both q hq e).symm⟩

end

end Context.Guarded

/-- The guards of a chain of conditions cover every case: beside the complements of all of them their disjunction is
true, and without these it is the disjunction of the conditions. It does not matter in what order operands stand or
what is done before the disjunctions are built; that a guard was built before, in any order, is a case of any `ctx`.
-/
theorem guards_cover (reached : ctx.Reached) {conditions : List Handle} (d : ctx.pool.Distinct conditions)
    {operands : List (List Handle)} {remaining : List Handle}
    (each : List.Forall₂ (fun xs ys => ∀ h, h ∈ xs ↔ h ∈ ys) (guardsAfter [] conditions) operands)
    (last : ∀ h, h ∈ remaining ↔ h ∈ conditions.map (-·)) :
    ∃ guards ctx₁ rest ctx₂, Returns (operands.mapM ContextM.conj) ctx guards ctx₁ ∧
      Returns (ContextM.conj remaining) ctx₁ rest ctx₂ ∧
      ∀ requests, ctx₂.Allows requests →
        (∀ items, (∀ h, h ∈ items ↔ h ∈ rest :: guards) → ∃ ctx₃,
          Returns (ContextM.disj items) (ctx₂.after requests) .tt ctx₃) ∧
        ∀ items alone, (∀ h, h ∈ items ↔ h ∈ guards) → (∀ h, h ∈ alone ↔ h ∈ conditions) →
          (∃ k ctx₃ ctx₄, Returns (ContextM.disj items) (ctx₂.after requests) k ctx₃ ∧
            Returns (ContextM.disj alone) ctx₃ k ctx₄) ∧
          ∃ k ctx₃ ctx₄, Returns (ContextM.disj alone) (ctx₂.after requests) k ctx₃ ∧
            Returns (ContextM.disj items) ctx₃ k ctx₄ := by
  have hc := reached.reliable
  have built := Uniform.steady (.mapM (fun items => (join_straight .conj items).toSteady) operands) hc
    (guards_yield hc.sound d each)
  obtain ⟨guards, ctx₁, ret₁, e₁, hc₁, hasGuards, stand⟩ := guards_yield hc.sound d each
  have remains := ((d.complements.literals hc.sound.pool).congr fun h => (last h).symm).extends e₁.pool
  obtain ⟨rest, ctx₂, ret₂, e₂, hc₂, hasRest, standRest⟩ := guard_yields hc₁ remains
  refine ⟨guards, ctx₁, rest, ctx₂, ret₁, ret₂, fun requests valid => ?_⟩
  have guarded : ctx₂.Guarded conditions guards rest := by
    refine ⟨(d.literals hc.sound.pool).extends (e₁.trans e₂).pool, ?_, fun q hq e => ?_, fun q hq e => ?_⟩
    · exact List.forall_mem_cons.mpr ⟨hasRest, fun g hg => e₂.has (hasGuards g hg)⟩
    · exact stand q hq fun hn => e (e₂.pool hn)
    · exact (standRest q hq e).congr fun h => (last h).symm
  have reliable₂ := ((join_uniform (built.of_returns ret₁).1 .conj remains.has).of_returns ret₂).1
  obtain ⟨later, reliable⟩ := Context.after_later reliable₂ valid
  have guarded := guarded.extends later.extends
  exact ⟨fun items same => guarded.exhaustive reliable.sound same,
    fun items alone same same' => guarded.interchangeable reliable.sound same same'⟩

theorem sharedGuards_distinct :
    (bare.after sharedGuards).pool.Distinct [(⟨3, false⟩ : Handle), ⟨9, false⟩, ⟨2, true⟩] := by
  generalize pool : (bare.after sharedGuards).pool = p
  have a : p.node? ⟨2, true⟩ = some (.symbol ⟨1⟩) := by
    rw [← pool]
    decide +kernel
  have b : p.node? ⟨3, false⟩ = some (.symbol ⟨2⟩) := by
    rw [← pool]
    decide +kernel
  have eq : p.node? ⟨9, false⟩ = some (.eq ⟨4, false⟩ ⟨5, false⟩) := by
    rw [← pool]
    decide +kernel
  exact ⟨by simp [a, b, eq], by decide⟩

/-- `b`, `x == y` and `!a`; their guards are joined last to first. -/
theorem guards_cover_mixed : (bare.after sharedGuards).Reached ∧
    ∃ guards ctx₁ rest ctx₂ ctx₃ k ctx₄ ctx₅,
      Returns ([[⟨3, false⟩], [⟨9, false⟩, ⟨3, true⟩], [⟨2, true⟩, ⟨9, true⟩, ⟨3, true⟩, ⟨9, true⟩]].mapM ContextM.conj)
        (bare.after sharedGuards) guards ctx₁ ∧
      Returns (ContextM.conj [⟨2, false⟩, ⟨3, true⟩, ⟨9, true⟩]) ctx₁ rest ctx₂ ∧
      Returns (ContextM.disj (guards.reverse ++ [rest])) ctx₂ .tt ctx₃ ∧
      Returns (ContextM.disj guards.reverse) ctx₂ k ctx₄ ∧
      Returns (ContextM.disj [⟨9, false⟩, ⟨2, true⟩, ⟨3, false⟩]) ctx₄ k ctx₅ := by
  have each : List.Forall₂ (fun xs ys => ∀ h, h ∈ xs ↔ h ∈ ys)
      (guardsAfter [] [(⟨3, false⟩ : Handle), ⟨9, false⟩, ⟨2, true⟩])
      [[⟨3, false⟩], [⟨9, false⟩, ⟨3, true⟩], [⟨2, true⟩, ⟨9, true⟩, ⟨3, true⟩, ⟨9, true⟩]] := by
    refine .cons (fun h => Iff.rfl) (.cons (fun h => ?_) (.cons (fun h => ?_) .nil))
    · exact (List.Perm.swap _ _ []).mem_iff
    · simp
      tauto
  have last : [(⟨2, false⟩ : Handle), ⟨3, true⟩, ⟨9, true⟩].Perm ([⟨3, false⟩, ⟨9, false⟩, ⟨2, true⟩].map (-·)) := by
    decide
  have alone : [(⟨9, false⟩ : Handle), ⟨2, true⟩, ⟨3, false⟩].Perm [⟨3, false⟩, ⟨9, false⟩, ⟨2, true⟩] := by decide
  obtain ⟨guards, ctx₁, rest, ctx₂, ret₁, ret₂, covered⟩ :=
    guards_cover bare_reached sharedGuards_distinct each fun h => last.mem_iff
  obtain ⟨decided, same⟩ := covered [] trivial
  obtain ⟨ctx₃, ret₃⟩ := decided (guards.reverse ++ [rest]) (by simp [or_comm])
  obtain ⟨⟨k, ctx₄, ctx₅, ret₄, ret₅⟩, _⟩ := same guards.reverse _ (by simp) fun h => alone.mem_iff
  exact ⟨bare_reached, guards, ctx₁, rest, ctx₂, ctx₃, k, ctx₄, ctx₅, ret₁, ret₂, ret₃, ret₄, ret₅⟩

end PathMerge
