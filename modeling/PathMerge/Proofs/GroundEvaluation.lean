/-
  PathMerge.Proofs.GroundEvaluation — ground terms are evaluated completely.

  Simplifying a closed expression that has a value gives the literal of the value (`plainWithin_computes`). Operands
  that have values are literals by the time a node is built again, so there is one fact for each kind of node: a law
  computes on literals (`law_computes`), an equation of literals is decided (`equation_spells`), a junction has
  its deciding operand as a literal or nothing but neutral ones (`join_absorbing`, `join_neutral`), and of the guards of
  a summary one is `true` and all others are `false` (`choice_of_true`). Operands without a value may stay whatever
  they are where they do not matter.
-/

import PathMerge.Proofs.Becomes
import PathMerge.Proofs.GroundTerms
import PathMerge.Proofs.Regrouping

namespace PathMerge

open Context ContextM

variable {M : Meaning} {ctx ctx' : Context} {p p' : Pool} {a b h k : Handle} {x y : Scalar}

/-! ## Laws on literals -/

theorem returns_valued {n : Int} (s : ctx.pool.Spells k (.int n)) :
    Returns (Theory.Integers.valued k) ctx (k, some n) ctx := by
  cases s with
  | int sign node =>
    refine returns_bind (a := some n) ?_ rfl
    unfold Returns
    rw [asking_run, intValue?, if_neg (by simp [sign])]
    have read : ctx.node k = .ok (.literal (.int n)) := InternTable.value_eq_ok.mpr node
    show (ctx.node k >>= _, ctx) = _
    rw [read]
    rfl

theorem returns_mapM_valued {args : List Handle} {is : List Int}
    (spelled : List.Forall₂ (fun k i => ctx.pool.Spells k (.int i)) args is) :
    Returns (args.mapM Theory.Integers.valued) ctx (args.zip (is.map some)) ctx := by
  induction spelled with
  | nil => rfl
  | cons first _ ih =>
    rw [List.mapM_cons]
    exact returns_bind (returns_valued first) (returns_bind ih rfl)

theorem literal_yields_spells (hc : ctx.Sound) (n : Int) :
    Yields (Theory.Integers.literal n) ctx fun r c => ∃ k, r = some k ∧ c.pool.Spells k (.int n) := by
  refine Yields.map ((intern_named_yields hc (n := .literal (.int n)) (List.forall_mem_nil _) trivial trivial).mono ?_)
  intro h c _ _ made
  obtain ⟨_, sign, node⟩ := made
  exact ⟨h, rfl, .int sign node⟩

/-- The functions of the integers are computed on integers. -/
theorem IntFunction.ints_of_compute {g : IntFunction} {xs : List Scalar} (h : g.compute xs = some y) :
    (∃ i, xs = [i].map .int) ∨ ∃ i j, xs = [i, j].map .int := by
  unfold compute at h
  split at h <;> first | exact .inl ⟨_, rfl⟩ | exact .inr ⟨_, _, rfl⟩ | cases h

/-- On literals a law computes. -/
theorem law_computes (hc : ctx.Sound) {g : IntFunction} {args : List Handle} {xs : List Scalar}
    (spelled : List.Forall₂ (fun k x => ctx.pool.Spells k x) args xs) (computed : g.compute xs = some y) :
    Yields (Theory.Integers.law g args) ctx fun r c => ∃ k, r = some k ∧ c.pool.Spells k y := by
  have decided : ∀ b : Bool, Yields (pure (some (Handle.ofBool b))) ctx
      fun r c => ∃ k, r = some k ∧ c.pool.Spells k (.bool b) := fun b => Yields.pure hc ⟨_, rfl, .bool b⟩
  have valued : ∀ {is : List Int}, xs = is.map .int → Yields (args.mapM Theory.Integers.valued) ctx
      fun as c => as = args.zip (is.map some) ∧ ctx = c := by
    rintro is rfl
    exact ⟨_, ctx, returns_mapM_valued (List.forall₂_map_right_iff.mp spelled), .refl ctx, hc, rfl, rfl⟩
  have length := spelled.length_eq
  unfold Theory.Integers.law
  rcases IntFunction.ints_of_compute computed with ⟨i, rfl⟩ | ⟨i, j, rfl⟩
  · obtain ⟨a, rfl⟩ := List.length_eq_one_iff.mp length
    refine (valued rfl).bind ?_
    rintro _ _ _ _ ⟨rfl, rfl⟩
    cases g with
    | neg =>
      cases computed
      exact literal_yields_spells hc _
    | _ => cases computed
  · obtain ⟨a, b, rfl⟩ := List.length_eq_two.mp length
    refine (valued rfl).bind ?_
    rintro _ _ _ _ ⟨rfl, rfl⟩
    cases g with
    | plus | minus | mul =>
      cases computed
      exact literal_yields_spells hc _
    | div =>
      obtain ⟨divisor, same⟩ := Option.ite_none_left_eq_some.mp computed
      cases same
      have law : Theory.Integers.divLaw [(a, some i), (b, some j)] = Theory.Integers.literal (i.tdiv j) := by
        simp [Theory.Integers.divLaw]
      exact law ▸ literal_yields_spells hc _
    | rem =>
      obtain ⟨divisor, same⟩ := Option.ite_none_left_eq_some.mp computed
      cases same
      have law : Theory.Integers.remLaw [(a, some i), (b, some j)] = Theory.Integers.literal (i.tmod j) := by
        simp [Theory.Integers.remLaw]
      exact law ▸ literal_yields_spells hc _
    | neg => cases computed
    | lt | le =>
      cases computed
      exact decided _

/-! ## Constructors on literals -/

theorem Pool.Spells.has (hp : p.Sound) (s : p.Spells k x) : p.Has k := (s.closed hp).has

theorem Pool.Spells.weight (hp : p.Sound) (s : p.Spells k x) : p.weight k = 1 := by
  cases s with
  | int sign node => exact Pool.weight_eq hp node
  | bool b =>
    cases b with
    | true => exact Pool.weight_tt hp
    | false => exact Pool.weight_ff hp

theorem Pool.Spells.unique (hp : p.Sound) (s : p.Spells a x) (t : p.Spells b x) : a = b := by
  cases s with
  | int sign node =>
    cases t with
    | int sign' node' => exact hp.eq_of_node node node' (sign.trans sign'.symm)
  | bool e =>
    cases t with
    | bool e => rfl

/-- Literals of different numbers are told apart. -/
theorem equation_ints (hp : p.Sound) {i j : Int} (left : p.Spells a (.int i)) (right : p.Spells b (.int j)) :
    Returns (PoolM.equation a b) p (.ofBool (i = j)) p := by
  by_cases same : i = j
  · subst same
    obtain rfl := left.unique hp right
    unfold PoolM.equation
    rw [if_pos rfl, decide_eq_true rfl]
    rfl
  · rw [decide_eq_false same]
    cases left with
    | int signa nodea =>
      cases right with
      | int signb nodeb =>
        have differ : a ≠ b := by
          rintro rfl
          cases nodea.symm.trans nodeb
          exact same rfl
        have opposed : a ≠ -b := by
          rintro rfl
          simp [signb] at signa
        have apart : ∀ {k : Handle} {n : Int}, p.node? k = some (.literal (.int n)) → k ≠ .tt ∧ k ≠ .ff := by
          refine fun node => ⟨?_, ?_⟩ <;>
          · rintro rfl
            cases hp.truth.symm.trans node
        obtain ⟨la, q, first, _, _, rfl, isa⟩ := isLiteral_yields hp (Pool.has_of_node nodea)
        obtain ⟨lb, q, second, _, _, rfl, isb⟩ := isLiteral_yields hp (Pool.has_of_node nodeb)
        cases isa.mpr ⟨signa, _, nodea⟩
        cases isb.mpr ⟨signb, _, nodeb⟩
        unfold PoolM.equation
        rw [if_neg differ, if_neg opposed, if_neg (apart nodea).1, if_neg (apart nodeb).1, if_neg (apart nodea).2,
          if_neg (apart nodeb).2]
        exact returns_bind first (returns_bind second rfl)

theorem equation_bools (d e : Bool) : Returns (PoolM.equation (.ofBool d) (.ofBool e)) p (.ofBool (d = e)) p := by
  cases d <;> cases e <;> rfl

/-- An equation of two spelled-out values comes out as the constant that compares them. -/
theorem equation_spells (hp : p.Sound) {v : Value} (left : p.Spells a x) (right : p.Spells b y)
    (same : Value.same? (.scalar x) (.scalar y) = some v) :
    ∃ e : Bool, v = .bool e ∧ Returns (PoolM.equation a b) p (.ofBool e) p := by
  cases left with
  | @int a i sign node =>
    cases right with
    | @int b j sign' node' =>
      refine ⟨i = j, ?_, equation_ints hp (.int sign node) (.int sign' node')⟩
      simpa [Value.same?, Value.isBool] using same.symm
    | bool e => simp [Value.same?, Value.isBool] at same
  | bool d =>
    cases right with
    | int sign' node' => simp [Value.same?, Value.isBool] at same
    | bool e =>
      refine ⟨d = e, ?_, equation_bools d e⟩
      simpa [Value.same?, Value.isBool] using same.symm

/-- A join with the absorbing constant among its operands is that constant. -/
theorem join_absorbing (hp : p.Sound) {c : Connective} {items : List Handle} (has : ∀ h ∈ items, p.Has h)
    (there : c.absorbing ∈ items) (ret : Returns (PoolM.join c items) p k p') : k = c.absorbing := by
  obtain ⟨steps, run⟩ := returns_joinWithin ret
  -- No operands can be left to go on with: what is neither neutral nor taken apart is kept, but not this one.
  have none_ : ∀ {flat}, ¬ Flattened p c items flat := by
    intro flat f
    rcases f.kept _ there with neutral | kept | ⟨inner, hn, _⟩
    · exact c.absorbing_ne_neutral neutral
    · exact (f.apart _ kept).ne_absorbing c rfl
    · have truth : p.node? c.absorbing = some .truth := c.dual_neutral ▸ Pool.node?_neutral hp c.dual
      cases truth.symm.trans hn
  cases joinStep hp has run with
  | absorbed result _ _ => exact result
  | empty _ _ flat => exact absurd flat none_
  | single flat _ => exact absurd flat none_
  | node flat _ => exact absurd flat none_
  | drop flat _ _ => exact absurd flat none_
  | shrink flat _ _ _ _ _ _ => exact absurd flat none_

/-- A join of neutral constants is the neutral constant. -/
theorem join_neutral (hp : p.Sound) {c : Connective} {items : List Handle} (all : ∀ h ∈ items, h = c.neutral)
    (ret : Returns (PoolM.join c items) p k p') : k = c.neutral := by
  obtain ⟨steps, run⟩ := returns_joinWithin ret
  have has : ∀ h ∈ items, p.Has h := fun h hh => all h hh ▸ Pool.has_of_node (Pool.node?_neutral hp c)
  have none_ : ∀ {x flat}, Flattened p c items flat → x ∉ flat := by
    intro x flat f hx
    rcases f.origin x hx with here | ⟨h, hh, inner, hn, _⟩
    · exact (f.apart x hx).ne_neutral c (all x here)
    · obtain rfl := all h hh
      cases (Pool.node?_neutral hp c).symm.trans hn
  cases joinStep hp has run with
  | absorbed result _ decided =>
    rcases decided with there | ⟨flat, f, x, hx, _⟩
    · exact absurd (all _ there) c.absorbing_ne_neutral
    · exact absurd hx (none_ f)
  | empty result _ _ => exact result
  | single flat _ => exact absurd (List.mem_singleton_self k) (none_ flat)
  | @node ops flat made =>
    obtain ⟨_, hn, _⟩ := returns_intern made
    have many : 2 ≤ ops.length := Pool.Flat.many ((joinWithin_joined hp has run).2.1.formed hn)
    obtain ⟨x, hx⟩ := List.exists_mem_of_length_pos (by omega : 0 < ops.length)
    exact absurd hx (none_ flat)
  | @drop before after h flat _ _ => exact absurd (List.mem_append_right before List.mem_cons_self) (none_ flat)
  | @shrink before after _ _ h _ _ flat _ _ _ _ _ _ =>
    exact absurd (List.mem_append_right before List.mem_cons_self) (none_ flat)

theorem mergeBranches_refuted {merged bs : List Branch} (refuted : ∀ b ∈ bs, b.1 = .ff) :
    Returns (PoolM.mergeBranches merged bs) p merged p := by
  induction bs with
  | nil => rfl
  | cons b bs ih =>
    unfold PoolM.mergeBranches
    rw [if_pos (refuted b List.mem_cons_self)]
    exact ih fun b hb => refuted b (List.mem_cons_of_mem _ hb)

theorem choice_of_true {bs cs : List Branch} {v : Handle} (others : ∀ b ∈ bs ++ cs, b.1 = .ff) :
    Returns (PoolM.choice (bs ++ (.tt, v) :: cs)) p v p := by
  have merged : Returns (PoolM.mergeBranches [] (bs ++ (.tt, v) :: cs)) p [(.tt, v)] p := by
    induction bs with
    | nil => exact returns_bind (addBranch_new (by simp)) (mergeBranches_refuted others)
    | cons b bs ih =>
      show Returns (PoolM.mergeBranches [] (b :: (bs ++ (.tt, v) :: cs))) p [(.tt, v)] p
      unfold PoolM.mergeBranches
      rw [if_pos (others b (by simp))]
      exact ih fun b hb => others b (List.mem_cons_of_mem _ hb)
  cases bs with
  | nil => exact returns_bind merged rfl
  | cons b bs => exact returns_bind merged rfl

/-! ## Simplification -/

def Computed (M : Meaning) (p : Pool) (h k : Handle) (ctx : Context) : Prop :=
  ctx.Has k ∧ ∀ v, p.eval M h = some v → ∃ x, v = .scalar x ∧ ctx.pool.Spells k x

theorem Computed.later (later : ctx.Later ctx') (computed : Computed M p h k ctx) : Computed M p h k ctx' := by
  refine ⟨later.extends.has computed.1, fun v value => ?_⟩
  obtain ⟨x, scalar, spells⟩ := computed.2 v value
  exact ⟨x, scalar, spells.extends later.pool.nodes⟩

theorem Computed.holds {e : Bool} (computed : Computed M p h k ctx) (holds : p.holds M h = some e) : k = .ofBool e := by
  obtain ⟨x, scalar, spells⟩ := computed.2 _ (Pool.holds_eq_some.mp holds)
  cases scalar
  cases spells
  rfl

/-- Operands that have values become their literals. -/
theorem spelled_of_computed {args ks : List Handle} {xs : List Scalar}
    (computed : List.Forall₂ (fun a k => Computed M p a k ctx) args ks)
    (evals : args.mapM (p.eval M) = some (xs.map .scalar)) : List.Forall₂ (fun k x => ctx.pool.Spells k x) ks xs := by
  induction computed generalizing xs with
  | nil =>
    cases List.map_eq_nil_iff.mp (mapM_nil_eq_some.mp evals)
    exact .nil
  | cons first _ ih =>
    obtain ⟨v, vs, value, others, same⟩ := mapM_cons_eq_some.mp evals
    obtain ⟨x, xs, rfl, rfl, rfl⟩ := List.map_eq_cons_iff.mp same
    obtain ⟨_, scalar, spells⟩ := first.2 _ value
    cases scalar
    exact .cons spells (ih others)

theorem light_children (hc : ctx.Sound) {n : Node} (hn : ctx.pool.node? h = some n) {bound : Nat}
    (le : ctx.weight h ≤ bound + 1) : ∀ a ∈ n.children, ctx.weight a ≤ bound := by
  intro a ha
  have weight : ctx.weight h = n.weight ctx.weight := Pool.weight_eq hc.pool hn
  have := Node.weight_child_lt ctx.weight ha
  omega

structure Calculates (M : Meaning) (ctx : Context) : Prop where
  reliable : ctx.Reliable
  installed : Theory.integers ∈ ctx.theories
  meaning : M.Arithmetic ctx

theorem Calculates.later (calc_ : Calculates M ctx) (later : ctx.Later ctx') (hc : ctx'.Reliable) : Calculates M ctx' :=
  ⟨hc, later.theories ▸ calc_.installed, calc_.meaning.extends later.extends⟩

theorem rewrite_computes (at_ : Calculates M ctx) {g : IntFunction} {f : SymbolId} {args : List Handle}
    {xs : List Scalar} (names : ctx.Names (.integer g) f)
    (spelled : List.Forall₂ (fun k x => ctx.pool.Spells k x) args xs)
    (computed : g.compute xs = some y) :
    Uniform (ContextM.rewrite f args) ctx fun r c => ∃ k, r = some k ∧ c.pool.Spells k y := by
  refine Uniform.steady (rewrite_straight f args).toSteady at_.reliable ?_
  obtain ⟨r, c, ret, rest⟩ := law_computes at_.reliable.sound spelled computed
  have law : Theory.integers.rewrite g.decl.name args = Theory.Integers.law g args := by cases g <;> rfl
  exact ⟨r, c, (names.rewrite_run at_.installed args).trans (law ▸ ret), rest⟩

def Computes (M : Meaning) (simplify : Handle → ContextM Handle) (bound : Nat) : Prop :=
  ∀ {ctx : Context} {h : Handle}, Calculates M ctx → ctx.pool.Closed h → ctx.weight h ≤ bound →
    Uniform (simplify h) ctx fun k c => Computed M ctx.pool h k c

section Rebuilt

variable {simplify : Handle → ContextM Handle} {bound : Nat} (hs : Computes M simplify bound) (at_ : Calculates M ctx)

include hs at_

theorem computes_later (closed : ctx.pool.Closed h) (le : ctx.weight h ≤ bound) (later : ctx.Later ctx')
    (hc : ctx'.Reliable) : Uniform (simplify h) ctx' fun k c => Computed M ctx.pool h k c := by
  have sound := at_.reliable.sound
  have le' : ctx'.weight h ≤ bound := by
    rw [weight_extends sound later.extends closed.has]
    exact le
  refine (hs (at_.later later hc) (closed.extends later.pool.nodes) le').mono fun k c _ _ computed => ?_
  have same : ctx'.pool.eval M h = ctx.pool.eval M h := Pool.eval_extends sound.pool later.pool.nodes closed.has
  unfold Computed at computed
  rwa [same] at computed

theorem mapM_computes {args : List Handle} (closed : ∀ a ∈ args, ctx.pool.Closed a)
    (le : ∀ a ∈ args, ctx.weight a ≤ bound) :
    Uniform (args.mapM simplify) ctx fun ks c => List.Forall₂ (fun a k => Computed M ctx.pool a k c) args ks := by
  refine Uniform.mapM (P := fun a k c => Computed M ctx.pool a k c) args at_.reliable ?_ fun a ha c later hc => ?_
  · exact fun later _ computed => computed.later later
  · exact computes_later hs at_ (closed a ha) (le a ha) later hc

theorem branches_compute {bs : List Branch} (closed : ∀ a ∈ (Node.summary bs).children, ctx.pool.Closed a)
    (le : ∀ a ∈ (Node.summary bs).children, ctx.weight a ≤ bound) :
    Uniform (bs.mapM fun (b : Branch) => do
      let g ← simplify b.1
      let v ← simplify b.2
      return (g, v)) ctx fun bs' c => List.Forall₂ (fun b (b' : Branch) =>
        Computed M ctx.pool b.1 b'.1 c ∧ Computed M ctx.pool b.2 b'.2 c) bs bs' := by
  refine Uniform.mapM (P := fun b (b' : Branch) c => Computed M ctx.pool b.1 b'.1 c ∧ Computed M ctx.pool b.2 b'.2 c)
    bs at_.reliable ?_ fun b hb c later hc => ?_
  · exact fun later _ computed => ⟨computed.1.later later, computed.2.later later⟩
  · obtain ⟨guard, value⟩ := Node.mem_children_summary hb
    refine (computes_later hs at_ (closed _ guard) (le _ guard) later hc).bind fun g c₁ later₁ hc₁ first => ?_
    refine (computes_later hs at_ (closed _ value) (le _ value) (later.trans later₁) hc₁).bind
      fun v c₂ later₂ hc₂ second => ?_
    exact Uniform.pure hc₂ ⟨first.later later₂, second⟩

variable (sign : h.negated = false) (le : ctx.weight h ≤ bound + 1) {v : Value} (value : ctx.pool.eval M h = some v)

include sign le value

theorem rebuild_app_computes {f : SymbolId} {args : List Handle} (hn : ctx.pool.node? h = some (.app f args))
    (closed : ∀ a ∈ args, ctx.pool.Closed a) :
    Uniform (rebuild simplify h (.app f args)) ctx fun k c => ∃ x, v = .scalar x ∧ c.pool.Spells k x := by
  have sound := at_.reliable.sound
  have light : ∀ a ∈ args, ctx.weight a ≤ bound := light_children sound hn le
  rw [Pool.eval_node sound.pool hn sign] at value
  obtain ⟨xs, evals, applied⟩ := Option.bind_eq_some_iff.mp value
  obtain ⟨g, ys, y, names, rfl, computed, rfl⟩ := at_.meaning.others applied
  refine (mapM_computes hs at_ closed light).bind fun args' c later hc all => ?_
  have spelled := spelled_of_computed all evals
  have at₁ := at_.later later hc
  refine (rewrite_computes at₁ (later.symbols.get names) spelled computed).bind ?_
  rintro r c₂ later₂ hc₂ ⟨k, rfl, spells⟩
  have positive : 1 ≤ bound := by
    obtain ⟨a, ha⟩ : ∃ a, a ∈ args := by
      refine List.exists_mem_of_length_pos ?_
      rw [← length_of_mapM evals]
      rcases IntFunction.ints_of_compute computed with ⟨i, rfl⟩ | ⟨i, j, rfl⟩ <;> simp
    exact Nat.le_trans (Pool.weight_pos sound.pool (closed a ha).has) (light a ha)
  have small : c₂.weight k ≤ bound := by
    rw [show c₂.weight k = 1 from spells.weight hc₂.sound.pool]
    exact positive
  refine (hs (at₁.later later₂ hc₂) (spells.closed hc₂.sound.pool) small).mono fun k' c₃ _ _ result => ?_
  exact result.2 _ (spells.eval hc₂.sound.pool)

theorem rebuild_junction_computes {c : Connective} {items : List Handle}
    (hn : ctx.pool.node? h = some (.junction c items)) (closed : ∀ a ∈ items, ctx.pool.Closed a) :
    Uniform (rebuild simplify h (.junction c items)) ctx fun k c => ∃ x, v = .scalar x ∧ c.pool.Spells k x := by
  have sound := at_.reliable.sound
  have light : ∀ a ∈ items, ctx.weight a ≤ bound := light_children sound hn le
  rw [Pool.eval_node sound.pool hn sign] at value
  obtain ⟨e, outcome, rfl⟩ := Option.map_eq_some_iff.mp value
  refine (mapM_computes hs at_ closed light).bind fun items' c₁ later hc all => ?_
  have has : ∀ k ∈ items', c₁.Has k := by
    intro k hk
    obtain ⟨_, _, computed⟩ := Related.exists_left all hk
    exact computed.1
  refine (join_uniform hc c has).returned.mono fun k c₂ _ _ joined => ⟨.bool e, rfl, ?_⟩
  obtain ⟨p, run, rfl⟩ := returns_onPool.mp joined.1
  have result : k = .ofBool e := by
    by_cases decided : e = c.decisive
    · subst decided
      obtain ⟨a, ha, holds⟩ := List.mem_map.mp (Connective.value_decisive.mp outcome)
      obtain ⟨k', hk', computed⟩ := Related.exists_right all ha
      have absorbing : k' = c.absorbing := (computed.holds holds).trans (by cases c <;> rfl)
      rw [join_absorbing hc.sound.pool has (absorbing ▸ hk') run]
      cases c <;> rfl
    · obtain rfl : e = !c.decisive := Bool.eq_not_of_ne decided
      have neutral : ∀ k ∈ items', k = c.neutral := by
        intro k hk
        obtain ⟨a, ha, computed⟩ := Related.exists_left all hk
        have holds := Connective.value_other.mp outcome _ (List.mem_map_of_mem ha)
        exact (computed.holds holds).trans (by cases c <;> rfl)
      rw [join_neutral hc.sound.pool neutral run]
      cases c <;> rfl
  exact result ▸ .bool e

theorem rebuild_eq_computes (hn : ctx.pool.node? h = some (.eq a b)) (ha : ctx.pool.Closed a) (hb : ctx.pool.Closed b) :
    Uniform (rebuild simplify h (.eq a b)) ctx fun k c => ∃ x, v = .scalar x ∧ c.pool.Spells k x := by
  have sound := at_.reliable.sound
  have light := light_children sound hn le
  rw [Pool.eval_node sound.pool hn sign] at value
  obtain ⟨u, w, left, right, same⟩ := Pool.same_eq_some.mp value
  refine (hs at_ ha (light a (by simp [Node.children]))).bind fun a' c₁ later₁ hc₁ first => ?_
  refine (computes_later hs at_ hb (light b (by simp [Node.children])) later₁ hc₁).bind
    fun b' c₂ later₂ hc₂ second => ?_
  obtain ⟨x, rfl, spellsA⟩ := (first.later later₂).2 u left
  obtain ⟨y, rfl, spellsB⟩ := second.2 w right
  have pool := hc₂.sound.pool
  obtain ⟨e, rfl, equated⟩ := equation_spells pool spellsA spellsB same
  refine (equation_uniform hc₂ (spellsA.has pool) (spellsB.has pool)).returned.mono fun k c _ _ made => ?_
  obtain ⟨rfl, _⟩ := returns_unique (returns_onPool.mpr ⟨_, equated, rfl⟩) made.1
  exact ⟨.bool e, rfl, .bool e⟩

theorem rebuild_summary_computes {bs : List Branch} (hn : ctx.pool.node? h = some (.summary bs))
    (closed : ∀ a ∈ (Node.summary bs).children, ctx.pool.Closed a) :
    Uniform (rebuild simplify h (.summary bs)) ctx fun k c => ∃ x, v = .scalar x ∧ c.pool.Spells k x := by
  have sound := at_.reliable.sound
  have light := light_children sound hn le
  have each := branches_compute hs at_ closed light
  rw [Pool.eval_summary sound.pool hn sign] at value
  obtain ⟨l', r', split, others⟩ := pick_eq_some.mp value
  obtain ⟨l, rest, rfl, rfl, last⟩ := List.map_eq_append_iff.mp split
  obtain ⟨b, r, rfl, branch, rfl⟩ := List.map_eq_cons_iff.mp last
  obtain ⟨guard, taken⟩ := Prod.mk.inj branch
  refine each.bind fun bs' c₁ later hc all => ?_
  have has : c₁.pool.HasAll bs' := by
    intro b' hb'
    obtain ⟨_, _, first, second⟩ := Related.exists_left all hb'
    exact ⟨first.1, second.1⟩
  obtain ⟨left, rest, rfl, before, last⟩ := Related.of_append all
  obtain ⟨⟨g, k⟩, right, ⟨first, second⟩, after, rfl⟩ := List.forall₂_cons_left_iff.mp last
  obtain rfl : g = .tt := first.holds guard
  obtain ⟨x, rfl, spells⟩ := second.2 v taken
  have refuted : ∀ b' ∈ left ++ right, b'.1 = .ff := by
    intro b' hb'
    obtain ⟨b, hb, computed⟩ : ∃ b ∈ l ++ r, Computed M ctx.pool b.1 b'.1 c₁ := by
      rcases List.mem_append.mp hb' with hb' | hb'
      · obtain ⟨b, hb, computed, _⟩ := Related.exists_left before hb'
        exact ⟨b, List.mem_append_left _ hb, computed⟩
      · obtain ⟨b, hb, computed, _⟩ := Related.exists_left after hb'
        exact ⟨b, List.mem_append_right _ hb, computed⟩
    rw [← List.map_append] at others
    exact computed.holds (others _ (List.mem_map_of_mem hb))
  refine (choice_uniform hc has).returned.mono fun k' c₂ later₂ _ made => ⟨x, rfl, ?_⟩
  obtain ⟨ret, _⟩ := made
  obtain ⟨rfl, _⟩ := returns_unique (returns_onPool.mpr ⟨_, choice_of_true refuted, rfl⟩) ret
  exact spells.extends later₂.pool.nodes

/-- Rebuilding a closed node from simplified operands spells out its value. -/
theorem rebuild_computes {n : Node} (hn : ctx.pool.node? h = some n) (closed : ctx.pool.Closed h) :
    Uniform (rebuild simplify h n) ctx fun k c => ∃ x, v = .scalar x ∧ c.pool.Spells k x := by
  have children := closed.child hn
  have hc := at_.reliable
  cases n with
  | truth =>
    obtain rfl : h = .tt := hc.sound.pool.eq_of_node hn hc.sound.pool.truth sign
    cases value.symm.trans (Pool.eval_tt hc.sound.pool)
    exact Uniform.pure hc ⟨.bool true, rfl, .bool true⟩
  | literal l =>
    obtain ⟨i, rfl⟩ := closed.int_of_literal hn
    have spells : ctx.pool.Spells h (.int i) := .int sign hn
    cases value.symm.trans (spells.eval hc.sound.pool)
    exact Uniform.pure hc ⟨.int i, rfl, spells⟩
  | symbol y => exact absurd hn closed.not_symbol
  | app f args => exact rebuild_app_computes hs at_ sign le value hn children
  | summary bs => exact rebuild_summary_computes hs at_ sign le value hn children
  | eq a b =>
    exact rebuild_eq_computes hs at_ sign le value hn (children a (by simp [Node.children]))
      (children b (by simp [Node.children]))
  | junction c items => exact rebuild_junction_computes hs at_ sign le value hn children

end Rebuilt

/-- The value of an expression, from that of the one without its sign. -/
theorem computed_signed (hp : p.Sound) {v : Value} (has : p.Has h) (value : p.eval M h = some v) {result : Handle}
    (regular : ∀ w, p.eval M h.regular = some w → ∃ x, w = .scalar x ∧ p'.Spells result x) :
    ∃ x, v = .scalar x ∧ p'.Spells (result.signed h.negated) x := by
  cases sign : h.negated with
  | false =>
    have same : h.regular = h := by rw [eq_signed_regular h, sign]; rfl
    exact regular v (same ▸ value)
  | true =>
    have same : h = -h.regular := by rw [eq_signed_regular h, sign]; rfl
    obtain ⟨e, rfl⟩ := Pool.isBool_of_negated hp has sign value
    have holds : p.holds M h.regular = some !e :=
      (Pool.holds_neg_eq_some hp (h := h.regular) has).mp (Pool.holds_eq_some.mpr (same ▸ value))
    obtain ⟨x, scalar, spells⟩ := regular _ (Pool.holds_eq_some.mp holds)
    cases scalar
    refine ⟨.bool e, rfl, ?_⟩
    rw [← Bool.not_not e]
    exact spells.neg

/-- Simplifying a closed expression that has a value gives its literal. -/
theorem plainWithin_computes (depth : Nat) : Computes M (plainWithin depth) depth := by
  induction depth with
  | zero =>
    intro ctx h at_ closed le
    have : 0 < ctx.weight h := Pool.weight_pos at_.reliable.sound.pool closed.has
    omega
  | succ depth ih =>
    intro ctx h at_ closed le
    have hc := at_.reliable
    have total : Uniform (plainWithin (depth + 1) h) ctx fun k c => c.Has k :=
      (Uniform.steady (plainWithin_steady _ h) hc (plainWithin_simplifies _ hc.sound closed.has le)).mono
        fun _ _ _ _ refined => refined.has
    refine ⟨total.reliable, total.later, fun {k c} ret => ⟨total.result ret, fun v value => ?_⟩, total.same⟩
    obtain ⟨n, hn⟩ := Pool.has_iff.mp closed.has
    have weight : ctx.weight h.regular = ctx.weight h :=
      (Pool.weight_eq hc.sound.pool (h := h.regular) hn).trans (Pool.weight_eq hc.sound.pool hn).symm
    obtain ⟨n', _, asked, ret⟩ := returns_of_bind ret
    obtain ⟨read, rfl⟩ := Prod.mk.inj ((asking_run _ ctx).symm.trans asked)
    cases (InternTable.value_eq_ok.mpr hn).symm.trans read
    obtain ⟨result, c', rebuilt, ret⟩ := returns_of_bind ret
    cases ret
    refine computed_signed hc.sound.pool closed.has value fun w value => ?_
    exact ((rebuild_computes ih at_ (regular_negated h) (by omega) value hn closed.regular).of_returns rebuilt).2

/-! ## Ground terms -/

theorem Ground.build_steady (t : Ground) : Steady t.build := by
  have all : ∀ ts : List Ground, (∀ t ∈ ts, Steady t.build) → Steady (buildAll ts) := by
    intro ts each
    induction ts with
    | nil => exact .pure _
    | cons t ts ih =>
      obtain ⟨first, rest⟩ := List.forall_mem_cons.mp each
      exact first.bind fun _ => (ih rest).bind fun _ => .pure _
  induction t using Ground.induction with
  | int n => exact intern_steady _
  | bool b => exact .pure _
  | apply f args ih => exact (all args ih).bind fun _ => (call_straight _ _).toSteady
  | equal a b iha ihb => exact iha.bind fun _ => ihb.bind fun _ => (equation_straight _ _).toSteady
  | not a ih => exact ih.bind fun _ => .pure _
  | join c operands ih => exact (all operands ih).bind fun _ => (join_straight _ _).toSteady
  | choose guarded ih =>
    refine Steady.bind ?_ fun _ => choice_steady _
    induction guarded with
    | nil => exact .pure _
    | cons b rest ih' =>
      obtain ⟨first, others⟩ := List.forall_mem_cons.mp ih
      exact first.1.bind fun _ => first.2.bind fun _ => (ih' others).bind fun _ => .pure _

/-- `k` is the handle that a number or a truth value has in `ctx`. -/
def Context.IsLiteral (ctx : Context) (k : Handle) : Scalar → Prop
  | .int n => Returns (ContextM.integer n) ctx k ctx
  | .bool b => k = .ofBool b
  | .ref _ => False

theorem Pool.Spells.isLiteral (hc : ctx.Sound) (s : ctx.pool.Spells k x) : ctx.IsLiteral k x := by
  cases s with
  | int sign node => exact returns_onPool.mpr ⟨ctx.pool, intern_found hc.pool.tidy sign node, rfl⟩
  | bool b => rfl

/-- A ground term in which no divisor is zero and every choice has exactly one true guard can be built, and
simplifying what was built gives the literal of its value, whatever is done in between. -/
theorem ground_terms_evaluate (reached : ctx.Reached) (installed : Theory.integers ∈ ctx.theories) {t : Ground}
    {x : Scalar} (value : t.value = some x) :
    ∃ h ctx₁, Returns t.build ctx h ctx₁ ∧ ∀ requests, ctx₁.Allows requests →
      ∃ k ctx₂, Returns (simplify h) (ctx₁.after requests) k ctx₂ ∧ ctx₂.IsLiteral k x := by
  have hc := reached.reliable
  obtain ⟨M, meaning⟩ := exists_arithmetic hc.sound (hc.sound.provides _ installed)
  have yields := t.build_yields hc.sound meaning value
  obtain ⟨h, ctx₁, ret, e₁, _, built⟩ := id yields
  refine ⟨h, ctx₁, ret, fun requests valid => ?_⟩
  have uniform := Uniform.steady t.build_steady hc yields
  have later₁ : ctx.Later ctx₁ := (t.build_steady.of_returns ret).later
  obtain ⟨later, reliable⟩ := Context.after_later (uniform.of_returns ret).1 valid
  generalize ctx₁.after requests = c at later reliable
  have at_ : Calculates M c := Calculates.later ⟨hc, installed, meaning⟩ (later₁.trans later) reliable
  have built := built.extends (uniform.of_returns ret).1.sound later.extends
  have light := Pool.weight_le_treeSize reliable.sound.pool built.closed.has
  obtain ⟨k, ref, plain, _, _, settled⟩ := simplify_settled reliable built.closed.has
  obtain ⟨_, scalar, spells⟩ :=
    ((plainWithin_computes _ at_ built.closed light).of_returns plain).2.2 _ (built.value x value)
  cases scalar
  obtain ⟨ctx₂, ret₂, reliable₂, alike⟩ := settled c reliable ⟨⟨rfl, rfl⟩, rfl, rfl⟩
  exact ⟨k, ctx₂, ret₂, (spells.extends alike.symm.later.pool.nodes).isLiteral reliable₂.sound⟩

/-- A choice between `0` under `3 < 2` and `(0 - 7) % 2` under `false || !(1 == 2)`. -/
def Ground.sample : Ground :=
  .choose [(.apply .lt [.int 3, .int 2], .int 0),
    (.join .disj [.bool false, .not (.equal (.int 1) (.int 2))],
      .apply .rem [.apply .minus [.int 0, .int 7], .int 2])]

/-- The remainder has the sign of the dividend. -/
theorem ground_terms_evaluate_remainder : oneSlot.Reached ∧ Ground.sample.value = some (.int (-1)) ∧
    ∃ h ctx₁ k ctx₂, Returns Ground.sample.build oneSlot h ctx₁ ∧ Returns (simplify h) ctx₁ k ctx₂ ∧
      Returns (ContextM.integer (-1)) ctx₂ k ctx₂ := by
  have reached : oneSlot.Reached := .intro [] create_oneSlot trivial
  have value : Ground.sample.value = some (.int (-1)) := by decide
  have installed : Theory.integers ∈ oneSlot.theories := by decide +kernel
  obtain ⟨h, ctx₁, built, rest⟩ := ground_terms_evaluate reached installed value
  obtain ⟨k, ctx₂, simplified, literal⟩ := rest [] trivial
  exact ⟨reached, value, h, ctx₁, k, ctx₂, built, simplified, literal⟩

end PathMerge
