/-
  PathMerge.Proofs.GroundTerms — ground terms, their values and what is built of them.

  A ground term is made of integers and truth values by arithmetic, comparison, equality, the connectives and guarded
  choices. It has a value when no divisor is zero and every choice has exactly one true guard (`Ground.value`).

  `Meaning.Arithmetic` is a meaning under which a division by zero has no value, and no function has one but those of
  the integers. What is built of a term that has a value is closed, that is no symbol occurs in it, and has this value
  (`Ground.build_yields`), although its nodes need not be those of the term: junctions are flattened and absorbed,
  branches with one value are merged.
-/

import PathMerge.Proofs.Connectives

namespace PathMerge

open Context ContextM

/-! ## Ground terms and their values -/

inductive Ground where
  | int (n : Int)
  | bool (b : Bool)
  | apply (f : IntFunction) (args : List Ground)
  | equal (a b : Ground)
  | not (a : Ground)
  | join (c : Connective) (operands : List Ground)
  /-- One of several values, each under its guard. -/
  | choose (guarded : List (Ground × Ground))

namespace Scalar

def truth? : Scalar → Option Bool
  | bool b => some b
  | _ => none

def equal? : Scalar → Scalar → Option Scalar
  | int a, int b => some (bool (a = b))
  | bool a, bool b => some (bool (a = b))
  | _, _ => none

end Scalar

/-- Division truncates toward zero, the remainder has the sign of the dividend; by zero there is neither. -/
def IntFunction.compute : IntFunction → List Scalar → Option Scalar
  | plus, [.int a, .int b] => some (.int (a + b))
  | minus, [.int a, .int b] => some (.int (a - b))
  | mul, [.int a, .int b] => some (.int (a * b))
  | div, [.int a, .int b] => if b = 0 then none else some (.int (a.tdiv b))
  | rem, [.int a, .int b] => if b = 0 then none else some (.int (a.tmod b))
  | neg, [.int a] => some (.int (-a))
  | lt, [.int a, .int b] => some (.bool (a < b))
  | le, [.int a, .int b] => some (.bool (a ≤ b))
  | _, _ => none

def onlyTrue (branches : List (Scalar × Scalar)) : Option Scalar :=
  match branches.filter (·.1 ≠ .bool false) with
  | [(.bool true, x)] => some x
  | _ => none

namespace Ground

mutual

def value : Ground → Option Scalar
  | int n => some (.int n)
  | bool b => some (.bool b)
  | apply f args => do f.compute (← values args)
  | equal a b => do (← a.value).equal? (← b.value)
  | not a => do return .bool !(← (← a.value).truth?)
  | join c operands => do return .bool (c.combine (← (← values operands).mapM Scalar.truth?))
  | choose guarded => do onlyTrue (← branchValues guarded)

def values : List Ground → Option (List Scalar)
  | [] => some []
  | t :: rest => do return (← t.value) :: (← values rest)

def branchValues : List (Ground × Ground) → Option (List (Scalar × Scalar))
  | [] => some []
  | (g, t) :: rest => do return (← g.value, ← t.value) :: (← branchValues rest)

end

mutual

/-- Build a term with the constructors of a context, operands from left to right. -/
def build : Ground → ContextM Handle
  | int n => ContextM.integer n
  | bool b => return .ofBool b
  | apply f args => do ContextM.arithmetic f (← buildAll args)
  | equal a b => do ContextM.equation (← a.build) (← b.build)
  | not a => do return -(← a.build)
  | join c operands => do ContextM.onPool (PoolM.join c (← buildAll operands))
  | choose guarded => do ContextM.choice (← buildBranches guarded)

def buildAll : List Ground → ContextM (List Handle)
  | [] => return []
  | t :: rest => do return (← t.build) :: (← buildAll rest)

def buildBranches : List (Ground × Ground) → ContextM (List Branch)
  | [] => return []
  | (g, t) :: rest => do return (← g.build, ← t.build) :: (← buildBranches rest)

end

/-- Induction in which the parts in a list are at hand. -/
@[elab_as_elim]
theorem induction {motive : Ground → Prop} (int : ∀ n, motive (int n)) (bool : ∀ b, motive (bool b))
    (apply : ∀ f args, (∀ t ∈ args, motive t) → motive (apply f args))
    (equal : ∀ a b, motive a → motive b → motive (equal a b)) (not : ∀ a, motive a → motive (not a))
    (join : ∀ c operands, (∀ t ∈ operands, motive t) → motive (join c operands))
    (choose : ∀ guarded, (∀ b ∈ guarded, motive b.1 ∧ motive b.2) → motive (choose guarded)) : ∀ t, motive t
  | .int n => int n
  | .bool b => bool b
  | .apply f args => apply f args fun t _ => induction int bool apply equal not join choose t
  | .equal a b => equal a b (induction int bool apply equal not join choose a)
      (induction int bool apply equal not join choose b)
  | .not a => not a (induction int bool apply equal not join choose a)
  | .join c operands => join c operands fun t _ => induction int bool apply equal not join choose t
  | .choose guarded => choose guarded fun b _ => ⟨induction int bool apply equal not join choose b.1,
      induction int bool apply equal not join choose b.2⟩
termination_by t => sizeOf t
decreasing_by
  all_goals first
    | decreasing_tactic
    | have below := List.sizeOf_lt_of_mem ‹b ∈ guarded›
      have parts : sizeOf b = 1 + sizeOf b.1 + sizeOf b.2 := by cases b; rfl
      simp_wf
      omega

theorem values_eq (l : List Ground) : values l = l.mapM value := by
  induction l with
  | nil => rfl
  | cons t rest ih => rw [values, ih, List.mapM_cons]

theorem buildAll_eq (l : List Ground) : buildAll l = l.mapM build := by
  induction l with
  | nil => rfl
  | cons t rest ih => rw [buildAll, ih, List.mapM_cons]

theorem branchValues_eq (l : List (Ground × Ground)) :
    branchValues l = l.mapM fun b => do return (← b.1.value, ← b.2.value) := by
  induction l with
  | nil => rfl
  | cons b rest ih =>
    rw [branchValues, ih, List.mapM_cons]
    simp only [bind_assoc, pure_bind]

theorem buildBranches_eq (l : List (Ground × Ground)) :
    buildBranches l = l.mapM fun b => do return (← b.1.build, ← b.2.build) := by
  induction l with
  | nil => rfl
  | cons b rest ih =>
    rw [buildBranches, ih, List.mapM_cons]
    simp only [bind_assoc, pure_bind]

end Ground

/-! ## A meaning without division by zero -/

def Value.scalar? : Value → Option Scalar
  | scalar a => some a
  | _ => none

def Symbol.compute (s : Symbol) (xs : List Value) : Option Value :=
  match s.kind with
  | .function _ owner =>
    match operationOf? owner s.name with
    | some (.integer g) => ((xs.mapM Value.scalar?).bind g.compute).map .scalar
    | _ => none
  | _ => none

structure Meaning.Arithmetic (M : Meaning) (ctx : Context) : Prop where
  functions : ∀ g, ∃ f, ctx.Names (.integer g) f ∧ ∀ xs : List Scalar,
    M.apply f (xs.map .scalar) = (g.compute xs).map .scalar
  others : ∀ {f xs x}, M.apply f xs = some x → ∃ g ys y, ctx.Names (.integer g) f ∧ xs = ys.map .scalar ∧
    g.compute ys = some y ∧ x = .scalar y

namespace Meaning.Arithmetic

variable {M : Meaning} {ctx ctx' : Context}

theorem «extends» (e : ctx.Extends ctx') (ar : M.Arithmetic ctx) : M.Arithmetic ctx' := by
  refine ⟨fun g => ?_, fun h => ?_⟩
  · obtain ⟨f, names, value⟩ := ar.functions g
    exact ⟨f, e.symbols.get names, value⟩
  · obtain ⟨g, ys, y, names, rest⟩ := ar.others h
    exact ⟨g, ys, y, e.symbols.get names, rest⟩

theorem provides (ar : M.Arithmetic ctx) : ctx.symbols.Provides .integers := by
  intro op owned
  cases op with
  | integer g =>
    obtain ⟨f, names, _⟩ := ar.functions g
    exact ⟨f, names⟩
  | memory g | location g => cases owned

theorem apply (hc : ctx.Sound) (ar : M.Arithmetic ctx) {g : IntFunction} {f : SymbolId}
    (names : ctx.Names (.integer g) f) (xs : List Scalar) :
    M.apply f (xs.map .scalar) = (g.compute xs).map .scalar := by
  obtain ⟨f', names', value⟩ := ar.functions g
  obtain rfl := names.unique hc names'
  exact value xs

end Meaning.Arithmetic

theorem mapM_eq_some_iff {α β : Type} {f : α → Option β} {l : List α} {ys : List β} :
    l.mapM f = some ys ↔ List.Forall₂ (fun a b => f a = some b) l ys := by
  induction l generalizing ys with
  | nil => rw [mapM_nil_eq_some, List.forall₂_nil_left_iff]
  | cons a l ih =>
    rw [mapM_cons_eq_some, List.forall₂_cons_left_iff]
    simp only [ih]

theorem mapM_scalar? {xs : List Value} {ys : List Scalar} :
    xs.mapM Value.scalar? = some ys ↔ xs = ys.map .scalar := by
  have one : ∀ x y, Value.scalar? x = some y ↔ x = .scalar y := by
    intro x y
    cases x <;> simp [Value.scalar?]
  simp only [mapM_eq_some_iff, one, ← List.forall₂_map_right_iff (f := Value.scalar) (R := Eq), List.forall₂_eq_eq_eq]

theorem name_of_operation {owner name : String} {g : IntFunction} (h : operationOf? owner name = some (.integer g)) :
    name = g.decl.name := by
  obtain ⟨t, _, h⟩ := Option.bind_eq_some_iff.mp h
  cases t with
  | integers =>
    obtain ⟨g', found, same⟩ := Option.map_eq_some_iff.mp h
    cases same
    have called := List.find?_some found
    exact (eq_of_beq called).symm
  | heap | locations =>
    obtain ⟨_, _, same⟩ := Option.map_eq_some_iff.mp h
    cases same

/-- There is such a meaning. -/
theorem exists_arithmetic {ctx : Context} (hc : ctx.Sound) (provided : ctx.symbols.Provides .integers) :
    ∃ M : Meaning, M.Arithmetic ctx := by
  refine ⟨⟨fun _ => .int 0, fun f xs => (ctx.symbols.get? f).bind fun s => s.compute xs⟩, fun g => ?_, ?_⟩
  · obtain ⟨f, names⟩ := provided (.integer g) rfl
    refine ⟨f, names, fun xs => ?_⟩
    have known : operationOf? Theory.integers.name g.decl.name = some (.integer g) := operationOf?_decl (.integer g)
    show (ctx.symbols.get? f).bind _ = _
    rw [names]
    show (match operationOf? Theory.integers.name g.decl.name with
      | some (.integer g) => (((xs.map Value.scalar).mapM Value.scalar?).bind g.compute).map Value.scalar
      | _ => none) = _
    rw [known, mapM_scalar?.mpr rfl]
    rfl
  · intro f xs x h
    obtain ⟨⟨name, sort, kind⟩, hs, h⟩ := Option.bind_eq_some_iff.mp h
    unfold Symbol.compute at h
    split at h
    · rename_i arity owner same
      obtain rfl : kind = .function arity owner := same
      split at h
      · rename_i g known
        obtain rfl : name = g.decl.name := name_of_operation known
        obtain ⟨y, computed, rfl⟩ := Option.map_eq_some_iff.mp h
        obtain ⟨ys, scalars, computed⟩ := Option.bind_eq_some_iff.mp computed
        have provided : ctx.symbols.Provides (Operation.integer g).theory := provided
        have names : ctx.Names (.integer g) f := hc.names_of_name provided hs
        exact ⟨g, ys, y, names, mapM_scalar?.mp scalars, computed, rfl⟩
      · cases h
    · cases h

/-! ## Closed expressions and literals -/

namespace Pool

variable {p p' : Pool} {M : Meaning} {h k : Handle} {n : Node}

/-- No symbol occurs in the expression, and no literals but integers. -/
inductive Closed (p : Pool) : Handle → Prop
  | intro {h : Handle} {n : Node} (node : p.node? h = some n) (children : ∀ c ∈ n.children, Closed p c)
      (symbol : ∀ y, n ≠ .symbol y) (literal : ∀ l, n = .literal l → ∃ i, l = .int i) : Closed p h

namespace Closed

theorem has (closed : p.Closed h) : p.Has h := by
  obtain ⟨node, _, _, _⟩ := closed
  exact has_of_node node

theorem neg (closed : p.Closed h) : p.Closed (-h) := by
  obtain ⟨node, children, symbol, literal⟩ := closed
  exact .intro (h := -h) node children symbol literal

theorem regular (closed : p.Closed h) : p.Closed h.regular := by
  obtain ⟨node, children, symbol, literal⟩ := closed
  exact .intro (h := h.regular) node children symbol literal

theorem child (closed : p.Closed h) (hn : p.node? h = some n) : ∀ c ∈ n.children, p.Closed c := by
  obtain ⟨node, children, _, _⟩ := closed
  cases hn.symm.trans node
  exact children

theorem not_symbol {y : SymbolId} (closed : p.Closed h) : p.node? h ≠ some (.symbol y) := by
  obtain ⟨node, _, symbol, _⟩ := closed
  intro hn
  exact symbol y (Option.some.inj (node.symm.trans hn))

theorem int_of_literal {l : Literal} (closed : p.Closed h) (hn : p.node? h = some (.literal l)) : ∃ i, l = .int i := by
  obtain ⟨node, _, _, literal⟩ := closed
  exact literal l (Option.some.inj (node.symm.trans hn))

theorem «extends» (e : p.Extends p') (closed : p.Closed h) : p'.Closed h := by
  induction closed with
  | intro node _ symbol literal ih => exact .intro (e node) ih symbol literal

theorem tt (hp : p.Sound) : p.Closed .tt :=
  .intro hp.truth (List.forall_mem_nil _) (fun _ e => by cases e) fun _ e => by cases e

theorem ofBool (hp : p.Sound) (b : Bool) : p.Closed (.ofBool b) := by
  cases b with
  | true => exact tt hp
  | false => exact (tt hp).neg

theorem nest : Nest Closed where
  grows grown _ closed := closed.extends grown.nodes
  neg closed := closed.neg
  tt hp := tt hp
  operands closed hn := closed.child hn
  junction hn inside := .intro hn inside (fun _ e => by cases e) fun _ e => by cases e

end Closed

inductive Spells (p : Pool) : Handle → Scalar → Prop
  | int {k : Handle} {n : Int} (sign : k.negated = false) (node : p.node? k = some (.literal (.int n))) :
      Spells p k (.int n)
  | bool (b : Bool) : Spells p (.ofBool b) (.bool b)

namespace Spells

variable {x y : Scalar}

theorem «extends» (e : p.Extends p') (s : p.Spells k x) : p'.Spells k x := by
  cases s with
  | int sign node => exact .int sign (e node)
  | bool b => exact .bool b

theorem closed (hp : p.Sound) (s : p.Spells k x) : p.Closed k := by
  cases s with
  | int sign node =>
    refine .intro node (List.forall_mem_nil _) (fun _ e => by cases e) fun _ e => ?_
    cases e
    exact ⟨_, rfl⟩
  | bool b => exact .ofBool hp b

theorem eval (hp : p.Sound) (s : p.Spells k x) : p.eval M k = some (.scalar x) := by
  cases s with
  | int sign node => exact eval_node hp node sign
  | bool b =>
    cases b with
    | true => exact eval_tt hp
    | false => exact eval_ff hp

theorem neg {b : Bool} (s : p.Spells k (.bool b)) : p.Spells (-k) (.bool !b) := by
  cases s with
  | bool b =>
    cases b with
    | true => exact .bool false
    | false => exact .bool true

end Spells

end Pool

/-! ## Building -/

variable {M : Meaning} {ctx ctx' : Context} {a b h k : Handle}

theorem Scalar.same?_of_equal? {x y z : Scalar} (h : x.equal? y = some z) :
    Value.same? (.scalar x) (.scalar y) = some (.scalar z) := by
  cases x <;> cases y <;> cases h <;> simp [Value.same?, Value.isBool]

theorem IntFunction.length_of_compute {g : IntFunction} {xs : List Scalar} {y : Scalar} (h : g.compute xs = some y) :
    xs.length = g.decl.arity := by
  unfold compute at h
  split at h <;> first | rfl | cases h

/-- An action of the pool that stays among closed expressions. -/
theorem onPool_closed (hc : ctx.Sound) {x : PoolM Handle} {Q : Handle → Pool → Prop} (yields : Yields x ctx.pool Q)
    (closed : ∀ k p, Returns x ctx.pool k p → p.Closed k) :
    Yields (onPool x) ctx fun k c => c.pool.Closed k ∧ Q k c.pool := by
  obtain ⟨k, p, ret, e, hp, hQ⟩ := yields
  have both : Yields x ctx.pool fun k p => p.Closed k ∧ Q k p := ⟨k, p, ret, e, hp, closed k p ret, hQ⟩
  exact (onPool_yields hc both).mono fun _ _ _ _ h => h.2

theorem equation_closed {p p' : Pool} (hp : p.Sound) (ha : p.Closed a) (hb : p.Closed b)
    (ret : Returns (PoolM.equation a b) p k p') : p'.Closed k := by
  rcases equation_cases ret with ⟨result, rfl⟩ | made
  · simp only [List.mem_cons, List.not_mem_nil, or_false] at result
    rcases result with rfl | rfl | rfl | rfl | rfl | rfl
    exacts [.tt hp, (Pool.Closed.tt hp).neg, ha, hb, ha.neg, hb.neg]
  · obtain ⟨_, hn, grown⟩ := returns_intern made
    refine .intro hn (fun c hc => ?_) (fun _ e => by cases e) fun _ e => by cases e
    rcases List.mem_cons.mp hc with rfl | hc
    · exact ha.extends grown.nodes
    · exact List.mem_singleton.mp hc ▸ hb.extends grown.nodes

theorem choice_closed {p p' : Pool} (hp : p.Sound) {bs : List Branch}
    (inside : ∀ b ∈ bs, p.Closed b.1 ∧ p.Closed b.2) (ret : Returns (PoolM.choice bs) p k p') : p'.Closed k := by
  have has : p.HasAll bs := fun b hb => ⟨(inside b hb).1.has, (inside b hb).2.has⟩
  rcases choice_nest Pool.Closed.nest hp inside has ret with closed | ⟨made, hn, all⟩
  · exact closed
  · refine .intro hn (fun c hc => ?_) (fun _ e => by cases e) fun _ e => by cases e
    obtain ⟨b, hb, part⟩ := List.mem_flatMap.mp hc
    simp only [List.mem_cons, List.not_mem_nil, or_false] at part
    rcases part with rfl | rfl
    exacts [(all b hb).1, (all b hb).2]

structure Built (M : Meaning) (t : Ground) (h : Handle) (ctx : Context) : Prop where
  closed : ctx.pool.Closed h
  value : ∀ x, t.value = some x → ctx.pool.eval M h = some (.scalar x)

theorem Built.extends {t : Ground} (hc : ctx.Sound) (e : ctx.Extends ctx') (built : Built M t h ctx) :
    Built M t h ctx' := by
  refine ⟨built.closed.extends e.pool, fun x value => ?_⟩
  rw [Pool.eval_extends hc.pool e.pool built.closed.has]
  exact built.value x value

/-- The values of terms are those of what is built of them, one by one. -/
theorem built_values {ts : List Ground} {hs : List Handle} {xs : List Scalar}
    (built : List.Forall₂ (fun t h => Built M t h ctx) ts hs) (values : ts.mapM Ground.value = some xs) :
    hs.mapM (ctx.pool.eval M) = some (xs.map .scalar) := by
  induction built generalizing xs with
  | nil =>
    cases values
    rfl
  | cons first _ ih =>
    obtain ⟨x, rest, value, others, rfl⟩ := mapM_cons_eq_some.mp values
    rw [List.map_cons]
    exact mapM_cons_eq_some.mpr ⟨_, _, first.value x value, ih others, rfl⟩

theorem built_branchValues {ts : List (Ground × Ground)} {hs : List Branch} {xs : List (Scalar × Scalar)}
    (built : List.Forall₂ (fun t h => Built M t.1 h.1 ctx ∧ Built M t.2 h.2 ctx) ts hs)
    (values : Ground.branchValues ts = some xs) :
    List.Forall₂ (fun b x => ctx.pool.eval M b.1 = some (.scalar x.1) ∧ ctx.pool.eval M b.2 = some (.scalar x.2))
      hs xs := by
  rw [Ground.branchValues_eq] at values
  induction built generalizing xs with
  | nil =>
    cases values
    exact .nil
  | cons first _ ih =>
    obtain ⟨x, rest, both, others, rfl⟩ := mapM_cons_eq_some.mp values
    obtain ⟨g, guard, both⟩ := Option.bind_eq_some_iff.mp both
    obtain ⟨y, value, pair⟩ := Option.bind_eq_some_iff.mp both
    cases pair
    exact .cons ⟨first.1.value g guard, first.2.value y value⟩ (ih others)

theorem holds_of_evals {p : Pool} {hs : List Handle} {xs : List Scalar} {bs : List Bool}
    (evals : hs.mapM (p.eval M) = some (xs.map .scalar)) (truths : xs.mapM Scalar.truth? = some bs) :
    hs.map (p.holds M) = bs.map some := by
  induction hs generalizing xs bs with
  | nil =>
    cases List.map_eq_nil_iff.mp (mapM_nil_eq_some.mp evals)
    cases truths
    rfl
  | cons h hs ih =>
    obtain ⟨v, vs, value, others, same⟩ := mapM_cons_eq_some.mp evals
    obtain ⟨x, xs, rfl, rfl, rfl⟩ := List.map_eq_cons_iff.mp same
    obtain ⟨b, bs, truth, rest, rfl⟩ := mapM_cons_eq_some.mp truths
    rw [List.map_cons, List.map_cons, ih others rest]
    cases x <;> cases truth
    rw [Pool.holds_eq_some.mpr value]

/-- Of scalars the true guard is picked in the same way. -/
theorem pick_scalars (bs : List (Scalar × Scalar)) :
    pick (bs.map fun b => (b.1.truth?, some (.scalar b.2))) = (onlyTrue bs).map .scalar := by
  have same : ((fun b : Option Bool × Option Value => decide (b.1 ≠ some false)) ∘
      fun b : Scalar × Scalar => (b.1.truth?, some (Value.scalar b.2))) = fun b => decide (b.1 ≠ .bool false) := by
    funext ⟨g, x⟩
    cases g <;> simp [Scalar.truth?]
  unfold pick onlyTrue
  rw [List.filter_map, same]
  generalize bs.filter (fun b => decide (b.1 ≠ .bool false)) = left
  rcases left with _ | ⟨⟨g, x⟩, _ | ⟨c, rest⟩⟩
  · rfl
  · rcases g with b | _ | _
    · cases b <;> rfl
    · rfl
    · rfl
  · simp

theorem branches_of_evals {p : Pool} {hs : List Branch} {xs : List (Scalar × Scalar)}
    (values : List.Forall₂ (fun b x => p.eval M b.1 = some (.scalar x.1) ∧ p.eval M b.2 = some (.scalar x.2)) hs xs) :
    p.branches M hs = xs.map fun b => (b.1.truth?, some (.scalar b.2)) := by
  induction values with
  | nil => rfl
  | @cons b x hs xs first _ ih =>
    have guard : p.holds M b.1 = x.1.truth? := by
      unfold Pool.holds
      rw [first.1]
      obtain ⟨g | _ | _, _⟩ := x <;> rfl
    show (p.holds M b.1, p.eval M b.2) :: p.branches M hs = _
    rw [ih, guard, first.2, List.map_cons]

namespace Ground

theorem buildAll_yields {ts : List Ground} {xs : List Scalar} (hc : ctx.Sound) (ar : M.Arithmetic ctx)
    (values : ts.mapM value = some xs)
    (each : ∀ t ∈ ts, ∀ c x, c.Sound → M.Arithmetic c → t.value = some x → Yields t.build c (Built M t)) :
    Yields (ts.mapM build) ctx fun hs c => List.Forall₂ (fun t h => Built M t h c) ts hs := by
  refine Yields.mapM (P := fun t h c => Built M t h c) ts ?_ hc fun t mem c e hc' => ?_
  · exact fun _ _ _ _ _ hc e _ built => built.extends hc e
  · obtain ⟨x, _, value⟩ := Related.exists_right (mapM_eq_some_iff.mp values) mem
    exact each t mem c x hc' (ar.extends e) value

theorem int_built (hc : ctx.Sound) (n : Int) : Yields (int n).build ctx (Built M (int n)) := by
  refine (intern_named_yields hc (n := .literal (.int n)) (List.forall_mem_nil _) trivial trivial).mono ?_
  intro h c _ hc' made
  obtain ⟨_, sign, node⟩ := made
  have spells : c.pool.Spells h (.int n) := .int sign node
  refine ⟨spells.closed hc'.pool, fun x value => ?_⟩
  cases value
  exact spells.eval hc'.pool

/-- Building an application from built arguments builds the value the function computes. -/
theorem apply_built (hc : ctx.Sound) (ar : M.Arithmetic ctx) {f : IntFunction} {args : List Ground} {hs : List Handle}
    {xs : List Scalar} {x : Scalar} (values : args.mapM value = some xs) (computed : f.compute xs = some x)
    (built : List.Forall₂ (fun t h => Built M t h ctx) args hs) :
    Yields (arithmetic f hs) ctx fun h c => c.pool.Closed h ∧ c.pool.eval M h = some (.scalar x) := by
  have closed : ∀ h ∈ hs, ctx.pool.Closed h := by
    intro h hh
    obtain ⟨_, _, built⟩ := Related.exists_left built hh
    exact built.closed
  have arity : hs.length = f.decl.arity := by
    rw [← IntFunction.length_of_compute computed, ← built.length_eq, length_of_mapM values]
  refine (call_yields hc (.integer f) ar.provides hs arity fun h hh => (closed h hh).has).mono ?_
  intro h c e hc' applies
  obtain ⟨g, names, node⟩ := applies.node
  refine ⟨.intro node (fun h hh => (closed h hh).extends e.pool) (fun _ e => by cases e) (fun _ e => by cases e), ?_⟩
  have evals : hs.mapM (c.pool.eval M) = some (xs.map .scalar) :=
    built_values (built.imp fun _ _ b => b.extends hc e) values
  rw [Pool.eval_node hc'.pool node applies.sign]
  show (hs.mapM (c.pool.eval M)).bind (M.apply g) = _
  rw [evals, Option.bind_some, (ar.extends e).apply hc' names, computed]
  rfl

theorem equal_built (hc : ctx.Sound) {t u : Ground} {x y z : Scalar} (tv : t.value = some x) (uv : u.value = some y)
    (equal : x.equal? y = some z) (left : Built M t a ctx) (right : Built M u b ctx) :
    Yields (equation a b) ctx fun h c => c.pool.Closed h ∧ c.pool.eval M h = some (.scalar z) := by
  refine (onPool_closed hc (PathMerge.equation_yields hc.pool left.closed.has right.closed.has)
    fun k p ret => equation_closed hc.pool left.closed right.closed ret).mono ?_
  intro h c _ _ made
  obtain ⟨closed, equated⟩ := made
  refine ⟨closed, equated.value M _ (Pool.same_eq_some.mpr ⟨_, _, left.value x tv, right.value y uv, ?_⟩)⟩
  exact Scalar.same?_of_equal? equal

/-- Building a junction from built operands builds the truth value they come to. -/
theorem join_built (hc : ctx.Sound) (c : Connective) {operands : List Ground} {hs : List Handle} {xs : List Scalar}
    {bs : List Bool} (values : operands.mapM value = some xs) (truths : xs.mapM Scalar.truth? = some bs)
    (built : List.Forall₂ (fun t h => Built M t h ctx) operands hs) :
    Yields (onPool (PoolM.join c hs)) ctx fun h c' =>
      c'.pool.Closed h ∧ c'.pool.eval M h = some (.bool (c.combine bs)) := by
  have closed : ∀ h ∈ hs, ctx.pool.Closed h := by
    intro h hh
    obtain ⟨_, _, built⟩ := Related.exists_left built hh
    exact built.closed
  have has : ∀ h ∈ hs, ctx.pool.Has h := fun h hh => (closed h hh).has
  refine (onPool_closed hc (PathMerge.join_yields (c := c) hc.pool has)
    fun k p ret => join_nest Pool.Closed.nest hc.pool has closed ret).mono ?_
  intro h c' _ _ made
  obtain ⟨closed', joined⟩ := made
  refine ⟨closed', Pool.holds_eq_some.mp (joined.value M _ ?_)⟩
  rw [holds_of_evals (built_values built values) truths]
  exact Connective.value_some c bs

/-- Building a choice whose guards have values builds the value under the one that is true. -/
theorem choose_built (hc : ctx.Sound) {guarded : List (Ground × Ground)} {hs : List Branch}
    {xs : List (Scalar × Scalar)} {x : Scalar} (values : branchValues guarded = some xs) (only : onlyTrue xs = some x)
    (built : List.Forall₂ (fun t h => Built M t.1 h.1 ctx ∧ Built M t.2 h.2 ctx) guarded hs) :
    Yields (choice hs) ctx fun h c => c.pool.Closed h ∧ c.pool.eval M h = some (.scalar x) := by
  have closed : ∀ b ∈ hs, ctx.pool.Closed b.1 ∧ ctx.pool.Closed b.2 := by
    intro b hb
    obtain ⟨_, _, guard, value⟩ := Related.exists_left built hb
    exact ⟨guard.closed, value.closed⟩
  have picked : pick (ctx.pool.branches M hs) = some (.scalar x) := by
    rw [branches_of_evals (built_branchValues built values), pick_scalars, only]
    rfl
  have some_ : hs ≠ [] := by
    rintro rfl
    cases picked
  have has : ctx.pool.HasAll hs := fun b hb => ⟨(closed b hb).1.has, (closed b hb).2.has⟩
  refine (onPool_closed hc (PathMerge.choice_yields hc.pool has some_)
    fun k p ret => choice_closed hc.pool closed ret).mono ?_
  intro h c _ _ made
  obtain ⟨closed', chosen⟩ := made
  exact ⟨closed', chosen.value M _ picked⟩

theorem buildBranches_yields {ts : List (Ground × Ground)} {xs : List (Scalar × Scalar)} (hc : ctx.Sound)
    (ar : M.Arithmetic ctx) (values : branchValues ts = some xs)
    (each : ∀ b ∈ ts, (∀ c x, c.Sound → M.Arithmetic c → b.1.value = some x → Yields b.1.build c (Built M b.1)) ∧
      ∀ c x, c.Sound → M.Arithmetic c → b.2.value = some x → Yields b.2.build c (Built M b.2)) :
    Yields (ts.mapM fun b => do return (← b.1.build, ← b.2.build)) ctx fun hs c =>
      List.Forall₂ (fun t h => Built M t.1 h.1 c ∧ Built M t.2 h.2 c) ts hs := by
  rw [branchValues_eq] at values
  refine Yields.mapM (P := fun t (h : Branch) c => Built M t.1 h.1 c ∧ Built M t.2 h.2 c) ts ?_ hc
    fun t mem c e hc' => ?_
  · exact fun _ _ _ _ _ hc e _ built => ⟨built.1.extends hc e, built.2.extends hc e⟩
  · obtain ⟨x, _, value⟩ := Related.exists_right (mapM_eq_some_iff.mp values) mem
    obtain ⟨g, guard, value⟩ := Option.bind_eq_some_iff.mp value
    obtain ⟨y, value, _⟩ := Option.bind_eq_some_iff.mp value
    refine ((each t mem).1 c g hc' (ar.extends e) guard).bind fun h c₁ e₁ hc₁ first => ?_
    refine ((each t mem).2 c₁ y hc₁ (ar.extends (e.trans e₁)) value).bind fun k c₂ e₂ hc₂ second => ?_
    exact Yields.pure hc₂ ⟨first.extends hc₁ e₂, second⟩

theorem built_of_value {t : Ground} {x : Scalar} {y : ContextM Handle} (value : t.value = some x)
    (yields : Yields y ctx fun h c => c.pool.Closed h ∧ c.pool.eval M h = some (.scalar x)) :
    Yields y ctx (Built M t) := by
  refine yields.mono fun h c _ _ made => ⟨made.1, fun z value' => ?_⟩
  cases value.symm.trans value'
  exact made.2

/-- A term that has a value can be built, and what is built has it. -/
theorem build_yields (t : Ground) {x : Scalar} (hc : ctx.Sound) (ar : M.Arithmetic ctx) (value : t.value = some x) :
    Yields t.build ctx (Built M t) := by
  induction t using Ground.induction generalizing ctx x with
  | int n => exact int_built hc n
  | bool b =>
    cases value
    exact built_of_value rfl (Yields.pure hc ⟨.ofBool hc.pool b, (Pool.Spells.bool b).eval hc.pool⟩)
  | apply f args ih =>
    refine built_of_value value ?_
    rw [Ground.value, values_eq] at value
    obtain ⟨xs, values, computed⟩ := Option.bind_eq_some_iff.mp value
    rw [build, buildAll_eq]
    refine (buildAll_yields hc ar values fun t mem c x => ih t mem).bind fun hs c e hc' built => ?_
    exact apply_built hc' (ar.extends e) values computed built
  | equal a b iha ihb =>
    refine built_of_value value ?_
    rw [Ground.value] at value
    obtain ⟨y, left, value⟩ := Option.bind_eq_some_iff.mp value
    obtain ⟨z, right, equal⟩ := Option.bind_eq_some_iff.mp value
    rw [build]
    refine (iha hc ar left).bind fun h c e hc' first => ?_
    refine (ihb hc' (ar.extends e) right).bind fun k c₂ e₂ hc₂ second => ?_
    exact equal_built hc₂ left right equal (first.extends hc' e₂) second
  | not a ih =>
    refine built_of_value value ?_
    rw [Ground.value] at value
    obtain ⟨y, operand, value⟩ := Option.bind_eq_some_iff.mp value
    obtain ⟨b, truth, value⟩ := Option.bind_eq_some_iff.mp value
    cases value
    cases y <;> cases truth
    rw [build]
    refine (ih hc ar operand).bind fun h c e hc' built => Yields.pure hc' ⟨built.closed.neg, ?_⟩
    have holds : c.pool.holds M h = some b := Pool.holds_eq_some.mpr (built.value _ operand)
    refine Pool.holds_eq_some.mp ((Pool.holds_neg_eq_some hc'.pool built.closed.has).mpr ?_)
    rw [holds, Bool.not_not]
  | join c operands ih =>
    refine built_of_value value ?_
    rw [Ground.value, values_eq] at value
    obtain ⟨xs, values, value⟩ := Option.bind_eq_some_iff.mp value
    obtain ⟨bs, truths, value⟩ := Option.bind_eq_some_iff.mp value
    cases value
    rw [build, buildAll_eq]
    refine (buildAll_yields hc ar values fun t mem c x => ih t mem).bind fun hs c' e hc' built => ?_
    exact join_built hc' c values truths built
  | choose guarded ih =>
    refine built_of_value value ?_
    rw [Ground.value] at value
    obtain ⟨xs, values, only⟩ := Option.bind_eq_some_iff.mp value
    rw [build, buildBranches_eq]
    refine (buildBranches_yields hc ar values fun b mem => ⟨fun c x => (ih b mem).1, fun c x => (ih b mem).2⟩).bind
      fun hs c e hc' built => ?_
    exact choose_built hc' values only built

end Ground

end PathMerge
