/-
  PathMerge.Proofs.Laws.Integers — the laws of integer arithmetic hold.

  An argument that is a literal has the value it is known by (`Known`). A law looks at no more than
  that and whether its arguments are the same, and no law divides by zero. The branches of the laws are of
  few kinds: a function is computed, an operand is left, or the value does not depend on the operands. What
  each kind returns is said once, and each law is put together from that.
-/

import PathMerge.Proofs.Laws
import PathMerge.Theory.Integers

namespace PathMerge

open Context ContextM

variable {ctx ctx' ctx'' : Context} {I : Interpretation} {v : Valuation}

namespace Theory.Integers

/-! ## What is known of the arguments -/

def Known (ctx : Context) (a : Valued) : Prop := ∀ n, a.2 = some n → ∀ I v, ctx.eval I v a.1 = some (.int n)

theorem intValue?_spec (h : Handle) :
    Asks (·.Has h) (asking (·.intValue? h)) fun r ctx => ∀ n, r = some n → ∀ I v, ctx.eval I v h = some (.int n) := by
  refine .asking (.intValue? h) fun {ctx} hc hh => ?_
  unfold intValue?
  by_cases sign : h.negated = true
  · rw [if_pos sign]
    exact ⟨none, rfl, fun _ e => by cases e⟩
  · rw [if_neg sign]
    obtain ⟨n, hn⟩ := Pool.has_iff.mp hh
    have node : ctx.node h = .ok n := InternTable.value_eq_ok.mpr hn
    rw [node]
    match n, hn with
    | .literal (.int m), hn =>
      refine ⟨some m, rfl, fun k e I v => ?_⟩
      cases e
      exact Pool.eval_node hc.pool hn (by simpa using sign)
    | .literal .null, _ | .literal (.field _), _ | .truth, _ | .symbol _, _ | .app _ _, _ | .summary _, _
    | .eq _ _, _ | .junction _ _, _ => exact ⟨none, rfl, fun _ e => by cases e⟩

/-- An argument is paired with its integer only if it is a literal of that value. -/
theorem valued_spec (h : Handle) : Asks (·.Has h) (valued h) fun a ctx => a.1 = h ∧ Known ctx a :=
  (intValue?_spec h).ask fun _ => .answer fun _ given => ⟨rfl, given.2⟩

theorem mapM_valued_spec (args : List Handle) :
    Asks (fun ctx => ∀ a ∈ args, ctx.Has a) (args.mapM valued) fun as ctx =>
      as.map (·.1) = args ∧ ∀ a ∈ as, Known ctx a := by
  induction args with
  | nil => exact .answer fun _ _ => ⟨rfl, List.forall_mem_nil _⟩
  | cons h args ih =>
    rw [List.mapM_cons]
    refine ((valued_spec h).given fun _ has => has h (by simp)).ask fun a =>
      (ih.given fun _ given b hb => given.1 b (List.mem_cons_of_mem _ hb)).ask fun as => .answer fun _ given => ?_
    obtain ⟨⟨-, rfl, known⟩, rfl, rest⟩ := given
    exact ⟨rfl, List.forall_mem_cons.mpr ⟨known, rest⟩⟩

structure Arguments (f : IntFunction) (as : List Valued) (ctx : Context) : Prop where
  provided : ctx.symbols.Provides .integers
  arity : as.length = f.decl.arity
  known : ∀ a ∈ as, Known ctx a

abbrev IntSpec (f : IntFunction) (as : List Valued) (law : ContextM (Option Handle)) : Prop :=
  LawSpec (.integer f) (as.map (·.1)) (Arguments f as) law

/-- The operands of a binary function of the integers are integers, the known ones as known. -/
theorem of_applied {f : IntFunction} {a b : Handle} {va vb : Option Int}
    (given : Arguments f [(a, va), (b, vb)] ctx) {x : Value} (h : ctx.applied I v (.integer f) [a, b] = some x) :
    ∃ i j, ctx.eval I v a = some (.int i) ∧ ctx.eval I v b = some (.int j) ∧
      f.apply I [.int i, .int j] = some x ∧ (∀ m, va = some m → m = i) ∧ (∀ n, vb = some n → n = j) := by
  obtain ⟨xs, hxs, hx⟩ := applied_eq_some.mp h
  obtain ⟨p, qs, hp, hqs, rfl⟩ := mapM_cons_eq_some.mp hxs
  obtain ⟨q, hq, rfl⟩ := mapM_one hqs
  rcases IntFunction.of_apply hx with ⟨_, i, e⟩ | ⟨_, i, j, e⟩
  · cases e
  · cases e
    refine ⟨i, j, hp, hq, hx, fun m e => ?_, fun n e => ?_⟩
    · have := given.known (a, va) (by simp) m e I v
      rw [hp] at this
      cases this
      rfl
    · have := given.known (b, vb) (by simp) n e I v
      rw [hq] at this
      cases this
      rfl

/-! ## The kinds of branches -/

theorem literal_spec {op : Operation} {args : List Handle} {P : Context → Prop}
    (ne : ∀ {ctx}, P ctx → args ≠ []) (n : Int)
    (value : ∀ {ctx}, ctx.Sound → P ctx → ∀ I v x, ctx.applied I v op args = some x → x = .int n) :
    LawSpec op args P (literal n) := by
  refine ⟨(literal_straight _).map, fun hc given => Yields.map ((integer_yields hc n).mono ?_)⟩
  rintro h ctx' e _ constant k hk
  cases hk
  refine ⟨constant.has, fun I v x hx => ?_, ?_, fun _ => constant.decided _ _⟩
  · rw [value hc given.1 I v x hx]
    exact constant.eval I v
  · rw [constant.weight]
    exact one_le_weights hc (ne given.1) given.2

section Binary

variable {f : IntFunction} {a b : Handle} {va vb : Option Int} {k m n : Int}

/-- A function that does not depend on one of its operands, once the other is known. -/
theorem constant_spec
    (value : ∀ (I : Interpretation) i j x, (∀ m, va = some m → m = i) → (∀ n, vb = some n → n = j) →
      f.apply I [.int i, .int j] = some x → x = .int k) :
    IntSpec f [(a, va), (b, vb)] (literal k) := by
  refine literal_spec (fun _ => by simp) k fun _ given I v x h => ?_
  obtain ⟨i, j, _, _, hx, hi, hj⟩ := of_applied given h
  exact value I i j x hi hj hx

/-- With both operands known the function is computed. -/
theorem computed_spec (value : ∀ (I : Interpretation) x, f.apply I [.int m, .int n] = some x → x = .int k) :
    IntSpec f [(a, some m), (b, some n)] (literal k) := by
  refine constant_spec fun I i j x hi hj hx => ?_
  cases hi m rfl
  cases hj n rfl
  exact value I x hx

theorem compared_spec {r : Bool}
    (value : ∀ (I : Interpretation) x, f.apply I [.int m, .int n] = some x → x = .bool r) :
    IntSpec f [(a, some m), (b, some n)] (pure (some (Handle.ofBool r))) := by
  refine .ofBool (fun _ => by simp) r fun _ given I v x h => ?_
  obtain ⟨i, j, _, _, hx, hi, hj⟩ := of_applied given h
  cases hi m rfl
  cases hj n rfl
  exact value I x hx

/-- With the second operand known to be neutral the first is left. -/
theorem left_spec (value : ∀ (I : Interpretation) i x, f.apply I [.int i, .int n] = some x → x = .int i) :
    IntSpec f [(a, va), (b, some n)] (pure (some a)) := by
  refine .arg (by simp) fun _ given I v x h => ?_
  obtain ⟨i, j, hp, _, hx, _, hj⟩ := of_applied given h
  cases hj n rfl
  rw [value I i x hx]
  exact hp

theorem right_spec (value : ∀ (I : Interpretation) j x, f.apply I [.int m, .int j] = some x → x = .int j) :
    IntSpec f [(a, some m), (b, vb)] (pure (some b)) := by
  refine .arg (by simp) fun _ given I v x h => ?_
  obtain ⟨i, j, _, hq, hx, hi, _⟩ := of_applied given h
  cases hi m rfl
  rw [value I j x hx]
  exact hq

end Binary

def Same (as : List Valued) : Prop := ∃ a, as.map (·.1) = [a, a]

/-- Equal operands have equal values. -/
theorem Same.of_applied {f : IntFunction} {as : List Valued} (same : Same as) {x : Value}
    (h : ctx.applied I v (.integer f) (as.map (·.1)) = some x) : ∃ i, f.apply I [.int i, .int i] = some x := by
  obtain ⟨a, same⟩ := same
  rw [same] at h
  obtain ⟨xs, hxs, hx⟩ := applied_eq_some.mp h
  obtain ⟨p, qs, hp, hqs, rfl⟩ := mapM_cons_eq_some.mp hxs
  obtain ⟨q, hq, rfl⟩ := mapM_one hqs
  rw [hp] at hq
  cases hq
  rcases IntFunction.of_apply hx with ⟨_, i, e⟩ | ⟨_, i, j, e⟩
  · cases e
  · cases e
    exact ⟨_, hx⟩

theorem Same.ne_nil {as : List Valued} (same : Same as) : as.map (·.1) ≠ [] := by
  obtain ⟨a, same⟩ := same
  simp [same]

theorem whenSame_spec {f : IntFunction} {as : List Valued} {result : ContextM (Option Handle)}
    (binary : f.decl.arity = 2)
    (h : LawSpec (.integer f) (as.map (·.1)) (fun ctx => Arguments f as ctx ∧ Same as) result) :
    IntSpec f as (whenSame as result) := by
  have two : ∀ {ctx}, Arguments f as ctx → as.length = 2 := fun given => given.arity.trans binary
  unfold whenSame
  split
  · rename_i x _ y _ rest
    refine .ite (fun same => h.given fun _ given => ⟨⟨given.1, x, ?_⟩, given.2⟩) fun _ => .none
    obtain rfl : rest = [] := List.eq_nil_of_length_eq_zero (Nat.add_right_cancel (m := 2) (two given.1))
    simp [same]
  · rename_i short
    refine .never _ fun _ given => ?_
    obtain ⟨a, b, rfl⟩ := List.length_eq_two.mp (two given.1)
    exact short _ _ _ _ _ rfl

/-! ## The laws -/

theorem plusLaw_spec (as : List Valued) : IntSpec .plus as (plusLaw as) := by
  unfold plusLaw
  split
  · refine computed_spec fun I x hx => ?_
    cases hx
    rfl
  · refine .pure_ite fun zero => right_spec fun I j x hx => ?_
    cases hx
    rw [zero, Int.zero_add]
  · refine .pure_ite fun zero => left_spec fun I i x hx => ?_
    cases hx
    rw [zero, Int.add_zero]
  · exact .none

theorem minusLaw_spec (as : List Valued) : IntSpec .minus as (minusLaw as) := by
  unfold minusLaw
  split
  · refine computed_spec fun I x hx => ?_
    cases hx
    rfl
  · refine left_spec fun I i x hx => ?_
    cases hx
    rw [Int.sub_zero]
  · refine whenSame_spec rfl (literal_spec (fun h => h.2.ne_nil) 0 fun _ given I v x h => ?_)
    obtain ⟨i, hx⟩ := given.2.of_applied h
    cases hx
    rw [Int.sub_self]

/-- Multiplying by zero or one, and folding two literals, agree with the product. -/
theorem mulLaw_spec (as : List Valued) : IntSpec .mul as (mulLaw as) := by
  unfold mulLaw
  split
  · refine computed_spec fun I x hx => ?_
    cases hx
    rfl
  · refine .ite (fun zero => constant_spec fun I i j x hi _ hx => ?_) fun _ => .pure_ite fun one =>
      right_spec fun I j x hx => ?_
    · cases hi _ rfl
      cases hx
      rw [zero, Int.zero_mul]
    · cases hx
      rw [one, Int.one_mul]
  · refine .ite (fun zero => constant_spec fun I i j x _ hj hx => ?_) fun _ => .pure_ite fun one =>
      left_spec fun I i x hx => ?_
    · cases hj _ rfl
      cases hx
      rw [zero, Int.mul_zero]
    · cases hx
      rw [one, Int.mul_one]
  · exact .none

/-- Division is folded only where the divisor is known not to be zero. -/
theorem divLaw_spec (as : List Valued) : IntSpec .div as (divLaw as) := by
  unfold divLaw
  split
  · exact .none
  · rename_i nonzero
    refine computed_spec fun I x hx => ?_
    cases hx
    refine congrArg Value.int (if_neg ?_)
    rintro rfl
    exact nonzero rfl
  · refine .pure_ite fun one => left_spec fun I i x hx => ?_
    cases hx
    refine congrArg Value.int ((if_neg ?_).trans ?_)
    · rw [one]
      decide
    · rw [one, Int.tdiv_one]
  · exact .none

/-- The remainder is folded only where the divisor is known not to be zero. -/
theorem remLaw_spec (as : List Valued) : IntSpec .rem as (remLaw as) := by
  unfold remLaw
  split
  · exact .none
  · rename_i nonzero
    refine computed_spec fun I x hx => ?_
    cases hx
    refine congrArg Value.int (if_neg ?_)
    rintro rfl
    exact nonzero rfl
  · refine .ite (fun one => constant_spec fun I i j x _ hj hx => ?_) fun _ => .none
    cases hj _ rfl
    cases hx
    refine congrArg Value.int ((if_neg ?_).trans ?_)
    · rw [one]
      decide
    · rw [one, Int.tmod_one]
  · exact .none

theorem ltLaw_spec (as : List Valued) : IntSpec .lt as (ltLaw as) := by
  unfold ltLaw
  split
  · refine compared_spec fun I x hx => ?_
    cases hx
    rfl
  · refine whenSame_spec rfl (.ofBool (fun h => h.2.ne_nil) false fun _ given I v x h => ?_)
    obtain ⟨i, hx⟩ := given.2.of_applied h
    cases hx
    simp

theorem leLaw_spec (as : List Valued) : IntSpec .le as (leLaw as) := by
  unfold leLaw
  split
  · refine compared_spec fun I x hx => ?_
    cases hx
    rfl
  · refine whenSame_spec rfl (.ofBool (fun h => h.2.ne_nil) true fun _ given I v x h => ?_)
    obtain ⟨i, hx⟩ := given.2.of_applied h
    cases hx
    simp

theorem of_neg {a : Handle} {x : Value} (h : ctx.applied I v (.integer .neg) [a] = some x) :
    ∃ i, ctx.eval I v a = some (.int i) ∧ x = .int (-i) := by
  obtain ⟨xs, hxs, hx⟩ := applied_eq_some.mp h
  obtain ⟨p, hp, rfl⟩ := mapM_one hxs
  rcases IntFunction.of_apply hx with ⟨_, i, e⟩ | ⟨ne, _⟩
  · cases e
    cases hx
    exact ⟨i, hp, rfl⟩
  · exact absurd rfl ne

/-- Negating twice gives back what was negated. -/
theorem negated_twice (hc : ctx.Sound) {a b : Handle} (applies : ctx.Applies (.integer .neg) [b] a) :
    Rewritten ctx (.integer .neg) [a] b ctx := by
  refine ⟨applies.has_arg hc b (by simp), fun I v x h => ?_, ?_, fun inside => ?_⟩
  · obtain ⟨i, hp, rfl⟩ := of_neg h
    rw [applies.eval hc] at hp
    obtain ⟨j, hq, e⟩ := of_neg hp
    cases e
    rw [hq, Int.neg_neg]
  · have inner := applies.weight hc
    have : ctx.weight b ≤ ctx.weights [b] := weight_le_weights (by simp)
    have : ctx.weight a ≤ ctx.weights [a] := weight_le_weights (by simp)
    omega
  · exact applies.decided_arg (inside a (by simp)) b (by simp)

theorem negLaw_spec (as : List Valued) : IntSpec .neg as (negLaw as) := by
  unfold negLaw
  split
  · rename_i a m
    refine literal_spec (fun _ => by simp) _ fun _ given I v x h => ?_
    obtain ⟨i, hp, rfl⟩ := of_neg h
    have := given.known (a, some m) (by simp) m rfl I v
    rw [hp] at this
    cases this
    rfl
  · rename_i a
    have asked := asApp?_spec (.integer .neg) a
    refine .ask (asked.given fun _ given => ⟨given.1.provided, given.2 a (by simp)⟩) fun r => ?_
    split
    · rename_i inner
      refine ⟨.pure _, fun hc given => Yields.pure hc fun k e => ?_⟩
      have applies := given.1.2 inner rfl
      obtain ⟨b, rfl⟩ := List.length_eq_one_iff.mp (applies.length hc)
      cases e
      exact negated_twice hc applies
    · exact .none
  · exact .none

/-- A law is asked about its arguments together with the integers they are known to be. -/
theorem valued_law_spec {f : IntFunction} {rule : List Valued → ContextM (Option Handle)}
    (each : ∀ as, IntSpec f as (rule as)) (args : List Handle) :
    LawSpec (.integer f) args (fun ctx => ctx.symbols.Provides .integers ∧ args.length = f.decl.arity)
      (do rule (← args.mapM valued)) := by
  refine Spec.ask ((mapM_valued_spec args).given fun _ given => given.2) fun as => ⟨(each as).straight, ?_⟩
  rintro ctx hc ⟨⟨⟨provided, arity⟩, has⟩, rfl, known⟩
  rw [List.length_map] at arity
  exact (each as).yields hc ⟨⟨provided, arity, known⟩, has⟩

/-- Every integer rewrite keeps the value of the operation it replaces. -/
theorem law_spec (f : IntFunction) (args : List Handle) :
    LawSpec (.integer f) args (fun ctx => ctx.symbols.Provides .integers ∧ args.length = f.decl.arity)
      (law f args) := by
  cases f with
  | plus => exact valued_law_spec plusLaw_spec args
  | minus => exact valued_law_spec minusLaw_spec args
  | mul => exact valued_law_spec mulLaw_spec args
  | div => exact valued_law_spec divLaw_spec args
  | rem => exact valued_law_spec remLaw_spec args
  | neg => exact valued_law_spec negLaw_spec args
  | lt => exact valued_law_spec ltLaw_spec args
  | le => exact valued_law_spec leLaw_spec args

end Theory.Integers

end PathMerge
