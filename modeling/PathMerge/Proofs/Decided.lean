/-
  PathMerge.Proofs.Decided — summaries of which exactly one guard is true.

  Under a given meaning an expression is decided when every summary that occurs in it has exactly one true
  guard. What is built from decided expressions is decided again: junctions and equations make no summary,
  and a choice of which exactly one guard is true makes one that has the value of the choice
  (`PoolM.choice_decided`), so that one of its guards is true and the others are not.
-/

import PathMerge.Proofs.Canonical
import PathMerge.Proofs.Context

namespace PathMerge

namespace Pool

variable {p p' p'' : Pool} {M : Meaning}

/-! ## One true guard -/

/-- Exactly one guard is true, all others are false, and there is a value under it. -/
def Decides (p : Pool) (M : Meaning) (bs : List Branch) : Prop :=
  ∃ l b r, bs = l ++ b :: r ∧ p.holds M b.1 = some true ∧ (∃ x, p.eval M b.2 = some x) ∧
    ∀ c ∈ l ++ r, p.holds M c.1 = some false

/-- The guards of a choice are decided exactly when the choice has a value. -/
theorem decides_iff {bs : List Branch} : p.Decides M bs ↔ ∃ x, pick (p.branches M bs) = some x := by
  constructor
  · rintro ⟨l, b, r, rfl, guard, ⟨x, value⟩, others⟩
    refine ⟨x, pick_eq_some.mpr ⟨p.branches M l, p.branches M r, ?_, fun c hc => ?_⟩⟩
    · unfold branches
      rw [List.map_append, List.map_cons, guard, value]
    · unfold branches at hc
      rw [← List.map_append] at hc
      obtain ⟨d, hd, rfl⟩ := List.mem_map.mp hc
      exact others d hd
  · rintro ⟨x, picked⟩
    obtain ⟨l', r', all, others⟩ := pick_eq_some.mp picked
    obtain ⟨l, rest, rfl, rfl, last⟩ := List.map_eq_append_iff.mp all
    obtain ⟨b, r, rfl, branch, rfl⟩ := List.map_eq_cons_iff.mp last
    obtain ⟨guard, value⟩ := Prod.mk.inj branch
    refine ⟨l, b, r, rfl, guard, ⟨x, value⟩, fun c hc => ?_⟩
    rw [← List.map_append] at others
    exact others _ (List.mem_map_of_mem hc)

theorem Decides.extends (hp : p.Sound) (e : p.Extends p') {bs : List Branch} (has : p.HasAll bs)
    (d : p.Decides M bs) : p'.Decides M bs := by
  rw [decides_iff] at d ⊢
  rwa [branches_extends hp e has]

/-- A summary that has a value has exactly one true guard. -/
theorem decides_of_eval (hp : p.Sound) {h : Handle} {bs : List Branch} (hn : p.node? h = some (.summary bs))
    (sign : h.negated = false) {x : Value} (value : p.eval M h = some x) : p.Decides M bs := by
  rw [eval_summary hp hn sign] at value
  exact decides_iff.mpr ⟨x, value⟩

/-- Every summary in the expression has exactly one true guard. -/
inductive Decided (p : Pool) (M : Meaning) : Handle → Prop
  | intro {h : Handle} {n : Node} (node : p.node? h = some n) (children : ∀ c ∈ n.children, Decided p M c)
      (decides : ∀ bs, n = .summary bs → p.Decides M bs) : Decided p M h

namespace Decided

theorem has {h : Handle} (d : p.Decided M h) : p.Has h := by
  obtain ⟨node, _, _⟩ := d
  exact has_of_node node

theorem neg {h : Handle} (d : p.Decided M h) : p.Decided M (-h) := by
  obtain ⟨node, children, decides⟩ := d
  exact .intro (h := -h) node children decides

theorem regular {h : Handle} (d : p.Decided M h) : p.Decided M h.regular := by
  obtain ⟨node, children, decides⟩ := d
  exact .intro (h := h.regular) node children decides

theorem signed {h : Handle} (d : p.Decided M h) (flip : Bool) : p.Decided M (h.signed flip) := by
  cases flip with
  | false => exact d
  | true => exact d.neg

theorem child {h : Handle} {n : Node} (d : p.Decided M h) (hn : p.node? h = some n) :
    ∀ c ∈ n.children, p.Decided M c := by
  obtain ⟨node, children, _⟩ := d
  cases hn.symm.trans node
  exact children

theorem decides {h : Handle} {bs : List Branch} (d : p.Decided M h) (hn : p.node? h = some (.summary bs)) :
    p.Decides M bs := by
  obtain ⟨node, _, decides⟩ := d
  cases hn.symm.trans node
  exact decides bs rfl

/-- All nodes below a decided expression are there, so a larger pool reads the same. -/
theorem readWithin {β : Type} {R : Reading β} (e : p.Extends p') {h : Handle} (d : p.Decided M h) (depth : Nat) :
    Pool.readWithin R p' depth h = Pool.readWithin R p depth h := by
  induction d generalizing depth with
  | intro node _ _ ih =>
    cases depth with
    | zero => rfl
    | succ depth =>
      simp only [Pool.readWithin, node, e node]
      congr 1
      exact R.local_ fun c hc => ih c hc depth

theorem eval (e : p.Extends p') {h : Handle} (d : p.Decided M h) : p'.eval M h = p.eval M h :=
  d.readWithin e h.index

theorem branches (e : p.Extends p') {bs : List Branch} (d : ∀ b ∈ bs, p.Decided M b.1 ∧ p.Decided M b.2) :
    p'.branches M bs = p.branches M bs := by
  refine List.map_congr_left fun b hb => ?_
  unfold holds
  rw [(d b hb).1.eval e, (d b hb).2.eval e]

theorem «extends» (e : p.Extends p') {h : Handle} (d : p.Decided M h) : p'.Decided M h := by
  induction d with
  | intro node children decides ih =>
    refine .intro (e node) ih fun bs summary => ?_
    subst summary
    have inside : ∀ b ∈ bs, p.Decided M b.1 ∧ p.Decided M b.2 := fun b hb =>
      ⟨children _ (Node.mem_children_summary hb).1, children _ (Node.mem_children_summary hb).2⟩
    rw [decides_iff, branches e inside]
    exact decides_iff.mp (decides bs rfl)

theorem tt (hp : p.Sound) : p.Decided M .tt := .intro hp.truth (List.forall_mem_nil _) fun _ e => by cases e

theorem nest (M : Meaning) : Nest fun p h => p.Decided M h where
  grows grown _ d := d.extends grown.nodes
  neg d := d.neg
  tt hp := tt hp
  operands d hn := d.child hn
  junction hn inside := .intro hn inside fun _ e => by cases e

end Decided

/-! ## Pools that grow by decided summaries -/

/-- Every summary that `p'` has and `p` has not has exactly one true guard. -/
def AddsDecided (p : Pool) (M : Meaning) (p' : Pool) : Prop :=
  ∀ h bs, p'.node? h = some (.summary bs) → p.node? h = some (.summary bs) ∨ p'.Decides M bs

namespace AddsDecided

theorem of_unforked (h : p.Unforked p') : p.AddsDecided M p' := fun _ _ hn => .inl (h hn)

theorem trans (hp' : p'.Sound) (e : p'.Extends p'') (h : p.AddsDecided M p') (h' : p'.AddsDecided M p'') :
    p.AddsDecided M p'' := by
  intro k bs hk
  rcases h' k bs hk with old | new
  · refine (h k bs old).imp_right fun d => d.extends hp' e fun b hb => ?_
    obtain ⟨guard, value⟩ := Node.mem_children_summary hb
    exact ⟨hp'.has_child old guard, hp'.has_child old value⟩
  · exact .inr new

end AddsDecided

end Pool

/-! ## Building from decided expressions -/

namespace PoolM

variable {p p' : Pool} {M : Meaning} {c : Connective} {k : Handle}

theorem intern_adds {n : Node} (ret : Returns (intern n) p k p') (decides : ∀ bs, n = .summary bs → p'.Decides M bs) :
    p.AddsDecided M p' := by
  cases ret
  intro h bs hn
  exact (Pool.node?_of_put hn).imp_right fun ⟨_, made⟩ => decides bs made.symm

/-- A choice that has a value is decided, and so is the summary that it adds, if it adds one. -/
theorem choice_decided (hp : p.Sound) {bs : List Branch} (inside : ∀ b ∈ bs, p.Decided M b.1 ∧ p.Decided M b.2)
    (picked : p.Decides M bs) (ret : Returns (choice bs) p k p') : p'.Decided M k ∧ p.AddsDecided M p' := by
  have has : p.HasAll bs := fun b hb => ⟨(inside b hb).1.has, (inside b hb).2.has⟩
  have ne : bs ≠ [] := by
    obtain ⟨l, b, r, rfl, _⟩ := picked
    simp
  obtain ⟨x, hx⟩ := Pool.decides_iff.mp picked
  obtain ⟨_, hp', chosen⟩ := (choice_yields hp has ne).of_returns ret
  have value : p'.eval M k = some x := chosen.value M x hx
  obtain ⟨merged, p₁, hmerged, step⟩ := choiceStep ret
  obtain ⟨⟨e₁, _⟩, hp₁, _⟩ := (mergeBranches_yields hp [] bs (List.forall_mem_nil _) has).of_returns hmerged
  have entered := mergeBranches_nest (Pool.Decided.nest M) hp has (List.forall_mem_nil _) inside
    (List.forall_mem_nil _) hmerged
  have adds : p.AddsDecided M p₁ := .of_unforked ((mergeBranches_straight _ _).unforked_returns hmerged)
  cases step with
  | refuted result same =>
    subst same
    obtain ⟨b, hb, rfl⟩ := List.mem_map.mp result
    exact ⟨(inside b hb).2.extends e₁, adds⟩
  | decided result same =>
    subst same
    obtain ⟨b, hb, rfl⟩ := List.mem_map.mp result
    exact ⟨(entered b hb).2, adds⟩
  | node made =>
    obtain ⟨sign, hn, grown⟩ := returns_intern made
    have only : ∀ cs, Node.summary (SortedList.ofList Branch.lt merged) = .summary cs → p'.Decides M cs := by
      rintro cs ⟨⟩
      exact Pool.decides_of_eval hp' hn sign value
    refine ⟨.intro hn (fun c hc => ?_) only, adds.trans hp₁ grown.nodes (intern_adds made only)⟩
    obtain ⟨b, hb, hc⟩ := List.mem_flatMap.mp hc
    have hb := (SortedList.mem_ofList Branch.lt_separates).mp hb
    rcases List.mem_cons.mp hc with rfl | hc
    · exact (entered b hb).1.extends grown.nodes
    · exact List.mem_singleton.mp hc ▸ (entered b hb).2.extends grown.nodes

theorem join_decided (hp : p.Sound) {items : List Handle} (inside : ∀ h ∈ items, p.Decided M h)
    (ret : Returns (join c items) p k p') : p'.Decided M k :=
  join_nest (Pool.Decided.nest M) hp (fun h hh => (inside h hh).has) inside ret

theorem equation_decided {a b : Handle} (hp : p.Sound) (ha : p.Decided M a) (hb : p.Decided M b)
    (ret : Returns (equation a b) p k p') : p'.Decided M k := by
  rcases equation_cases ret with ⟨result, rfl⟩ | made
  · simp only [List.mem_cons, List.not_mem_nil, or_false] at result
    rcases result with rfl | rfl | rfl | rfl | rfl | rfl
    exacts [.tt hp, (Pool.Decided.tt hp).neg, ha, hb, ha.neg, hb.neg]
  · obtain ⟨_, hn, grown⟩ := returns_intern made
    refine .intro hn (fun c hc => ?_) fun _ e => by cases e
    rcases List.mem_cons.mp hc with rfl | hc
    · exact ha.extends grown.nodes
    · exact List.mem_singleton.mp hc ▸ hb.extends grown.nodes

end PoolM

/-! ## Contexts -/

namespace Context

variable {ctx ctx' : Context} {I : Interpretation} {v : Valuation}

abbrev Decided (ctx : Context) (I : Interpretation) (v : Valuation) (h : Handle) : Prop :=
  ctx.pool.Decided (ctx.meaning I v) h

/-- No value changes as a context grows, so what is decided stays decided. -/
theorem Decided.extends (hc : ctx.Sound) (e : ctx.Extends ctx') {h : Handle} (d : ctx.Decided I v h) :
    ctx'.Decided I v h := by
  induction d with
  | intro node children decides ih =>
    refine .intro (e.pool node) ih fun bs summary => ?_
    subst summary
    obtain ⟨l, b, r, rfl, guard, ⟨x, value⟩, others⟩ := decides bs rfl
    have has : ∀ b' ∈ l ++ b :: r, ctx.Has b'.1 ∧ ctx.Has b'.2 := fun b' hb =>
      ⟨(children _ (Node.mem_children_summary hb).1).has, (children _ (Node.mem_children_summary hb).2).has⟩
    refine ⟨l, b, r, rfl, ?_, ⟨x, ?_⟩, fun c other => ?_⟩
    · exact (holds_extends hc e (has b (by simp)).1).trans guard
    · exact (eval_extends hc e (has b (by simp)).2).trans value
    · refine (holds_extends hc e (has c ?_).1).trans (others c other)
      rcases List.mem_append.mp other with hl | hr
      · exact List.mem_append_left _ hl
      · exact List.mem_append_right _ (List.mem_cons_of_mem _ hr)

theorem decided_ofBool (hc : ctx.Sound) (b : Bool) : ctx.Decided I v (.ofBool b) := by
  cases b with
  | true => exact .tt hc.pool
  | false => exact (Pool.Decided.tt hc.pool).neg

theorem Applies.decided {op : Operation} {args : List Handle} {h : Handle} (applies : ctx.Applies op args h)
    (inside : ∀ a ∈ args, ctx.Decided I v a) : ctx.Decided I v h := by
  obtain ⟨_, f, _, hn⟩ := applies
  exact .intro hn inside fun _ e => by cases e

theorem Applies.decided_arg {op : Operation} {args : List Handle} {h : Handle} (applies : ctx.Applies op args h)
    (d : ctx.Decided I v h) : ∀ a ∈ args, ctx.Decided I v a := by
  obtain ⟨_, f, _, hn⟩ := applies
  exact d.child hn

end Context

end PathMerge
