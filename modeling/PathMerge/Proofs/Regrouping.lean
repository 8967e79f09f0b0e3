/-
  PathMerge.Proofs.Regrouping — it does not matter how operands are grouped.

  Each step of `join` exchanges the operands for others that stand for the same: flattening and taking out neutral
  operands (`Flattened.interchangeable`), dropping one that holds a sibling (`dropped_interchangeable`), shrinking one
  that holds complements of siblings (`shrunk_interchangeable`). So does a whole run (`joinWithin_interchangeable`), and
  where negation stands on atoms alone the handle is determined by what the operands stand for (`join_eq`).

  The pool grows while operands are joined. What they stand for is said of one sound pool `q` that has everything
  the runs have made.
-/

import PathMerge.Proofs.Absorption
import PathMerge.Proofs.Requests

namespace PathMerge

open Pool Context ContextM

variable {c : Connective} {p p' q : Pool} {h k smaller : Handle} {items flat before after inner kept : List Handle}

/-! ## One step -/

namespace Flattened

theorem «extends» (hp : p.Sound) (has : ∀ h ∈ items, p.Has h) (e : p.Extends q) (f : Flattened p c items flat) :
    Flattened q c items flat := by
  refine ⟨fun x hx => (f.apart x hx).extends e (f.has hp has x hx), fun x hx => ?_, fun h hh => ?_⟩
  · rcases f.origin x hx with hx | ⟨h, hh, inner, hn, hx⟩
    · exact .inl hx
    · exact .inr ⟨h, hh, inner, e hn, hx⟩
  · rcases f.kept h hh with neutral | there | ⟨inner, hn, sign, all⟩
    · exact .inl neutral
    · exact .inr (.inl there)
    · exact .inr (.inr ⟨inner, e hn, sign, all⟩)

theorem normal (f : Flattened q c items flat) (normal : ∀ h ∈ items, q.NegationNormal h) :
    ∀ x ∈ flat, q.NegationNormal x := by
  intro x hx
  rcases f.origin x hx with hx | ⟨h, hh, inner, hn, hx⟩
  · exact normal x hx
  · exact (normal h hh).operands hn x hx

theorem interchangeable (hq : q.Sound) (f : Flattened q c items flat) (normal : ∀ h ∈ items, q.NegationNormal h) :
    q.Interchangeable c flat items := by
  refine .of_clauses fun t => ⟨?_, ?_⟩
  · rintro ⟨x, hx, clause⟩
    rcases f.origin x hx with hx | ⟨h, hh, inner, hn, hx⟩
    · exact ⟨x, hx, clause⟩
    · exact ⟨h, hh, .nested hn ((normal h hh).sign hn) hx clause⟩
  · rintro ⟨h, hh, clause⟩
    rcases f.kept h hh with rfl | there | ⟨inner, hn, sign, all⟩
    · exact absurd clause (not_clause_neutral hq)
    · exact ⟨h, there, clause⟩
    · obtain ⟨x, hx, clause⟩ := (clause_junction hq hn sign).mp clause
      exact ⟨x, all x hx, clause⟩

end Flattened

theorem absorbing_interchangeable (hq : q.Sound) (none_ : q.Derives c items ∅) :
    q.Interchangeable c [c.absorbing] items :=
  ⟨fun _ _ _ _ => .decided (.operand (by simp) .absorbing), fun h hh t clause => by
    obtain rfl := (clause_absorbing hq).mp (List.mem_singleton.mp hh ▸ clause)
    exact .derived none_⟩

/-- Complements decide. -/
theorem complements_derive (normal : ∀ x ∈ flat, q.NegationNormal x) (apart : ∀ x ∈ flat, q.Apart c x) {x : Handle}
    (hx : x ∈ flat) (hx' : -x ∈ flat) : q.Derives c flat ∅ := by
  have a := (normal x hx).atom_of_neg (normal (-x) hx') (apart x hx)
  exact .clash (.operand hx (.atom a)) (.operand hx' (.atom a.neg))

section Absorption

variable (hq : q.Sound) (normal : ∀ x ∈ before ++ h :: after, q.NegationNormal x)
  (apart : ∀ x ∈ before ++ h :: after, q.Apart c x) (hn : q.node? h = some (.junction c.dual inner))
  (sign : h.negated = false)

include hq normal apart hn sign

/-- An operand that holds a sibling may go. -/
theorem dropped_interchangeable {x : Handle} (hx : x ∈ inner) (sibling : x ∈ before ++ h :: after) :
    q.Interchangeable c (before ++ after) (before ++ h :: after) := by
  have flat : q.Flat c.dual inner := hq.formed hn
  have a : q.Atom x := (normal x sibling).atom (apart x sibling) (flat.apart x hx)
  have other : x ∈ before ++ after := by
    refine (mem_replaced.mp sibling).resolve_left fun same => ?_
    exact a.plain _ _ (same ▸ hn)
  refine ⟨fun y hy t clause => ?_, .of_subset fun y hy => mem_replaced.mpr (.inr hy)⟩
  rcases mem_replaced.mp hy with rfl | hy
  · obtain rfl := (clause_dual hq hn sign).mp clause
    exact .unit hx (.operand other (.atom a))
  · exact .derived (.operand hy clause)

/-- An operand that holds complements of siblings stands for what is left without them. -/
theorem shrunk_interchangeable (left : kept = inner.filter fun x => !(before ++ h :: after).contains (-x))
    (opened : ∀ s, q.Clause c smaller s ↔ q.Unfolds c {x | x ∈ kept} s) :
    q.Interchangeable c (before ++ smaller :: after) (before ++ h :: after) := by
  have flat : q.Flat c.dual inner := hq.formed hn
  have part : {x | x ∈ kept} ⊆ {x | x ∈ inner} := by
    rintro x hx
    rw [left] at hx
    exact (List.mem_filter.mp hx).1
  have refuted : ∀ y ∈ inner, y ∉ kept → q.Atom (-y) ∧ -y ∈ before ++ after := by
    intro y hy out
    have sibling : -y ∈ before ++ h :: after := by
      rw [left, List.mem_filter] at out
      simpa [-List.mem_append, hy] using out
    have a : q.Atom y := ((normal h (by simp)).operands hn y hy).atom_of_neg (normal (-y) sibling) (flat.apart y hy)
    refine ⟨a.neg, (mem_replaced.mp sibling).resolve_left fun same => ?_⟩
    exact a.neg.plain _ _ (same ▸ hn)
  have resolved : ∀ items, (∀ x ∈ before ++ after, x ∈ items) → ∀ y ∈ inner, y ∉ kept → q.Derives c items {-y} := by
    intro items sub y hy out
    obtain ⟨a, other⟩ := refuted y hy out
    exact .operand (sub _ other) (.atom a)
  constructor
  · intro y hy t clause
    rcases mem_replaced.mp hy with rfl | hy
    · obtain rfl := (clause_dual hq hn sign).mp clause
      refine .reduces part (resolved _ fun x hx => mem_replaced.mpr (.inr hx)) fun s u => ?_
      exact .derived (.operand (mem_replaced.mpr (.inl rfl)) ((opened s).mpr u))
    · exact .derived (.operand (mem_replaced.mpr (.inr hy)) clause)
  · intro y hy t clause
    rcases mem_replaced.mp hy with rfl | hy
    · refine .derived (.resolve (.operand (mem_replaced.mpr (.inl rfl)) (.dual hn sign)) part ?_ ((opened t).mp clause))
      exact resolved _ fun x hx => mem_replaced.mpr (.inr hx)
    · exact .derived (.operand (mem_replaced.mpr (.inr hy)) clause)

end Absorption

/-- Some operands of a junction of the dual kind are joined as they are: they stand for what is left of its clause. -/
theorem clause_kept (hp : p.Sound) (hn : p.node? h = some (.junction c.dual inner)) (f : Handle → Bool) {steps : Nat}
    (ret : Returns (PoolM.joinWithin steps c.dual (inner.filter f)) p smaller p') (hq : q.Sound) (e : p'.Extends q)
    (s : Set Handle) : q.Clause c smaller s ↔ q.Unfolds c {x | x ∈ inner.filter f} s := by
  have settled : p.Settled c.dual (inner.filter f) := (Flat.settled (hp.formed hn)).filter f
  have has : ∀ x ∈ inner.filter f, p.Has x := fun x hx => hp.has_child hn (List.mem_filter.mp hx).1
  cases steps with
  | zero => cases ret
  | succ steps =>
    have ret := (joinWithin_canonical hp has settled.sorted settled.apart settled.consistent settled.unabsorbed
      steps).symm.trans ret
    generalize inner.filter f = kept at ret
    rcases kept with _ | ⟨x, _ | ⟨y, rest⟩⟩
    · cases ret
      simp only [List.not_mem_nil, Set.ofPred_false]
      rw [c.dual_neutral, clause_absorbing hq, unfolds_empty]
    · cases ret
      simp only [List.mem_singleton, Set.ofPred_eq_eq_singleton]
      exact unfolds_singleton.symm
    · obtain ⟨sign, node, _⟩ := returns_intern ret
      rw [clause_dual hq (e node) sign, (Clause.dual (e node) sign).unfolds hq]

/-! ## Whole runs -/

/-- What joining returns stands for the same as the operands. -/
theorem joinWithin_interchangeable (steps : Nat) (c : Connective) {p p' : Pool} (hp : p.Sound) {items : List Handle}
    (has : ∀ h ∈ items, p.Has h) {k : Handle} (ret : Returns (PoolM.joinWithin steps c items) p k p') (hq : q.Sound)
    (e : p'.Extends q) (normal : ∀ h ∈ items, q.NegationNormal h) :
    q.NegationNormal k ∧ q.Interchangeable c [k] items := by
  induction steps generalizing c p items k p' with
  | zero => cases ret
  | succ steps ih =>
    have later : p.Extends q := fun hn => e ((joinWithin_joined hp has ret).1 hn)
    have taken : ∀ {flat}, Flattened p c items flat →
        (∀ x ∈ flat, q.NegationNormal x) ∧ (∀ x ∈ flat, q.Apart c x) ∧ q.Interchangeable c flat items := by
      intro flat f
      have f := f.extends hp has later
      exact ⟨f.normal normal, f.apart, f.interchangeable hq normal⟩
    cases joinStep hp has ret with
    | absorbed result same decided =>
      subst result
      refine ⟨.absorbing hq c, absorbing_interchangeable hq ?_⟩
      rcases decided with there | ⟨ops, flat, x, hx, hx'⟩
      · exact .operand there .absorbing
      · obtain ⟨normal', apart, i⟩ := taken flat
        exact (i.right.derives hq (complements_derive normal' apart hx hx')).derives_empty
    | empty result same flat =>
      subst result
      exact ⟨.neutral hq c, (Operands.neutral.interchangeable hq).trans hq (taken flat).2.2⟩
    | single flat same =>
      obtain ⟨normal', _, i⟩ := taken flat
      exact ⟨normal' k (by simp), i⟩
    | node flat made =>
      obtain ⟨normal', _, i⟩ := taken flat
      obtain ⟨sign, node, _⟩ := returns_intern made
      exact ⟨.junction (e node) sign normal', ((Operands.junction (e node) sign).interchangeable hq).trans hq i⟩
    | drop flat rest held =>
      obtain ⟨normal', apart, i⟩ := taken flat
      obtain ⟨inner, hn, sign, x, hx, sibling⟩ := held
      obtain ⟨nk, ik⟩ := ih c hp (fun x hx => flat.has hp has x (mem_replaced.mpr (.inr hx))) rest e
        fun x hx => normal' x (mem_replaced.mpr (.inr hx))
      exact ⟨nk, (ik.trans hq (dropped_interchangeable hq normal' apart (later hn) sign hx sibling)).trans hq i⟩
    | @shrink before after inner kept h smaller p₁ flat dual part shrunk rest sign left =>
      obtain ⟨normal', apart, i⟩ := taken flat
      have hasKept : ∀ x ∈ kept, p.Has x := fun x hx => hp.has_child dual (part x hx)
      obtain ⟨e₁, hp₁, joined⟩ := joinWithin_joined hp hasKept shrunk
      have has₁ : ∀ x ∈ before ++ smaller :: after, p₁.Has x := by
        intro x hx
        rcases mem_replaced.mp hx with rfl | hx
        · exact joined.has
        · exact e₁.has (flat.has hp has x (mem_replaced.mpr (.inr hx)))
      have later₁ : p₁.Extends q := fun hn => e ((joinWithin_joined hp₁ has₁ rest).1 hn)
      obtain ⟨ns, _⟩ := ih c.dual hp hasKept shrunk later₁ fun x hx =>
        (normal' h (by simp)).operands (later dual) x (part x hx)
      obtain ⟨nk, ik⟩ := ih c hp₁ has₁ rest e fun x hx =>
        (mem_replaced.mp hx).elim (fun same => same ▸ ns) fun hx => normal' x (mem_replaced.mpr (.inr hx))
      have opened : ∀ s, q.Clause c smaller s ↔ q.Unfolds c {x | x ∈ kept} s := by
        subst left
        exact clause_kept hp dual _ shrunk hq later₁
      exact ⟨nk, (ik.trans hq (shrunk_interchangeable hq normal' apart (later dual) sign left opened)).trans hq i⟩

theorem returns_joinWithin (ret : Returns (PoolM.join c items) p k p') :
    ∃ steps, Returns (PoolM.joinWithin (steps + 1) c items) p k p' := by
  obtain ⟨steps, hsteps⟩ : ∃ steps, PoolM.joinSteps p items = steps + 1 := ⟨_, Nat.add_comm _ _⟩
  have run := (PoolM.join_run c items p).symm.trans ret
  rw [hsteps] at run
  exact ⟨steps, run⟩

variable {ctx ctx' : Context}

theorem join_interchangeable (hc : ctx.Sound) (has : ∀ h ∈ items, ctx.Has h)
    (ret : Returns (onPool (PoolM.join c items)) ctx k ctx') (hq : q.Sound) (e : ctx'.pool.Extends q)
    (normal : ∀ h ∈ items, q.NegationNormal h) : q.NegationNormal k ∧ q.Interchangeable c [k] items := by
  obtain ⟨p, run, rfl⟩ := returns_onPool.mp ret
  exact joinWithin_interchangeable _ c hc.pool has ((PoolM.join_run c items ctx.pool).symm.trans run) hq e normal

/-- Joining operands that stand for the same gives the same handle, wherever the two runs stand on the way to `q`. -/
theorem join_eq {xs ys : List Handle} {ctx₁ ctx₂ : Context} (hc : ctx.Sound) (has : ∀ h ∈ xs, ctx.Has h)
    (left : Returns (onPool (PoolM.join c xs)) ctx h ctx₁) (hc' : ctx'.Sound) (has' : ∀ h ∈ ys, ctx'.Has h)
    (right : Returns (onPool (PoolM.join c ys)) ctx' k ctx₂) (hq : q.Sound) (e : ctx₁.pool.Extends q)
    (e' : ctx₂.pool.Extends q) (normal : ∀ h ∈ xs ++ ys, q.NegationNormal h) (same : q.Interchangeable c xs ys) :
    h = k := by
  rw [List.forall_mem_append] at normal
  obtain ⟨n, i⟩ := join_interchangeable hc has left hq e normal.1
  obtain ⟨n', i'⟩ := join_interchangeable hc' has' right hq e' normal.2
  exact eq_of_interchangeable hq n n' ((i.trans hq same).trans hq i'.symm)

section Regrouped

variable {xs ys nested : List Handle} {inner : Handle}

theorem has_nested (has : ∀ h ∈ ys, ctx.Has h) (e : ctx.Extends ctx') (here : ctx'.Has inner)
    (grouped : ∀ h, h ∈ nested ↔ h ∈ inner :: ys) : ∀ h ∈ nested, ctx'.Has h := by
  intro h hh
  rcases List.mem_cons.mp ((grouped h).mp hh) with rfl | hh
  · exact here
  · exact e.has (has h hh)

theorem normal_regrouped (here : q.NegationNormal inner) (normal : ∀ h ∈ xs ++ ys, q.NegationNormal h)
    (grouped : ∀ h, h ∈ nested ↔ h ∈ inner :: ys) (all : ∀ h, h ∈ flat ↔ h ∈ xs ++ ys) :
    ∀ h ∈ nested ++ flat, q.NegationNormal h := by
  refine List.forall_mem_append.mpr ⟨fun h hh => ?_, fun h hh => normal h ((all h).mp hh)⟩
  rcases List.mem_cons.mp ((grouped h).mp hh) with rfl | hh
  · exact here
  · exact normal h (List.mem_append_right _ hh)

theorem interchangeable_regrouped (hq : q.Sound) (inside : q.Interchangeable c [inner] xs)
    (grouped : ∀ h, h ∈ nested ↔ h ∈ inner :: ys) (all : ∀ h, h ∈ flat ↔ h ∈ xs ++ ys) :
    q.Interchangeable c nested flat :=
  ((Interchangeable.of_mem grouped).trans hq (inside.append ys)).trans hq (.of_mem fun h => (all h).symm)

end Regrouped

/-- Joining some operands first and their junction with the others gives the handle that joining all of them at once
gives, whichever is done first and in whatever order and however often the operands stand. -/
theorem join_regroups (reached : ctx.Reached) (c : Connective) {xs ys flat : List Handle}
    (has : ∀ h ∈ xs ++ ys, ctx.Has h) (normal : ∀ h ∈ xs ++ ys, ctx.pool.NegationNormal h)
    (all : ∀ h, h ∈ flat ↔ h ∈ xs ++ ys) :
    (∃ inner ctx₁, Returns (onPool (PoolM.join c xs)) ctx inner ctx₁ ∧
      ∀ nested, (∀ h, h ∈ nested ↔ h ∈ inner :: ys) → ∃ k ctx₂ ctx₃,
        Returns (onPool (PoolM.join c nested)) ctx₁ k ctx₂ ∧ Returns (onPool (PoolM.join c flat)) ctx₂ k ctx₃) ∧
    ∃ k inner ctx₁ ctx₂, Returns (onPool (PoolM.join c flat)) ctx k ctx₁ ∧
      Returns (onPool (PoolM.join c xs)) ctx₁ inner ctx₂ ∧
      ∀ nested, (∀ h, h ∈ nested ↔ h ∈ inner :: ys) → ∃ ctx₃,
        Returns (onPool (PoolM.join c nested)) ctx₂ k ctx₃ := by
  have hc := reached.reliable.sound
  have hasLeft : ∀ h ∈ xs, ctx.Has h := fun h hh => has h (List.mem_append_left _ hh)
  have hasFlat : ∀ h ∈ flat, ctx.Has h := fun h hh => has h ((all h).mp hh)
  constructor
  · obtain ⟨inner, ctx₁, ret₁, e₁, hc₁, made₁⟩ := ContextM.join_yields hc c hasLeft
    refine ⟨inner, ctx₁, ret₁, fun nested grouped => ?_⟩
    have hasNested := has_nested (fun h hh => has h (List.mem_append_right _ hh)) e₁ made₁.1 grouped
    obtain ⟨k, ctx₂, ret₂, e₂, hc₂, _⟩ := ContextM.join_yields hc₁ c hasNested
    have e₁₂ := e₁.trans e₂
    have hasFlat₂ : ∀ h ∈ flat, ctx₂.Has h := fun h hh => e₁₂.has (hasFlat h hh)
    obtain ⟨k', ctx₃, ret₃, e₃, hc₃, _⟩ := ContextM.join_yields hc₂ c hasFlat₂
    have normal₃ : ∀ h ∈ xs ++ ys, ctx₃.pool.NegationNormal h := fun h hh =>
      (normal h hh).extends hc.pool (e₁₂.trans e₃).pool (has h hh)
    have inside := join_interchangeable hc hasLeft ret₁ hc₃.pool (e₂.trans e₃).pool
      fun h hh => normal₃ h (List.mem_append_left _ hh)
    have same := join_eq hc₁ hasNested ret₂ hc₂ hasFlat₂ ret₃ hc₃.pool e₃.pool (fun hn => hn)
      (normal_regrouped inside.1 normal₃ grouped all) (interchangeable_regrouped hc₃.pool inside.2 grouped all)
    exact ⟨k, ctx₂, ctx₃, ret₂, same ▸ ret₃⟩
  · obtain ⟨k, ctx₁, ret₁, e₁, hc₁, _⟩ := ContextM.join_yields hc c hasFlat
    have hasLeft₁ : ∀ h ∈ xs, ctx₁.Has h := fun h hh => e₁.has (hasLeft h hh)
    obtain ⟨inner, ctx₂, ret₂, e₂, hc₂, made₂⟩ := ContextM.join_yields hc₁ c hasLeft₁
    refine ⟨k, inner, ctx₁, ctx₂, ret₁, ret₂, fun nested grouped => ?_⟩
    have hasNested := has_nested (fun h hh => has h (List.mem_append_right _ hh)) (e₁.trans e₂) made₂.1 grouped
    obtain ⟨k', ctx₃, ret₃, e₃, hc₃, _⟩ := ContextM.join_yields hc₂ c hasNested
    have normal₃ : ∀ h ∈ xs ++ ys, ctx₃.pool.NegationNormal h := fun h hh =>
      (normal h hh).extends hc.pool ((e₁.trans e₂).trans e₃).pool (has h hh)
    have inside := join_interchangeable hc₁ hasLeft₁ ret₂ hc₃.pool e₃.pool
      fun h hh => normal₃ h (List.mem_append_left _ hh)
    have same := join_eq hc₂ hasNested ret₃ hc hasFlat ret₁ hc₃.pool (fun hn => hn) (e₂.trans e₃).pool
      (normal_regrouped inside.1 normal₃ grouped all) (interchangeable_regrouped hc₃.pool inside.2 grouped all)
    exact ⟨ctx₃, same ▸ ret₃⟩

theorem sharedGuards_normal : (bare.after sharedGuards).pool.NegationNormal ⟨2, true⟩ ∧
    (bare.after sharedGuards).pool.NegationNormal ⟨6, false⟩ ∧
    (bare.after sharedGuards).pool.NegationNormal ⟨9, false⟩ := by
  generalize pool : (bare.after sharedGuards).pool = p
  have a : p.node? ⟨2, false⟩ = some (.symbol ⟨1⟩) := by
    rw [← pool]
    decide +kernel
  have b : p.node? ⟨3, false⟩ = some (.symbol ⟨2⟩) := by
    rw [← pool]
    decide +kernel
  have either : p.node? ⟨6, false⟩ = some (.junction .disj [⟨2, false⟩, ⟨3, false⟩]) := by
    rw [← pool]
    decide +kernel
  have eq : p.node? ⟨9, false⟩ = some (.eq ⟨4, false⟩ ⟨5, false⟩) := by
    rw [← pool]
    decide +kernel
  refine ⟨.of_node (h := ⟨2, true⟩) a (by simp), .junction either rfl ?_, .of_node eq (by simp)⟩
  exact List.forall_mem_cons.mpr ⟨.of_node a (by simp), List.forall_mem_singleton.mpr (.of_node b (by simp))⟩

/-- `!a` beside `a || b` is joined to `!a && b` first; `x == y` stands on both sides of that. -/
theorem join_regroups_shrunk : (bare.after sharedGuards).Reached ∧
    ∃ inner ctx₁ k ctx₂ ctx₃,
      Returns (onPool (PoolM.join .conj [⟨2, true⟩, ⟨6, false⟩])) (bare.after sharedGuards) inner ctx₁ ∧
      Returns (onPool (PoolM.join .conj [⟨9, false⟩, inner, ⟨9, false⟩])) ctx₁ k ctx₂ ∧
      Returns (onPool (PoolM.join .conj [⟨6, false⟩, ⟨9, false⟩, ⟨2, true⟩])) ctx₂ k ctx₃ := by
  have has : ∀ h ∈ [(⟨2, true⟩ : Handle), ⟨6, false⟩] ++ [⟨9, false⟩], (bare.after sharedGuards).Has h := by
    decide +kernel
  have normal : ∀ h ∈ [(⟨2, true⟩ : Handle), ⟨6, false⟩] ++ [⟨9, false⟩],
      (bare.after sharedGuards).pool.NegationNormal h := by simpa using sharedGuards_normal
  have all : [(⟨6, false⟩ : Handle), ⟨9, false⟩, ⟨2, true⟩].Perm ([⟨2, true⟩, ⟨6, false⟩] ++ [⟨9, false⟩]) := by decide
  obtain ⟨⟨inner, ctx₁, ret₁, rest⟩, _⟩ := join_regroups bare_reached .conj has normal fun h => all.mem_iff
  obtain ⟨k, ctx₂, ctx₃, ret₂, ret₃⟩ := rest [⟨9, false⟩, inner, ⟨9, false⟩] (by simp [or_comm])
  exact ⟨bare_reached, inner, ctx₁, k, ctx₂, ctx₃, ret₁, ret₂, ret₃⟩

end PathMerge
