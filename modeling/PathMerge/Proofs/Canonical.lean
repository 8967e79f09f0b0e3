/-
  PathMerge.Proofs.Canonical — what is in canonical form is left alone.

  `JoinStep` says what a step of `join` can do. So joining keeps a set of expressions that is closed under
  taking junctions apart and putting them together (`join_nest`), and choosing adds no more than a summary of
  branches from the set (`choice_nest`).

  Every node of a sound pool is in canonical form, and then there is nothing left to do: joining the operands of a
  junction, comparing the sides of an equation or choosing among the branches of a summary gives the node back
  and changes nothing (`join_again`, `equation_again`, `choice_again`).
-/

import PathMerge.Proofs.Choice
import PathMerge.Proofs.Steady

namespace PathMerge

/-- What an action that yields something returned. -/
theorem Yields.of_returns {σ α : Type} [Growing σ] {x : Action σ α} {s s' : σ} {a : α} {Q : α → σ → Prop}
    (h : Yields x s Q) (ret : Returns x s a s') : Growing.Extends s s' ∧ Growing.Sound s' ∧ Q a s' := by
  obtain ⟨b, t, hb, rest⟩ := h
  obtain ⟨rfl, rfl⟩ := returns_unique hb ret
  exact rest

variable {c : Connective} {p p' : Pool}

/-! ## One step of a junction -/

inductive JoinStep (steps : Nat) (c : Connective) (items : List Handle) (p : Pool) (k : Handle) (p' : Pool) : Prop
  | absorbed (result : k = c.absorbing) (same : p' = p)
      (decided : c.absorbing ∈ items ∨ ∃ ops, Flattened p c items ops ∧ ∃ x ∈ ops, -x ∈ ops)
  | empty (result : k = c.neutral) (same : p' = p) (flat : Flattened p c items [])
  | single (flat : Flattened p c items [k]) (same : p' = p)
  | node {ops : List Handle} (flat : Flattened p c items ops) (made : Returns (PoolM.intern (.junction c ops)) p k p')
  | drop {before after : List Handle} {h : Handle} (flat : Flattened p c items (before ++ h :: after))
      (rest : Returns (PoolM.joinWithin steps c (before ++ after)) p k p')
      (held : ∃ inner, p.node? h = some (.junction c.dual inner) ∧ h.negated = false ∧
        ∃ x ∈ inner, x ∈ before ++ h :: after)
  | shrink {before after inner kept : List Handle} {h smaller : Handle} {p₁ : Pool}
      (flat : Flattened p c items (before ++ h :: after)) (dual : p.node? h = some (.junction c.dual inner))
      (part : ∀ x ∈ kept, x ∈ inner) (shrunk : Returns (PoolM.joinWithin steps c.dual kept) p smaller p₁)
      (rest : Returns (PoolM.joinWithin steps c (before ++ smaller :: after)) p₁ k p') (sign : h.negated = false)
      (left : kept = inner.filter fun x => !(before ++ h :: after).contains (-x))

/-- The ways a round of a join can end: decided at once, interned as a junction, or taken up again after dropping or
shrinking an operand. -/
theorem joinStep (hp : p.Sound) {steps : Nat} {items : List Handle} (hh : ∀ h ∈ items, p.Has h) {k : Handle}
    (ret : Returns (PoolM.joinWithin (steps + 1) c items) p k p') : JoinStep steps c items p k p' := by
  unfold PoolM.joinWithin at ret
  obtain ⟨r, p₁, hflat, ret⟩ := returns_of_bind ret
  obtain ⟨_, _, rfl, flattened⟩ := (flatten_yields hp items hh).of_returns hflat
  cases r with
  | none =>
    cases ret
    exact .absorbed rfl rfl (.inl flattened)
  | some flat =>
    have flattened := flattened.2.sorted
    have has := flattened.has hp hh
    dsimp only at ret
    generalize Handle.sorted flat = ops at flattened has ret
    by_cases comp : Handle.hasComplements ops = true
    · rw [if_pos comp] at ret
      cases ret
      exact .absorbed rfl rfl (.inr ⟨ops, flattened, Handle.of_hasComplements comp⟩)
    · rw [if_neg comp] at ret
      obtain ⟨a, p₂, habsorb, ret⟩ := returns_of_bind ret
      obtain ⟨_, _, rfl, found⟩ := (absorption?_yields hp ops [] ops rfl has).of_returns habsorb
      rcases a with _ | a
      · rcases ops with _ | ⟨x, _ | ⟨y, rest⟩⟩
        · cases ret
          exact .empty rfl rfl flattened
        · cases ret
          exact .single flattened rfl
        · exact .node flattened ret
      · obtain ⟨before, h, after, inner, rfl, hn, sign, ha⟩ := found
        cases a with
        | drop rest =>
          obtain ⟨rfl, held⟩ := ha
          exact .drop flattened ret ⟨inner, hn, sign, held⟩
        | shrink l kept r =>
          obtain ⟨rfl, rfl, hkept, _⟩ := ha
          obtain ⟨smaller, p₁, shrunk, ret⟩ := returns_of_bind ret
          refine .shrink flattened hn (fun x hx => ?_) shrunk ret sign hkept
          rw [hkept] at hx
          exact (List.mem_filter.mp hx).1

/-- Whatever number of steps it had, a junction that was returned is sound. -/
theorem joinWithin_joined (hp : p.Sound) {steps : Nat} {items : List Handle} (hh : ∀ h ∈ items, p.Has h) {k : Handle}
    (ret : Returns (PoolM.joinWithin steps c items) p k p') : p.Extends p' ∧ p'.Sound ∧ Joined c p items k p' := by
  have enough := joinWithin_yields (steps + (1 + (items.map p.treeSize).sum)) c hp items hh (by omega)
  have more := Covers.of_succ (fun n => PoolM.joinWithin_covers n c items)
    (Nat.le_add_right steps (1 + (items.map p.treeSize).sum)) _ _ _ ret
  obtain ⟨e, hp', joined⟩ := enough.of_returns more
  exact ⟨e.1, hp', joined⟩

/-! ## Sets of expressions closed under joining -/

/-- A set `B` of expressions from which junctions are taken apart and put together without leaving it. -/
structure Nest (B : Pool → Handle → Prop) : Prop where
  grows : ∀ {p q h}, p.Grown q → q.Tidy → B p h → B q h
  neg : ∀ {p h}, B p h → B p (-h)
  tt : ∀ {p}, p.Sound → B p .tt
  operands : ∀ {p h c items}, B p h → p.node? h = some (.junction c items) → ∀ x ∈ items, B p x
  junction : ∀ {p h c items}, p.node? h = some (.junction c items) → (∀ x ∈ items, B p x) → B p h

variable {B : Pool → Handle → Prop}

theorem Nest.neutral (nest : Nest B) (hp : p.Sound) (c : Connective) : B p c.neutral := by
  cases c with
  | conj => exact nest.tt hp
  | disj => exact nest.neg (nest.tt hp)

theorem Nest.flattened (nest : Nest B) {items flat : List Handle} (hb : ∀ h ∈ items, B p h)
    (f : Flattened p c items flat) : ∀ x ∈ flat, B p x := by
  intro x hx
  rcases f.origin x hx with hx | ⟨h, hh, inner, hn, hx⟩
  · exact hb x hx
  · exact nest.operands (hb h hh) hn x hx

theorem returns_intern {n : Node} {k : Handle} (ret : Returns (PoolM.intern n) p k p') :
    k.negated = false ∧ p'.node? k = some n ∧ p.Grown p' := by
  cases ret
  exact ⟨rfl, Pool.node?_put p n, Pool.grown_put p n⟩

/-- With one operand shrunk, all operands are there and still in the set. -/
theorem Nest.shrunk (nest : Nest B) {steps : Nat} (hp : p.Sound) {before after inner kept : List Handle}
    {h smaller : Handle} (has : ∀ x ∈ before ++ h :: after, p.Has x) (inside : ∀ x ∈ before ++ h :: after, B p x)
    (dual : p.node? h = some (.junction c.dual inner)) (part : ∀ x ∈ kept, x ∈ inner)
    (small : B p' smaller) (ret : Returns (PoolM.joinWithin steps c.dual kept) p smaller p') :
    p'.Sound ∧ ∀ x ∈ before ++ smaller :: after, p'.Has x ∧ B p' x := by
  obtain ⟨e, hp', joined⟩ := joinWithin_joined hp (fun x hx => hp.has_child dual (part x hx)) ret
  refine ⟨hp', fun x hx => ?_⟩
  rcases mem_replaced.mp hx with rfl | hx
  · exact ⟨joined.has, small⟩
  · refine ⟨e.has (has x (mem_replaced.mpr (.inr hx))), ?_⟩
    exact nest.grows ((PoolM.joinWithin_straight _ _ _).of_returns ret) hp'.tidy (inside x (mem_replaced.mpr (.inr hx)))

/-- A property of formulas that nests through junctions holds of a join when it holds of the operands. -/
theorem joinWithin_nest (nest : Nest B) (steps : Nat) (c : Connective) {p p' : Pool} (hp : p.Sound)
    {items : List Handle} (hh : ∀ h ∈ items, p.Has h) (hb : ∀ h ∈ items, B p h) {k : Handle}
    (ret : Returns (PoolM.joinWithin steps c items) p k p') : B p' k := by
  induction steps generalizing c p items k p' with
  | zero => cases ret
  | succ steps ih =>
    cases joinStep hp hh ret with
    | absorbed result same => exact same ▸ result ▸ nest.neg (nest.neutral hp c)
    | empty result same => exact same ▸ result ▸ nest.neutral hp c
    | single flat same => exact same ▸ nest.flattened hb flat k (by simp)
    | node flat made =>
      obtain ⟨_, hn, grown⟩ := returns_intern made
      have tidy := (PoolM.intern_steady _).tidy_returns hp.tidy made
      exact nest.junction hn fun x hx => nest.grows grown tidy (nest.flattened hb flat x hx)
    | drop flat rest =>
      refine ih c hp (fun x hx => ?_) (fun x hx => ?_) rest
      · exact flat.has hp hh x (mem_replaced.mpr (.inr hx))
      · exact nest.flattened hb flat x (mem_replaced.mpr (.inr hx))
    | @shrink before after inner kept h smaller p₁ flat dual part shrunk rest =>
      have inside := nest.flattened hb flat
      have small := ih c.dual hp (fun x hx => hp.has_child dual (part x hx))
        (fun x hx => nest.operands (inside h (by simp)) dual x (part x hx)) shrunk
      obtain ⟨hp₁, all⟩ := nest.shrunk hp (flat.has hp hh) inside dual part small shrunk
      exact ih c hp₁ (fun x hx => (all x hx).1) (fun x hx => (all x hx).2) rest

theorem join_nest (nest : Nest B) (hp : p.Sound) {items : List Handle} (hh : ∀ h ∈ items, p.Has h)
    (hb : ∀ h ∈ items, B p h) {k : Handle} (ret : Returns (PoolM.join c items) p k p') : B p' k :=
  joinWithin_nest nest _ c hp hh hb ((PoolM.join_run c items p).symm.trans ret)

/-! ## Building a node again -/

theorem operands?_apart (hp : p.Sound) {h : Handle} (hh : p.Has h) (apart : p.Apart c h) :
    Returns (PoolM.operands? c h) p none p := by
  obtain ⟨r, q, ret, _, _, rfl, found⟩ := operands?_yields (c := c) hp hh
  cases r with
  | none => exact ret
  | some items => exact absurd found.1 (apart.nested found.2 items)

theorem flatten_apart (hp : p.Sound) {items : List Handle} (hh : ∀ h ∈ items, p.Has h)
    (apart : ∀ x ∈ items, p.Apart c x) : Returns (PoolM.flatten c items) p (some items) p := by
  induction items with
  | nil => rfl
  | cons h rest ih =>
    obtain ⟨first, others⟩ := List.forall_mem_cons.mp apart
    obtain ⟨here, there⟩ := List.forall_mem_cons.mp hh
    unfold PoolM.flatten
    rw [if_neg (first.ne_neutral c), if_neg (first.ne_absorbing c)]
    exact returns_bind (operands?_apart hp here first) (returns_bind (ih there others) rfl)

/-- The search for an absorption comes back empty on operands of which none absorbs another. -/
theorem absorption?_unabsorbed (hp : p.Sound) {items : List Handle} (hh : ∀ h ∈ items, p.Has h)
    (free : ∀ x ∈ items, p.Unabsorbed c items x) : Returns (PoolM.absorption? c items [] items) p none p := by
  obtain ⟨r, q, ret, _, _, rfl, found⟩ := absorption?_yields (c := c) hp items [] items rfl hh
  cases r with
  | none => exact ret
  | some a =>
    obtain ⟨before, h, after, inner, split, hn, sign, how⟩ := found
    have clear := free h (by simp [split]) sign inner hn
    cases a with
    | drop rest =>
      obtain ⟨_, x, hx, there⟩ := how
      exact absurd there (clear x hx).1
    | shrink l kept r =>
      obtain ⟨_, _, rfl, short⟩ := how
      obtain ⟨x, hx, out⟩ := List.length_filter_lt_length_iff_exists.mp short
      simp only [Bool.not_eq_true, Bool.not_eq_false', List.contains_iff_mem] at out
      exact absurd out (clear x hx).2

theorem intern_found (hp : p.Tidy) {n : Node} {h : Handle} (sign : h.negated = false) (hn : p.node? h = some n) :
    Returns (PoolM.intern n) p h p := by
  show ((Except.ok (p.put n).1, (p.put n).2) : Except Failure Handle × Pool) = _
  rw [hp.put_found sign hn]

def assemble (c : Connective) : List Handle → PoolM Handle
  | [] => pure c.neutral
  | [h] => pure h
  | items => PoolM.intern (.junction c items)

/-- Operands in canonical form are joined as they are. -/
theorem joinWithin_canonical (hp : p.Sound) {items : List Handle} (has : ∀ x ∈ items, p.Has x)
    (sorted : items.Pairwise (Handle.lt · · = true)) (apart : ∀ x ∈ items, p.Apart c x)
    (consistent : ∀ x ∈ items, -x ∉ items) (unabsorbed : ∀ x ∈ items, p.Unabsorbed c items x) (steps : Nat) :
    (PoolM.joinWithin (steps + 1) c items).run.run p = (assemble c items).run.run p := by
  have clear : ¬ Handle.hasComplements items = true := by
    intro found
    obtain ⟨a, ha, ha'⟩ := Handle.of_hasComplements found
    exact consistent a ha ha'
  have same : Handle.sorted items = items := SortedList.ofList_sorted sorted
  unfold PoolM.joinWithin
  rw [run_bind_ok (flatten_apart hp has apart)]
  dsimp only
  rw [same, if_neg clear, run_bind_ok (absorption?_unabsorbed hp has unabsorbed)]
  rcases items with _ | ⟨x, _ | ⟨y, rest⟩⟩ <;> rfl

/-- Joining the operands of a junction gives it back. -/
theorem join_again (hp : p.Sound) {h : Handle} {items : List Handle} (hn : p.node? h = some (.junction c items))
    (sign : h.negated = false) : Returns (PoolM.join c items) p h p := by
  have flat : p.Flat c items := hp.formed hn
  have has : ∀ x ∈ items, p.Has x := fun x hx => hp.has_child hn hx
  refine (PoolM.join_run c items p).trans ?_
  obtain ⟨steps, hsteps⟩ : ∃ steps, PoolM.joinSteps p items = steps + 1 := ⟨_, Nat.add_comm _ _⟩
  rw [hsteps, joinWithin_canonical hp has flat.sorted flat.apart flat.consistent flat.unabsorbed]
  have many := flat.many
  rcases items with _ | ⟨x, _ | ⟨y, rest⟩⟩
  · cases many
  · simp at many
  · exact intern_found hp.tidy sign hn

/-- Comparing the sides of an equation gives it back. -/
theorem equation_again (hp : p.Sound) {h a b : Handle} (hn : p.node? h = some (.eq a b)) (sign : h.negated = false) :
    Returns (PoolM.equation a b) p h p := by
  have undecided : p.Undecided a b := hp.formed hn
  obtain ⟨la, q, left, _, _, rfl, hla⟩ := isLiteral_yields hp (hp.has_child hn (c := a) (by simp [Node.children]))
  obtain ⟨lb, q, right, _, _, rfl, hlb⟩ := isLiteral_yields hp (hp.has_child hn (c := b) (by simp [Node.children]))
  unfold PoolM.equation
  rw [if_neg undecided.differ, if_neg undecided.opposed, if_neg undecided.left.1, if_neg undecided.right.1,
    if_neg undecided.left.2, if_neg undecided.right.2]
  refine returns_bind left ?_
  cases la with
  | false => exact intern_found hp.tidy sign hn
  | true =>
    refine returns_bind right ?_
    cases lb with
    | false => exact intern_found hp.tidy sign hn
    | true =>
      obtain ⟨sa, l, hl⟩ := hla.mp rfl
      obtain ⟨sb, m, hm⟩ := hlb.mp rfl
      exact absurd hm (undecided.literals sa sb l m hl)

theorem addBranch_new {g v : Handle} {merged : List Branch} (new : v ∉ merged.map (·.2)) :
    Returns (PoolM.addBranch g v merged) p (merged ++ [(g, v)]) p := by
  induction merged with
  | nil => rfl
  | cons b rest ih =>
    simp only [List.map_cons, List.mem_cons, not_or] at new
    unfold PoolM.addBranch
    rw [if_neg (Ne.symm new.1)]
    exact returns_bind (ih new.2) rfl

/-- Branches with distinct values and open guards are left in place. -/
theorem mergeBranches_separate {merged bs : List Branch} (values : ((merged ++ bs).map (·.2)).Nodup)
    (guards : ∀ b ∈ bs, b.1 ≠ .ff) : Returns (PoolM.mergeBranches merged bs) p (merged ++ bs) p := by
  induction bs generalizing merged with
  | nil =>
    rw [List.append_nil]
    rfl
  | cons b bs ih =>
    have moved : merged ++ b :: bs = (merged ++ [b]) ++ bs := by simp
    have new : b.2 ∉ merged.map (·.2) := by
      rw [List.map_append, List.map_cons] at values
      intro there
      exact List.disjoint_of_nodup_append values there (by simp)
    unfold PoolM.mergeBranches
    rw [if_neg (guards b (by simp))]
    refine returns_bind (addBranch_new new) ?_
    rw [moved] at values ⊢
    exact ih values fun b hb => guards b (List.mem_cons_of_mem _ hb)

/-- Choosing among the branches of a summary gives it back. -/
theorem choice_again (hp : p.Sound) {h : Handle} {bs : List Branch} (hn : p.node? h = some (.summary bs))
    (sign : h.negated = false) : Returns (PoolM.choice bs) p h p := by
  have sep : Separate bs := hp.formed hn
  have merged : Returns (PoolM.mergeBranches [] bs) p ([] ++ bs) p :=
    mergeBranches_separate sep.values fun b hb => (sep.guards b hb).2
  have undecided : bs.find? (·.1 = .tt) = none := by
    refine List.find?_eq_none.mpr fun b hb => ?_
    simpa using (sep.guards b hb).1
  have sorted : SortedList.ofList Branch.lt bs = bs := SortedList.ofList_sorted sep.sorted
  have many := sep.many
  rcases bs with _ | ⟨b, _ | ⟨b', rest⟩⟩
  · cases many
  · simp at many
  · unfold PoolM.choice
    refine returns_bind merged ?_
    dsimp only [List.nil_append]
    rw [undecided]
    dsimp only
    rw [sorted]
    exact intern_found hp.tidy sign hn

/-! ## One step of an equation -/

theorem returns_isLiteral {p p' : Pool} {h : Handle} {b : Bool} (ret : Returns (PoolM.isLiteral h) p b p') :
    p' = p := by
  unfold PoolM.isLiteral at ret
  split at ret
  · cases ret
    rfl
  · obtain ⟨n, q, found, ret⟩ := returns_of_bind ret
    obtain ⟨_, rfl⟩ := Prod.mk.inj ((PoolM.node_run h p).symm.trans found)
    split at ret <;>
    · cases ret
      rfl

/-- An equation is decided, or one of its sides, or a node with its sides as given. -/
theorem equation_cases {p p' : Pool} {a b k : Handle} (ret : Returns (PoolM.equation a b) p k p') :
    (k ∈ [.tt, .ff, a, b, -a, -b] ∧ p' = p) ∨ Returns (PoolM.intern (.eq a b)) p k p' := by
  have decided : ∀ both : Bool, Returns (if both then pure .ff else PoolM.intern (.eq a b)) p k p' →
      (k ∈ [.tt, .ff, a, b, -a, -b] ∧ p' = p) ∨ Returns (PoolM.intern (.eq a b)) p k p' := by
    intro both ret
    cases both with
    | true =>
      cases ret
      exact .inl (by simp)
    | false => exact .inr ret
  unfold PoolM.equation at ret
  iterate 6
    split at ret
    · cases ret
      exact .inl (by simp)
  obtain ⟨left, q, first, ret⟩ := returns_of_bind ret
  obtain rfl := returns_isLiteral first
  cases left with
  | false => exact decided false ret
  | true =>
    obtain ⟨right, q', second, ret'⟩ := returns_of_bind ret
    obtain rfl := returns_isLiteral second
    exact decided right ret'

/-! ## Choices from a set of expressions -/

theorem addBranch_nest (nest : Nest B) (hp : p.Sound) {g v : Handle} {merged merged' : List Branch}
    (inside : B p g ∧ B p v) (hg : p.Has g) (hasAll : p.HasAll merged) (all : ∀ b ∈ merged, B p b.1 ∧ B p b.2)
    (ret : Returns (PoolM.addBranch g v merged) p merged' p') : ∀ b ∈ merged', B p' b.1 ∧ B p' b.2 := by
  have tidy := (PoolM.addBranch_straight g v merged).tidy_returns hp.tidy ret
  have grown : p.Grown p' := (PoolM.addBranch_straight _ _ _).of_returns ret
  induction merged generalizing merged' with
  | nil =>
    cases ret
    simpa using inside
  | cons b rest ih =>
    obtain ⟨hasb, hasRest⟩ := List.forall_mem_cons.mp hasAll
    obtain ⟨hb, others⟩ := List.forall_mem_cons.mp all
    unfold PoolM.addBranch at ret
    split at ret
    · obtain ⟨k, p₁, joined, ret⟩ := returns_of_bind ret
      cases ret
      have shared := join_nest nest hp (by simp [hasb.1, hg]) (by simp [hb.1, inside.1]) joined
      refine List.forall_mem_cons.mpr ⟨⟨shared, nest.grows grown tidy hb.2⟩, fun c hc => ?_⟩
      exact ⟨nest.grows grown tidy (others c hc).1, nest.grows grown tidy (others c hc).2⟩
    · obtain ⟨rest', p₁, added, ret⟩ := returns_of_bind ret
      cases ret
      refine List.forall_mem_cons.mpr ⟨⟨?_, ?_⟩, ih hasRest others added⟩
      exacts [nest.grows grown tidy hb.1, nest.grows grown tidy hb.2]

theorem mergeBranches_nest (nest : Nest B) (hp : p.Sound) {merged bs merged' : List Branch} (has : p.HasAll bs)
    (hasMerged : p.HasAll merged) (inside : ∀ b ∈ bs, B p b.1 ∧ B p b.2) (all : ∀ b ∈ merged, B p b.1 ∧ B p b.2)
    (ret : Returns (PoolM.mergeBranches merged bs) p merged' p') : ∀ b ∈ merged', B p' b.1 ∧ B p' b.2 := by
  induction bs generalizing merged p with
  | nil =>
    cases ret
    exact all
  | cons b bs ih =>
    obtain ⟨hb, insideRest⟩ := List.forall_mem_cons.mp inside
    obtain ⟨hasb, hasRest⟩ := List.forall_mem_cons.mp has
    unfold PoolM.mergeBranches at ret
    split at ret
    · exact ih hp hasRest hasMerged insideRest all ret
    · obtain ⟨merged₁, p₁, added, ret⟩ := returns_of_bind ret
      obtain ⟨⟨e, _⟩, hp₁, made⟩ := (addBranch_yields hp hasb.1 hasb.2 merged hasMerged).of_returns added
      have grown : p.Grown p₁ := (PoolM.addBranch_straight _ _ _).of_returns added
      refine ih hp₁ (Pool.HasAll.extends hasRest e) made.combines.has (fun c hc => ?_)
        (addBranch_nest nest hp hb hasb.1 hasMerged all added) ret
      exact ⟨nest.grows grown hp₁.tidy (insideRest c hc).1, nest.grows grown hp₁.tidy (insideRest c hc).2⟩

inductive ChoiceStep (bs merged : List Branch) (p : Pool) (k : Handle) (p' : Pool) : Prop
  | refuted (result : k ∈ bs.map (·.2)) (same : p' = p) (none_ : merged = [])
  | decided (result : k ∈ merged.map (·.2)) (same : p' = p) (how : (.tt, k) ∈ merged ∨ ∃ g, merged = [(g, k)])
  | node (made : Returns (PoolM.intern (.summary (SortedList.ofList Branch.lt merged))) p k p')
      (many : 2 ≤ merged.length) (open_ : ∀ b ∈ merged, b.1 ≠ .tt)

/-- A choice first merges its branches and then collapses what is left. -/
theorem choiceStep {bs : List Branch} {k : Handle} (ret : Returns (PoolM.choice bs) p k p') :
    ∃ merged p₁, Returns (PoolM.mergeBranches [] bs) p merged p₁ ∧ ChoiceStep bs merged p₁ k p' := by
  rcases bs with _ | ⟨⟨g, first⟩, rest⟩
  · cases ret
  unfold PoolM.choice at ret
  obtain ⟨merged, p₁, hmerged, ret⟩ := returns_of_bind ret
  refine ⟨merged, p₁, hmerged, ?_⟩
  cases found : merged.find? (·.1 = .tt) with
  | some b =>
    rw [found] at ret
    cases ret
    have mem := List.mem_of_find?_eq_some found
    have guard : b.1 = .tt := by simpa using List.find?_some found
    exact .decided (List.mem_map_of_mem mem) rfl (.inl (guard ▸ mem))
  | none =>
    rw [found] at ret
    have open_ : ∀ b ∈ merged, b.1 ≠ .tt := fun b hb => by simpa using List.find?_eq_none.mp found b hb
    rcases merged with _ | ⟨b, _ | ⟨b', more⟩⟩
    · cases ret
      exact .refuted (by simp) rfl rfl
    · cases ret
      exact .decided (by simp) rfl (.inr ⟨b.1, rfl⟩)
    · exact .node ret (by simp) open_

/-- A choice from the set is in the set, or it is a summary of branches from the set. -/
theorem choice_nest (nest : Nest B) (hp : p.Sound) {bs : List Branch} (inside : ∀ b ∈ bs, B p b.1 ∧ B p b.2)
    (has : p.HasAll bs) {k : Handle} (ret : Returns (PoolM.choice bs) p k p') :
    B p' k ∨ ∃ made, p'.node? k = some (.summary made) ∧ ∀ b ∈ made, B p' b.1 ∧ B p' b.2 := by
  obtain ⟨merged, p₁, hmerged, step⟩ := choiceStep ret
  obtain ⟨_, hp₁, _⟩ := (mergeBranches_yields hp [] bs (List.forall_mem_nil _) has).of_returns hmerged
  have entered := mergeBranches_nest nest hp has (List.forall_mem_nil _) inside (List.forall_mem_nil _) hmerged
  cases step with
  | refuted result same =>
    subst same
    obtain ⟨b, hb, rfl⟩ := List.mem_map.mp result
    exact .inl (nest.grows ((PoolM.mergeBranches_straight _ _).of_returns hmerged) hp₁.tidy (inside b hb).2)
  | decided result same =>
    subst same
    obtain ⟨b, hb, rfl⟩ := List.mem_map.mp result
    exact .inl (entered b hb).2
  | node made =>
    obtain ⟨_, hn, grown⟩ := returns_intern made
    have tidy := (PoolM.intern_steady _).tidy_returns hp₁.tidy made
    refine .inr ⟨_, hn, fun b hb => ?_⟩
    obtain ⟨guard, value⟩ := entered b ((SortedList.mem_ofList Branch.lt_separates).mp hb)
    exact ⟨nest.grows grown tidy guard, nest.grows grown tidy value⟩

end PathMerge
