/-
  PathMerge.Proofs.ChoiceOrder — it does not matter in which order branches are entered.

  A choice takes its branches in one by one: the guards of a value are joined one after another (`Gathers`). Where
  negation stands on atoms alone the order leaves no trace in the joined guards, so whatever order the branches come
  in, they are gathered into the same table but for its order (`Gathers.perm`).

  The order would still show where two guards are true, since the first one decides, and where none of them can be. It
  does not if some assignment makes guards of one value true and of no other (`Selects`): then the choice is the same
  (`choice_eq`).
-/

import PathMerge.Proofs.Connectives
import PathMerge.Proofs.Regrouping

namespace PathMerge

open Pool

theorem Connective.combine_cons (c : Connective) (as bs : List Bool) :
    c.combine (c.combine as :: bs) = c.combine (as ++ bs) := by
  cases c <;> simp [combine]

variable {c : Connective} {p p' q : Pool} {g h k v : Handle} {xs ys items : List Handle}

structure Pool.JoinOf (q : Pool) (c : Connective) (items : List Handle) (k : Handle) : Prop where
  normal : q.NegationNormal k
  same : q.Interchangeable c [k] items
  truth : ∀ assigned, q.assigns assigned k = c.combine (items.map (q.assigns assigned))

namespace Pool.JoinOf

theorem self (n : q.NegationNormal k) : q.JoinOf c [k] k := by
  refine ⟨n, .of_mem fun _ => Iff.rfl, fun assigned => ?_⟩
  cases c <;> simp [Connective.combine]

theorem append (hq : q.Sound) (first : q.JoinOf c xs g) (all : q.JoinOf c (g :: ys) k) : q.JoinOf c (xs ++ ys) k := by
  refine ⟨all.normal, all.same.trans hq (first.same.append ys), fun assigned => ?_⟩
  rw [all.truth, List.map_cons, first.truth, List.map_append, Connective.combine_cons]

theorem unique (hq : q.Sound) (a : q.JoinOf c xs h) (b : q.JoinOf c ys k) (mem : ∀ x, x ∈ xs ↔ x ∈ ys) : h = k :=
  eq_of_interchangeable hq a.normal b.normal ((a.same.trans hq (.of_mem mem)).trans hq b.same.symm)

theorem of_returns (hp : p.Sound) (has : ∀ h ∈ items, p.Has h) (ret : Returns (PoolM.join c items) p k p')
    (hq : q.Sound) (e : p'.Extends q) (normal : ∀ h ∈ items, q.NegationNormal h) : q.JoinOf c items k := by
  have counted := (PoolM.join_run c items p).symm.trans ret
  obtain ⟨e₁, hp', joined⟩ := joinWithin_joined hp has counted
  obtain ⟨n, i⟩ := joinWithin_interchangeable _ c hp has counted hq e normal
  refine ⟨n, i, fun assigned => ?_⟩
  have before : ∀ h ∈ items, q.assigns assigned h = p.assigns assigned h := fun h hh =>
    read_extends hp (fun hn => e (e₁ hn)) (has h hh)
  have after : q.assigns assigned k = p'.assigns assigned k := read_extends hp' e joined.has
  rw [after, joined.assigns, List.map_congr_left before]

end Pool.JoinOf

/-! ## Entering a branch -/

variable {bs bs' merged merged' : List Branch}

inductive AddStep (g v : Handle) (merged : List Branch) (p : Pool) (merged' : List Branch) (p' : Pool) : Prop
  | new (absent : v ∉ merged.map (·.2)) (result : merged' = merged ++ [(g, v)]) (same : p' = p)
  | shared {before after : List Branch} {g₀ k : Handle} (split : merged = before ++ (g₀, v) :: after)
      (result : merged' = before ++ (k, v) :: after) (joined : Returns (PoolM.join .disj [g₀, g]) p k p')

/-- Entering a branch either adds its value at the end or joins its guard to the one the value has. -/
theorem addStep (ret : Returns (PoolM.addBranch g v merged) p merged' p') : AddStep g v merged p merged' p' := by
  induction merged generalizing merged' with
  | nil =>
    cases ret
    exact .new (by simp) rfl rfl
  | cons b rest ih =>
    obtain ⟨g₀, w⟩ := b
    unfold PoolM.addBranch at ret
    split at ret
    · rename_i same
      subst same
      obtain ⟨k, p₁, joined, ret⟩ := returns_of_bind ret
      cases ret
      exact .shared (List.nil_append _).symm rfl joined
    · rename_i differ
      obtain ⟨rest', p₁, added, ret⟩ := returns_of_bind ret
      cases ret
      cases ih added with
      | new absent result same =>
        subst result
        exact .new (by simpa [Ne.symm differ] using absent) rfl same
      | @shared before after g₁ k split result joined =>
        subst split result
        exact .shared (List.cons_append ..).symm rfl joined

def guardsOf (v : Handle) (bs : List Branch) : List Handle := (bs.filter fun b => b.2 = v && b.1 ≠ .ff).map (·.1)

theorem mem_guardsOf : g ∈ guardsOf v bs ↔ (g, v) ∈ bs ∧ g ≠ .ff := by
  simp [guardsOf]

theorem guardsOf_snoc_self (open_ : g ≠ .ff) : guardsOf v (bs ++ [(g, v)]) = guardsOf v bs ++ [g] := by
  simp [guardsOf, open_]

theorem guardsOf_snoc_other {w : Handle} (other : v ≠ w ∨ g = .ff) : guardsOf w (bs ++ [(g, v)]) = guardsOf w bs := by
  rcases other with other | refuted
  · simp [guardsOf, other]
  · simp [guardsOf, refuted]

structure Gathers (q : Pool) (bs merged : List Branch) : Prop where
  nodup : (merged.map (·.2)).Nodup
  values : ∀ v, v ∈ merged.map (·.2) ↔ guardsOf v bs ≠ []
  guards : ∀ b ∈ merged, q.JoinOf .disj (guardsOf b.2 bs) b.1

namespace Gathers

theorem nil (q : Pool) : Gathers q [] [] := ⟨.nil, by simp [guardsOf], List.forall_mem_nil _⟩

theorem skip (gathers : Gathers q bs merged) (v : Handle) : Gathers q (bs ++ [(.ff, v)]) merged := by
  have same : ∀ w, guardsOf w (bs ++ [(.ff, v)]) = guardsOf w bs := fun w => guardsOf_snoc_other (.inr rfl)
  refine ⟨gathers.nodup, fun w => ?_, fun b hb => ?_⟩
  · rw [same]
    exact gathers.values w
  · rw [same]
    exact gathers.guards b hb

theorem new (gathers : Gathers q bs merged) (open_ : g ≠ .ff) (normal : q.NegationNormal g)
    (absent : v ∉ merged.map (·.2)) : Gathers q (bs ++ [(g, v)]) (merged ++ [(g, v)]) := by
  have none_ : guardsOf v bs = [] := not_not.mp fun some => absent ((gathers.values v).mpr some)
  refine ⟨?_, fun w => ?_, fun b hb => ?_⟩
  · rw [List.map_append]
    exact List.nodup_append'.mpr ⟨gathers.nodup, by simp, by simpa using absent⟩
  · by_cases same : v = w
    · subst same
      simp [guardsOf_snoc_self open_]
    · rw [guardsOf_snoc_other (.inl same), ← gathers.values w]
      simp [Ne.symm same]
  · rcases List.mem_append.mp hb with hb | hb
    · have other : v ≠ b.2 := fun same => absent (same ▸ List.mem_map_of_mem hb)
      rw [guardsOf_snoc_other (.inl other)]
      exact gathers.guards b hb
    · rw [List.mem_singleton.mp hb, guardsOf_snoc_self open_, none_]
      exact .self normal

/-- A branch whose value is there already only joins its guard to the guards gathered for it. -/
theorem share (hq : q.Sound) {before after : List Branch} {g₀ : Handle}
    (gathers : Gathers q bs (before ++ (g₀, v) :: after)) (open_ : g ≠ .ff) (joined : q.JoinOf .disj [g₀, g] k) :
    Gathers q (bs ++ [(g, v)]) (before ++ (k, v) :: after) := by
  have values : (before ++ (k, v) :: after).map (·.2) = (before ++ (g₀, v) :: after).map (·.2) := by simp
  refine ⟨values ▸ gathers.nodup, fun w => ?_, fun b hb => ?_⟩
  · rw [values]
    by_cases same : v = w
    · subst same
      simp [guardsOf_snoc_self open_]
    · rw [guardsOf_snoc_other (.inl same)]
      exact gathers.values w
  · have others : v ∉ (before ++ after).map (·.2) :=
      (List.nodup_cons.mp ((List.perm_middle.map Prod.snd).nodup_iff.mp gathers.nodup)).1
    have moved : b = (k, v) ∨ b ∈ before ++ after := List.mem_cons.mp (List.perm_middle.mem_iff.mp hb)
    rcases moved with rfl | hb
    · rw [guardsOf_snoc_self open_]
      exact (gathers.guards (g₀, v) (by simp)).append hq joined
    · have other : v ≠ b.2 := fun same => others (same ▸ List.mem_map_of_mem hb)
      rw [guardsOf_snoc_other (.inl other)]
      exact gathers.guards b (List.perm_middle.mem_iff.mpr (List.mem_cons_of_mem _ hb))

/-- The table does not depend on the order of the branches, but for its own order. -/
theorem perm (hq : q.Sound) (gathers : Gathers q bs merged) (gathers' : Gathers q bs' merged') (perm : bs.Perm bs') :
    merged.Perm merged' := by
  have mem : ∀ v x, x ∈ guardsOf v bs ↔ x ∈ guardsOf v bs' := fun v x => by
    rw [mem_guardsOf, mem_guardsOf, perm.mem_iff]
  have sub : ∀ {as as' ms ms'}, Gathers q as ms → Gathers q as' ms' →
      (∀ v x, x ∈ guardsOf v as ↔ x ∈ guardsOf v as') → ∀ b ∈ ms, b ∈ ms' := by
    intro as as' ms ms' one two mem b hb
    have some : guardsOf b.2 as' ≠ [] := by
      obtain ⟨x, hx⟩ := List.exists_mem_of_ne_nil _ ((one.values b.2).mp (List.mem_map_of_mem hb))
      exact List.ne_nil_of_mem ((mem b.2 x).mp hx)
    obtain ⟨b', hb', value⟩ := List.mem_map.mp ((two.values b.2).mpr some)
    have guard : b'.1 = b.1 := by
      refine (two.guards b' hb').unique hq (one.guards b hb) fun x => ?_
      rw [value, mem]
    rwa [← Prod.ext guard value]
  refine (List.perm_ext_iff_of_nodup (.of_map _ gathers.nodup) (.of_map _ gathers'.nodup)).mpr fun b => ⟨?_, ?_⟩
  · exact sub gathers gathers' mem b
  · exact sub gathers' gathers (fun v x => (mem v x).symm) b

end Gathers

/-- After merging, each value stands once, under the disjunction of all guards it came with. -/
theorem mergeBranches_gathers (hq : q.Sound) (hp : p.Sound) {done : List Branch} (has : p.HasAll bs)
    (hasMerged : p.HasAll merged) (ret : Returns (PoolM.mergeBranches merged bs) p merged' p') (e : p'.Extends q)
    (normal : ∀ b ∈ bs, q.NegationNormal b.1) (gathers : Gathers q done merged) : Gathers q (done ++ bs) merged' := by
  induction bs generalizing p merged done with
  | nil =>
    cases ret
    rwa [List.append_nil]
  | cons b rest ih =>
    obtain ⟨g, v⟩ := b
    obtain ⟨hasb, hasRest⟩ := List.forall_mem_cons.mp has
    obtain ⟨n, normalRest⟩ := List.forall_mem_cons.mp normal
    rw [List.append_cons]
    unfold PoolM.mergeBranches at ret
    split at ret
    · rename_i refuted
      subst refuted
      exact ih hp hasRest hasMerged ret normalRest (gathers.skip v)
    · rename_i open_
      obtain ⟨merged₁, p₁, added, ret⟩ := returns_of_bind ret
      obtain ⟨⟨e₁, _⟩, hp₁, made⟩ := (addBranch_yields hp hasb.1 hasb.2 merged hasMerged).of_returns added
      have hasRest₁ : p₁.HasAll rest := Pool.HasAll.extends hasRest e₁
      refine ih hp₁ hasRest₁ made.combines.has ret normalRest ?_
      cases addStep added with
      | new absent result =>
        rw [result]
        exact gathers.new open_ n absent
      | @shared before after g₀ k split result joined =>
        subst split result
        have later : p₁.Extends q := fun hn =>
          e (((mergeBranches_yields hp₁ _ rest made.combines.has hasRest₁).of_returns ret).1.1 hn)
        have first := gathers.guards (g₀, v) (by simp)
        refine gathers.share hq open_ (.of_returns hp ?_ joined hq later ?_)
        · simpa using And.intro (hasMerged (g₀, v) (by simp)).1 hasb.1
        · simpa using And.intro first.normal n

/-! ## The choice -/

inductive Picks (q : Pool) (merged : List Branch) (k : Handle) : Prop
  | decided (guard : (.tt, k) ∈ merged)
  | single {g : Handle} (only : merged = [(g, k)])
  | node (many : 2 ≤ merged.length) (open_ : ∀ b ∈ merged, b.1 ≠ .tt) (sign : k.negated = false)
      (hn : q.node? k = some (.summary (SortedList.ofList Branch.lt merged)))

theorem Branch.ofList_perm (perm : merged.Perm merged') :
    SortedList.ofList Branch.lt merged = SortedList.ofList Branch.lt merged' :=
  SortedList.ofList_congr lt_separates lt_irrefl lt_trans fun _ => perm.mem_iff

namespace Picks

theorem perm (o : Picks q merged k) (perm : merged.Perm merged') : Picks q merged' k := by
  cases o with
  | decided guard => exact .decided (perm.mem_iff.mp guard)
  | single only =>
    subst only
    exact .single (List.perm_singleton.mp perm.symm)
  | node many open_ sign hn =>
    refine .node (perm.length_eq ▸ many) (fun b hb => open_ b (perm.mem_iff.mpr hb)) sign ?_
    rwa [← Branch.ofList_perm perm]

/-- If no two values have a true guard, the table decides. -/
theorem unique (hq : q.Sound) (sole : ∀ v w, (.tt, v) ∈ merged → (.tt, w) ∈ merged → v = w) (o : Picks q merged h)
    (o' : Picks q merged k) : h = k := by
  cases o with
  | decided guard =>
    cases o' with
    | decided guard' => exact sole h k guard guard'
    | single only =>
      subst only
      exact congrArg Prod.snd (List.mem_singleton.mp guard)
    | node _ open_ => exact absurd rfl (open_ _ guard)
  | single only =>
    subst only
    cases o' with
    | decided guard => exact (congrArg Prod.snd (List.mem_singleton.mp guard)).symm
    | single only => exact congrArg Prod.snd (List.singleton_injective only)
    | node many => simp at many
  | node many open_ sign hn =>
    cases o' with
    | decided guard => exact absurd rfl (open_ _ guard)
    | single only => simp [only] at many
    | node _ _ sign' hn' => exact hq.eq_of_node hn hn' (sign.trans sign'.symm)

end Picks

/-- Some assignment makes guards of one value true, and of no other. -/
def Selects (q : Pool) (bs : List Branch) : Prop :=
  ∃ assigned, ∃ b₀ ∈ bs, q.assigns assigned b₀.1 = true ∧ ∀ b ∈ bs, q.assigns assigned b.1 = true → b.2 = b₀.2

theorem Selects.perm (s : Selects q bs) (perm : bs.Perm bs') : Selects q bs' := by
  obtain ⟨assigned, b₀, hb₀, holds, sole⟩ := s
  exact ⟨assigned, b₀, perm.mem_iff.mp hb₀, holds, fun b hb => sole b (perm.mem_iff.mpr hb)⟩

theorem assigns_tt (hq : q.Sound) (assigned : Node → Bool) : q.assigns assigned .tt = true :=
  assigns_node hq hq.truth

theorem assigns_ff (hq : q.Sound) (assigned : Node → Bool) : q.assigns assigned .ff = false := by
  rw [show Handle.ff = -.tt from rfl, assigns_neg hq hq.has_tt, assigns_tt hq]
  rfl

namespace Gathers

theorem ne_nil (hq : q.Sound) (gathers : Gathers q bs merged) (s : Selects q bs) : merged ≠ [] := by
  obtain ⟨assigned, b₀, hb₀, holds, _⟩ := s
  have open_ : b₀.1 ≠ .ff := by
    intro refuted
    rw [refuted, assigns_ff hq] at holds
    cases holds
  have some : b₀.2 ∈ merged.map (·.2) := (gathers.values b₀.2).mpr (List.ne_nil_of_mem (mem_guardsOf.mpr ⟨hb₀, open_⟩))
  rintro rfl
  cases some

/-- The only value that can have a true guard is the one that is selected. -/
theorem sole (hq : q.Sound) (gathers : Gathers q bs merged) (s : Selects q bs) :
    ∀ v w, (.tt, v) ∈ merged → (.tt, w) ∈ merged → v = w := by
  obtain ⟨assigned, b₀, _, _, only⟩ := s
  have selected : ∀ v, (.tt, v) ∈ merged → v = b₀.2 := by
    intro v hv
    have holds := (gathers.guards (.tt, v) hv).truth assigned
    rw [assigns_tt hq] at holds
    obtain ⟨b, hb, yes⟩ := List.any_eq_true.mp holds.symm
    obtain ⟨g, hg, rfl⟩ := List.mem_map.mp hb
    exact only (g, v) (mem_guardsOf.mp hg).1 yes
  intro v w hv hw
  rw [selected v hv, selected w hw]

end Gathers

/-- What a choice returns depends on the gathered guards only, and not on the order in which they came. -/
theorem choice_picks (hp : p.Sound) (has : p.HasAll bs) (ret : Returns (PoolM.choice bs) p k p') (hq : q.Sound)
    (e : p'.Extends q) (normal : ∀ b ∈ bs, q.NegationNormal b.1) (s : Selects q bs) :
    ∃ merged, Gathers q bs merged ∧ Picks q merged k := by
  obtain ⟨merged, p₁, gathered, step⟩ := choiceStep ret
  have gathers : p₁.Extends q → Gathers q bs merged := fun later =>
    mergeBranches_gathers hq hp has (List.forall_mem_nil _) gathered later normal (.nil q)
  cases step with
  | refuted _ same none_ =>
    subst same
    exact absurd none_ ((gathers e).ne_nil hq s)
  | decided _ same how =>
    subst same
    refine ⟨merged, gathers e, ?_⟩
    rcases how with guard | ⟨g, only⟩
    · exact .decided guard
    · exact .single only
  | node made many open_ =>
    obtain ⟨sign, hn, grown⟩ := returns_intern made
    exact ⟨merged, gathers fun hn => e (grown.nodes hn), .node many open_ sign (e hn)⟩

/-- The choice among branches that come in another order is the same, wherever the two runs stand on the way to `q`.
-/
theorem choice_eq {r r' : Pool} (hp : p.Sound) (has : p.HasAll bs) (left : Returns (PoolM.choice bs) p h p')
    (hr : r.Sound) (has' : r.HasAll bs') (right : Returns (PoolM.choice bs') r k r') (hq : q.Sound) (e : p'.Extends q)
    (e' : r'.Extends q) (normal : ∀ b ∈ bs, q.NegationNormal b.1) (perm : bs.Perm bs') (s : Selects q bs) : h = k := by
  obtain ⟨merged, gathers, picks⟩ := choice_picks hp has left hq e normal s
  obtain ⟨merged', gathers', picks'⟩ := choice_picks hr has' right hq e'
    (fun b hb => normal b (perm.mem_iff.mpr hb)) (s.perm perm)
  exact picks.unique hq (gathers.sole hq s) (picks'.perm (gathers'.perm hq gathers perm.symm))

end PathMerge
