/-
  PathMerge.Proofs.Choice — equations and guarded values in canonical form.

  `equation_yields`: what `equation` decides is so. `choice_yields`: wherever exactly one guard is
  true, the handle that `choice` builds has the value under it.
-/

import PathMerge.Proofs.Junction

namespace PathMerge

variable {p p' : Pool}

/-! ## Equations -/

theorem isLiteral_yields (hp : p.Sound) {h : Handle} (hh : p.Has h) :
    Yields (PoolM.isLiteral h) p fun b p' => p = p' ∧
      (b = true ↔ h.negated = false ∧ ∃ l, p.node? h = some (.literal l)) := by
  unfold PoolM.isLiteral
  by_cases sign : h.negated = true
  · rw [if_pos sign]
    exact Yields.pure hp ⟨rfl, by simp [sign]⟩
  · rw [if_neg sign]
    obtain ⟨n, hn⟩ := Pool.has_iff.mp hh
    refine (node_yields hp hn).bind ?_
    rintro _ _ _ _ ⟨rfl, rfl⟩
    cases n with
    | literal l => exact Yields.pure hp ⟨rfl, by simpa [hn] using sign⟩
    | _ => exact Yields.pure hp ⟨rfl, by simp [hn]⟩

noncomputable def Pool.same (p : Pool) (M : Meaning) (a b : Handle) : Option Value :=
  (p.eval M a).bind fun x => (p.eval M b).bind fun y => x.same? y

namespace Value

theorem same?_self (x : Value) : x.same? x = some (.bool true) := by
  unfold same?
  simp

theorem same?_ne {x y z : Value} (ne : x ≠ y) (h : x.same? y = some z) : z = .bool false := by
  unfold same? at h
  split at h
  · cases h
    simp [ne]
  · cases h

theorem same?_bool {b : Bool} {y z : Value} (h : (bool b).same? y = some z) :
    ∃ c, y = bool c ∧ z = bool (b == c) := by
  unfold same? at h
  split at h
  · rename_i hb
    obtain ⟨c, rfl⟩ : ∃ c, y = bool c := by
      rcases y with ⟨⟨c⟩ | _ | _⟩ | _ | _ | _ <;> simp_all [isBool]
    cases h
    refine ⟨c, rfl, ?_⟩
    cases b <;> cases c <;> simp
  · cases h

theorem same?_comm (x y : Value) : x.same? y = y.same? x := by
  unfold same?
  by_cases kinds : x.isBool = y.isBool
  · rw [if_pos kinds, if_pos kinds.symm]
    by_cases e : x = y
    · simp [e]
    · simp [e, Ne.symm e]
  · rw [if_neg kinds, if_neg (Ne.symm kinds)]

end Value

theorem Pool.same_eq_some {M : Meaning} {a b : Handle} {z : Value} : p.same M a b = some z ↔
    ∃ x y, p.eval M a = some x ∧ p.eval M b = some y ∧ x.same? y = some z := by
  unfold same
  simp only [Option.bind_eq_some_iff]
  constructor
  · rintro ⟨x, hx, y, hy, h⟩
    exact ⟨x, y, hx, hy, h⟩
  · rintro ⟨x, y, hx, hy, h⟩
    exact ⟨x, hx, y, hy, h⟩

theorem Pool.same_comm (M : Meaning) (a b : Handle) : p.same M a b = p.same M b a := by
  refine Option.ext fun z => ?_
  rw [same_eq_some, same_eq_some]
  constructor <;>
  · rintro ⟨x, y, hx, hy, h⟩
    exact ⟨y, x, hy, hx, Value.same?_comm x y ▸ h⟩

/-- A side that is `true` leaves the other one. -/
theorem same_true_below (hp : p.Sound) (M : Meaning) (b : Handle) :
    Below (p.same M .tt b) (p.eval M b) := by
  intro z hz
  obtain ⟨x, y, hx, hy, h⟩ := Pool.same_eq_some.mp hz
  rw [Pool.eval_tt hp] at hx
  cases hx
  obtain ⟨c, rfl, rfl⟩ := Value.same?_bool h
  rw [hy, Bool.true_beq]

theorem same_false_below (hp : p.Sound) (M : Meaning) {b : Handle} (hb : p.Has b) :
    Below (p.same M .ff b) (p.eval M (-b)) := by
  intro z hz
  obtain ⟨x, y, hx, hy, h⟩ := Pool.same_eq_some.mp hz
  rw [Pool.eval_ff hp] at hx
  cases hx
  obtain ⟨c, rfl, rfl⟩ := Value.same?_bool h
  refine Pool.holds_eq_some.mp ((Pool.holds_neg_eq_some hp hb).mpr (Pool.holds_eq_some.mpr ?_))
  rw [hy]
  cases c <;> rfl

/-- Complements have different values. -/
theorem same_neg_below (hp : p.Sound) (M : Meaning) {b : Handle} (hb : p.Has b) :
    Below (p.same M (-b) b) (p.eval M .ff) := by
  intro z hz
  obtain ⟨x, y, hx, hy, h⟩ := Pool.same_eq_some.mp hz
  rw [Pool.eval_ff hp]
  refine congrArg some (Value.same?_ne ?_ h).symm
  rintro rfl
  have isBool : ∃ c, x = .bool c := by
    rcases sign : b.negated with _ | _
    · exact Pool.isBool_of_negated hp (h := -b) hb (by rw [Handle.neg_negated, sign]; rfl) hx
    · exact Pool.isBool_of_negated hp hb sign hy
  obtain ⟨c, rfl⟩ := isBool
  have := (Pool.holds_neg_eq_some hp hb).mp (Pool.holds_eq_some.mpr hx)
  rw [Pool.holds_eq_some.mpr hy] at this
  simp at this

/-- Different literals have different values. -/
theorem same_literals_below (hp : p.Sound) (M : Meaning) {a b : Handle} {l m : Literal}
    (ha : p.node? a = some (.literal l)) (hb : p.node? b = some (.literal m)) (sa : a.negated = false)
    (sb : b.negated = false) (ne : a ≠ b) : Below (p.same M a b) (p.eval M .ff) := by
  intro z hz
  obtain ⟨x, y, hx, hy, h⟩ := Pool.same_eq_some.mp hz
  rw [Pool.eval_node hp ha sa] at hx
  rw [Pool.eval_node hp hb sb] at hy
  cases hx
  cases hy
  rw [Pool.eval_ff hp]
  refine congrArg some (Value.same?_ne (fun e => ne ?_) h).symm
  have := Literal.value_injective e
  subst this
  exact hp.eq_of_node ha hb (sa.trans sb.symm)

structure Equated (p : Pool) (a b h : Handle) (p' : Pool) : Prop where
  has : p'.Has h
  value : ∀ M, Below (p.same M a b) (p'.eval M h)
  weight : p'.weight h ≤ 1 + (p.weight a + p.weight b)

theorem intern_equation_yields (hp : p.Sound) {a b : Handle} (ha : p.Has a) (hb : p.Has b)
    (undecided : p.Undecided a b) : Yields (PoolM.intern (.eq a b)) p (Equated p a b) := by
  refine (intern_yields (n := .eq a b) hp ?_ undecided trivial).mono ?_
  · intro c hc
    rcases List.mem_cons.mp hc with rfl | hc
    · exact ha
    · exact List.mem_singleton.mp hc ▸ hb
  · rintro h p' ⟨e, _⟩ hp' ⟨sign, hn⟩
    refine ⟨Pool.has_of_node hn, fun M => ?_, ?_⟩
    · rw [Pool.eval_node hp' hn sign]
      show Below _ (p'.same M a b)
      unfold Pool.same
      rw [Pool.eval_extends hp e ha, Pool.eval_extends hp e hb]
      exact Below.refl _
    · refine Nat.le_of_eq ?_
      rw [Pool.weight_eq hp' hn, ← Pool.weight_extends hp e ha, ← Pool.weight_extends hp e hb]
      rfl

/-- An equation denotes the comparison of its two sides, whichever of the shortcuts decides it. -/
theorem equation_yields (hp : p.Sound) {a b : Handle} (ha : p.Has a) (hb : p.Has b) :
    Yields (PoolM.equation a b) p (Equated p a b) := by
  have pa := Pool.weight_pos hp ha
  have wtt := Pool.weight_tt hp
  have wff := Pool.weight_ff hp
  unfold PoolM.equation
  by_cases hab : a = b
  · rw [if_pos hab]
    refine Yields.pure hp ⟨hp.has_tt, fun M z hz => ?_, by omega⟩
    obtain ⟨x, y, hx, hy, h⟩ := Pool.same_eq_some.mp hz
    rw [hab, hy] at hx
    cases hx
    rw [Value.same?_self] at h
    rw [Pool.eval_tt hp, h]
  rw [if_neg hab]
  by_cases hneg : a = -b
  · rw [if_pos hneg]
    exact Yields.pure hp ⟨hp.has_ff, fun M => hneg ▸ same_neg_below hp M hb, by omega⟩
  rw [if_neg hneg]
  by_cases htt : a = .tt
  · rw [if_pos htt]
    exact Yields.pure hp ⟨hb, fun M => htt ▸ same_true_below hp M b, by omega⟩
  rw [if_neg htt]
  by_cases htt' : b = .tt
  · rw [if_pos htt']
    exact Yields.pure hp ⟨ha, fun M => by rw [htt', Pool.same_comm]; exact same_true_below hp M a, by omega⟩
  rw [if_neg htt']
  by_cases hff : a = .ff
  · rw [if_pos hff]
    refine Yields.pure hp ⟨Pool.has_neg.mpr hb, fun M => hff ▸ same_false_below hp M hb, ?_⟩
    rw [Pool.weight_neg hp hb]
    omega
  rw [if_neg hff]
  by_cases hff' : b = .ff
  · rw [if_pos hff']
    refine Yields.pure hp ⟨Pool.has_neg.mpr ha, fun M => ?_, ?_⟩
    · rw [hff', Pool.same_comm]
      exact same_false_below hp M ha
    · rw [Pool.weight_neg hp ha]
      omega
  rw [if_neg hff']
  have finish : (a.negated = false → b.negated = false →
      ∀ l m, p.node? a = some (.literal l) → p.node? b ≠ some (.literal m)) →
      Yields (PoolM.intern (.eq a b)) p (Equated p a b) := fun literals =>
    intern_equation_yields hp ha hb ⟨hab, hneg, ⟨htt, hff⟩, ⟨htt', hff'⟩, literals⟩
  refine (isLiteral_yields hp ha).bind ?_
  rintro la _ _ _ ⟨rfl, hla⟩
  cases la with
  | false => exact finish fun sa _ l _ hl => absurd (hla.mpr ⟨sa, l, hl⟩) Bool.false_ne_true
  | true =>
    refine (isLiteral_yields hp hb).bind ?_
    rintro lb _ _ _ ⟨rfl, hlb⟩
    cases lb with
    | false => exact finish fun _ sb _ m _ hm => absurd (hlb.mpr ⟨sb, m, hm⟩) Bool.false_ne_true
    | true =>
      obtain ⟨sa, l, hl⟩ := hla.mp rfl
      obtain ⟨sb, m, hm⟩ := hlb.mp rfl
      exact Yields.pure hp ⟨hp.has_ff, fun M => same_literals_below hp M hl hm sa sb hab, by omega⟩

/-! ## Guarded values -/

noncomputable def Pool.branches (p : Pool) (M : Meaning) (bs : List Branch) : List (Option Bool × Option Value) :=
  bs.map fun b => (p.holds M b.1, p.eval M b.2)

def Pool.HasAll (p : Pool) (bs : List Branch) : Prop := ∀ b ∈ bs, p.Has b.1 ∧ p.Has b.2

def Pool.branchWeight (p : Pool) (bs : List Branch) : Nat := (bs.map fun b => p.weight b.1 + p.weight b.2).sum

theorem Pool.branches_extends (hp : p.Sound) (e : p.Extends p') {bs : List Branch} (hb : p.HasAll bs)
    (M : Meaning) : p'.branches M bs = p.branches M bs := by
  refine List.map_congr_left fun b h => ?_
  rw [holds_extends hp e (hb b h).1, eval_extends hp e (hb b h).2]

theorem Pool.branchWeight_extends (hp : p.Sound) (e : p.Extends p') {bs : List Branch} (hb : p.HasAll bs) :
    p'.branchWeight bs = p.branchWeight bs := by
  refine congrArg List.sum (List.map_congr_left fun b h => ?_)
  rw [weight_extends hp e (hb b h).1, weight_extends hp e (hb b h).2]

theorem Pool.HasAll.extends {bs : List Branch} (h : p.HasAll bs) (e : p.Extends p') : p'.HasAll bs :=
  fun b hb => ⟨e.has (h b hb).1, e.has (h b hb).2⟩

structure Combines (p : Pool) (bs : List Branch) (p' : Pool) (bs' : List Branch) : Prop where
  has : p'.HasAll bs'
  value : ∀ M, Narrows (p.branches M bs) (p'.branches M bs')
  weight : p'.branchWeight bs' ≤ p.branchWeight bs

theorem Combines.trans {p p' p'' : Pool} {as bs cs : List Branch} (h : Combines p as p' bs)
    (h' : Combines p' bs p'' cs) : Combines p as p'' cs :=
  ⟨h'.has, fun M => (h.value M).trans (h'.value M), Nat.le_trans h'.weight h.weight⟩

theorem Combines.of_perm {bs bs' : List Branch} (h : p.HasAll bs) (perm : bs.Perm bs') :
    Combines p bs p bs' := by
  refine ⟨fun b hb => h b (perm.mem_iff.mpr hb), fun M => .of_perm (perm.map _), ?_⟩
  exact Nat.le_of_eq (perm.map _).sum_nat.symm

theorem Combines.cons {b : Branch} {bs bs' : List Branch} (hp : p.Sound) (e : p.Extends p')
    (hb : p.Has b.1 ∧ p.Has b.2) (h : Combines p bs p' bs') : Combines p (b :: bs) p' (b :: bs') := by
  refine ⟨fun c hc => ?_, fun M => (h.value M).cons ?_ ?_, ?_⟩
  · rcases List.mem_cons.mp hc with rfl | hc
    · exact ⟨e.has hb.1, e.has hb.2⟩
    · exact h.has c hc
  · exact Below.of_eq (Pool.holds_extends hp e hb.1).symm
  · exact Below.of_eq (Pool.eval_extends hp e hb.2).symm
  · have := h.weight
    unfold Pool.branchWeight at *
    simp only [List.map_cons, List.sum_cons]
    rw [Pool.weight_extends hp e hb.1, Pool.weight_extends hp e hb.2]
    omega

structure Entered (bs : List Branch) : Prop where
  values : (bs.map (·.2)).Nodup
  guards : ∀ b ∈ bs, b.1 ≠ .ff

theorem Entered.tail {b : Branch} {bs : List Branch} (h : Entered (b :: bs)) : Entered bs :=
  ⟨(List.nodup_cons.mp h.values).2, fun c hc => h.guards c (List.mem_cons_of_mem _ hc)⟩

structure Enters (p : Pool) (g v : Handle) (bs : List Branch) (p' : Pool) (bs' : List Branch) : Prop where
  combines : Combines p ((g, v) :: bs) p' bs'
  values : ∀ w ∈ bs'.map (·.2), w = v ∨ w ∈ bs.map (·.2)
  entered : Entered bs → g ≠ .ff → Entered bs'

/-- Two branches with one value share it under the disjunction of their guards. -/
theorem share_combines (hp : p.Sound) (e : p.Extends p') {g g' k v : Handle} {rest : List Branch}
    (has : p.HasAll ((g, v) :: (g', v) :: rest)) (joined : Joined .disj p [g', g] k p') :
    Combines p ((g, v) :: (g', v) :: rest) p' ((k, v) :: rest) := by
  have hg : p.Has g := (has (g, v) (by simp)).1
  have hg' : p.Has g' := (has (g', v) (by simp)).1
  have hv : p.Has v := (has (g, v) (by simp)).2
  have hrest : p.HasAll rest := fun b hb => has b (List.mem_cons_of_mem _ (List.mem_cons_of_mem _ hb))
  refine ⟨fun b h => ?_, fun M => ?_, ?_⟩
  · rcases List.mem_cons.mp h with rfl | h
    · exact ⟨joined.has, e.has hv⟩
    · exact hrest.extends e b h
  · have shared := Narrows.share (v := p.eval M v) (joined.value M) (p.branches M rest)
    have swapped : Narrows (p.branches M ((g, v) :: (g', v) :: rest))
        (p.branches M ((g', v) :: (g, v) :: rest)) := .of_perm ((List.Perm.swap _ _ _).map _)
    refine (swapped.trans shared).trans (.of_perm (List.Perm.of_eq ?_))
    rw [← Pool.branches_extends hp e hrest]
    show _ = (p'.holds M k, p'.eval M v) :: p'.branches M rest
    rw [Pool.eval_extends hp e hv]
  · have weight := joined.weight
    have pos := Pool.weight_pos hp hg
    have pos' := Pool.weight_pos hp hg'
    have rest_weight := Pool.branchWeight_extends hp e hrest
    unfold Pool.branchWeight at *
    simp only [List.map_cons, List.map_nil, List.sum_cons, largest_cons, largest_nil] at weight ⊢
    rw [rest_weight, Pool.weight_extends hp e hv]
    omega

/-- Entering a branch keeps the value that is picked and brings in no value but its own. -/
theorem addBranch_yields (hp : p.Sound) {g v : Handle} (hg : p.Has g) (hv : p.Has v) (bs : List Branch)
    (hb : p.HasAll bs) : Yields (PoolM.addBranch g v bs) p fun bs' p' => Enters p g v bs p' bs' := by
  have has : p.HasAll ((g, v) :: bs) := by
    intro b h
    rcases List.mem_cons.mp h with rfl | h
    · exact ⟨hg, hv⟩
    · exact hb b h
  induction bs with
  | nil => exact Yields.pure hp ⟨.of_perm has (.refl _), by simp, fun _ open_ => ⟨by simp, by simpa using open_⟩⟩
  | cons b rest ih =>
    obtain ⟨g', v'⟩ := b
    have hb' := hb (g', v') (by simp)
    unfold PoolM.addBranch
    by_cases same : v' = v
    · subst same
      rw [if_pos rfl]
      have guards : ∀ k ∈ [g', g], p.Has k := by simp [hb'.1, hg]
      refine (join_yields (c := .disj) hp guards).bind fun k p' e hp' hk => ?_
      refine Yields.pure hp' ⟨share_combines hp e.1 has hk, fun w hw => .inr hw, fun entered open_ => ?_⟩
      -- The guard of one of the two is not refuted, so neither is their disjunction.
      refine ⟨entered.values, List.forall_mem_cons.mpr ⟨fun refuted => open_ ?_, entered.tail.guards⟩⟩
      exact hk.neutral refuted g (by simp)
    · rw [if_neg same]
      have swapped : Combines p ((g, v) :: (g', v') :: rest) p ((g', v') :: (g, v) :: rest) :=
        .of_perm has (.swap _ _ _)
      have ih := ih (fun b h => hb b (List.mem_cons_of_mem _ h)) (fun b h => swapped.has b (List.mem_cons_of_mem _ h))
      refine ih.bind fun bs' p' e hp' h => Yields.pure hp' ⟨?_, fun w hw => ?_, fun entered open_ => ?_⟩
      · exact swapped.trans (h.combines.cons hp e.1 hb')
      · rcases List.mem_cons.mp hw with rfl | hw
        · exact .inr (by simp)
        · exact (h.values w hw).imp_right (List.mem_cons_of_mem _)
      · have others := h.entered entered.tail open_
        refine ⟨List.nodup_cons.mpr ⟨fun there => ?_, others.values⟩, List.forall_mem_cons.mpr ⟨?_, others.guards⟩⟩
        · exact (h.values v' there).elim same (List.nodup_cons.mp entered.values).1
        · exact entered.guards (g', v') (by simp)

theorem Combines.append {bs bs' ds : List Branch} (hp : p.Sound) (e : p.Extends p') (hd : p.HasAll ds)
    (h : Combines p bs p' bs') : Combines p (ds ++ bs) p' (ds ++ bs') := by
  induction ds with
  | nil => exact h
  | cons d ds ih => exact (ih fun b hb => hd b (List.mem_cons_of_mem _ hb)).cons hp e (hd d (by simp))

/-- Merging branches keeps the value they pick, under every meaning. -/
theorem mergeBranches_yields (hp : p.Sound) (merged bs : List Branch) (hm : p.HasAll merged) (hb : p.HasAll bs) :
    Yields (PoolM.mergeBranches merged bs) p fun bs' p' => Combines p (bs ++ merged) p' bs' ∧
      (Entered merged → Entered bs') := by
  induction bs generalizing p merged with
  | nil => exact Yields.pure hp ⟨.of_perm hm (.refl _), id⟩
  | cons b rest ih =>
    obtain ⟨g, v⟩ := b
    have hgv := hb (g, v) (by simp)
    have hrest : p.HasAll rest := fun b h => hb b (List.mem_cons_of_mem _ h)
    have all : p.HasAll ((g, v) :: rest ++ merged) := fun b h => (List.mem_append.mp h).elim (hb b) (hm b)
    unfold PoolM.mergeBranches
    by_cases hff : g = .ff
    · rw [if_pos hff]
      refine (ih hp merged hm hrest).mono fun bs' p' _ _ h => ⟨Combines.trans ⟨?_, ?_, ?_⟩ h.1, h.2⟩
      · exact fun b h => all b (List.mem_cons_of_mem _ h)
      · intro M
        show Narrows ((p.holds M g, p.eval M v) :: p.branches M (rest ++ merged)) _
        rw [hff, Pool.holds_ff hp]
        exact .drop _ _
      · exact Nat.le_add_left _ _
    · rw [if_neg hff]
      refine (addBranch_yields hp hgv.1 hgv.2 merged hm).bind fun merged' p' ⟨e, _⟩ hp' added => ?_
      have moved : Combines p ((g, v) :: rest ++ merged) p (rest ++ (g, v) :: merged) :=
        .of_perm all List.perm_middle.symm
      refine (ih hp' merged' added.combines.has (hrest.extends e)).mono fun bs' p'' _ _ h => ⟨?_, fun entered => ?_⟩
      · exact (moved.trans (added.combines.append hp e hrest)).trans h.1
      · exact h.2 (added.entered entered hff)

/-- Sorting branches changes no choice: one that is there twice is never taken. -/
theorem sorted_combines {bs : List Branch} (hb : p.HasAll bs) :
    Combines p bs p (SortedList.ofList Branch.lt bs) := by
  refine ⟨fun b h => hb b ((SortedList.mem_ofList Branch.lt_separates).mp h), fun M => ?_,
    SortedList.sum_ofList_le _ _ _⟩
  induction bs with
  | nil => exact .refl _
  | cons b bs ih =>
    have ih := ih fun c hc => hb c (List.mem_cons_of_mem _ hc)
    refine (Narrows.cons (Below.refl _) (Below.refl _) ih).trans ?_
    show Narrows (p.branches M (b :: SortedList.ofList Branch.lt bs))
      (p.branches M (SortedList.insert Branch.lt b (SortedList.ofList Branch.lt bs)))
    rcases SortedList.insert_cases Branch.lt_separates b (SortedList.ofList Branch.lt bs) with ⟨hm, e⟩ | perm
    · rw [e]
      exact .forget (List.mem_map.mpr ⟨b, hm, rfl⟩)
    · exact .of_perm (perm.symm.map _)

/-- Branches that are taken in and not decided are separate once they are sorted. -/
theorem Entered.separate {bs : List Branch} (entered : Entered bs) (many : 2 ≤ bs.length)
    (open_ : ∀ b ∈ bs, b.1 ≠ .tt) : Separate (SortedList.ofList Branch.lt bs) := by
  have perm := SortedList.ofList_perm Branch.lt_separates (List.Nodup.of_map _ entered.values)
  refine ⟨?_, SortedList.ofList_pairwise Branch.lt_separates Branch.lt_trans _, ?_, fun b hb => ?_⟩
  · rw [perm.length_eq]
    exact many
  · exact (perm.map _).nodup_iff.mpr entered.values
  · exact ⟨open_ b (perm.mem_iff.mp hb), entered.guards b (perm.mem_iff.mp hb)⟩

structure Chosen (p : Pool) (bs : List Branch) (h : Handle) (p' : Pool) : Prop where
  has : p'.Has h
  value : ∀ M, Below (pick (p.branches M bs)) (p'.eval M h)
  weight : p'.weight h ≤ 1 + p.branchWeight bs

theorem weight_le_branchWeight {bs : List Branch} {b : Branch} (hb : b ∈ bs) :
    p.weight b.2 ≤ p.branchWeight bs := by
  have := le_sum (List.mem_map_of_mem (f := fun b => p.weight b.1 + p.weight b.2) hb)
  unfold Pool.branchWeight
  omega

theorem Combines.chosen {bs bs' : List Branch} {h : Handle} {p'' : Pool} (combined : Combines p bs p' bs')
    (chosen : Chosen p' bs' h p'') : Chosen p bs h p'' :=
  ⟨chosen.has, fun M => (combined.value M).value.trans (chosen.value M),
    Nat.le_trans chosen.weight (Nat.add_le_add_left combined.weight 1)⟩

/-- A branch whose guard is true decides. -/
theorem decided_chosen (hp : p.Sound) {bs : List Branch} (hb : p.HasAll bs) {b : Branch} (mem : b ∈ bs)
    (guard : b.1 = .tt) : Chosen p bs b.2 p := by
  refine ⟨(hb b mem).2, fun M x hx => value_of_true (List.mem_map.mpr ⟨b, mem, ?_⟩) hx, ?_⟩
  · rw [guard, Pool.holds_tt hp]
  · exact Nat.le_trans (weight_le_branchWeight mem) (Nat.le_add_left _ _)

/-- A single branch is taken whatever its guard. -/
theorem single_chosen {b : Branch} (hb : p.HasAll [b]) : Chosen p [b] b.2 p := by
  refine ⟨(hb b List.mem_cons_self).2, fun M x hx => ?_, ?_⟩
  · rcases pick_cons.mp hx with ⟨e, _⟩ | ⟨_, none⟩
    · exact congrArg Prod.snd e
    · cases none
  · exact Nat.le_trans (weight_le_branchWeight List.mem_cons_self) (Nat.le_add_left _ _)

/-- An interned summary of its branches. -/
theorem intern_summary_yields (hp : p.Sound) {bs : List Branch} (hb : p.HasAll bs) (separate : Separate bs)
    (ne : bs ≠ []) :
    Yields (PoolM.intern (.summary bs)) p (Chosen p bs) := by
  refine (intern_yields (n := .summary bs) hp (fun h hh => ?_) separate ne).mono ?_
  · obtain ⟨d, hd, hh⟩ := List.mem_flatMap.mp hh
    rcases List.mem_cons.mp hh with rfl | hh
    · exact (hb d hd).1
    · exact List.mem_singleton.mp hh ▸ (hb d hd).2
  · rintro h p' ⟨e, _⟩ hp' ⟨sign, hn⟩
    refine ⟨Pool.has_of_node hn, fun M => Below.of_eq ?_, ?_⟩
    · rw [Pool.eval_summary hp' hn sign]
      exact congrArg pick (Pool.branches_extends hp e hb M).symm
    · rw [Pool.weight_eq hp' hn]
      exact Nat.add_le_add_left (Nat.le_of_eq (Pool.branchWeight_extends hp e hb)) 1

/-- Wherever the branches pick a value, the choice has it. -/
theorem choice_yields (hp : p.Sound) {bs : List Branch} (hb : p.HasAll bs) (ne : bs ≠ []) :
    Yields (PoolM.choice bs) p (Chosen p bs) := by
  obtain ⟨⟨g, first⟩, rest, rfl⟩ := List.exists_cons_of_ne_nil ne
  show Yields (PoolM.mergeBranches [] ((g, first) :: rest) >>= _) p _
  refine (mergeBranches_yields hp [] _ (List.forall_mem_nil _) hb).bind ?_
  rintro merged p' ⟨e, _⟩ hp' ⟨combined, taken⟩
  have entered : Entered merged := taken ⟨.nil, List.forall_mem_nil _⟩
  rw [List.append_nil] at combined
  cases found : merged.find? (·.1 = .tt) with
  | some b =>
    have guard : b.1 = .tt := by simpa using List.find?_some found
    exact Yields.pure hp' (combined.chosen (decided_chosen hp' combined.has (List.mem_of_find?_eq_some found) guard))
  | none =>
    have open_ : ∀ b ∈ merged, b.1 ≠ .tt := fun b hb => by simpa using List.find?_eq_none.mp found b hb
    match merged, combined with
    | [], combined =>
      -- Nothing is picked, and the first value will do.
      refine Yields.pure hp' ⟨e.has (hb (g, first) (by simp)).2, fun M x hx => ?_, ?_⟩
      · have := (combined.value M).value x hx
        cases this
      · have same : p'.weight first = p.weight first := Pool.weight_extends hp e (hb (g, first) (by simp)).2
        have : p.weight first ≤ p.branchWeight ((g, first) :: rest) :=
          weight_le_branchWeight (b := (g, first)) (by simp)
        omega
    | [(g', v)], combined => exact Yields.pure hp' (combined.chosen (single_chosen combined.has))
    | b :: c :: more, combined =>
      have combined := combined.trans (sorted_combines combined.has)
      have some_branch : SortedList.ofList Branch.lt (b :: c :: more) ≠ [] :=
        List.ne_nil_of_mem ((SortedList.mem_ofList Branch.lt_separates).mpr List.mem_cons_self)
      exact (intern_summary_yields hp' combined.has (entered.separate (by simp) open_) some_branch).mono
        fun _ _ _ _ => combined.chosen

end PathMerge
