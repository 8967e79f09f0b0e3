/-
  PathMerge.Proofs.Junction — a conjunction in canonical form is that conjunction.

  Each step of `join` replaces its operands by others that lead to the same outcome (`Reduces`):
  flattening, sorting, dropping an operand that holds a sibling, shrinking one that holds complements
  of siblings. The tree sizes of the operands go down with every absorption, so the count of steps
  suffices, and `join_yields` says what comes out: a handle whose truth value is that of the operands
  joined, where they have one.

  Only negation and the junctions themselves matter for this, so it is said of every way to give handles
  truth values that respects these (`Truth`); the values of a meaning are one.
-/

import PathMerge.Proofs.Evaluation
import PathMerge.Proofs.Sorting
import PathMerge.Proofs.Weight

namespace PathMerge

/-- Truth values of handles: negation flips them, a junction joins those of its operands, and a handle keeps its own
while the pool grows. -/
structure Truth where
  holds : Pool → Handle → Option Bool
  tt : ∀ {p : Pool}, p.Sound → holds p .tt = some true
  neg : ∀ {p : Pool} {h : Handle} {b : Bool}, p.Sound → p.Has h →
    (holds p (-h) = some b ↔ holds p h = some (!b))
  junction : ∀ {p : Pool} {h : Handle} {c : Connective} {items : List Handle}, p.Sound →
    p.node? h = some (.junction c items) → h.negated = false → holds p h = c.value (items.map (holds p))
  grows : ∀ {p p' : Pool} {h : Handle}, p.Sound → p.Extends p' → p.Has h → holds p' h = holds p h

namespace Truth

noncomputable def ofMeaning (M : Meaning) : Truth where
  holds p := p.holds M
  tt hp := Pool.holds_tt hp
  neg hp hh := Pool.holds_neg_eq_some hp hh
  junction hp hn sign := Pool.holds_junction hp hn sign
  grows hp e hh := Pool.holds_extends hp e hh

variable {p : Pool} (T : Truth)

theorem ff (hp : p.Sound) : T.holds p .ff = some false := (T.neg hp hp.has_tt).mpr (T.tt hp)

theorem neutral (hp : p.Sound) (c : Connective) : T.holds p c.neutral = some (!c.decisive) := by
  cases c
  · exact T.tt hp
  · exact T.ff hp

theorem absorbing (hp : p.Sound) (c : Connective) : T.holds p c.absorbing = some c.decisive := by
  cases c
  · exact T.ff hp
  · exact T.tt hp

end Truth

structure Reduces (c : Connective) (p : Pool) (items : List Handle) (p' : Pool) (items' : List Handle) :
    Prop where
  has : ∀ h ∈ items', p'.Has h
  truth : ∀ T : Truth, c.Refines (items.map (T.holds p)) (items'.map (T.holds p'))
  neutral : (∀ h ∈ items', h = c.neutral) → ∀ h ∈ items, h = c.neutral
  size : (items'.map p'.treeSize).sum ≤ (items.map p.treeSize).sum
  weight : largest (items'.map p'.weight) ≤ largest (items.map p.weight)

/-- The handle `h` of `p'` is the junction of the operands `items` of `p`. -/
structure Joined (c : Connective) (p : Pool) (items : List Handle) (h : Handle) (p' : Pool) : Prop where
  has : p'.Has h
  truth : ∀ T : Truth, Below (c.value (items.map (T.holds p))) (T.holds p' h)
  /-- Nothing but neutral operands makes the neutral handle. -/
  neutral : h = c.neutral → ∀ x ∈ items, x = c.neutral
  size : p'.treeSize h ≤ 1 + (items.map p.treeSize).sum
  weight : p'.weight h ≤ 1 + largest (items.map p.weight)

theorem Joined.value {c : Connective} {p p' : Pool} {items : List Handle} {h : Handle} (joined : Joined c p items h p')
    (M : Meaning) : Below (c.value (items.map (p.holds M))) (p'.holds M h) :=
  joined.truth (.ofMeaning M)

theorem Reduces.trans {c : Connective} {p p' p'' : Pool} {xs ys zs : List Handle} (h : Reduces c p xs p' ys)
    (h' : Reduces c p' ys p'' zs) : Reduces c p xs p'' zs :=
  ⟨h'.has, fun T => (h.truth T).trans (h'.truth T), fun none_ => h.neutral (h'.neutral none_),
    Nat.le_trans h'.size h.size, Nat.le_trans h'.weight h.weight⟩

theorem Reduces.joined {c : Connective} {p p' p'' : Pool} {xs ys : List Handle} {k : Handle}
    (h : Reduces c p xs p' ys) (h' : Joined c p' ys k p'') : Joined c p xs k p'' :=
  ⟨h'.has, fun T => (h.truth T).value.trans (h'.truth T), fun none_ => h.neutral (h'.neutral none_),
    Nat.le_trans h'.size (Nat.add_le_add_left h.size 1),
    Nat.le_trans h'.weight (Nat.add_le_add_left h.weight 1)⟩

variable {c : Connective} {p p' : Pool}

theorem Connective.absorbing_ne_neutral (c : Connective) : c.absorbing ≠ c.neutral := by
  cases c <;> decide

namespace Pool.Apart

variable {h : Handle}

theorem of_ne (neutral : h ≠ c.neutral) (absorbing : h ≠ c.absorbing)
    (nested : h.negated = false → ∀ inner, p.node? h ≠ some (.junction c inner)) : p.Apart c h := by
  cases c with
  | conj => exact ⟨neutral, absorbing, nested⟩
  | disj => exact ⟨absorbing, neutral, nested⟩

theorem ne_neutral (a : p.Apart c h) (d : Connective) : h ≠ d.neutral := by
  cases d with
  | conj => exact a.not_tt
  | disj => exact a.not_ff

theorem ne_absorbing (a : p.Apart c h) (d : Connective) : h ≠ d.absorbing := by
  cases d with
  | conj => exact a.not_ff
  | disj => exact a.not_tt

end Pool.Apart

theorem weight_le_largest {items : List Handle} {h : Handle} (hh : h ∈ items) :
    p.weight h ≤ largest (items.map p.weight) :=
  le_largest (List.mem_map_of_mem hh)

/-! ## Reading operands -/

/-- A handle is taken apart exactly when it is an unnegated junction of the connective. -/
theorem operands?_yields (hp : p.Sound) {h : Handle} (hh : p.Has h) :
    Yields (PoolM.operands? c h) p fun r p' => p = p' ∧ match r with
      | some items => p.node? h = some (.junction c items) ∧ h.negated = false
      | none => h.negated = false → ∀ inner, p.node? h ≠ some (.junction c inner) := by
  unfold PoolM.operands?
  by_cases sign : h.negated = true
  · rw [if_pos sign]
    exact Yields.pure hp ⟨rfl, fun positive => by simp [sign] at positive⟩
  · rw [if_neg sign]
    obtain ⟨n, hn⟩ := Pool.has_iff.mp hh
    refine (node_yields hp hn).bind ?_
    rintro _ _ _ _ ⟨rfl, rfl⟩
    cases n with
    | junction d items =>
      refine Yields.pure hp ⟨rfl, ?_⟩
      by_cases hd : d = c
      · rw [if_pos hd]
        exact ⟨hd ▸ hn, by simpa using sign⟩
      · rw [if_neg hd]
        intro _ inner other
        cases hn.symm.trans other
        exact hd rfl
    | _ =>
      refine Yields.pure hp ⟨rfl, fun _ inner other => ?_⟩
      cases hn.symm.trans other

/-- The operands of a nested junction stand for it. -/
theorem nested_reduces (hp : p.Sound) {h : Handle} {items : List Handle}
    (hn : p.node? h = some (.junction c items)) (sign : h.negated = false) : Reduces c p [h] p items := by
  have flat : p.Flat c items := hp.formed hn
  refine ⟨fun x hx => hp.has_child hn hx, fun T => ⟨?_, ?_⟩, fun none_ => ?_, ?_, ?_⟩
  · intro hm
    have decided : T.holds p h = some c.decisive := (List.mem_singleton.mp hm).symm
    rw [T.junction hp hn sign] at decided
    exact Connective.value_decisive.mp decided
  · intro hall
    have agreed : T.holds p h = some (!c.decisive) := hall _ (by simp)
    rw [T.junction hp hn sign] at agreed
    exact Connective.value_other.mp agreed
  · obtain ⟨x, hx⟩ := List.exists_mem_of_length_pos (Nat.lt_of_lt_of_le Nat.two_pos flat.many)
    exact absurd (none_ x hx) ((flat.apart x hx).ne_neutral c)
  · simp only [List.map_cons, List.map_nil, List.sum_cons, List.sum_nil]
    rw [hp.tree hn]
    show _ ≤ 1 + (items.map p.treeSize).sum + 0
    omega
  · simp only [List.map_cons, List.map_nil, largest_cons, largest_nil]
    rw [Pool.weight_eq hp hn]
    show _ ≤ max (1 + largest (items.map p.weight)) 0
    omega

theorem self_reduces {items : List Handle} (hh : ∀ h ∈ items, p.Has h) : Reduces c p items p items :=
  ⟨hh, fun _ => .refl _ _, id, Nat.le_refl _, Nat.le_refl _⟩

theorem Reduces.append {xs ys xs' ys' : List Handle} (h : Reduces c p xs p' xs') (h' : Reduces c p ys p' ys') :
    Reduces c p (xs ++ ys) p' (xs' ++ ys') := by
  refine ⟨fun z hz => ?_, fun T => ⟨?_, ?_⟩, fun none_ => ?_, ?_, ?_⟩
  · exact (List.mem_append.mp hz).elim (h.has z) (h'.has z)
  · simp only [List.map_append, List.mem_append]
    exact Or.imp (h.truth T).decided (h'.truth T).decided
  · simp only [List.map_append, List.mem_append]
    intro hall y hy
    rcases hy with hy | hy
    · exact (h.truth T).agreed (fun x hx => hall x (.inl hx)) y hy
    · exact (h'.truth T).agreed (fun x hx => hall x (.inr hx)) y hy
  · rw [List.forall_mem_append] at none_ ⊢
    exact none_.imp h.neutral h'.neutral
  · have := h.size
    have := h'.size
    simp only [List.map_append, List.sum_append]
    omega
  · have := h.weight
    have := h'.weight
    simp only [List.map_append, largest_append]
    omega

/-- A neutral operand may go. -/
theorem neutral_reduces (hp : p.Sound) : Reduces c p [c.neutral] p [] := by
  refine ⟨fun _ hm => (by cases hm), fun T => ⟨?_, ?_⟩, by simp, by simp, by simp⟩
  · intro hm
    have : some c.decisive = T.holds p c.neutral := List.mem_singleton.mp hm
    rw [T.neutral hp] at this
    simp at this
  · intro _ y hy
    cases hy

structure Flattened (p : Pool) (c : Connective) (items flat : List Handle) : Prop where
  apart : ∀ x ∈ flat, p.Apart c x
  origin : ∀ x ∈ flat, x ∈ items ∨ ∃ h ∈ items, ∃ inner, p.node? h = some (.junction c inner) ∧ x ∈ inner
  /-- Only neutral operands are lost. -/
  kept : ∀ h ∈ items, h = c.neutral ∨ h ∈ flat ∨
    ∃ inner, p.node? h = some (.junction c inner) ∧ h.negated = false ∧ ∀ x ∈ inner, x ∈ flat

namespace Flattened

variable {h : Handle} {items flat : List Handle}

theorem nil (p : Pool) (c : Connective) : Flattened p c [] [] :=
  ⟨List.forall_mem_nil _, List.forall_mem_nil _, List.forall_mem_nil _⟩

theorem origin_cons (f : Flattened p c items flat) (h : Handle) : ∀ x ∈ flat, x ∈ h :: items ∨
    ∃ k ∈ h :: items, ∃ inner, p.node? k = some (.junction c inner) ∧ x ∈ inner := by
  intro x hx
  refine (f.origin x hx).imp (List.mem_cons_of_mem h) ?_
  rintro ⟨k, hk, nested⟩
  exact ⟨k, List.mem_cons_of_mem h hk, nested⟩

theorem kept_append (f : Flattened p c items flat) (here : List Handle) :
    ∀ h ∈ items, h = c.neutral ∨ h ∈ here ++ flat ∨
    ∃ inner, p.node? h = some (.junction c inner) ∧ h.negated = false ∧ ∀ x ∈ inner, x ∈ here ++ flat := by
  intro h hh
  rcases f.kept h hh with neutral | there | ⟨inner, hn, sign, all⟩
  · exact .inl neutral
  · exact .inr (.inl (List.mem_append_right _ there))
  · exact .inr (.inr ⟨inner, hn, sign, fun x hx => List.mem_append_right _ (all x hx)⟩)

theorem skip (f : Flattened p c items flat) (neutral : h = c.neutral) : Flattened p c (h :: items) flat :=
  ⟨f.apart, f.origin_cons h, List.forall_mem_cons.mpr ⟨.inl neutral, f.kept⟩⟩

theorem cons (f : Flattened p c items flat) (apart : p.Apart c h) : Flattened p c (h :: items) (h :: flat) :=
  ⟨List.forall_mem_cons.mpr ⟨apart, f.apart⟩,
    List.forall_mem_cons.mpr ⟨.inl List.mem_cons_self, f.origin_cons h⟩,
    List.forall_mem_cons.mpr ⟨.inr (.inl List.mem_cons_self), f.kept_append [h]⟩⟩

theorem nested (f : Flattened p c items flat) {inner : List Handle} (hn : p.node? h = some (.junction c inner))
    (sign : h.negated = false) (apart : ∀ x ∈ inner, p.Apart c x) : Flattened p c (h :: items) (inner ++ flat) := by
  refine ⟨List.forall_mem_append.mpr ⟨apart, f.apart⟩,
    List.forall_mem_append.mpr ⟨fun x hx => .inr ?_, f.origin_cons h⟩,
    List.forall_mem_cons.mpr ⟨.inr (.inr ⟨inner, hn, sign, fun x hx => ?_⟩), f.kept_append inner⟩⟩
  · exact ⟨h, List.mem_cons_self, inner, hn, hx⟩
  · exact List.mem_append_left _ hx

theorem sorted (f : Flattened p c items flat) : Flattened p c items (Handle.sorted flat) := by
  refine ⟨fun x hx => f.apart x (Handle.mem_sorted.mp hx), fun x hx => f.origin x (Handle.mem_sorted.mp hx),
    fun h hh => ?_⟩
  simpa only [Handle.mem_sorted] using f.kept h hh

theorem has (hp : p.Sound) (hh : ∀ h ∈ items, p.Has h) (f : Flattened p c items flat) : ∀ x ∈ flat, p.Has x := by
  intro x hx
  rcases f.origin x hx with hx | ⟨h, _, inner, hn, hx⟩
  · exact hh x hx
  · exact hp.has_child hn hx

end Flattened

/-- Flattening either meets the absorbing constant or keeps the truth of the operands. -/
theorem flatten_yields (hp : p.Sound) (items : List Handle) (hh : ∀ h ∈ items, p.Has h) :
    Yields (PoolM.flatten c items) p fun r p' => p = p' ∧ match r with
      | some flat => Reduces c p items p flat ∧ Flattened p c items flat
      | none => c.absorbing ∈ items := by
  induction items with
  | nil => exact Yields.pure hp ⟨rfl, self_reduces (List.forall_mem_nil _), .nil p c⟩
  | cons h rest ih =>
    have ih := ih fun k hk => hh k (List.mem_cons_of_mem _ hk)
    unfold PoolM.flatten
    by_cases hneutral : h = c.neutral
    · rw [if_pos hneutral]
      refine ih.mono ?_
      rintro r _ _ _ ⟨rfl, hr⟩
      refine ⟨rfl, ?_⟩
      cases r with
      | some flat => exact ⟨hneutral ▸ (neutral_reduces hp).append hr.1, hr.2.skip hneutral⟩
      | none => exact List.mem_cons_of_mem _ hr
    · rw [if_neg hneutral]
      by_cases habs : h = c.absorbing
      · rw [if_pos habs]
        exact Yields.pure hp ⟨rfl, by simp [habs]⟩
      · rw [if_neg habs]
        refine (operands?_yields hp (hh h (by simp))).bind ?_
        rintro here _ _ _ ⟨rfl, hhere⟩
        refine ih.bind ?_
        rintro r _ _ _ ⟨rfl, hr⟩
        refine Yields.pure hp ⟨rfl, ?_⟩
        cases r with
        | none => exact List.mem_cons_of_mem _ hr
        | some flat =>
          cases here with
          | none =>
            have alone : Reduces c p [h] p [h] := self_reduces (by simpa using hh h (by simp))
            exact ⟨alone.append hr.1, hr.2.cons (.of_ne hneutral habs hhere)⟩
          | some inner =>
            have flat : p.Flat c inner := hp.formed hhere.1
            exact ⟨(nested_reduces hp hhere.1 hhere.2).append hr.1, hr.2.nested hhere.1 hhere.2 flat.apart⟩

theorem sorted_reduces {items : List Handle} (hh : ∀ h ∈ items, p.Has h) :
    Reduces c p items p (Handle.sorted items) := by
  refine ⟨fun h hm => hh h (Handle.mem_sorted.mp hm), fun T => ⟨?_, ?_⟩, fun none_ h hm => ?_, ?_, ?_⟩
  · intro hm
    obtain ⟨h, hh, e⟩ := List.mem_map.mp hm
    exact List.mem_map.mpr ⟨h, Handle.mem_sorted.mpr hh, e⟩
  · intro hall y hy
    obtain ⟨h, hh, rfl⟩ := List.mem_map.mp hy
    exact hall _ (List.mem_map_of_mem (Handle.mem_sorted.mp hh))
  · exact none_ h (Handle.mem_sorted.mpr hm)
  · exact SortedList.sum_ofList_le _ _ _
  · refine largest_le fun w hw => ?_
    obtain ⟨h, hm, rfl⟩ := List.mem_map.mp hw
    exact weight_le_largest (Handle.mem_sorted.mp hm)

/-! ## Operands that decide -/

/-- With an operand that is decisive wherever the junction has a value, the junction is decided. -/
theorem absorbing_joined (hp : p.Sound) {items : List Handle}
    (decisive : ∀ T : Truth, ¬ ∀ h ∈ items, T.holds p h = some (!c.decisive)) : Joined c p items c.absorbing p := by
  have index : c.absorbing = .tt ∨ c.absorbing = .ff := by cases c <;> simp [Connective.absorbing] <;> decide
  have has : p.Has c.absorbing := by rcases index with e | e <;> rw [e]; exacts [hp.has_tt, hp.has_ff]
  have weight : p.weight c.absorbing = 1 := by
    rcases index with e | e <;> rw [e]
    exacts [Pool.weight_tt hp, Pool.weight_ff hp]
  have size : p.treeSize c.absorbing = 1 := by
    have : p.node? c.absorbing = some .truth := by rcases index with e | e <;> rw [e] <;> exact hp.truth
    rw [hp.tree this]
    rfl
  refine ⟨has, fun T b hb => ?_, fun none_ => absurd none_ c.absorbing_ne_neutral, by omega, by omega⟩
  rw [T.absorbing hp]
  by_cases e : b = c.decisive
  · rw [e]
  · obtain rfl : b = !c.decisive := Bool.eq_not_of_ne e
    refine absurd (fun h hh => ?_) (decisive T)
    exact Connective.value_other.mp hb _ (List.mem_map_of_mem hh)

theorem complements_joined (hp : p.Sound) {items : List Handle} (hh : ∀ h ∈ items, p.Has h)
    (comp : Handle.hasComplements items = true) : Joined c p items c.absorbing p := by
  obtain ⟨a, ha, ha'⟩ := Handle.of_hasComplements comp
  refine absorbing_joined hp fun T hall => ?_
  have := hall _ ha'
  rw [T.neg hp (hh a ha), hall a ha] at this
  simp at this

/-! ## Absorption -/

/-- An absorption as it was found among `items`: which operand of the dual kind it is about. -/
def Found (c : Connective) (p : Pool) (items : List Handle) (r : PoolM.Absorption) : Prop :=
  ∃ before h after inner, items = before ++ h :: after ∧ p.node? h = some (.junction c.dual inner) ∧
    h.negated = false ∧ match r with
      | .drop rest => rest = before ++ after ∧ ∃ x ∈ inner, x ∈ items
      | .shrink l kept r => l = before ∧ r = after ∧ kept = inner.filter (fun x => !items.contains (-x)) ∧
          kept.length < inner.length

/-- The search finds an operand of the dual kind to drop or to shrink, or there is none. -/
theorem absorption?_yields (hp : p.Sound) (items before after : List Handle) (split : items = before ++ after)
    (hh : ∀ h ∈ items, p.Has h) :
    Yields (PoolM.absorption? c items before after) p fun r p' => p = p' ∧ match r with
      | some a => Found c p items a
      | none => ∀ x ∈ after, p.Unabsorbed c items x := by
  induction after generalizing before with
  | nil => exact Yields.pure hp ⟨rfl, List.forall_mem_nil _⟩
  | cons h after ih =>
    have skip : p.Unabsorbed c items h → Yields (PoolM.absorption? c items (before ++ [h]) after) p fun r p' =>
        p = p' ∧ match r with
          | some a => Found c p items a
          | none => ∀ x ∈ h :: after, p.Unabsorbed c items x := by
      intro first
      refine (ih (before ++ [h]) (by simp [split])).mono ?_
      rintro r _ _ _ ⟨rfl, hr⟩
      refine ⟨rfl, ?_⟩
      cases r with
      | some a => exact hr
      | none => exact List.forall_mem_cons.mpr ⟨first, hr⟩
    unfold PoolM.absorption?
    refine (operands?_yields hp (hh h (by simp [split]))).bind ?_
    rintro r _ _ _ ⟨rfl, hr⟩
    cases r with
    | none => exact skip fun sign inner hn => absurd hn (hr sign inner)
    | some inner =>
      obtain ⟨hn, sign⟩ := hr
      by_cases any : inner.any items.contains = true
      · simp only [any, if_true]
        refine Yields.pure hp ⟨rfl, ?_⟩
        obtain ⟨x, hx, hc⟩ := List.any_eq_true.mp any
        exact ⟨before, h, after, inner, split, hn, sign, rfl, x, hx, by simpa using hc⟩
      · simp only [any]
        by_cases short : (inner.filter fun x => !items.contains (-x)).length < inner.length
        · rw [if_pos short]
          exact Yields.pure hp ⟨rfl, before, h, after, inner, split, hn, sign, rfl, rfl, rfl, short⟩
        · rw [if_neg short]
          refine skip fun _ inner' hn' y hy => ?_
          cases hn.symm.trans hn'
          have whole := Nat.le_antisymm (List.length_filter_le _ inner) (Nat.not_lt.mp short)
          refine ⟨fun there => any (List.any_eq_true.mpr ⟨y, hy, by simpa using there⟩), ?_⟩
          simpa using List.length_filter_eq_length_iff.mp whole y hy

theorem Connective.value_dual {l : List (Option Bool)} :
    c.dual.value l = some c.decisive ↔ ∀ x ∈ l, x = some c.decisive := by
  have := value_other (c := c.dual) (l := l)
  simpa only [decisive_dual, Bool.not_not] using this

theorem Connective.value_dual_not {l : List (Option Bool)} :
    c.dual.value l = some (!c.decisive) ↔ some (!c.decisive) ∈ l := by
  have := value_decisive (c := c.dual) (l := l)
  simpa only [decisive_dual] using this

/-- An operand of the dual kind is decisive when all its own operands are. -/
theorem holds_dual (hp : p.Sound) {T : Truth} {h : Handle} {inner : List Handle}
    (hn : p.node? h = some (.junction c.dual inner)) (sign : h.negated = false) :
    T.holds p h = some c.decisive ↔ ∀ x ∈ inner, T.holds p x = some c.decisive := by
  rw [T.junction hp hn sign, Connective.value_dual, List.forall_mem_map]

theorem holds_dual_not (hp : p.Sound) {T : Truth} {h : Handle} {inner : List Handle}
    (hn : p.node? h = some (.junction c.dual inner)) (sign : h.negated = false) :
    T.holds p h = some (!c.decisive) ↔ ∃ x ∈ inner, T.holds p x = some (!c.decisive) := by
  rw [T.junction hp hn sign, Connective.value_dual_not, List.mem_map]

theorem mem_replaced {before after : List Handle} {k x : Handle} :
    x ∈ before ++ k :: after ↔ x = k ∨ x ∈ before ++ after :=
  List.perm_middle.mem_iff.trans List.mem_cons

/-- An operand of the dual kind that holds another operand can be left out. -/
theorem drop_reduces (hp : p.Sound) {before after inner : List Handle} {h x : Handle}
    (hh : ∀ k ∈ before ++ h :: after, p.Has k) (hn : p.node? h = some (.junction c.dual inner))
    (sign : h.negated = false) (hx : x ∈ inner) (hx' : x ∈ before ++ h :: after) :
    Reduces c p (before ++ h :: after) p (before ++ after) := by
  have sub : ∀ {k}, k ∈ before ++ after → k ∈ before ++ h :: after := fun hk => mem_replaced.mpr (.inr hk)
  have ne : x ≠ h := by
    rintro rfl
    exact absurd (hp.below hn x hx).2 (Nat.lt_irrefl _)
  have other : x ∈ before ++ after := (mem_replaced.mp hx').resolve_left ne
  have apart : p.Apart c.dual x := Pool.Flat.apart (hp.formed hn) x hx
  refine ⟨fun k hk => hh k (sub hk), fun T => ⟨?_, ?_⟩, fun none_ => ?_, ?_, ?_⟩
  · intro hm
    obtain ⟨k, hk, e⟩ := List.mem_map.mp hm
    rcases mem_replaced.mp hk with rfl | hk
    · exact List.mem_map.mpr ⟨x, other, (holds_dual hp hn sign).mp e x hx⟩
    · exact List.mem_map.mpr ⟨k, hk, e⟩
  · intro hall y hy
    obtain ⟨k, hk, rfl⟩ := List.mem_map.mp hy
    exact hall _ (List.mem_map_of_mem (sub hk))
  · exact absurd (none_ x other) (apart.ne_neutral c)
  · simp only [List.map_append, List.map_cons, List.sum_append, List.sum_cons]
    omega
  · refine largest_le fun w hw => ?_
    obtain ⟨k, hk, rfl⟩ := List.mem_map.mp hw
    exact weight_le_largest (sub hk)

/-- One operand makes way for another that is decisive where it was, and is not where none of the operands was. -/
theorem replace_reduces (hp : p.Sound) (e : p.Extends p') (hp' : p'.Sound) {before after : List Handle} {h k : Handle}
    (hh : ∀ x ∈ before ++ h :: after, p.Has x) (hk : p'.Has k)
    (decisive : ∀ T : Truth, T.holds p h = some c.decisive → T.holds p' k = some c.decisive)
    (indecisive : ∀ T : Truth, (∀ x ∈ before ++ h :: after, T.holds p x = some (!c.decisive)) →
      T.holds p' k = some (!c.decisive))
    (proper : ∃ x ∈ before ++ after, x ≠ c.neutral) (size : p'.treeSize k ≤ p.treeSize h)
    (weight : p'.weight k ≤ p.weight h) : Reduces c p (before ++ h :: after) p' (before ++ k :: after) := by
  have rest : ∀ x ∈ before ++ after, p.Has x := fun x hx => hh x (mem_replaced.mpr (.inr hx))
  refine ⟨fun x hx => ?_, fun T => ⟨fun hm => ?_, fun hall y hy => ?_⟩, fun none_ => ?_, ?_, ?_⟩
  · rcases mem_replaced.mp hx with rfl | hx
    · exact hk
    · exact e.has (rest x hx)
  · obtain ⟨x, hx, ex⟩ := List.mem_map.mp hm
    rcases mem_replaced.mp hx with rfl | hx
    · exact List.mem_map.mpr ⟨k, mem_replaced.mpr (.inl rfl), decisive T ex⟩
    · exact List.mem_map.mpr ⟨x, mem_replaced.mpr (.inr hx), (T.grows hp e (rest x hx)).trans ex⟩
  · obtain ⟨x, hx, rfl⟩ := List.mem_map.mp hy
    have all : ∀ z ∈ before ++ h :: after, T.holds p z = some (!c.decisive) := fun z hz =>
      hall _ (List.mem_map_of_mem hz)
    rcases mem_replaced.mp hx with rfl | hx
    · exact indecisive T all
    · rw [T.grows hp e (rest x hx)]
      exact all x (mem_replaced.mpr (.inr hx))
  · obtain ⟨x, hx, ne⟩ := proper
    exact absurd (none_ x (mem_replaced.mpr (.inr hx))) ne
  · have same : (before ++ after).map p'.treeSize = (before ++ after).map p.treeSize :=
      List.map_congr_left fun x hx => Pool.treeSize_extends hp hp' e (rest x hx)
    rw [(List.perm_middle.map _).sum_eq, (List.perm_middle.map _).sum_eq, List.map_cons, List.map_cons, same,
      List.sum_cons, List.sum_cons]
    omega
  · refine largest_le fun w hw => ?_
    obtain ⟨x, hx, rfl⟩ := List.mem_map.mp hw
    rcases mem_replaced.mp hx with rfl | hx
    · exact Nat.le_trans weight (weight_le_largest (mem_replaced.mpr (.inl rfl)))
    · rw [Pool.weight_extends hp e (rest x hx)]
      exact weight_le_largest (mem_replaced.mpr (.inr hx))

/-- An operand of the dual kind can lose the complements of the other operands. -/
theorem shrink_reduces (hp : p.Sound) (e : p.Extends p') (hp' : p'.Sound) {before after inner kept : List Handle}
    {h k : Handle} (hh : ∀ k ∈ before ++ h :: after, p.Has k)
    (hn : p.node? h = some (.junction c.dual inner)) (sign : h.negated = false)
    (hkept : kept = inner.filter fun x => !(before ++ h :: after).contains (-x)) (short : kept.length < inner.length)
    (hk : Joined c.dual p kept k p') : Reduces c p (before ++ h :: after) p' (before ++ k :: after) := by
  have kept_sub : ∀ x ∈ kept, x ∈ inner := by
    intro x hx
    rw [hkept] at hx
    exact (List.mem_filter.mp hx).1
  refine replace_reduces hp e hp' hh hk.has (fun T decided => hk.truth T _ ?_) (fun T all => hk.truth T _ ?_) ?_ ?_ ?_
  · rw [Connective.value_dual, List.forall_mem_map]
    exact fun x hx => (holds_dual hp hn sign).mp decided x (kept_sub x hx)
  · -- All operands agreeing, none of the inner ones that matter is among those left out.
    obtain ⟨z, hz, ez⟩ := (holds_dual_not hp hn sign).mp (all h (by simp))
    refine Connective.value_dual_not.mpr (List.mem_map.mpr ⟨z, ?_, ez⟩)
    rw [hkept]
    refine List.mem_filter.mpr ⟨hz, ?_⟩
    rw [Bool.not_eq_true', List.contains_eq_mem, decide_eq_false_iff_not]
    intro comp
    have := all _ comp
    rw [T.neg hp (hp.has_child hn hz), ez] at this
    simp at this
  · -- What is left out has its complement among the siblings, and that is no constant.
    rw [hkept] at short
    obtain ⟨x, hx, out⟩ := List.length_filter_lt_length_iff_exists.mp short
    have apart : p.Apart c.dual x := Pool.Flat.apart (hp.formed hn) x hx
    have other : -x ≠ h := by
      rintro rfl
      exact absurd (hp.below hn x hx).2 (Nat.lt_irrefl _)
    have sibling : -x ∈ before ++ h :: after := by
      simpa only [Bool.not_eq_true, Bool.not_eq_false', List.contains_iff_mem] using out
    refine ⟨-x, (mem_replaced.mp sibling).resolve_left other, fun neutral => ?_⟩
    refine absurd ?_ (apart.ne_absorbing c)
    rw [← Handle.neg_neg x, neutral]
    rfl
  · have sub : (kept.map p.treeSize).sum ≤ (inner.map p.treeSize).sum := by
      rw [hkept]
      exact sum_filter_le _ _ _
    have tree : p.treeSize h = 1 + (inner.map p.treeSize).sum := hp.tree hn
    have := hk.size
    omega
  · have sub : largest (kept.map p.weight) ≤ largest (inner.map p.weight) := by
      refine largest_le fun w hw => ?_
      obtain ⟨z, hz, rfl⟩ := List.mem_map.mp hw
      exact weight_le_largest (kept_sub z hz)
    have heavy : p.weight h = 1 + largest (inner.map p.weight) := Pool.weight_eq hp hn
    have := hk.weight
    omega

/-! ## The whole recursion -/

/-- An interned junction of its operands. -/
theorem intern_junction_yields (hp : p.Sound) {items : List Handle} (hh : ∀ h ∈ items, p.Has h)
    (flat : p.Flat c items) : Yields (PoolM.intern (.junction c items)) p (Joined c p items) := by
  refine (intern_yields (n := .junction c items) hp hh flat trivial).mono ?_
  rintro h p' ⟨e, _⟩ hp' ⟨sign, hn⟩
  refine ⟨Pool.has_of_node hn, fun T => ?_, fun none_ => ?_, ?_, ?_⟩
  · rw [T.junction hp' hn sign, List.map_congr_left fun x hx => T.grows hp e (hh x hx)]
    exact Below.refl _
  · have truth : p'.node? c.neutral = some .truth := by cases c <;> exact hp'.truth
    rw [none_, truth] at hn
    cases hn
  · rw [hp'.tree hn]
    exact Nat.le_of_eq (congrArg (1 + List.sum ·)
      (List.map_congr_left fun x hx => Pool.treeSize_extends hp hp' e (hh x hx)))
  · rw [Pool.weight_eq hp' hn]
    exact Nat.le_of_eq (congrArg (1 + largest ·)
      (List.map_congr_left fun x hx => Pool.weight_extends hp e (hh x hx)))

theorem empty_joined (hp : p.Sound) : Joined c p [] c.neutral p := by
  have index : c.neutral = .tt ∨ c.neutral = .ff := by cases c <;> simp [Connective.neutral]
  have has : p.Has c.neutral := by
    rcases index with e | e <;> rw [e]
    exacts [hp.has_tt, hp.has_ff]
  have hn : p.node? c.neutral = some .truth := by rcases index with e | e <;> rw [e] <;> exact hp.truth
  refine ⟨has, fun T => ?_, fun _ => List.forall_mem_nil _, ?_, ?_⟩
  · rw [T.neutral hp]
    exact Below.of_eq (Connective.value_other.mpr fun x hx => by cases hx)
  · rw [hp.tree hn]
    exact Nat.le_refl 1
  · rw [Pool.weight_eq hp hn]
    exact Nat.le_refl 1

theorem singleton_joined {h : Handle} (hh : p.Has h) : Joined c p [h] h p := by
  refine ⟨hh, fun T b hb => ?_, by simp, by simp, by simp⟩
  by_cases e : b = c.decisive
  · subst e
    exact (List.mem_singleton.mp (Connective.value_decisive.mp hb)).symm
  · obtain rfl : b = !c.decisive := Bool.eq_not_of_ne e
    exact Connective.value_other.mp hb _ (List.mem_singleton.mpr rfl)

/-- What is made of operands that nothing more can be done about. -/
theorem settled_yields (hp : p.Sound) {ops : List Handle} (has : ∀ h ∈ ops, p.Has h)
    (flat : 2 ≤ ops.length → p.Flat c ops) :
    Yields (match ops with
      | [] => return c.neutral
      | [h] => return h
      | _ => PoolM.intern (.junction c ops)) p (Joined c p ops) := by
  match ops with
  | [] => exact Yields.pure hp (empty_joined hp)
  | [h] => exact Yields.pure hp (singleton_joined (has h List.mem_cons_self))
  | a :: b :: rest => exact intern_junction_yields hp has (flat (by simp))

/-- The operands left of a nested junction are smaller than the nested junction. -/
theorem sum_kept_lt (hp : p.Sound) {inner kept ops : List Handle} {h : Handle}
    (hn : p.node? h = some (.junction c inner)) (hkept : kept = inner.filter fun x => !ops.contains (-x))
    (short : kept.length < inner.length) : 1 + (kept.map p.treeSize).sum < p.treeSize h := by
  rw [hp.tree hn, Node.children]
  refine Nat.add_lt_add_left ?_ 1
  rw [hkept] at short ⊢
  exact sum_filter_lt (fun x hx => hp.treeSize_pos (hp.has_child hn hx)) short

/-- All operands together get smaller once a nested junction is replaced by what is left of it. -/
theorem sum_replaced_lt (hp : p.Sound) (e : p.Extends p') (hp' : p'.Sound) {before after kept : List Handle}
    {h k : Handle} (has : ∀ x ∈ before ++ h :: after, p.Has x) (less : 1 + (kept.map p.treeSize).sum < p.treeSize h)
    (joined : Joined c p kept k p') :
    ((before ++ k :: after).map p'.treeSize).sum < ((before ++ h :: after).map p.treeSize).sum := by
  have same : ∀ x ∈ before ++ after, p'.treeSize x = p.treeSize x := fun x hx =>
    Pool.treeSize_extends hp hp' e (has x (mem_replaced.mpr (.inr hx)))
  have left := List.map_congr_left fun x hx => same x (List.mem_append_left after hx)
  have right := List.map_congr_left fun x hx => same x (List.mem_append_right before hx)
  have size := joined.size
  simp only [List.map_append, List.map_cons, List.sum_append, List.sum_cons, left, right]
  omega

/-- The total size of the operands falls with every round, so a join with enough steps ends in the junction of its
operands. -/
theorem joinWithin_yields (steps : Nat) (c : Connective) {p : Pool} (hp : p.Sound) (items : List Handle)
    (hh : ∀ h ∈ items, p.Has h) (bound : (items.map p.treeSize).sum < steps) :
    Yields (PoolM.joinWithin steps c items) p (Joined c p items) := by
  -- Both recursive calls are on operands whose tree sizes add up to less.
  induction steps generalizing c p items with
  | zero => omega
  | succ steps ih =>
    unfold PoolM.joinWithin
    refine (flatten_yields hp items hh).bind ?_
    rintro r _ _ _ ⟨rfl, hr⟩
    cases r with
    | none =>
      refine Yields.pure hp (absorbing_joined hp fun T hall => ?_)
      have := hall _ hr
      rw [T.absorbing hp] at this
      simp at this
    | some flat =>
      have reduced : Reduces c p items p (Handle.sorted flat) := hr.1.trans (sorted_reduces hr.1.has)
      have size := reduced.size
      have has := reduced.has
      have sorted := Handle.sorted_pairwise flat
      have apart := hr.2.sorted.apart
      dsimp only
      generalize Handle.sorted flat = ops at reduced size has sorted apart ⊢
      by_cases comp : Handle.hasComplements ops = true
      · rw [if_pos comp]
        exact Yields.pure hp (reduced.joined (complements_joined hp has comp))
      · rw [if_neg comp]
        refine (absorption?_yields hp ops [] ops rfl has).bind ?_
        rintro r _ _ _ ⟨rfl, hr⟩
        rcases r with _ | a
        · have consistent := Handle.consistent_of_hasComplements sorted (by simpa using comp)
          refine (settled_yields hp has fun two => ?_).mono fun _ _ _ _ => reduced.joined
          exact ⟨two, sorted, apart, consistent, hr⟩
        · obtain ⟨before, h, after, inner, rfl, hn, sign, ha⟩ := hr
          cases a with
          | drop rest =>
            obtain ⟨rfl, x, hx, hx'⟩ := ha
            have reduced := reduced.trans (drop_reduces hp has hn sign hx hx')
            have pos := hp.treeSize_pos (has h (mem_replaced.mpr (.inl rfl)))
            refine (ih c hp _ reduced.has ?_).mono fun _ _ _ _ => reduced.joined
            simp only [List.map_append, List.map_cons, List.sum_append, List.sum_cons] at size ⊢
            omega
          | shrink l kept r =>
            obtain ⟨rfl, rfl, hkept, short⟩ := ha
            have less := sum_kept_lt hp hn hkept short
            have whole := List.single_le_sum (fun _ _ => Nat.zero_le _) _
              (List.mem_map_of_mem (f := p.treeSize) (mem_replaced.mpr (.inl rfl) : h ∈ l ++ h :: r))
            have kept_has : ∀ x ∈ kept, p.Has x := by
              intro x hx
              rw [hkept] at hx
              exact hp.has_child hn (List.mem_filter.mp hx).1
            refine (ih c.dual hp kept kept_has (by omega)).bind ?_
            rintro k p' ⟨e, _⟩ hp' hk
            have shrunk := shrink_reduces hp e hp' has hn sign hkept short hk
            have smaller := sum_replaced_lt hp e hp' has less hk
            exact (ih c hp' _ shrunk.has (by omega)).mono fun _ _ _ _ => (reduced.trans shrunk).joined

theorem join_yields (hp : p.Sound) {items : List Handle} (hh : ∀ h ∈ items, p.Has h) :
    Yields (PoolM.join c items) p (Joined c p items) := by
  refine joinWithin_yields _ c hp items hh ?_
  rw [Pool.total_eq_sum]
  omega

end PathMerge
