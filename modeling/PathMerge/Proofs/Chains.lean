/-
  PathMerge.Proofs.Chains — a table numbers the values put into it.

  The chain of a value lists the indices of all values that fall into the same slot, in increasing order, and nothing
  else (`Chained`). So a search that finds nothing has seen every index at which the value could be.

  `Holds vs` says that a table is sound and holds exactly the values `vs`. Putting a value keeps it and adds the value
  (`Holds.put`), and so does putting one value after another (`Holds.putAll`). The values are then numbered from 1 to
  the size of the table (`Holds.bijOn`).
-/

import PathMerge.Proofs.Interning

namespace PathMerge.InternTable

variable {α : Type} [Hashable α] {t : InternTable α} {v w : α} {vs : List α} {i : Nat}

/-! ## Chains -/

structure Chained (t : InternTable α) : Prop where
  mem : ∀ {v i}, i ∈ t.chain v ↔ ∃ w, t.value? i = some w ∧ t.Together v w
  increasing : ∀ v, (t.chain v).Pairwise (· < ·)

theorem empty_chained (bits : Nat) : (empty bits : InternTable α).Chained := by
  have none : ∀ v : α, (empty bits).chain v = [] := by
    intro v
    unfold chain empty
    rw [Slots.get?_vacant, Option.getD_none]
  refine ⟨fun {v i} => ?_, fun v => ?_⟩
  · rw [none]
    refine iff_of_false List.not_mem_nil ?_
    rintro ⟨w, stored, _⟩
    have := value?_le_size stored
    simp only [size, empty, List.size_toArray, List.length_nil] at this
    omega
  · rw [none]
    exact .nil

variable [DecidableEq α]

theorem put_bits (t : InternTable α) (v : α) : (t.put v).2.bits = t.bits := by
  unfold put
  split <;> rfl

/-- A new value goes to the end of its chain, under an index greater than all there are. -/
theorem Chained.put (h : t.Chained) (v : α) : (t.put v).2.Chained := by
  cases found : t.find? v with
  | some i => rwa [put_found found]
  | none =>
    have together : ∀ {a b : α}, (t.put v).2.Together a b ↔ t.Together a b := by
      intro a b
      unfold Together
      rw [put_bits]
    refine ⟨fun {w i} => ?_, fun w => ?_⟩
    · rw [mem_chain_put_new found]
      constructor
      · rintro (old | ⟨rfl, same⟩)
        · obtain ⟨x, stored, near⟩ := h.mem.mp old
          exact ⟨x, value?_put stored, together.mpr near⟩
        · exact ⟨v, put_value? t v, together.mpr same⟩
      · rintro ⟨x, stored, near⟩
        rcases value?_of_put stored with old | ⟨index, rfl⟩
        · exact .inl (h.mem.mpr ⟨x, old, together.mp near⟩)
        · exact .inr ⟨index, together.mp near⟩
    · rw [chain_put_new found]
      split
      · refine List.pairwise_append.mpr ⟨h.increasing w, List.pairwise_singleton _ _, fun i hi j hj => ?_⟩
        obtain ⟨x, stored, _⟩ := h.mem.mp hi
        have := (value?_le_size stored).2
        rw [List.mem_singleton.mp hj]
        omega
      · exact h.increasing w

/-! ## What a table holds -/

def putAll (t : InternTable α) (vs : List α) : InternTable α := vs.foldl (fun t v => (t.put v).2) t

theorem putAll_cons (t : InternTable α) (v : α) (vs : List α) : t.putAll (v :: vs) = (t.put v).2.putAll vs := rfl

theorem size_le_putAll (t : InternTable α) (vs : List α) : t.size ≤ (t.putAll vs).size := by
  induction vs generalizing t with
  | nil => exact le_rfl
  | cons v vs ih =>
    have first : t.size ≤ (t.put v).2.size := by
      rcases size_put t v with same | ⟨-, more⟩ <;> omega
    exact first.trans (ih _)

structure Holds (t : InternTable α) (vs : List α) : Prop where
  sound : t.Sound
  chained : t.Chained
  stored : ∀ {v}, v ∈ vs ↔ ∃ i, t.value? i = some v

theorem empty_holds (bits : Nat) : (empty bits : InternTable α).Holds [] := by
  refine ⟨empty_sound bits, empty_chained bits, fun {v} => iff_of_false List.not_mem_nil ?_⟩
  rintro ⟨i, stored⟩
  exact find?_none (empty_sound bits) (find?_empty bits v) i stored

theorem Holds.put (h : t.Holds vs) (v : α) : (t.put v).2.Holds (vs ++ [v]) := by
  refine ⟨put_sound h.sound v, h.chained.put v, fun {w} => ?_⟩
  rw [List.mem_append, List.mem_singleton, h.stored]
  constructor
  · rintro (⟨i, stored⟩ | rfl)
    · exact ⟨i, value?_put stored⟩
    · exact ⟨_, put_value? t w⟩
  · rintro ⟨i, stored⟩
    rcases value?_of_put stored with old | ⟨_, rfl⟩
    · exact .inl ⟨i, old⟩
    · exact .inr rfl

theorem Holds.putAll (h : t.Holds vs) (ws : List α) : (t.putAll ws).Holds (vs ++ ws) := by
  induction ws generalizing t vs with
  | nil => rwa [List.append_nil]
  | cons w ws ih =>
    have rest := ih (h.put w)
    rwa [List.append_assoc] at rest

theorem value?_putAll (stored : t.value? i = some v) (ws : List α) : (t.putAll ws).value? i = some v := by
  induction ws generalizing t with
  | nil => exact stored
  | cons w ws ih => exact ih (value?_put stored)

/-- What is there is found, under the index it has. -/
theorem Holds.put_stored (h : t.Holds vs) (stored : v ∈ vs) : ∃ i, t.put v = (i, t) ∧ t.value? i = some v := by
  cases found : t.find? v with
  | some i => exact ⟨i, put_found found, find?_some found⟩
  | none =>
    obtain ⟨i, there⟩ := h.stored.mp stored
    exact absurd there (find?_none h.sound found i)

theorem Holds.size_put (h : t.Holds vs) (v : α) : (t.put v).2.size = if v ∈ vs then t.size else t.size + 1 := by
  by_cases stored : v ∈ vs
  · obtain ⟨i, found, _⟩ := h.put_stored stored
    rw [if_pos stored, found]
  · cases found : t.find? v with
    | some i => exact absurd (h.stored.mpr ⟨i, find?_some found⟩) stored
    | none =>
      rw [if_neg stored]
      unfold size
      rw [put_new_values found, Array.size_push]

/-- Two values have one index only if they are one value, however many are put in between. -/
theorem Holds.index_eq_iff (h : t.Holds vs) (v w : α) (between : List α) :
    (((t.put v).2.putAll between).put w).1 = (t.put v).1 ↔ w = v := by
  have last := ((h.put v).putAll between).put w
  have first : (((t.put v).2.putAll between).put w).2.value? (t.put v).1 = some v :=
    value?_put (value?_putAll (put_value? t v) between)
  have second := put_value? ((t.put v).2.putAll between) w
  constructor
  · intro same
    rw [same, first] at second
    exact (Option.some.inj second).symm
  · rintro rfl
    exact last.sound.distinct second first

/-- The values that were put are numbered from 1 to the size of the table. -/
theorem Holds.bijOn (h : t.Holds vs) : Set.BijOn (fun v => (t.put v).1) {v | v ∈ vs} (Set.Icc 1 t.size) := by
  refine ⟨fun v hv => ?_, fun v hv w hw same => ?_, fun i hi => ?_⟩
  · obtain ⟨i, found, stored⟩ := h.put_stored hv
    show (t.put v).1 ∈ _
    rw [found]
    exact value?_le_size stored
  · obtain ⟨i, found, storedV⟩ := h.put_stored hv
    obtain ⟨j, found', storedW⟩ := h.put_stored hw
    change (t.put v).1 = (t.put w).1 at same
    rw [found, found'] at same
    obtain rfl : i = j := same
    exact Option.some.inj (storedV.symm.trans storedW)
  · obtain ⟨v, stored⟩ := value?_of_le hi.1 hi.2
    have hv : v ∈ vs := h.stored.mpr ⟨i, stored⟩
    obtain ⟨j, found, stored'⟩ := h.put_stored hv
    refine ⟨v, hv, ?_⟩
    show (t.put v).1 = i
    rw [found]
    exact h.sound.distinct stored' stored

theorem Holds.size_eq (h : t.Holds vs) : t.size = vs.toFinset.card := by
  have counted : vs.toFinset.card = (Finset.Icc 1 t.size).card := by
    refine Finset.card_nbij (fun v => (t.put v).1) ?_ ?_ ?_ <;>
      simp only [List.coe_toFinset, Finset.coe_Icc]
    · exact h.bijOn.mapsTo
    · exact h.bijOn.injOn
    · exact h.bijOn.surjOn
  rw [counted, Nat.card_Icc, Nat.add_sub_cancel]

end PathMerge.InternTable
