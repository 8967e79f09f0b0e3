/-
  PathMerge.Proofs.Interning — a table stores every value once.

  `Slots.get?_set`: writing a slot changes what is read under the keys of that slot and nothing else.
  `InternTable.Sound`: every stored value is listed in its chain, and no value is stored twice.
  `InternTable.put` keeps this (`put_sound`), returns an index that holds the value (`put_value?`),
  and leaves every index that was in use as it was (`value?_put`).
-/

import Mathlib
import PathMerge.InternTable

namespace PathMerge

/-! ## Slots -/

namespace Slots

variable {α : Type}

theorem get?_vacant (bits key : Nat) : get? bits key (vacant : Slots α) = none := by
  cases bits <;> rfl

theorem get?_halves (bits key : Nat) (s : Slots α) :
    get? (bits + 1) key s =
      if key % 2 = 0 then get? bits (key / 2) s.halves.1 else get? bits (key / 2) s.halves.2 := by
  cases s with
  | vacant => cases bits <;> simp [get?, halves]
  | slot a => cases bits <;> simp [get?, halves]
  | fork even odd => rfl

/-- Two keys share a slot of `2^(bits+1)` when they agree in the last bit and their halves share one of `2^bits`. -/
theorem mod_two_pow_succ (bits j k : Nat) :
    j % 2 ^ (bits + 1) = k % 2 ^ (bits + 1) ↔ j % 2 = k % 2 ∧ j / 2 % 2 ^ bits = k / 2 % 2 ^ bits := by
  rw [Nat.pow_succ', Nat.mod_mul, Nat.mod_mul]
  omega

/-- The slots are indexed modulo their number, so a write is seen at every congruent index. -/
theorem get?_set (bits j k : Nat) (a : α) (s : Slots α) :
    get? bits j (set bits k a s) = if j % 2 ^ bits = k % 2 ^ bits then some a else get? bits j s := by
  induction bits generalizing j k s with
  | zero => simp [set, get?, Nat.mod_one]
  | succ bits ih =>
    rw [get?_halves bits j s]
    simp only [mod_two_pow_succ]
    by_cases hk : k % 2 = 0
    · simp only [set, hk, if_true, get?]
      by_cases hj : j % 2 = 0
      · simp only [hj, if_true, ih, true_and]
      · simp only [hj, if_false, false_and]
    · simp only [set, hk, if_false, get?]
      by_cases hj : j % 2 = 0
      · have : ¬ (0 = k % 2) := fun h => hk h.symm
        simp only [hj, if_true, this, false_and, if_false]
      · have same : j % 2 = k % 2 := by omega
        simp only [hj, if_false, ih, true_and, (show (j % 2 = k % 2) = True from eq_true same)]

theorem get?_congr {bits j k : Nat} (h : j % 2 ^ bits = k % 2 ^ bits) (s : Slots α) :
    get? bits j s = get? bits k s := by
  induction bits generalizing j k s with
  | zero => cases s <;> rfl
  | succ bits ih =>
    obtain ⟨last, rest⟩ := (mod_two_pow_succ bits j k).mp h
    rw [get?_halves, get?_halves, last, ih rest, ih rest]

end Slots

/-! ## Tables -/

namespace InternTable

variable {α : Type}

theorem value?_eq_some {t : InternTable α} {i : Nat} {v : α} :
    t.value? i = some v ↔ 0 < i ∧ t.values[i - 1]? = some v := by
  unfold value?
  by_cases h : i = 0
  · simp [h]
  · simp [h]; omega

theorem value?_le_size {t : InternTable α} {i : Nat} {v : α} (h : t.value? i = some v) :
    0 < i ∧ i ≤ t.size := by
  obtain ⟨hi, hv⟩ := value?_eq_some.mp h
  obtain ⟨hlt, -⟩ := Array.getElem?_eq_some_iff.mp hv
  exact ⟨hi, by unfold size; omega⟩

theorem value?_of_le {t : InternTable α} {i : Nat} (h : 0 < i) (hi : i ≤ t.size) :
    ∃ v, t.value? i = some v := by
  have : i - 1 < t.values.size := by unfold size at hi; omega
  exact ⟨t.values[i - 1], value?_eq_some.mpr ⟨h, Array.getElem?_eq_getElem this⟩⟩

theorem value_eq_ok {t : InternTable α} {i : Nat} {v : α} : t.value i = .ok v ↔ t.value? i = some v := by
  unfold value value?
  by_cases h : i = 0
  · simp [h]
  · simp only [h, if_false]
    cases t.values[i - 1]? <;> simp

variable [Hashable α]

def Together (t : InternTable α) (v w : α) : Prop := (hash v).toNat % 2 ^ t.bits = (hash w).toNat % 2 ^ t.bits

instance (t : InternTable α) (v w : α) : Decidable (t.Together v w) := inferInstanceAs (Decidable (_ = _))

theorem Together.chain_eq {t : InternTable α} {v w : α} (same : t.Together v w) : t.chain v = t.chain w := by
  unfold chain
  rw [Slots.get?_congr same]

/-- Every stored value stands in its chain, and no value is stored twice. -/
structure Sound (t : InternTable α) : Prop where
  linked : ∀ {i v}, t.value? i = some v → i ∈ t.chain v
  distinct : ∀ {i j v}, t.value? i = some v → t.value? j = some v → i = j

theorem empty_sound (bits : Nat) : (empty bits : InternTable α).Sound := by
  have none_stored : ∀ (i : Nat) (v : α), (empty bits : InternTable α).value? i ≠ some v := by
    intro i v h
    have := value?_le_size h
    simp [size, empty] at this
    omega
  exact ⟨fun h => absurd h (none_stored _ _), fun h => absurd h (none_stored _ _)⟩

variable [DecidableEq α]

theorem find?_some {t : InternTable α} {v : α} {i : Nat} (h : t.find? v = some i) : t.value? i = some v := by
  simpa using List.find?_some h

theorem find?_none {t : InternTable α} (ht : t.Sound) {v : α} (h : t.find? v = none) (i : Nat) :
    t.value? i ≠ some v := by
  intro hv
  have := List.find?_eq_none.mp h i (ht.linked hv)
  simp [hv] at this

theorem find?_empty (bits : Nat) (v : α) : (empty bits).find? v = none := by
  unfold find? chain
  simp [empty, Slots.get?_vacant]

/-! ## Putting a value -/

theorem put_found {t : InternTable α} {v : α} {i : Nat} (h : t.find? v = some i) : t.put v = (i, t) := by
  unfold put; rw [h]

theorem put_new_fst {t : InternTable α} {v : α} (h : t.find? v = none) : (t.put v).1 = t.size + 1 := by
  unfold put; rw [h]

theorem put_new_values {t : InternTable α} {v : α} (h : t.find? v = none) :
    (t.put v).2.values = t.values.push v := by
  unfold put; rw [h]

theorem put_new_value? {t : InternTable α} {v : α} (h : t.find? v = none) (i : Nat) :
    (t.put v).2.value? i = if i = t.size + 1 then some v else t.value? i := by
  unfold value?
  rw [put_new_values h]
  by_cases h0 : i = 0
  · simp [h0]
  · simp only [h0, if_false, Array.getElem?_push, size]
    by_cases e : i - 1 = t.values.size
    · have : i = t.values.size + 1 := by omega
      simp [this]
    · have : i ≠ t.values.size + 1 := by omega
      simp [e, this]

/-- The index that `put` returns holds the value. -/
theorem put_value? (t : InternTable α) (v : α) : (t.put v).2.value? (t.put v).1 = some v := by
  cases h : t.find? v with
  | some i => rw [put_found h]; exact find?_some h
  | none => rw [put_new_value? h, put_new_fst h, if_pos rfl]

/-- What was stored stays where it was. -/
theorem value?_put {t : InternTable α} {v w : α} {i : Nat} (h : t.value? i = some w) :
    (t.put v).2.value? i = some w := by
  cases hf : t.find? v with
  | some j => rw [put_found hf]; exact h
  | none =>
    have := value?_le_size h
    rw [put_new_value? hf, if_neg (by omega)]
    exact h

/-- Only the value put is new. -/
theorem value?_of_put {t : InternTable α} {v w : α} {i : Nat} (h : (t.put v).2.value? i = some w) :
    t.value? i = some w ∨ (i = (t.put v).1 ∧ w = v) := by
  cases hf : t.find? v with
  | some j => rw [put_found hf] at h; exact .inl h
  | none =>
    rw [put_new_value? hf] at h
    by_cases e : i = t.size + 1
    · rw [if_pos e] at h
      exact .inr ⟨by rw [put_new_fst hf, e], (Option.some.inj h).symm⟩
    · rw [if_neg e] at h
      exact .inl h

theorem chain_put_new {t : InternTable α} {v : α} (h : t.find? v = none) (w : α) :
    (t.put v).2.chain w = if t.Together w v then t.chain w ++ [t.size + 1] else t.chain w := by
  have read : (t.put v).2.chain w = (Slots.get? t.bits (hash w).toNat
      (t.chains.set t.bits (hash v).toNat (t.chain v ++ [t.size + 1]))).getD [] := by
    unfold put
    rw [h]
    rfl
  rw [read, Slots.get?_set]
  by_cases same : t.Together w v
  · rw [if_pos (show _ % _ = _ from same), if_pos same, same.chain_eq, Option.getD_some]
  · rw [if_neg (show ¬ _ % _ = _ from same), if_neg same]
    rfl

theorem mem_chain_put_new {t : InternTable α} {v : α} (h : t.find? v = none) {w : α} {i : Nat} :
    i ∈ (t.put v).2.chain w ↔ i ∈ t.chain w ∨ (i = (t.put v).1 ∧ t.Together w v) := by
  rw [chain_put_new h, put_new_fst h]
  by_cases same : t.Together w v
  · rw [if_pos same, List.mem_append, List.mem_singleton, and_iff_left same]
  · rw [if_neg same, or_iff_left fun new => same new.2]

/-- Putting a value keeps the table sound, whether the value is new or was there. -/
theorem put_sound {t : InternTable α} (ht : t.Sound) (v : α) : (t.put v).2.Sound := by
  cases h : t.find? v with
  | some i => rw [put_found h]; exact ht
  | none =>
    constructor
    · intro i w hi
      rw [mem_chain_put_new h]
      rcases value?_of_put hi with old | ⟨rfl, rfl⟩
      · exact .inl (ht.linked old)
      · exact .inr ⟨rfl, rfl⟩
    · intro i j w hi hj
      rcases value?_of_put hi with oldi | ⟨ei, rfl⟩
      · rcases value?_of_put hj with oldj | ⟨-, rfl⟩
        · exact ht.distinct oldi oldj
        · exact absurd oldi (find?_none ht h i)
      · rcases value?_of_put hj with oldj | ⟨ej, -⟩
        · exact absurd oldj (find?_none ht h j)
        · rw [ei, ej]

theorem size_put (t : InternTable α) (v : α) :
    (t.put v).2.size = t.size ∨ ((t.put v).1 = t.size + 1 ∧ (t.put v).2.size = t.size + 1) := by
  cases h : t.find? v with
  | some i => rw [put_found h]; exact .inl rfl
  | none => exact .inr ⟨put_new_fst h, by unfold size; rw [put_new_values h, Array.size_push]⟩

end InternTable

end PathMerge
