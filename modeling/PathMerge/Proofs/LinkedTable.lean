/-
  PathMerge.Proofs.LinkedTable — following links does what searching a chain does.

  `t.Leads index l` says that the links from `index` lead through the entries of `l` and then end. `search` loses
  nothing by giving up after as many entries as there are, because links that lead on from there go round in a
  circle (`searchWithin_enough`): it answers exactly where links can be followed to an end (`search_eq_answer`).

  A linked table refines a table with chains when it holds the same values and the links from each bucket lead
  through the chain of that bucket (`Refines`). `put` keeps this: it comes to an end with the index that the chain
  gives, or finds no room for a new value (`Refines.put`). A run of puts is the run on the chains as long as its
  values fit, and fails when they do not (`Refines.putAll`).
-/

import PathMerge.Handle
import PathMerge.LinkedTable
import PathMerge.Proofs.Chains

namespace PathMerge.LinkedTable

variable {α : Type} {t t' : LinkedTable α} {e : Entry α} {v w : α} {i j last index : Nat} {l : List Nat}

/-! ## Entries -/

theorem entry_eq_ok : t.entry i = .ok e ↔ 0 < i ∧ t.entries[i - 1]? = some e := by
  unfold entry
  by_cases zero : i = 0
  · simp [zero]
  · cases t.entries[i - 1]? <;> simp [zero, Nat.pos_of_ne_zero zero]

theorem entry_le_size (here : t.entry i = .ok e) : 0 < i ∧ i ≤ t.size := by
  obtain ⟨positive, there⟩ := entry_eq_ok.mp here
  obtain ⟨inside, -⟩ := Array.getElem?_eq_some_iff.mp there
  exact ⟨positive, by unfold size; omega⟩

theorem value_eq_ok : t.value i = .ok v ↔ ∃ e, t.entry i = .ok e ∧ e.value = v := by
  unfold value
  cases t.entry i with
  | error f => simp [bind, Except.bind]
  | ok e => simp [bind, Except.bind, pure, Except.pure]

def append (t : LinkedTable α) (v : α) : LinkedTable α := { t with entries := t.entries.push ⟨v, 0⟩ }

theorem entry_append : (t.append v).entry i = if i = t.size + 1 then .ok ⟨v, 0⟩ else t.entry i := by
  unfold entry append size
  by_cases zero : i = 0
  · simp [zero]
  · simp only [zero, if_false, Array.getElem?_push]
    by_cases new : i = t.entries.size + 1
    · simp [new]
    · have : i - 1 ≠ t.entries.size := by omega
      simp [new, this]

theorem add_of_room (room : t.size < maxSize) (v : α) : t.add v = .ok (t.size + 1, t.append v) := if_pos room

theorem add_of_full (full : maxSize ≤ t.size) (v : α) : t.add v = .error (.defect .storageFull) :=
  if_neg (Nat.not_lt.mpr full)

/-- Linking an entry changes that entry alone. -/
theorem setNext_ok (here : t.entry i = .ok e) (next : Nat) : ∃ t', t.setNext i next = .ok t' ∧
    t'.bits = t.bits ∧ t'.heads = t.heads ∧ t'.entries.map (·.value) = t.entries.map (·.value) ∧
    ∀ j, t'.entry j = if j = i then .ok { e with next } else t.entry j := by
  obtain ⟨positive, there⟩ := entry_eq_ok.mp here
  obtain ⟨inside, -⟩ := Array.getElem?_eq_some_iff.mp there
  refine ⟨{ t with entries := t.entries.setIfInBounds (i - 1) { e with next } }, ?_, rfl, rfl, ?_, fun j => ?_⟩
  · unfold setNext
    rw [here]
    rfl
  · refine Array.ext_getElem? fun k => ?_
    rw [Array.getElem?_map, Array.getElem?_map]
    by_cases same : i - 1 = k
    · subst same
      rw [Array.getElem?_setIfInBounds_self_of_lt inside, there]
      rfl
    · rw [Array.getElem?_setIfInBounds_ne same]
  · unfold entry
    by_cases zero : j = 0
    · simp [zero, Nat.ne_of_lt positive]
    · by_cases same : j = i
      · subst same
        simp [zero, Array.getElem?_setIfInBounds_self_of_lt inside]
      · have apart : i - 1 ≠ j - 1 := by omega
        simp [zero, same, Array.getElem?_setIfInBounds_ne apart]

/-! ## Links -/

/-- The links from `index` lead through the entries of `l`, and then end. -/
def Leads (t : LinkedTable α) : Nat → List Nat → Prop
  | index, [] => index = 0
  | index, i :: l => index = i ∧ ∃ e, t.entry i = .ok e ∧ t.Leads e.next l

theorem Leads.congr (leads : t.Leads index l) (same : ∀ i ∈ l, t'.entry i = t.entry i) : t'.Leads index l := by
  induction l generalizing index with
  | nil => exact leads
  | cons i l ih =>
    obtain ⟨rfl, e, here, rest⟩ := leads
    exact ⟨rfl, e, by rw [same _ List.mem_cons_self, here],
      ih rest fun j hj => same j (List.mem_cons_of_mem _ hj)⟩

/-- Links that end at `last` go on to an entry that `last` is linked to. -/
theorem Leads.snoc {new : Nat} (leads : t.Leads index (l ++ [last])) (same : ∀ i ∈ l, t'.entry i = t.entry i)
    (linked : ∀ e, t.entry last = .ok e → t'.entry last = .ok { e with next := new })
    (ends : t'.entry new = .ok ⟨v, 0⟩) : t'.Leads index (l ++ [last] ++ [new]) := by
  induction l generalizing index with
  | nil =>
    obtain ⟨rfl, e, here, -⟩ := leads
    exact ⟨rfl, _, linked e here, rfl, _, ends, rfl⟩
  | cons i l ih =>
    obtain ⟨rfl, e, here, rest⟩ := leads
    exact ⟨rfl, e, by rw [same _ List.mem_cons_self, here],
      ih rest fun j hj => same j (List.mem_cons_of_mem _ hj)⟩

theorem Leads.entry_last (leads : t.Leads index (l ++ [last])) : ∃ e, t.entry last = .ok e := by
  induction l generalizing index with
  | nil =>
    obtain ⟨-, e, here, -⟩ := leads
    exact ⟨e, here⟩
  | cons i l ih =>
    obtain ⟨-, e, -, rest⟩ := leads
    exact ih rest

theorem Leads.ne_zero (leads : t.Leads index (i :: l)) : index ≠ 0 := by
  obtain ⟨rfl, e, here, -⟩ := leads
  exact Nat.ne_of_gt (entry_le_size here).1

/-! ## The search -/

/-- The search goes on from the entry at `i` to the entry at `j`. -/
def Passes (t : LinkedTable α) (v : α) (i j : Nat) : Prop :=
  ∃ e, t.entry i = .ok e ∧ e.value ≠ v ∧ e.next ≠ 0 ∧ e.next = j

theorem Passes.inside (passes : t.Passes v i j) : 0 < i ∧ i ≤ t.size := by
  obtain ⟨e, here, -⟩ := passes
  exact entry_le_size here

section Search

variable [DecidableEq α]

theorem searchWithin_pass {steps : Nat} (passes : t.Passes v i j) :
    t.searchWithin v (steps + 1) i = t.searchWithin v steps j := by
  obtain ⟨e, here, other, more, rfl⟩ := passes
  rw [searchWithin, here]
  exact (if_neg other).trans (if_neg more)

theorem searchWithin_stay (stays : ∀ j, ¬ t.Passes v i j) (m n : Nat) :
    t.searchWithin v (m + 1) i = t.searchWithin v (n + 1) i := by
  rw [searchWithin, searchWithin]
  cases here : t.entry i with
  | error f => rfl
  | ok e =>
    by_cases equal : e.value = v
    · exact (if_pos equal).trans (if_pos equal).symm
    · have ends : e.next = 0 := by
        by_contra more
        exact stays e.next ⟨e, here, equal, more, rfl⟩
      exact ((if_neg equal).trans (if_pos ends)).trans ((if_neg equal).trans (if_pos ends)).symm

/-- No number of steps leads out of a circle. -/
theorem searchWithin_circle (circle : ∀ i ∈ l, ∃ j ∈ l, t.Passes v i j) (steps : Nat) (member : i ∈ l) :
    t.searchWithin v steps i = ExceptT.mk none := by
  induction steps generalizing i with
  | zero => rfl
  | succ steps ih =>
    obtain ⟨j, member', passes⟩ := circle i member
    rw [searchWithin_pass passes, ih member']

/-- With the entries of `l` behind it, the search needs no more steps than there are entries left. -/
theorem searchWithin_enough {steps : Nat} (nodup : l.Nodup)
    (behind : ∀ k ∈ l, ∃ j, t.Passes v k j ∧ (j = i ∨ j ∈ l)) (enough : t.size < steps + l.length) :
    t.searchWithin v steps i = t.searchWithin v (steps + 1) i := by
  induction steps generalizing l i with
  | zero =>
    -- There are not so many entries.
    have inside : l ⊆ List.range' 1 t.size := by
      intro k hk
      obtain ⟨j, passes, -⟩ := behind k hk
      rw [List.mem_range'_1]
      have := passes.inside
      omega
    have few := (List.subperm_of_subset nodup inside).length_le
    rw [List.length_range'] at few
    omega
  | succ steps ih =>
    by_cases back : i ∈ l
    · have circle : ∀ k ∈ l, ∃ j ∈ l, t.Passes v k j := by
        intro k hk
        obtain ⟨j, passes, rfl | member⟩ := behind k hk
        · exact ⟨j, back, passes⟩
        · exact ⟨j, member, passes⟩
      rw [searchWithin_circle circle _ back, searchWithin_circle circle _ back]
    · by_cases goes : ∃ j, t.Passes v i j
      · obtain ⟨j, passes⟩ := goes
        rw [searchWithin_pass passes, searchWithin_pass passes]
        refine ih (List.nodup_cons.mpr ⟨back, nodup⟩) (fun k hk => ?_) (by rw [List.length_cons]; omega)
        rcases List.mem_cons.mp hk with rfl | hk
        · exact ⟨j, passes, .inl rfl⟩
        · obtain ⟨j', passes', rfl | member⟩ := behind k hk
          · exact ⟨j', passes', .inr List.mem_cons_self⟩
          · exact ⟨j', passes', .inr (List.mem_cons_of_mem _ member)⟩
      · exact searchWithin_stay (fun j passes => goes ⟨j, passes⟩) steps (steps + 1)

theorem search_outside {f : Failure} (here : t.entry i = .error f) : t.search v i = answer (.error f) := by
  rw [search, searchWithin, here]
  rfl

theorem search_hit (here : t.entry i = .ok e) (equal : e.value = v) : t.search v i = answer (.ok (i, t)) := by
  rw [search, searchWithin, here]
  exact if_pos equal

theorem search_end (here : t.entry i = .ok e) (other : e.value ≠ v) (none : e.next = 0) :
    t.search v i = answer (t.addAfter i v) := by
  rw [search, searchWithin, here]
  exact (if_neg other).trans (if_pos none)

theorem search_next (here : t.entry i = .ok e) (other : e.value ≠ v) (more : e.next ≠ 0) :
    t.search v i = t.search v e.next := by
  rw [search, searchWithin_enough List.nodup_nil (List.forall_mem_nil _) (Nat.lt_succ_self _),
    searchWithin_pass ⟨e, here, other, more, rfl⟩, search]

/-- What following the links from an index comes to, with no bound on how many are followed. -/
inductive Searches (t : LinkedTable α) (v : α) : Nat → Except Failure (Nat × LinkedTable α) → Prop
  | outside {i : Nat} {f : Failure} (here : t.entry i = .error f) : Searches t v i (.error f)
  | hit {i : Nat} {e : Entry α} (here : t.entry i = .ok e) (equal : e.value = v) : Searches t v i (.ok (i, t))
  | ends {i : Nat} {e : Entry α} (here : t.entry i = .ok e) (other : e.value ≠ v) (last : e.next = 0) :
      Searches t v i (t.addAfter i v)
  | next {i : Nat} {e : Entry α} {r : Except Failure (Nat × LinkedTable α)} (here : t.entry i = .ok e)
      (other : e.value ≠ v) (more : e.next ≠ 0) (rest : Searches t v e.next r) : Searches t v i r

theorem searches_of_searchWithin {steps : Nat} {r : Except Failure (Nat × LinkedTable α)}
    (found : t.searchWithin v steps i = answer r) : t.Searches v i r := by
  induction steps generalizing i with
  | zero => cases found
  | succ steps ih =>
    rw [searchWithin] at found
    cases here : t.entry i with
    | error f =>
      rw [here] at found
      obtain rfl : .error f = r := Option.some.inj found
      exact .outside here
    | ok e =>
      rw [here] at found
      by_cases equal : e.value = v
      · obtain rfl : .ok (i, t) = r := Option.some.inj ((if_pos equal).symm.trans found)
        exact .hit here equal
      · replace found := (if_neg equal).symm.trans found
        by_cases last : e.next = 0
        · obtain rfl : t.addAfter i v = r := Option.some.inj ((if_pos last).symm.trans found)
          exact .ends here equal last
        · exact .next here equal last (ih ((if_neg last).symm.trans found))

/-- The search has an answer exactly where the links can be followed to an end, and it is the answer found there. -/
theorem search_eq_answer {r : Except Failure (Nat × LinkedTable α)} : t.search v i = answer r ↔ t.Searches v i r := by
  refine ⟨searches_of_searchWithin, fun searches => ?_⟩
  induction searches with
  | outside here => exact search_outside here
  | hit here equal => exact search_hit here equal
  | ends here other last => exact search_end here other last
  | next here other more _ ih => rw [search_next here other more, ih]

/-- Along links that end, the search stops at the first equal value. -/
theorem Leads.search_found (leads : t.Leads index l) (found : l.find? (fun i => t.value i = .ok v) = some j) :
    t.search v index = answer (.ok (j, t)) := by
  induction l generalizing index with
  | nil => cases found
  | cons i l ih =>
    obtain ⟨rfl, e, here, rest⟩ := leads
    by_cases equal : e.value = v
    · rw [List.find?_cons_of_pos (by simpa using value_eq_ok.mpr ⟨e, here, equal⟩)] at found
      rw [search_hit here equal, Option.some.inj found]
    · have other : ¬ t.value index = .ok v := by
        rw [value_eq_ok]
        rintro ⟨e', here', equal'⟩
        obtain rfl : e = e' := Except.ok.inj (here.symm.trans here')
        exact equal equal'
      rw [List.find?_cons_of_neg (by simpa using other)] at found
      have more : e.next ≠ 0 := by
        cases l with
        | nil => cases found
        | cons k l => exact rest.ne_zero
      rw [search_next here equal more, ih rest found]

/-- Along links that end, a value that is not there is appended after the last entry. -/
theorem Leads.search_missing (leads : t.Leads index (l ++ [last])) (missing : ∀ i ∈ l ++ [last], t.value i ≠ .ok v) :
    t.search v index = answer (t.addAfter last v) := by
  induction l generalizing index with
  | nil =>
    obtain ⟨rfl, e, here, ends⟩ := leads
    exact search_end here (fun equal => missing index (by simp) (value_eq_ok.mpr ⟨e, here, equal⟩)) ends
  | cons i l ih =>
    obtain ⟨rfl, e, here, rest⟩ := leads
    have other : e.value ≠ v := fun equal => missing index (by simp) (value_eq_ok.mpr ⟨e, here, equal⟩)
    have more : e.next ≠ 0 := by
      cases l with
      | nil => exact rest.ne_zero
      | cons k l => exact rest.ne_zero
    rw [search_next here other more]
    exact ih rest fun j hj => missing j (List.mem_cons_of_mem _ hj)

end Search

/-! ## Refinement -/

variable [Hashable α] {a : InternTable α} {vs : List α}

/-- The linked table is not beyond its bound, holds the values of `a`, and from each bucket its links lead through
the chain. -/
structure Refines (t : LinkedTable α) (a : InternTable α) : Prop where
  fits : t.size ≤ maxSize
  bits : t.bits = a.bits
  values : t.entries.map (·.value) = a.values
  links : ∀ v, t.Leads (t.head v) (a.chain v)

theorem Refines.size (h : t.Refines a) : t.size = a.size := by
  unfold LinkedTable.size InternTable.size
  rw [← h.values, Array.size_map]

theorem Refines.value (h : t.Refines a) (i : Nat) : t.value i = a.value i := by
  unfold LinkedTable.value InternTable.value entry
  rw [← h.values, Array.getElem?_map]
  by_cases zero : i = 0
  · simp [zero, bind, Except.bind]
  · cases t.entries[i - 1]? <;> simp [zero, bind, Except.bind, pure, Except.pure]

theorem together_iff (bits : t.bits = a.bits) :
    a.Together v w ↔ (hash v).toNat % 2 ^ t.bits = (hash w).toNat % 2 ^ t.bits := by
  rw [bits]
  rfl

theorem Refines.head_eq (h : t.Refines a) (near : a.Together v w) : t.head v = t.head w := by
  unfold head
  rw [Slots.get?_congr ((together_iff h.bits).mp near)]

theorem head_set (bits : t.bits = a.bits) (v w : α) (index : Nat) :
    { t with heads := t.heads.set t.bits (hash v).toNat index }.head w =
      if a.Together w v then index else t.head w := by
  unfold head
  rw [Slots.get?_set]
  by_cases near : a.Together w v
  · rw [if_pos near, if_pos ((together_iff bits).mp near), Option.getD_some]
  · rw [if_neg near, if_neg (mt (together_iff bits).mpr near)]

theorem empty_refines (bits : Nat) : (empty bits : LinkedTable α).Refines (.empty bits) := by
  refine ⟨Nat.zero_le _, rfl, Array.map_empty, fun v => ?_⟩
  unfold InternTable.chain head InternTable.empty empty
  rw [Slots.get?_vacant, Slots.get?_vacant]
  rfl

theorem Refines.entry_old (h : t.Refines a) (chained : a.Chained) (member : i ∈ a.chain w) :
    (t.append v).entry i = t.entry i := by
  obtain ⟨x, stored, -⟩ := chained.mem.mp member
  have inside := (InternTable.value?_le_size stored).2
  rw [← h.size] at inside
  rw [entry_append, if_neg (by omega)]

theorem Refines.entry_new (h : t.Refines a) : (t.append v).entry (a.size + 1) = .ok ⟨v, 0⟩ := by
  rw [entry_append, h.size, if_pos rfl]

variable [DecidableEq α]

theorem Refines.find? (h : t.Refines a) (v : α) :
    (a.chain v).find? (fun i => t.value i = .ok v) = a.find? v := by
  unfold InternTable.find?
  simp only [h.value, InternTable.value_eq_ok]

/-- An entry is appended to the links of its own bucket, and the others stay as they are. -/
theorem Refines.extended (h : t.Refines a) (missing : a.find? v = none) (room : t.size < maxSize)
    (bits : t'.bits = t.bits) (values : t'.entries.map (·.value) = (t.append v).entries.map (·.value))
    (own : ∀ w, a.Together w v → t'.Leads (t'.head w) (a.chain v ++ [a.size + 1]))
    (others : ∀ w, ¬ a.Together w v → t'.Leads (t'.head w) (a.chain w)) : t'.Refines (a.put v).2 := by
  refine ⟨?_, ?_, ?_, fun w => ?_⟩
  · have grown : t'.size = t.size + 1 := by
      have sizes := congrArg Array.size values
      rwa [Array.size_map, Array.size_map, append, Array.size_push] at sizes
    omega
  · rw [bits, h.bits, InternTable.put_bits]
  · rw [values, InternTable.put_new_values missing, ← h.values]
    exact Array.map_push
  · rw [InternTable.chain_put_new missing]
    by_cases same : a.Together w v
    · rw [if_pos same, same.chain_eq]
      exact own w same
    · rw [if_neg same]
      exact others w same

theorem Refines.put_found (h : t.Refines a) (found : a.find? v = some i) : t.put v = answer (.ok (i, t)) := by
  have leads := h.links v
  rw [← h.find?] at found
  have nonzero : t.head v ≠ 0 := by
    cases chain : a.chain v with
    | nil =>
      rw [chain] at found
      cases found
    | cons j l =>
      rw [chain] at leads
      exact leads.ne_zero
  unfold LinkedTable.put
  rw [if_neg nonzero, leads.search_found found]

/-- Where the value is missing, `put` appends it: to an empty bucket as its first entry, else after the last. -/
theorem Refines.put_missing (h : t.Refines a) (missing : a.find? v = none) :
    (a.chain v = [] ∧ t.put v = answer (t.addFirst v)) ∨
    ∃ l last, a.chain v = l ++ [last] ∧ t.put v = answer (t.addAfter last v) := by
  have leads := h.links v
  rw [← h.find?, List.find?_eq_none] at missing
  unfold LinkedTable.put
  rcases List.eq_nil_or_concat (a.chain v) with chain | ⟨l, last, chain⟩
  · rw [chain] at leads
    exact .inl ⟨chain, if_pos leads⟩
  · rw [List.concat_eq_append] at chain
    rw [chain] at leads missing
    have nonzero : t.head v ≠ 0 := by cases l <;> exact leads.ne_zero
    refine .inr ⟨l, last, chain, ?_⟩
    rw [if_neg nonzero]
    exact leads.search_missing fun i hi => by simpa using missing i hi

theorem Refines.put_full (h : t.Refines a) (missing : a.find? v = none) (full : maxSize ≤ t.size) :
    t.put v = answer (.error (.defect .storageFull)) := by
  rcases h.put_missing missing with ⟨-, put⟩ | ⟨l, last, -, put⟩
  · rw [put, addFirst, add_of_full full]
    rfl
  · rw [put, addAfter, add_of_full full]
    rfl

theorem Refines.addFirst (h : t.Refines a) (chained : a.Chained) (missing : a.find? v = none)
    (room : t.size < maxSize) (chain : a.chain v = []) :
    ∃ t', t.addFirst v = .ok (a.size + 1, t') ∧ t'.Refines (a.put v).2 := by
  unfold LinkedTable.addFirst
  rw [add_of_room room, h.size]
  refine ⟨_, rfl, h.extended missing room rfl rfl (fun w near => ?_) fun w apart => ?_⟩
  · rw [head_set (t := t.append v) h.bits, if_pos near, chain]
    exact ⟨rfl, _, h.entry_new, rfl⟩
  · rw [head_set (t := t.append v) h.bits, if_neg apart]
    exact (h.links w).congr fun i hi => h.entry_old chained hi

/-- The last entry of a chain is linked to the new one. It stands in no other chain, and the entries before it have
smaller indices, so no other link changes. -/
theorem Refines.addAfter (h : t.Refines a) (chained : a.Chained) (missing : a.find? v = none)
    (room : t.size < maxSize) (chain : a.chain v = l ++ [last]) :
    ∃ t', t.addAfter last v = .ok (a.size + 1, t') ∧ t'.Refines (a.put v).2 := by
  have leads := h.links v
  rw [chain] at leads
  have member : last ∈ a.chain v := by simp [chain]
  obtain ⟨e, here⟩ := leads.entry_last
  obtain ⟨t', linked, bits, heads, values, entries⟩ :=
    setNext_ok ((h.entry_old (v := v) chained member).trans here) (a.size + 1)
  have head : ∀ w, t'.head w = t.head w := by
    intro w
    unfold LinkedTable.head
    rw [heads, bits]
    rfl
  have other : ∀ {w i}, i ∈ a.chain w → i ≠ last → t'.entry i = t.entry i := by
    intro w i hi apart
    rw [entries, if_neg apart, h.entry_old chained hi]
  refine ⟨t', ?_, h.extended missing room bits values (fun w near => ?_) fun w apart => ?_⟩
  · unfold LinkedTable.addAfter
    rw [add_of_room room, h.size]
    show (do return (a.size + 1, ← (t.append v).setNext last (a.size + 1))) = _
    rw [linked]
    rfl
  · rw [head, h.head_eq near, chain]
    have increasing := chained.increasing v
    rw [chain] at increasing
    refine leads.snoc (v := v) (fun i hi => ?_) (fun e' here' => ?_) ?_
    · have less : i < last := (List.pairwise_append.mp increasing).2.2 i hi last List.mem_cons_self
      exact other (w := v) (by simp [chain, hi]) (Nat.ne_of_lt less)
    · obtain rfl : e = e' := Except.ok.inj (here.symm.trans here')
      rw [entries, if_pos rfl]
    · have inside := (entry_le_size here).2
      rw [h.size] at inside
      rw [entries, if_neg (by omega), h.entry_new]
  · rw [head]
    refine (h.links w).congr fun i hi => other hi ?_
    rintro rfl
    obtain ⟨x, stored, near⟩ := chained.mem.mp hi
    obtain ⟨y, stored', near'⟩ := chained.mem.mp member
    obtain rfl : x = y := Option.some.inj (stored.symm.trans stored')
    exact apart (near.trans near'.symm)

theorem Refines.put_new (h : t.Refines a) (chained : a.Chained) (missing : a.find? v = none)
    (room : t.size < maxSize) : ∃ t', t.put v = answer (.ok (a.size + 1, t')) ∧ t'.Refines (a.put v).2 := by
  rcases h.put_missing missing with ⟨chain, put⟩ | ⟨l, last, chain, put⟩
  · obtain ⟨t', added, refines⟩ := h.addFirst chained missing room chain
    exact ⟨t', by rw [put, added], refines⟩
  · obtain ⟨t', added, refines⟩ := h.addAfter chained missing room chain
    exact ⟨t', by rw [put, added], refines⟩

/-! ## Runs -/

def putAll (t : LinkedTable α) (vs : List α) : Answer (LinkedTable α) := vs.foldlM (fun t v => Prod.snd <$> t.put v) t

theorem putAll_cons (put : t.put v = answer (.ok (i, t'))) (vs : List α) : t.putAll (v :: vs) = t'.putAll vs := by
  unfold putAll
  rw [List.foldlM_cons, put]
  rfl

theorem putAll_cons_error {f : Failure} (put : t.put v = answer (.error f)) (vs : List α) :
    t.putAll (v :: vs) = answer (.error f) := by
  unfold putAll
  rw [List.foldlM_cons, put]
  rfl

/-- `put` gives the index that the chains give, and fails only where it finds no room for a new value. -/
theorem Refines.put (h : t.Refines a) (chained : a.Chained) (v : α) :
    ((a.put v).2.size ≤ maxSize → ∃ t', t.put v = answer (.ok ((a.put v).1, t')) ∧ t'.Refines (a.put v).2) ∧
    (maxSize < (a.put v).2.size → t.put v = answer (.error (.defect .storageFull))) := by
  cases found : a.find? v with
  | some i =>
    rw [InternTable.put_found found, ← h.size]
    exact ⟨fun _ => ⟨t, h.put_found found, h⟩, fun beyond => absurd h.fits (Nat.not_le.mpr beyond)⟩
  | none =>
    have grown : (a.put v).2.size = t.size + 1 := by
      unfold InternTable.size
      rw [InternTable.put_new_values found, Array.size_push, h.size]
      rfl
    rw [grown, InternTable.put_new_fst found]
    exact ⟨h.put_new chained found, fun beyond => h.put_full found (Nat.le_of_lt_succ beyond)⟩

/-- A run of puts is the run on the chains if all its values fit, and fails if they do not. -/
theorem Refines.putAll (h : t.Refines a) (chained : a.Chained) (vs : List α) :
    ((a.putAll vs).size ≤ maxSize → ∃ t', t.putAll vs = answer (.ok t') ∧ t'.Refines (a.putAll vs)) ∧
    (maxSize < (a.putAll vs).size → t.putAll vs = answer (.error (.defect .storageFull))) := by
  induction vs generalizing t a with
  | nil => exact ⟨fun _ => ⟨t, rfl, h⟩, fun beyond => absurd (h.size ▸ h.fits) (Nat.not_le.mpr beyond)⟩
  | cons v vs ih =>
    rw [InternTable.putAll_cons]
    obtain ⟨goes, fails⟩ := h.put chained v
    by_cases room : (a.put v).2.size ≤ maxSize
    · obtain ⟨t', put, refines⟩ := goes room
      rw [putAll_cons put]
      exact ih refines (chained.put v)
    · rw [putAll_cons_error (fails (Nat.not_le.mp room))]
      have grows := InternTable.size_le_putAll (a.put v).2 vs
      exact ⟨fun fits => absurd (grows.trans fits) room, fun _ => rfl⟩

/-! ## Numbering -/

/-- A value of the run is found under the index that the chains give it. -/
theorem Refines.put_stored (h : t.Refines a) (holds : a.Holds vs) (stored : v ∈ vs) :
    t.put v = answer (.ok ((a.put v).1, t)) := by
  cases found : a.find? v with
  | some i => rw [InternTable.put_found found, h.put_found found]
  | none =>
    obtain ⟨i, there⟩ := holds.stored.mp stored
    exact absurd there (InternTable.find?_none holds.sound found i)

theorem Refines.of_put (h : t.Refines a) (chained : a.Chained) (put : t.put v = answer (.ok (i, t'))) :
    i = (a.put v).1 ∧ t'.Refines (a.put v).2 := by
  obtain ⟨goes, fails⟩ := h.put chained v
  by_cases room : (a.put v).2.size ≤ maxSize
  · obtain ⟨u, put', refines⟩ := goes room
    cases put.symm.trans put'
    exact ⟨rfl, refines⟩
  · cases put.symm.trans (fails (Nat.not_le.mp room))

theorem Refines.of_putAll (h : t.Refines a) (chained : a.Chained) (arrives : t.putAll vs = answer (.ok t')) :
    t'.Refines (a.putAll vs) := by
  obtain ⟨goes, fails⟩ := h.putAll chained vs
  by_cases room : (a.putAll vs).size ≤ maxSize
  · obtain ⟨u, arrives', refines⟩ := goes room
    cases arrives.symm.trans arrives'
    exact refines
  · cases arrives.symm.trans (fails (Nat.not_le.mp room))

/-- What one more `put` does to a table that holds the values `vs`. -/
theorem Refines.numbers (h : t.Refines a) (holds : a.Holds vs) (v : α) (room : v ∈ vs ∨ t.size < maxSize) :
    ∃ i t', t.put v = answer (.ok (i, t')) ∧ 1 ≤ i ∧ i ≤ t'.size ∧ t'.value i = .ok v ∧
      t'.size = (if v ∈ vs then t.size else t.size + 1) ∧
      (∀ j w, t.value j = .ok w → t'.value j = .ok w) ∧
      ∀ between w j u u', t'.putAll between = answer (.ok u) → u.put w = answer (.ok (j, u')) → (j = i ↔ w = v) := by
  have grown := holds.size_put v
  rw [← h.size] at grown
  have fits : (a.put v).2.size ≤ maxSize := by
    rw [grown]
    have := h.fits
    split <;> grind
  obtain ⟨t', put, refines⟩ := (h.put holds.chained v).1 fits
  have stored := InternTable.put_value? a v
  obtain ⟨positive, inside⟩ := InternTable.value?_le_size stored
  refine ⟨_, t', put, positive, ?_, ?_, ?_, fun j w old => ?_, fun between w j u u' run again => ?_⟩
  · rwa [refines.size]
  · rw [refines.value]
    exact InternTable.value_eq_ok.mpr stored
  · rw [refines.size, grown]
  · rw [h.value, InternTable.value_eq_ok] at old
    rw [refines.value]
    exact InternTable.value_eq_ok.mpr (InternTable.value?_put old)
  · have later := refines.of_putAll (holds.chained.put v) run
    rw [(later.of_put ((holds.put v).putAll between).chained again).1]
    exact holds.index_eq_iff v w between

/-- Whatever value is looked for in a bucket, following its links comes to an end. -/
theorem Refines.searches (h : t.Refines a) (chained : a.Chained) (v : α) (some : t.head v ≠ 0) :
    ∃ r, t.Searches v (t.head v) r := by
  have ends : ∃ r, t.put v = answer r := by
    obtain ⟨goes, fails⟩ := h.put chained v
    by_cases room : (a.put v).2.size ≤ maxSize
    · obtain ⟨t', put, -⟩ := goes room
      exact ⟨_, put⟩
    · exact ⟨_, fails (Nat.not_le.mp room)⟩
  obtain ⟨r, put⟩ := ends
  unfold LinkedTable.put at put
  rw [if_neg some] at put
  exact ⟨r, search_eq_answer.mp put⟩

omit [DecidableEq α] in
/-- The links of a bucket end, their indices increase, and they lead to the values that fall into the bucket and to
no others. -/
theorem Refines.bucket (h : t.Refines a) (holds : a.Holds vs) (v : α) :
    ∃ l, t.Leads (t.head v) l ∧ l.Pairwise (· < ·) ∧ ∀ i, i ∈ l ↔
      ∃ w ∈ vs, t.value i = .ok w ∧ (hash v).toNat % 2 ^ t.bits = (hash w).toNat % 2 ^ t.bits := by
  refine ⟨a.chain v, h.links v, holds.chained.increasing v, fun i => ?_⟩
  rw [holds.chained.mem, h.value]
  constructor
  · rintro ⟨w, stored, near⟩
    exact ⟨w, holds.stored.mpr ⟨i, stored⟩, InternTable.value_eq_ok.mpr stored, (together_iff h.bits).mp near⟩
  · rintro ⟨w, -, stored, near⟩
    exact ⟨w, InternTable.value_eq_ok.mp stored, (together_iff h.bits).mpr near⟩

/-- A run of puts on a new table, of any number of bits, comes to an end: with a table if the values that are put are
not more than a table takes, and with the failure for a full table if they are more. On a table it ends with, `put`
returns an index from 1 to the size, at which its value stands, unless the value is new and the table full. The size
grows by one if the value is new, no index changes its value, and however often and whenever a value is put again, it
gets the same index, which no other value gets. So the values that were put are numbered without gaps. Following the
links of a bucket comes to an end, whatever value is looked for: their indices increase, and they lead to exactly those
of the values that fall into the bucket. -/
theorem interning_bijective {bits : Nat} {new : LinkedTable α} (created : create bits = .ok new) (vs : List α) :
    (vs.toFinset.card ≤ maxSize → ∃ t, new.putAll vs = answer (.ok t)) ∧
    (maxSize < vs.toFinset.card → new.putAll vs = answer (.error (.defect .storageFull))) ∧
    ∀ t, new.putAll vs = answer (.ok t) →
      (∀ v, v ∈ vs ∨ t.size < maxSize → ∃ i t', t.put v = answer (.ok (i, t')) ∧
        1 ≤ i ∧ i ≤ t'.size ∧ t'.value i = .ok v ∧
        t'.size = (if v ∈ vs then t.size else t.size + 1) ∧
        (∀ j w, t.value j = .ok w → t'.value j = .ok w) ∧
        ∀ between w j u u', t'.putAll between = answer (.ok u) → u.put w = answer (.ok (j, u')) → (j = i ↔ w = v)) ∧
      (∀ v, v ∉ vs → t.size = maxSize → t.put v = answer (.error (.defect .storageFull))) ∧
      (∃ number : α → Nat, (∀ v ∈ vs, t.put v = answer (.ok (number v, t))) ∧
        Set.BijOn number {v | v ∈ vs} (Set.Icc 1 t.size)) ∧
      (∀ v, t.head v ≠ 0 → ∃ r, t.Searches v (t.head v) r) ∧
      ∀ v, ∃ l, t.Leads (t.head v) l ∧ l.Pairwise (· < ·) ∧
        ∀ i, i ∈ l ↔ ∃ w ∈ vs, t.value i = .ok w ∧ (hash v).toNat % 2 ^ t.bits = (hash w).toNat % 2 ^ t.bits := by
  obtain rfl : new = empty bits := by
    unfold create at created
    split at created
    · exact (Except.ok.inj created).symm
    · cases created
  have start := empty_refines (α := α) bits
  have chained := InternTable.empty_chained (α := α) bits
  have holds := (InternTable.empty_holds (α := α) bits).putAll vs
  rw [List.nil_append] at holds
  obtain ⟨goes, fails⟩ := start.putAll chained vs
  rw [← holds.size_eq]
  refine ⟨fun fits => ?_, fails, fun t arrives => ?_⟩
  · obtain ⟨t, arrives, -⟩ := goes fits
    exact ⟨t, arrives⟩
  · have h := start.of_putAll chained arrives
    refine ⟨h.numbers holds, fun v new full => ?_, ⟨_, fun v => h.put_stored holds, ?_⟩, h.searches holds.chained,
      h.bucket holds⟩
    · refine (h.put holds.chained v).2 ?_
      rw [holds.size_put, if_neg new, ← h.size, full]
      exact Nat.lt_succ_self _
    · rw [h.size]
      exact holds.bijOn

/-- Four handles in two buckets: three fall into the first. -/
def crowded : LinkedTable Handle :=
  ⟨1, #[⟨⟨5, false⟩, 2⟩, ⟨⟨6, false⟩, 4⟩, ⟨⟨5, true⟩, 0⟩, ⟨⟨7, false⟩, 0⟩], .fork (.slot 1) (.slot 3)⟩

theorem interning_bijective_crowded :
    create 1 = .ok (empty 1 : LinkedTable Handle) ∧
    (empty 1).putAll [⟨5, false⟩, ⟨6, false⟩, ⟨5, true⟩, ⟨6, false⟩, ⟨7, false⟩] = answer (.ok crowded) ∧
    crowded.put ⟨6, false⟩ = answer (.ok (2, crowded)) ∧
    (∀ between w j u u', crowded.putAll between = answer (.ok u) → u.put w = answer (.ok (j, u')) →
      (j = 2 ↔ w = ⟨6, false⟩)) ∧
    (∃ t, crowded.put ⟨7, true⟩ = answer (.ok (5, t)) ∧ t.size = 5 ∧ t.next 3 = .ok 5) ∧
    crowded.Leads (crowded.head ⟨7, false⟩) [1, 2, 4] := by
  have created : create 1 = .ok (empty 1 : LinkedTable Handle) := rfl
  have arrives : (empty 1).putAll [⟨5, false⟩, ⟨6, false⟩, ⟨5, true⟩, ⟨6, false⟩, ⟨7, false⟩] =
    answer (.ok crowded) := by cbv
  have again : crowded.put ⟨6, false⟩ = answer (.ok (2, crowded)) := by cbv
  obtain ⟨_, _, after⟩ := interning_bijective created [⟨5, false⟩, ⟨6, false⟩, ⟨5, true⟩, ⟨6, false⟩, ⟨7, false⟩]
  obtain ⟨puts, _⟩ := after crowded arrives
  obtain ⟨i, t, put, -, -, -, -, -, unique⟩ := puts ⟨6, false⟩ (.inl (by decide))
  cases again.symm.trans put
  refine ⟨created, arrives, again, unique, ⟨⟨1, #[⟨⟨5, false⟩, 2⟩, ⟨⟨6, false⟩, 4⟩, ⟨⟨5, true⟩, 5⟩, ⟨⟨7, false⟩, 0⟩,
    ⟨⟨7, true⟩, 0⟩], .fork (.slot 1) (.slot 3)⟩, by cbv, rfl, rfl⟩, ?_⟩
  exact ⟨rfl, _, rfl, rfl, _, rfl, rfl, _, rfl, rfl⟩

end PathMerge.LinkedTable
