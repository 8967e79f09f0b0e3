/-
  PathMerge.Proofs.Registry — symbols keep their numbers and names.

  In a sound registry a function name stands for exactly one function symbol, and whatever is found
  under the name of a local has that name and is neither a function nor the heap. Registering a symbol
  keeps the registry sound and forgets nothing (`Extends`). A fresh symbol takes the next number under
  a name that no local has, so it hides none.
-/

import Mathlib
import PathMerge.Symbol

namespace PathMerge.Registry

structure Sound (r : Registry) : Prop where
  heap : r.get? Registry.heap = some ⟨heapName, .heap, .heap⟩
  functions : ∀ {name id}, r.functions.lookup name = some id ↔
    ∃ sort arity owner, r.get? id = some ⟨name, sort, .function arity owner⟩
  locals : ∀ {name id}, r.locals.lookup name = some id →
    ∃ s, r.get? id = some s ∧ s.name = name ∧ s.isFunction = false ∧ id ≠ Registry.heap
  result : ∀ {id}, r.result? = some id → ∃ sort, r.get? id = some ⟨resultName, sort, .result⟩

structure Extends (r r' : Registry) : Prop where
  get : ∀ {id s}, r.get? id = some s → r'.get? id = some s
  locals : ∀ {name id}, r.locals.lookup name = some id → r'.locals.lookup name = some id
  functions : ∀ {name id}, r.functions.lookup name = some id → r'.functions.lookup name = some id
  result : ∀ {id}, r.result? = some id → r'.result? = some id

theorem Extends.refl (r : Registry) : r.Extends r := ⟨id, id, id, id⟩

theorem Extends.trans {r r' r'' : Registry} (h : r.Extends r') (h' : r'.Extends r'') : r.Extends r'' :=
  ⟨h'.get ∘ h.get, h'.locals ∘ h.locals, h'.functions ∘ h.functions, h'.result ∘ h.result⟩

variable {r : Registry}

theorem get?_eq_some_lt {id : SymbolId} {s : Symbol} (h : r.get? id = some s) : id.number < r.size :=
  (Array.getElem?_eq_some_iff.mp h).1

theorem get?_of_lt {id : SymbolId} (h : id.number < r.size) : ∃ s, r.get? id = some s :=
  ⟨_, Array.getElem?_eq_getElem h⟩

theorem Extends.size_le {r' : Registry} (h : r.Extends r') : r.size ≤ r'.size := by
  by_cases h0 : r.size = 0
  · omega
  · obtain ⟨s, hs⟩ : ∃ s, r.get? ⟨r.size - 1⟩ = some s := get?_of_lt (by show r.size - 1 < r.size; omega)
    have := get?_eq_some_lt (h.get hs)
    simp only at this
    omega

theorem get_eq_ok {id : SymbolId} {s : Symbol} (h : r.get? id = some s) : r.get id = .ok s := by
  unfold get
  rw [h]

/-- A function symbol is known by its name. -/
theorem Sound.function_unique (hr : r.Sound) {name : String} {id id' : SymbolId} {s s' : ValueSort} {a a' : Nat}
    {o o' : String} (h : r.get? id = some ⟨name, s, .function a o⟩)
    (h' : r.get? id' = some ⟨name, s', .function a' o'⟩) : id = id' := by
  have found := hr.functions.mpr ⟨s, a, o, h⟩
  rw [hr.functions.mpr ⟨s', a', o', h'⟩] at found
  exact (Option.some.inj found).symm

/-- Two names of locals for one symbol are one name. -/
theorem Sound.local_injective (hr : r.Sound) {x y : String} {id : SymbolId} (hx : r.locals.lookup x = some id)
    (hy : r.locals.lookup y = some id) : x = y := by
  obtain ⟨s, hs, rfl, _⟩ := hr.locals hx
  obtain ⟨t, ht, rfl, _⟩ := hr.locals hy
  rw [hs] at ht
  rw [Option.some.inj ht]

theorem Sound.result_ne_heap (hr : r.Sound) {id : SymbolId} (h : r.result? = some id) : id ≠ Registry.heap := by
  rintro rfl
  obtain ⟨sort, hs⟩ := hr.result h
  rw [hr.heap] at hs
  exact absurd (congrArg Symbol.kind (Option.some.inj hs)) (by simp)

/-! ## Pushing a symbol -/

theorem get?_push (r : Registry) (s : Symbol) (id : SymbolId) :
    (r.push s).2.get? id = if id.number = r.size then some s else r.get? id :=
  Array.getElem?_push

theorem get?_push_new (r : Registry) (s : Symbol) : (r.push s).2.get? (r.push s).1 = some s := by
  rw [get?_push]
  exact if_pos rfl

theorem get?_push_old {id : SymbolId} {t : Symbol} (s : Symbol) (h : r.get? id = some t) :
    (r.push s).2.get? id = some t := by
  have := get?_eq_some_lt h
  rw [get?_push, if_neg (by omega), h]

theorem size_push (r : Registry) (s : Symbol) : (r.push s).2.size = r.size + 1 := Array.size_push ..

theorem get?_of_push {id : SymbolId} {s t : Symbol} (h : (r.push s).2.get? id = some t) :
    r.get? id = some t ∨ (id = (r.push s).1 ∧ t = s) := by
  rw [get?_push] at h
  split at h
  · cases h
    rename_i number
    refine .inr ⟨?_, rfl⟩
    cases id
    exact congrArg SymbolId.mk number
  · exact .inl h

/-- A symbol that is no function leaves the functions as they are. -/
theorem functions_push (hr : r.Sound) {s : Symbol} (hs : s.isFunction = false) {name : String} {id : SymbolId} :
    r.functions.lookup name = some id ↔
      ∃ sort arity owner, (r.push s).2.get? id = some ⟨name, sort, .function arity owner⟩ := by
  rw [hr.functions]
  constructor
  · rintro ⟨sort, arity, owner, h⟩
    exact ⟨sort, arity, owner, get?_push_old s h⟩
  · rintro ⟨sort, arity, owner, h⟩
    rcases get?_of_push h with old | ⟨_, rfl⟩
    · exact ⟨sort, arity, owner, old⟩
    · cases hs

theorem lookup_cons {α : Type} {x y : String} {a b : α} {l : List (String × α)}
    (h : ((x, a) :: l).lookup y = some b) : (y = x ∧ b = a) ∨ l.lookup y = some b := by
  by_cases e : y = x
  · subst e
    rw [List.lookup_cons_self] at h
    exact .inl ⟨rfl, (Option.some.inj h).symm⟩
  · rw [List.lookup_cons, beq_false_of_ne e] at h
    exact .inr h

theorem lookup_cons_of_some {α : Type} {x y : String} {a b : α} {l : List (String × α)} (hx : l.lookup x = none)
    (h : l.lookup y = some b) : ((x, a) :: l).lookup y = some b := by
  have : y ≠ x := by
    rintro rfl
    rw [hx] at h
    cases h
  rw [List.lookup_cons, beq_false_of_ne this]
  exact h

/-! ## Registering -/

theorem initial_sound : initial.Sound := by
  have only : ∀ {id s}, initial.get? id = some s → s = ⟨heapName, .heap, .heap⟩ := by
    intro id s h
    obtain ⟨i⟩ := id
    cases i with
    | zero => exact (Option.some.inj h).symm
    | succ i => cases h
  refine ⟨rfl, ?_, fun h => (by cases h), fun h => (by cases h)⟩
  intro name id
  constructor
  · intro h
    cases h
  · rintro ⟨sort, arity, owner, h⟩
    cases only h

def Grown (r r' : Registry) : Prop := r'.Sound ∧ r.Extends r'

theorem confirmSort_ok {id id' : SymbolId} {sort : ValueSort} (h : r.confirmSort id sort = .ok id') : id' = id := by
  unfold confirmSort at h
  rcases hs : r.get id with e | s
  · rw [hs] at h
    cases h
  · rw [hs] at h
    change (if s.sort = sort then Except.ok id else _) = _ at h
    split at h
    · exact (Except.ok.inj h).symm
    · cases h

/-- Adding the result extends a sound registry by the result's symbol. -/
theorem addResult_ok (hr : r.Sound) {sort : ValueSort} {id : SymbolId} {r' : Registry}
    (h : r.addResult sort = .ok (id, r')) : r.Grown r' ∧ r'.result? = some id := by
  unfold addResult at h
  cases hres : r.result? with
  | some old =>
    rw [hres] at h
    rcases hc : r.confirmSort old sort with e | id'
    · simp only [hc] at h
      cases h
    · simp only [hc] at h
      cases h
      rw [confirmSort_ok hc, hres]
      exact ⟨⟨hr, .refl r⟩, rfl⟩
  | none =>
    rw [hres] at h
    cases h
    refine ⟨⟨⟨get?_push_old _ hr.heap, functions_push hr rfl, ?_, ?_⟩,
      ⟨get?_push_old _, fun h => h, fun h => h, ?_⟩⟩, rfl⟩
    · intro name id h
      obtain ⟨s, hs, rest⟩ := hr.locals h
      exact ⟨s, get?_push_old _ hs, rest⟩
    · intro id h
      cases h
      exact ⟨sort, get?_push_new r _⟩
    · intro id h
      rw [hres] at h
      cases h

/-- Entering a name for a symbol that has it. -/
theorem enter_grown {r' : Registry} {name : String} {id : SymbolId} (hr : r'.Sound)
    (free : r'.locals.lookup name = none) {s : Symbol} (hs : r'.get? id = some s) (hn : s.name = name)
    (hf : s.isFunction = false) (hid : id ≠ Registry.heap) :
    r'.Grown { r' with locals := (name, id) :: r'.locals } := by
  refine ⟨⟨hr.heap, hr.functions, ?_, hr.result⟩, ⟨fun h => h, lookup_cons_of_some free, fun h => h, fun h => h⟩⟩
  intro y k h
  rcases lookup_cons h with ⟨rfl, rfl⟩ | h
  · exact ⟨s, hs, hn, hf, hid⟩
  · exact hr.locals h

/-- Pushing a symbol that is no function. -/
theorem push_grown (hr : r.Sound) {s : Symbol} (hs : s.isFunction = false) : r.Grown (r.push s).2 := by
  refine ⟨⟨get?_push_old _ hr.heap, functions_push hr hs, ?_, ?_⟩, ⟨get?_push_old _, id, id, id⟩⟩
  · intro name id h
    obtain ⟨t, ht, rest⟩ := hr.locals h
    exact ⟨t, get?_push_old _ ht, rest⟩
  · intro id h
    obtain ⟨sort, hs⟩ := hr.result h
    exact ⟨sort, get?_push_old _ hs⟩

theorem push_ne_heap (hr : r.Sound) (s : Symbol) : (r.push s).1 ≠ Registry.heap := by
  intro e
  have := get?_eq_some_lt hr.heap
  have number : r.size = 0 := congrArg SymbolId.number e
  omega

theorem Grown.trans {r r' r'' : Registry} (h : r.Grown r') (h' : r'.Grown r'') : r.Grown r'' :=
  ⟨h'.1, h.2.trans h'.2⟩

theorem resultAlias?_eq_some {name : String} {sort : ValueSort} {id : SymbolId}
    (h : r.resultAlias? name sort = some id) : r.result? = some id ∧ name = resultName := by
  unfold resultAlias? at h
  obtain ⟨h, hq⟩ := Option.filter_eq_some_iff.mp h
  refine ⟨h, ?_⟩
  simp only [Bool.and_eq_true, beq_iff_eq] at hq
  exact hq.1

/-- Adding a local extends a sound registry, and the name then resolves to it. -/
theorem addLocal_ok (hr : r.Sound) {name : String} {sort : ValueSort} {id : SymbolId} {r' : Registry}
    (h : r.addLocal name sort = .ok (id, r')) : r.Grown r' ∧ r'.locals.lookup name = some id := by
  unfold addLocal at h
  cases found : r.locals.lookup name with
  | some old =>
    rw [found] at h
    rcases hc : r.confirmSort old sort with e | id'
    · simp only [hc] at h
      cases h
    · simp only [hc] at h
      cases h
      rw [confirmSort_ok hc, found]
      exact ⟨⟨hr, .refl r⟩, rfl⟩
  | none =>
    rw [found] at h
    cases ha : r.resultAlias? name sort with
    | some res =>
      rw [ha] at h
      cases h
      obtain ⟨hres, rfl⟩ := resultAlias?_eq_some ha
      obtain ⟨sort', hs⟩ := hr.result hres
      exact ⟨enter_grown hr found hs rfl rfl (hr.result_ne_heap hres), List.lookup_cons_self⟩
    | none =>
      rw [ha] at h
      cases h
      have pushed := push_grown hr (s := ⟨name, sort, .localName⟩) rfl
      refine ⟨pushed.trans (enter_grown pushed.1 found (get?_push_new r _) rfl rfl
        (push_ne_heap hr ⟨name, sort, .localName⟩)), ?_⟩
      exact List.lookup_cons_self

/-- Adding a function extends a sound registry by a symbol of that arity and owner. -/
theorem addFunction_ok (hr : r.Sound) {theory name : String} {arity : Nat} {sort : ValueSort} {id : SymbolId}
    {r' : Registry} (h : r.addFunction theory name arity sort = .ok (id, r')) :
    r.Grown r' ∧ r'.get? id = some ⟨name, sort, .function arity theory⟩ := by
  unfold addFunction at h
  cases found : r.functions.lookup name with
  | some old =>
    rw [found] at h
    cases h
  | none =>
    rw [found] at h
    cases h
    refine ⟨⟨⟨get?_push_old _ hr.heap, ?_, ?_, ?_⟩,
      ⟨get?_push_old _, fun h => h, lookup_cons_of_some found, fun h => h⟩⟩,
      get?_push_new r _⟩
    · intro y k
      constructor
      · intro h
        rcases lookup_cons h with ⟨rfl, rfl⟩ | h
        · exact ⟨sort, arity, theory, get?_push_new r _⟩
        · obtain ⟨s, a, o, h⟩ := hr.functions.mp h
          exact ⟨s, a, o, get?_push_old _ h⟩
      · rintro ⟨s, a, o, h⟩
        rcases get?_of_push h with old | ⟨rfl, e⟩
        · exact lookup_cons_of_some found (hr.functions.mpr ⟨s, a, o, old⟩)
        · cases e
          exact List.lookup_cons_self
    · intro y k h
      obtain ⟨s, hs, rest⟩ := hr.locals h
      exact ⟨s, get?_push_old _ hs, rest⟩
    · intro k h
      obtain ⟨s, hs⟩ := hr.result h
      exact ⟨s, get?_push_old _ hs⟩

/-! ## Fresh symbols -/

theorem mem_keys_of_lookup {α : Type} {l : List (String × α)} {x : String} (h : (l.lookup x).isSome) :
    x ∈ l.map (·.1) := by
  obtain ⟨a, ha⟩ := Option.isSome_iff_exists.mp h
  obtain ⟨before, after, rfl, _⟩ := List.lookup_eq_some_iff.mp ha
  simp

theorem toString_injective {j k : Nat} (h : toString j = toString k) : j = k := by
  rw [Nat.toString_eq_ofList_toDigits, Nat.toString_eq_ofList_toDigits, String.ofList_inj] at h
  have := congrArg (Nat.ofDigitChars 10 · 0) h
  simpa only [Nat.ofDigitChars_ten_toDigits] using this

/-- The name is the first one that is free. The candidates are one more than the names in use, so one of them is. -/
theorem freshName_least (r : Registry) (base : String) : ∃ k, 1 ≤ k ∧ r.freshName base = base ++ "_" ++ toString k ∧
    r.locals.lookup (base ++ "_" ++ toString k) = none ∧
    ∀ j, 1 ≤ j → j < k → (r.locals.lookup (base ++ "_" ++ toString j)).isSome = true := by
  have candidate_injective : Function.Injective fun k : Nat => base ++ "_" ++ toString k := by
    intro j k h
    exact toString_injective ((String.append_right_inj _).mp h)
  rcases found : (List.range' 1 (r.locals.length + 1)).find? fun k =>
      (r.locals.lookup (base ++ "_" ++ toString k)).isNone with _ | k
  · exfalso
    have taken : ∀ k ∈ List.range' 1 (r.locals.length + 1),
        (r.locals.lookup (base ++ "_" ++ toString k)).isSome := by
      intro k hk
      simpa using List.find?_eq_none.mp found k hk
    let names := (List.range' 1 (r.locals.length + 1)).map fun k : Nat => base ++ "_" ++ toString k
    have nodup : names.Nodup := (List.nodup_range' 1).map candidate_injective
    have subset : names ⊆ r.locals.map (·.1) := by
      intro x hx
      obtain ⟨k, hk, rfl⟩ := List.mem_map.mp hx
      exact mem_keys_of_lookup (taken k hk)
    have := (nodup.subperm subset).length_le
    simp only [names, List.length_map, List.length_range'] at this
    omega
  · have name : r.freshName base = base ++ "_" ++ toString k := by
      unfold freshName
      dsimp only
      rw [found, Option.getD_some]
    obtain ⟨free, inside, taken⟩ := List.find?_range'_eq_some.mp found
    refine ⟨k, (List.mem_range'_1.mp inside).1, name, Option.isNone_iff_eq_none.mp free, fun j positive less => ?_⟩
    simpa using taken j positive less

theorem lookup_freshName (r : Registry) (base : String) : r.locals.lookup (r.freshName base) = none := by
  obtain ⟨k, _, name, free, _⟩ := r.freshName_least base
  rw [name]
  exact free

theorem addFresh_grown (hr : r.Sound) (base : String) (sort : ValueSort) :
    r.Grown (r.addFresh base sort).2 := by
  have pushed := push_grown hr (s := ⟨r.freshName base, sort, .fresh⟩) rfl
  exact pushed.trans (enter_grown pushed.1 (lookup_freshName r base) (get?_push_new r _) rfl rfl
    (push_ne_heap hr ⟨r.freshName base, sort, .fresh⟩))

theorem addFresh_size (r : Registry) (base : String) (sort : ValueSort) :
    (r.addFresh base sort).2.size = r.size + 1 := size_push r _

end PathMerge.Registry
