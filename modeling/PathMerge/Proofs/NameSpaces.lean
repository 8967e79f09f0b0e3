/-
  PathMerge.Proofs.NameSpaces — no symbol is captured.

  A client of a registry makes calls for symbols, in any order. `Step` lists what one call can do: find a symbol
  that is there, let a local stand for the result, or register a new symbol under the next number. Everything
  else is read off this list. A call keeps the registry sound and forgets nothing, and it keeps the local name
  space complete (`Entered`): the names in it are those of the locals and of the fresh symbols, and `result`
  where a local stands for the result. So the name of a fresh symbol, which is chosen to be free there, is one
  that no local and no other fresh symbol has.
-/

import PathMerge.Proofs.Steady

namespace PathMerge

/-- A local, or a symbol that was made up. -/
def Symbol.isVariable (s : Symbol) : Bool :=
  match s.kind with
  | .localName | .fresh => true
  | _ => false

namespace Registry

variable {r r' : Registry} {id : SymbolId} {s : Symbol} {name : String}

/-! ## Calls -/

inductive Call where
  | result (sort : ValueSort)
  | localName (name : String) (sort : ValueSort)
  | function (theory name : String) (arity : Nat) (sort : ValueSort)
  | fresh (base : String) (sort : ValueSort)

namespace Call

def run : Call → Registry → Except Failure (SymbolId × Registry)
  | result sort, r => r.addResult sort
  | localName name sort, r => r.addLocal name sort
  | function theory name arity sort, r => r.addFunction theory name arity sort
  | fresh base sort, r => .ok (r.addFresh base sort)

def symbol (r : Registry) : Call → Symbol
  | result sort => ⟨resultName, sort, .result⟩
  | localName name sort => ⟨name, sort, .localName⟩
  | function theory name arity sort => ⟨name, sort, .function arity theory⟩
  | fresh base sort => ⟨r.freshName base, sort, .fresh⟩

end Call

/-- The registry after the calls. One that is refused returns no registry, and the next is made on the old one. -/
def after (r : Registry) : List Call → Registry
  | [] => r
  | c :: calls =>
    match c.run r with
    | .ok (_, r') => r'.after calls
    | .error _ => r.after calls

/-- The symbols that were not there before a call returned them, in the order of the calls. -/
def introduced (r : Registry) : List Call → List SymbolId
  | [] => []
  | c :: calls =>
    match c.run r with
    | .ok (id, r') => if (r.get? id).isSome then r'.introduced calls else id :: r'.introduced calls
    | .error _ => r.introduced calls

/-! ## What a call can do -/

def pushed (r : Registry) (s : Symbol) : Registry := (r.push s).2

inductive Step (r : Registry) : Call → SymbolId → Registry → Prop
  | oldResult {id : SymbolId} {s : Symbol} (known : r.result? = some id) (found : r.get? id = some s) :
      Step r (.result s.sort) id r
  | newResult (sort : ValueSort) (none : r.result? = none) :
      Step r (.result sort) ⟨r.size⟩ { r.pushed ⟨resultName, sort, .result⟩ with result? := some ⟨r.size⟩ }
  | oldLocal {name : String} {id : SymbolId} {s : Symbol} (known : r.locals.lookup name = some id)
      (found : r.get? id = some s) : Step r (.localName name s.sort) id r
  /-- The local stands for the result. -/
  | resultLocal {id : SymbolId} {s : Symbol} (free : r.locals.lookup resultName = none) (known : r.result? = some id)
      (found : r.get? id = some s) :
      Step r (.localName resultName s.sort) id { r with locals := (resultName, id) :: r.locals }
  | newLocal {name : String} (sort : ValueSort) (free : r.locals.lookup name = none)
      (apart : r.resultAlias? name sort = none) :
      Step r (.localName name sort) ⟨r.size⟩
        { r.pushed ⟨name, sort, .localName⟩ with locals := (name, ⟨r.size⟩) :: r.locals }
  | newFunction {name : String} (theory : String) (arity : Nat) (sort : ValueSort)
      (free : r.functions.lookup name = none) :
      Step r (.function theory name arity sort) ⟨r.size⟩
        { r.pushed ⟨name, sort, .function arity theory⟩ with functions := (name, ⟨r.size⟩) :: r.functions }
  | newFresh (base : String) (sort : ValueSort) (free : r.locals.lookup (r.freshName base) = none) :
      Step r (.fresh base sort) ⟨r.size⟩
        { r.pushed ⟨r.freshName base, sort, .fresh⟩ with locals := (r.freshName base, ⟨r.size⟩) :: r.locals }

/-- The name is taken, and by a symbol of another sort unless it is that of a function. -/
def Clashes (r : Registry) : Call → Prop
  | .result sort => ∃ id s, r.result? = some id ∧ r.get? id = some s ∧ s.sort ≠ sort
  | .localName name sort => ∃ id s, r.locals.lookup name = some id ∧ r.get? id = some s ∧ s.sort ≠ sort
  | .function _ name _ _ => ∃ id, r.functions.lookup name = some id
  | .fresh _ _ => False

theorem confirmSort_eq (found : r.get? id = some s) (sort : ValueSort) :
    r.confirmSort id sort = if s.sort = sort then .ok id else .error (.error (.sortMismatch s.name s.sort sort)) := by
  unfold confirmSort
  rw [get_eq_ok found]
  rfl

theorem addResult_eq (known : r.result? = some id) (found : r.get? id = some s) (sort : ValueSort) :
    r.addResult sort = if s.sort = sort then .ok (id, r) else .error (.error (.sortMismatch s.name s.sort sort)) := by
  unfold addResult
  rw [known]
  simp only [confirmSort_eq found]
  split <;> rfl

theorem addLocal_eq (known : r.locals.lookup name = some id) (found : r.get? id = some s) (sort : ValueSort) :
    r.addLocal name sort =
      if s.sort = sort then .ok (id, r) else .error (.error (.sortMismatch s.name s.sort sort)) := by
  unfold addLocal
  rw [known]
  simp only [confirmSort_eq found]
  split <;> rfl

theorem resultAlias?_sort {sort : ValueSort} (h : r.resultAlias? name sort = some id) :
    ∃ s, r.get? id = some s ∧ s.sort = sort := by
  obtain ⟨_, passes⟩ := Option.filter_eq_some_iff.mp h
  rw [Bool.and_eq_true, Option.any_eq_true] at passes
  obtain ⟨s, found, same⟩ := passes.2
  exact ⟨s, found, of_decide_eq_true same⟩

/-- A call does one of these things, or is refused because of a clash. -/
theorem Call.run_step (hr : r.Sound) (c : Call) :
    (∃ id r', c.run r = .ok (id, r') ∧ r.Step c id r') ∨ (∃ why, c.run r = .error (.error why)) ∧ r.Clashes c := by
  cases c with
  | result sort =>
    show (∃ id r', r.addResult sort = _ ∧ _) ∨ (∃ why, r.addResult sort = _) ∧ _
    cases known : r.result? with
    | none =>
      refine .inl ⟨_, _, ?_, .newResult sort known⟩
      unfold addResult
      rw [known]
      rfl
    | some id =>
      obtain ⟨old, found⟩ := hr.result known
      rw [addResult_eq known found]
      split
      · rename_i same
        exact .inl ⟨id, r, rfl, same ▸ .oldResult known found⟩
      · rename_i differ
        exact .inr ⟨⟨_, rfl⟩, id, _, known, found, differ⟩
  | localName name sort =>
    show (∃ id r', r.addLocal name sort = _ ∧ _) ∨ (∃ why, r.addLocal name sort = _) ∧ _
    cases known : r.locals.lookup name with
    | some id =>
      obtain ⟨s, found, _⟩ := hr.locals known
      rw [addLocal_eq known found]
      split
      · rename_i same
        exact .inl ⟨id, r, rfl, same ▸ .oldLocal known found⟩
      · rename_i differ
        exact .inr ⟨⟨_, rfl⟩, id, s, known, found, differ⟩
    | none =>
      left
      unfold addLocal
      rw [known]
      cases stands : r.resultAlias? name sort with
      | none => exact ⟨_, _, rfl, .newLocal sort known stands⟩
      | some id =>
        obtain ⟨result, rfl⟩ := resultAlias?_eq_some stands
        obtain ⟨s, found, rfl⟩ := resultAlias?_sort stands
        exact ⟨_, _, rfl, .resultLocal known result found⟩
  | function theory name arity sort =>
    show (∃ id r', r.addFunction theory name arity sort = _ ∧ _) ∨
      (∃ why, r.addFunction theory name arity sort = _) ∧ _
    unfold addFunction
    cases known : r.functions.lookup name with
    | some id => exact .inr ⟨⟨_, rfl⟩, id, known⟩
    | none => exact .inl ⟨_, _, rfl, .newFunction theory arity sort known⟩
  | fresh base sort => exact .inl ⟨_, _, rfl, .newFresh base sort (lookup_freshName r base)⟩

theorem Call.run_grown {c : Call} (hr : r.Sound) (ran : c.run r = .ok (id, r')) : r.Grown r' := by
  cases c with
  | result sort => exact (addResult_ok hr ran).1
  | localName name sort => exact (addLocal_ok hr ran).1
  | function theory name arity sort => exact (addFunction_ok hr ran).1
  | fresh base sort =>
    cases ran
    exact addFresh_grown hr base sort

/-- A call that introduced a symbol did not clash with one that was there. -/
theorem Step.not_clashes {c : Call} (step : r.Step c id r') : ¬ r.Clashes c := by
  cases step with
  | oldResult known found | oldLocal known found =>
    rintro ⟨i, t, known', found', differ⟩
    obtain rfl := Option.some.inj (known.symm.trans known')
    exact differ (congrArg Symbol.sort (Option.some.inj (found'.symm.trans found)))
  | newResult sort none =>
    rintro ⟨i, t, known, _⟩
    rw [none] at known
    cases known
  | newLocal sort free | resultLocal free =>
    rintro ⟨i, t, known, _⟩
    rw [free] at known
    cases known
  | newFunction theory arity sort free =>
    rintro ⟨i, known⟩
    rw [free] at known
    cases known
  | newFresh => exact False.elim

/-- A symbol that was there or has the next number, with the name and the sort that were asked for. -/
structure Answered (r : Registry) (c : Call) (id : SymbolId) (r' : Registry) : Prop where
  number : ((r.get? id).isSome = true ∧ r'.symbols = r.symbols) ∨
    (id = ⟨r.size⟩ ∧ r'.symbols = r.symbols.push (c.symbol r))
  symbol : ∃ s, r'.get? id = some s ∧ s.name = (c.symbol r).name ∧ s.sort = (c.symbol r).sort

theorem Step.answered {c : Call} (hr : r.Sound) (step : r.Step c id r') : r.Answered c id r' := by
  cases step with
  | oldResult known found | resultLocal _ known found =>
    obtain ⟨_, result⟩ := hr.result known
    obtain rfl := Option.some.inj (result.symm.trans found)
    exact ⟨.inl ⟨Option.isSome_of_eq_some found, rfl⟩, _, found, rfl, rfl⟩
  | oldLocal known found =>
    obtain ⟨t, there, named, _⟩ := hr.locals known
    obtain rfl := Option.some.inj (there.symm.trans found)
    exact ⟨.inl ⟨Option.isSome_of_eq_some found, rfl⟩, t, there, named, rfl⟩
  | newResult | newLocal | newFunction | newFresh =>
    exact ⟨.inr ⟨rfl, rfl⟩, _, get?_push_new r _, rfl, rfl⟩

/-! ## The names of variables -/

/-- The local name space has the locals and the fresh symbols under their names, and beside them only a local that
stands for the result. -/
structure Entered (r : Registry) : Prop where
  listed : ∀ {id s}, r.get? id = some s → s.isVariable = true → r.locals.lookup s.name = some id
  names : ∀ {name id}, r.locals.lookup name = some id →
    (∃ s, r.get? id = some s ∧ s.name = name ∧ s.isVariable = true) ∨ (name = resultName ∧ r.result? = some id)

theorem initial_entered : initial.Entered := by
  refine ⟨fun {id s} found kind => ?_, fun {name id} known => by cases known⟩
  obtain ⟨i⟩ := id
  cases i with
  | zero =>
    obtain rfl := Option.some.inj found
    cases kind
  | succ i => cases found

/-- A symbol of another kind changes nothing. -/
theorem Entered.push (h : r.Entered) (other : s.isVariable = false) (symbols : r'.symbols = (r.pushed s).symbols)
    (locals : r'.locals = r.locals) (result : ∀ {id}, r.result? = some id → r'.result? = some id) : r'.Entered := by
  have get : ∀ id, r'.get? id = (r.push s).2.get? id := fun id => congrArg (·[id.number]?) symbols
  refine ⟨fun {id t} found kind => ?_, fun {name id} known => ?_⟩
  · rw [get] at found
    rw [locals]
    rcases get?_of_push found with old | ⟨_, rfl⟩
    · exact h.listed old kind
    · rw [other] at kind
      cases kind
  · rw [locals] at known
    rcases h.names known with ⟨t, found, named, kind⟩ | ⟨named, known⟩
    · exact .inl ⟨t, by rw [get]; exact get?_push_old s found, named, kind⟩
    · exact .inr ⟨named, result known⟩

theorem Entered.enter (h : r.Entered) (kind : s.isVariable = true) (free : r.locals.lookup s.name = none) :
    Entered { r.pushed s with locals := (s.name, ⟨r.size⟩) :: r.locals } := by
  refine ⟨fun {id t} found kindT => ?_, fun {name id} known => ?_⟩
  · rcases get?_of_push found with old | ⟨rfl, rfl⟩
    · exact lookup_cons_of_some free (h.listed old kindT)
    · exact List.lookup_cons_self
  · rcases lookup_cons known with ⟨rfl, rfl⟩ | known
    · exact .inl ⟨s, get?_push_new r s, rfl, kind⟩
    · refine (h.names known).imp_left ?_
      rintro ⟨t, found, rest⟩
      exact ⟨t, get?_push_old s found, rest⟩

theorem Step.entered {c : Call} (step : r.Step c id r') (h : r.Entered) : r'.Entered := by
  cases step with
  | oldResult | oldLocal => exact h
  | newResult sort none =>
    refine h.push (s := ⟨resultName, sort, .result⟩) rfl rfl rfl fun known => ?_
    rw [none] at known
    cases known
  | newFunction theory arity sort _ => exact h.push rfl rfl rfl fun known => known
  | newLocal sort free _ => exact h.enter rfl free
  | newFresh base sort free => exact h.enter rfl free
  | resultLocal free known _ =>
    refine ⟨fun found kind => lookup_cons_of_some free (h.listed found kind), fun entered => ?_⟩
    rcases lookup_cons entered with ⟨rfl, rfl⟩ | entered
    · exact .inr ⟨rfl, known⟩
    · exact h.names entered

/-! ## Any number of calls -/

theorem after_grown (hr : r.Sound) (h : r.Entered) (calls : List Call) :
    r.Grown (r.after calls) ∧ (r.after calls).Entered := by
  induction calls generalizing r with
  | nil => exact ⟨⟨hr, .refl r⟩, h⟩
  | cons c calls ih =>
    unfold after
    rcases c.run_step hr with ⟨id, r', ran, step⟩ | ⟨⟨why, ran⟩, _⟩
    · rw [ran]
      have grown := Call.run_grown hr ran
      obtain ⟨rest, entered⟩ := ih grown.1 (step.entered h)
      exact ⟨grown.trans rest, entered⟩
    · rw [ran]
      exact ih hr h

/-- New symbols get one number after the other. -/
theorem introduced_numbers (hr : r.Sound) (calls : List Call) :
    (r.after calls).size = r.size + (r.introduced calls).length ∧
      (r.introduced calls).map (·.number) = List.range' r.size (r.introduced calls).length := by
  induction calls generalizing r with
  | nil => exact ⟨rfl, rfl⟩
  | cons c calls ih =>
    unfold after introduced
    rcases c.run_step hr with ⟨id, r', ran, step⟩ | ⟨⟨why, ran⟩, _⟩
    · simp only [ran]
      obtain ⟨size, numbers⟩ := ih (Call.run_grown hr ran).1
      rcases (step.answered hr).number with ⟨there, same⟩ | ⟨rfl, more⟩
      · have : r'.size = r.size := congrArg Array.size same
        rw [if_pos there]
        rw [this] at size numbers
        exact ⟨size, numbers⟩
      · have new : r.get? ⟨r.size⟩ = none := Array.getElem?_eq_none (Nat.le_refl _)
        have : r'.size = r.size + 1 := (congrArg Array.size more).trans (Array.size_push ..)
        rw [this] at size numbers
        rw [new, if_neg (by simp), List.map_cons, List.length_cons, numbers, List.range'_succ]
        exact ⟨by omega, rfl⟩
    · simp only [ran]
      exact ih hr

/-! ## Looking names up -/

theorem lookup_of_locals (known : r.locals.lookup name = some id) : r.lookup name = .ok id := by
  unfold lookup
  rw [known]
  rfl

/-- A name that resolves to a variable resolves to the local of that name. -/
theorem Sound.locals_of_lookup (hr : r.Sound) (resolved : r.lookup name = .ok id) (found : r.get? id = some s)
    (kind : s.isVariable = true) : r.locals.lookup name = some id := by
  unfold lookup at resolved
  cases known : r.locals.lookup name with
  | some i =>
    rw [known] at resolved
    exact congrArg some (Except.ok.inj resolved)
  | none =>
    -- Otherwise the name is that of the heap or of the result, which are no variables.
    exfalso
    rw [known, Option.none_or] at resolved
    by_cases isHeap : (name == heapName) = true
    · rw [if_pos isHeap] at resolved
      obtain rfl := Except.ok.inj resolved
      obtain rfl := Option.some.inj (hr.heap.symm.trans found)
      cases kind
    · rw [if_neg isHeap] at resolved
      by_cases isResult : (name == resultName) = true
      · rw [if_pos isResult] at resolved
        cases result : r.result? with
        | none =>
          rw [result] at resolved
          cases resolved
        | some i =>
          rw [result] at resolved
          obtain rfl := Except.ok.inj resolved
          obtain ⟨_, there⟩ := hr.result result
          obtain rfl := Option.some.inj (there.symm.trans found)
          cases kind
      · rw [if_neg isResult] at resolved
        cases resolved

theorem function_eq_ok : r.function name = .ok id ↔ r.functions.lookup name = some id := by
  unfold function
  cases r.functions.lookup name <;> simp

/-- The names of the heap and of the result have no underscore. -/
theorem candidate_ne (base : String) (k : Nat) :
    base ++ "_" ++ toString k ≠ heapName ∧ base ++ "_" ++ toString k ≠ resultName := by
  have underscore : '_' ∈ (base ++ "_" ++ toString k).toList := by simp [String.toList_append]
  refine ⟨fun same => ?_, fun same => ?_⟩ <;>
  · rw [same] at underscore
    exact absurd underscore (by decide)

theorem lookup_candidate (base : String) (k : Nat) (free : r.locals.lookup (base ++ "_" ++ toString k) = none) :
    r.lookup (base ++ "_" ++ toString k) = .error (.error (.symbolNotFound (base ++ "_" ++ toString k))) := by
  obtain ⟨notHeap, notResult⟩ := candidate_ne base k
  unfold lookup
  rw [free, if_neg (by simpa using notHeap), if_neg (by simpa using notResult)]
  rfl

def Uses (r : Registry) (name : String) : Prop := ∃ id s, r.get? id = some s ∧ s.name = name ∧ s.isVariable = true

theorem Entered.uses_candidate (h : r.Entered) (base : String) (k : Nat) :
    r.Uses (base ++ "_" ++ toString k) ↔ (r.locals.lookup (base ++ "_" ++ toString k)).isSome = true := by
  constructor
  · rintro ⟨id, s, found, named, kind⟩
    rw [← named, h.listed found kind]
    rfl
  · intro known
    obtain ⟨id, known⟩ := Option.isSome_iff_exists.mp known
    rcases h.names known with ⟨s, found⟩ | ⟨result, _⟩
    · exact ⟨id, s, found⟩
    · exact absurd result (candidate_ne base k).2

/-! ## Integrity -/

/-- A name in either space stands for a symbol of that name; different names stand for different symbols, also across
the spaces. -/
structure NamesApart (r : Registry) : Prop where
  local_named : ∀ {x i}, r.locals.lookup x = some i → ∃ s, r.get? i = some s ∧ s.name = x ∧ s.isFunction = false
  function_named : ∀ {f i}, r.functions.lookup f = some i → ∃ s, r.get? i = some s ∧ s.name = f ∧ s.isFunction = true
  locals : ∀ {x y i j}, r.locals.lookup x = some i → r.locals.lookup y = some j → x ≠ y → i ≠ j
  functions : ∀ {f g i j}, r.functions.lookup f = some i → r.functions.lookup g = some j → f ≠ g → i ≠ j
  across : ∀ {x f i j}, r.locals.lookup x = some i → r.functions.lookup f = some j → i ≠ j

/-- In a sound registry different names stand for different symbols. -/
theorem Sound.namesApart (hr : r.Sound) : r.NamesApart := by
  have function_named : ∀ {f i}, r.functions.lookup f = some i →
      ∃ s, r.get? i = some s ∧ s.name = f ∧ s.isFunction = true := by
    intro f i known
    obtain ⟨sort, arity, owner, found⟩ := hr.functions.mp known
    exact ⟨_, found, rfl, rfl⟩
  have local_named : ∀ {x i}, r.locals.lookup x = some i →
      ∃ s, r.get? i = some s ∧ s.name = x ∧ s.isFunction = false := by
    intro x i known
    obtain ⟨s, found, named, kind, _⟩ := hr.locals known
    exact ⟨s, found, named, kind⟩
  refine ⟨local_named, function_named, ?_, ?_, ?_⟩
  · rintro x y i _ hx hy differ rfl
    exact differ (hr.local_injective hx hy)
  · rintro f g i _ hf hg differ rfl
    obtain ⟨s, found, rfl, _⟩ := function_named hf
    obtain ⟨t, found', rfl, _⟩ := function_named hg
    exact differ (congrArg Symbol.name (Option.some.inj (found.symm.trans found')))
  · rintro x f i _ hx hf rfl
    obtain ⟨s, found, _, no⟩ := local_named hx
    obtain ⟨t, found', _, yes⟩ := function_named hf
    obtain rfl := Option.some.inj (found.symm.trans found')
    rw [no] at yes
    cases yes

/-- Symbols are as they were, and names that stood for a local, a fresh symbol or a function stand for it still. -/
structure Keeps (r r' : Registry) : Prop where
  symbols : ∀ {id s}, r.get? id = some s → r'.get? id = some s
  resolved : ∀ {x id s}, r.lookup x = .ok id → r.get? id = some s → s.isVariable = true → r'.lookup x = .ok id
  locals : ∀ {x id}, r.locals.lookup x = some id → r'.lookup x = .ok id
  functions : ∀ {f id}, r.function f = .ok id → r'.function f = .ok id

theorem Grown.keeps (hr : r.Sound) (grown : r.Grown r') : r.Keeps r' where
  symbols := grown.2.get
  resolved known found kind := lookup_of_locals (grown.2.locals (hr.locals_of_lookup known found kind))
  locals known := lookup_of_locals (grown.2.locals known)
  functions known := function_eq_ok.mpr (grown.2.functions (function_eq_ok.mp known))

theorem register_fails {c : Call} {ctx : Context} {e : Failure} (refused : c.run ctx.symbols = .error e) :
    Fails (ContextM.register c.run) ctx e ctx := by
  unfold Fails ContextM.register
  refine run_bind_error ?_
  rw [ContextM.asking_run, refused]

/-- The symbol is new. Its name is the first `base_k` that no local and no fresh symbol has, and stood for nothing. -/
structure Invented (r : Registry) (base : String) (sort : ValueSort) (k : Nat) (id : SymbolId) (r' : Registry) :
    Prop where
  new : r.get? id = none
  symbol : r'.get? id = some ⟨base ++ "_" ++ toString k, sort, .fresh⟩
  resolved : r'.lookup (base ++ "_" ++ toString k) = .ok id
  unresolved : r.lookup (base ++ "_" ++ toString k) = .error (.error (.symbolNotFound (base ++ "_" ++ toString k)))
  positive : 1 ≤ k
  unused : ¬ r.Uses (base ++ "_" ++ toString k)
  least : ∀ j, 1 ≤ j → j < k → r.Uses (base ++ "_" ++ toString j)

theorem Entered.invented (h : r.Entered) (base : String) (sort : ValueSort) :
    ∃ k id r', (Call.fresh base sort).run r = .ok (id, r') ∧ r.Invented base sort k id r' := by
  obtain ⟨k, positive, named, free, taken⟩ := r.freshName_least base
  refine ⟨k, _, _, rfl, Array.getElem?_eq_none (Nat.le_refl _), ?_, lookup_of_locals ?_, lookup_candidate base k free,
    positive, fun used => ?_, fun j first less => (h.uses_candidate base j).mpr (taken j first less)⟩
  · rw [← named]
    exact get?_push_new r ⟨r.freshName base, sort, .fresh⟩
  · rw [← named]
    exact List.lookup_cons_self
  · rw [h.uses_candidate, free] at used
    cases used

/-- After any calls, made on the registry that holds the heap alone: symbols that are new got the numbers from 1 on,
one after the other, and names are apart. A further call returns a symbol as it was asked for, unless the name
clashes; then it is refused, and a context is left as it was. A fresh symbol has a new name, the first of its kind.
Whatever calls follow, no symbol changes, and a name that stands for a local, a fresh symbol or a function stands for
it still. -/
theorem calls_keep_integrity {calls : List Call} {r : Registry} (reached : initial.after calls = r) :
    (initial.introduced calls).map (·.number) = List.range' 1 (r.size - 1) ∧ r.NamesApart ∧
    (∀ c, ¬ r.Clashes c → ∃ id r', c.run r = .ok (id, r') ∧ r.Answered c id r') ∧
    (∀ c, r.Clashes c → ∃ why, c.run r = .error (.error why) ∧
      ∀ ctx : Context, ctx.symbols = r → Fails (ContextM.register c.run) ctx (.error why) ctx) ∧
    (∀ base sort, ∃ k id r', (Call.fresh base sort).run r = .ok (id, r') ∧ r.Invented base sort k id r') ∧
    ∀ later, r.Keeps (r.after later) := by
  obtain ⟨size, numbers⟩ := introduced_numbers initial_sound calls
  obtain ⟨⟨hr, _⟩, entered⟩ := after_grown initial_sound initial_entered calls
  rw [reached] at size hr entered
  refine ⟨?_, hr.namesApart, fun c apart => ?_, fun c clash => ?_, entered.invented, fun later => ?_⟩
  · rw [numbers, size, show initial.size = 1 from rfl, Nat.add_sub_cancel_left]
  · rcases c.run_step hr with ⟨id, r', ran, step⟩ | ⟨_, clash⟩
    · exact ⟨id, r', ran, step.answered hr⟩
    · exact absurd clash apart
  · rcases c.run_step hr with ⟨id, r', _, step⟩ | ⟨⟨why, refused⟩, _⟩
    · exact absurd clash step.not_clashes
    · refine ⟨why, refused, ?_⟩
      rintro ctx rfl
      exact register_fails refused
  · exact Grown.keeps hr (after_grown hr entered later).1

/-- A local for the result, names that look like those of fresh symbols, and a local that is refused. -/
def mixedCalls : List Call :=
  [.result .int, .localName "result" .int, .localName "i_1" .int, .fresh "i" .int, .localName "result" .bool,
    .function "int" "i_3" 2 .int, .fresh "i" .object]

theorem calls_keep_integrity_mixed : ∃ r, initial.after mixedCalls = r ∧
    (initial.introduced mixedCalls).map (·.number) = [1, 2, 3, 4, 5] ∧ r.lookup "result" = .ok ⟨1⟩ ∧
    r.Clashes (.localName "result" .bool) ∧
    (∃ why, (Call.localName "result" .bool).run r = .error (.error why)) ∧
    (∃ id r', (Call.fresh "i" .int).run r = .ok (id, r') ∧ r.Invented "i" .int 4 id r') ∧
    ∀ later, (r.after later).lookup "i_3" = .ok ⟨5⟩ := by
  have size : (initial.after mixedCalls).size = 6 := by cbv
  have result : (initial.after mixedCalls).lookup "result" = .ok ⟨1⟩ := by cbv
  have known : (initial.after mixedCalls).locals.lookup "result" = some ⟨1⟩ := by cbv
  have symbol : (initial.after mixedCalls).get? ⟨1⟩ = some ⟨"result", .int, .result⟩ := by cbv
  have entered : (initial.after mixedCalls).locals.lookup "i_3" = some ⟨5⟩ := by cbv
  have named : ((Call.fresh "i" .int).run (initial.after mixedCalls)).map (fun p => (p.2.get? p.1).map (·.name)) =
    .ok (some "i_4") := by cbv
  obtain ⟨numbers, _, _, refused, invented, kept⟩ := @calls_keep_integrity mixedCalls _ rfl
  generalize initial.after mixedCalls = r at *
  have clash : r.Clashes (.localName "result" .bool) := ⟨_, _, known, symbol, by decide⟩
  obtain ⟨why, refusal, _⟩ := refused _ clash
  obtain ⟨k, id, r', ran, new⟩ := invented "i" .int
  obtain rfl : k = 4 := by
    rw [ran] at named
    change Except.ok ((r'.get? id).map (·.name)) = _ at named
    rw [new.symbol] at named
    have same : "i_" ++ toString k = "i_" ++ toString 4 := Option.some.inj (Except.ok.inj named)
    exact toString_injective ((String.append_right_inj _).mp same)
  rw [size] at numbers
  exact ⟨r, rfl, numbers, result, clash, ⟨why, refusal⟩, ⟨id, r', ran, new⟩, fun later => (kept later).locals entered⟩

end Registry

end PathMerge
