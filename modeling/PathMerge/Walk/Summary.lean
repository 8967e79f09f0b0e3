/-
  PathMerge.Walk.Summary — one arbitrary iteration of a loop.

  The body is walked from the states that enter the loop. Symbols whose value on a way back to the
  head differs from their value at the start are modified. They are replaced by fresh symbols in
  the entering states and the body is walked again, until no further symbol turns out modified. The
  last walk stands for every iteration, and its states at the exits go on after the loop.

  The heap locations a loop may write are read off the heaps that come back: if each is the heap at
  the head with some writes, the written locations; else all locations.

  Each pass but the last adds a modified symbol, and only symbols registered before the loop is
  entered can be assigned, so there are at most that many passes and one. Loops nest as deep as
  there are loops at most.
-/

import PathMerge.Walk

namespace PathMerge

/-- Fresh symbols standing for modified ones. -/
abbrev Renaming := List (SymbolId × SymbolId)

namespace Walk

/-- The fresh symbol for `x`, made on first use. -/
def freshFor (names : Renaming) (x : SymbolId) : ContextM (SymbolId × Renaming) := do
  match names.lookup x with
  | some y => return (y, names)
  | none =>
    let name ← ContextM.asking (·.symbolName x)
    let sort ← ContextM.asking (·.symbolSort x)
    let y ← ContextM.fresh name sort
    return (y, (x, y) :: names)

def bindFresh : (modified : List SymbolId) → Renaming → Bindings → ContextM (Bindings × Renaming)
  | [], names, m => return (m, names)
  | x :: rest, names, m => do
    let (y, names) ← freshFor names x
    bindFresh rest names (m.insert x (← ContextM.symbol y))

/-- Bind every modified symbol to its fresh one; the constraints stay. -/
def anonymize (modified : List SymbolId) (names : Renaming) (s : State) :
    ContextM (State × Renaming) := do
  if modified.isEmpty then return (s, names)
  let (m, names) ← bindFresh modified names s.store.flatten
  return (⟨s.path, .ofBindings m⟩, names)

def anonymizeAll (modified : List SymbolId) :
    Renaming → List State → ContextM (List State × Renaming)
  | names, [] => return ([], names)
  | names, s :: rest => do
    let (s, names) ← anonymize modified names s
    let (others, names) ← anonymizeAll modified names rest
    return (s :: others, names)

/-- Whether `x` has different values in the two stores. -/
def differs (before after : Bindings) (x : SymbolId) : ContextM Bool := do
  let old ← State.valueIn x before
  let new ← State.valueIn x after
  return old ≠ new

/-- The symbols that some of the states give another value than the store does. -/
def changedSymbols (before : Bindings) (back : List State) : ContextM (List SymbolId) := do
  let changed ← back.mapM fun s => do
    let after := s.store.flatten
    (before.map (·.1) ++ after.map (·.1)).filterM (differs before after)
  return SortedList.ofList SymbolId.lt changed.flatten

/-! ## Written locations -/

abbrev Location := Handle × Handle

/-- The locations written on top of `base` in `heap`, outermost first; `none` if `heap` is not
made of writes to `base`. -/
def writesWithin (base : Handle) : Nat → Handle → ContextM (Option (List Location))
  | 0, _ => throw (.defect .boundExceeded)
  | depth + 1, heap => do
    if heap = base then return some []
    match ← Theory.Heap.write? heap with
    | some (before, object, field, _) =>
      return (← writesWithin base depth before).map ((object, field) :: ·)
    | none =>
      match ← ContextM.asking (·.node heap), heap.negated with
      | .summary branches, false =>
        let writes ← branches.mapM fun b => writesWithin base depth b.2
        return (writes.mapM id).map List.flatten
      | _, _ => return none

/-- As `writesWithin`; an operand's index is smaller, so the index of `heap` bounds the depth. -/
def writes? (base heap : Handle) : ContextM (Option (List Location)) :=
  writesWithin base (heap.index + 1) heap

def allWrites? (base : Handle) : List State → ContextM (Option (List Location))
  | [] => return some []
  | s :: rest => do
    match ← writes? base (← s.value Registry.heap) with
    | none => return none
    | some ws => return (← allWrites? base rest).map (ws ++ ·)

/-- The location set of all writes that the states made to the heap of `store`. -/
def writtenLocations (store : Store) (back : List State) : ContextM Handle := do
  match ← allWrites? (← store.value Registry.heap) back with
  | none => ContextM.allLocations
  | some locations =>
    let locations := SortedList.ofList Branch.lt locations
    let set ← locations.foldlM
      (fun set (object, field) => do ContextM.union set (← ContextM.location object field))
      (← ContextM.noLocations)
    ContextM.simplify set

/-! ## Passes -/

/-- What the passes over one loop start from. -/
structure LoopEntry where
  head : Nat
  /-- The states that enter the loop. -/
  states : List State
  /-- The store they merge into, simplified. -/
  store : Store

def summaryOf (entry : LoopEntry) (modified : List SymbolId) (names : Renaming) (passes : Nat)
    (seedStore : Store) (back : List State) : ContextM LoopSummary := do
  let modifies ← if modified.contains Registry.heap then writtenLocations seedStore back
    else ContextM.noLocations
  let (leaf, _) ← anonymize modified names ⟨.empty, entry.store⟩
  return ⟨entry.head, ← leaf.simplify, modified, modifies, passes⟩

/-- Walk the body until no further symbol is modified, `limit` times at most. -/
def passesWithin (entry : LoopEntry) (walk : List State → ContextM Walk) :
    (limit : Nat) → List SymbolId → Renaming → (passes : Nat) → ContextM LoopRun
  | 0, _, _, _ => throw (.defect .boundExceeded)
  | limit + 1, modified, names, passes => do
    let (seeds, names) ← anonymizeAll modified names entry.states
    let seedStore := (← (← State.merge seeds).simplify).store
    let w ← walk seeds
    let back := (w.inputs.get entry.head).drop seeds.length
    let changed ← changedSymbols seedStore.flatten back
    let grown := changed.filter (!modified.contains ·)
    if grown.isEmpty then
      return ⟨w, ← summaryOf entry modified names passes seedStore back⟩
    else
      let modified := SortedList.ofList SymbolId.lt (modified ++ grown)
      passesWithin entry walk limit modified names (passes + 1)

/-- Summarise a loop entered by `states`, where `nested` summarises the loops inside it. -/
def summariseWith (nested : Nat → List State → ContextM LoopRun) (layout : Layout) (id : Nat)
    (states : List State) : ContextM LoopRun := do
  let l ← ContextM.ofExcept (layout.getLoop id)
  let store := (← (← State.merge states).simplify).store
  let limit := (← get).symbols.size + 1
  passesWithin ⟨l.head, states, store⟩ (through layout (.ofLoop id l) nested) limit [] [] 1

def summarise (layout : Layout) : (nesting : Nat) → (id : Nat) → List State → ContextM LoopRun
  | 0, _, _ => throw (.defect .boundExceeded)
  | nesting + 1, id, states => summariseWith (summarise layout nesting) layout id states

/-- Walk a whole method from its first statement, stopping at `stops`. -/
def ofMethod (layout : Layout) (stops : List Nat) : ContextM Walk :=
  through layout (.whole stops) (summarise layout layout.loops.size) [.initial]

end Walk

end PathMerge
