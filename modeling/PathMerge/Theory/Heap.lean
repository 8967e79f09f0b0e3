/-
  PathMerge.Theory.Heap — laws of reading and writing.

  A read of the location just written gives the written value; a read of a field that is certainly
  another one skips the write. Writing back the value just read changes nothing, and the later of
  two writes to one location wins.
-/

import PathMerge.Context

namespace PathMerge.Theory.Heap

/-- The arguments of `h` if it is a write to a heap: the heap before, object, field, value. -/
def write? (h : Handle) : ContextM (Option (Handle × Handle × Handle × Handle)) := do
  match ← ContextM.asking (·.asApp? h HeapFunction.store.decl.name) with
  | some (before :: object :: field :: value :: _) => return some (before, object, field, value)
  | some _ => throw (.defect .indexOutOfBounds)
  | none => return none

def isFieldName (h : Handle) : ContextM Bool := do
  if h.negated then return false
  match ← ContextM.asking (·.node h) with
  | .literal (.field _) => return true
  | _ => return false

/-- The index of `h` if it is an array slot. -/
def slotIndex? (h : Handle) : ContextM (Option Handle) := do
  match ← ContextM.asking (·.asApp? h HeapFunction.arr.decl.name) with
  | some args => return args.head?
  | none => return none

/-- Whether two field terms certainly denote different fields. -/
def distinctFields (f g : Handle) : ContextM Bool := do
  if f = g then return false
  match ← slotIndex? f, ← slotIndex? g with
  | some i, some j =>
    if ← ContextM.asking (·.isLiteral i) then ContextM.asking (·.isLiteral j) else return false
  | some _, none => isFieldName g
  | none, some _ => isFieldName f
  | none, none => if ← isFieldName f then isFieldName g else return false

def selectLaw : List Handle → ContextM (Option Handle)
  | memory :: object :: field :: _ => do
    match ← write? memory with
    | none => return none
    | some (before, o, f, value) =>
      if o = object ∧ f = field then return some value
      else if ← distinctFields field f then some <$> ContextM.select before object field
      else return none
  | _ => throw (.defect .indexOutOfBounds)

def storeLaw : List Handle → ContextM (Option Handle)
  | memory :: object :: field :: value :: _ => do
    let read ← ContextM.asking (·.asApp? value HeapFunction.select.decl.name)
    if read = some [memory, object, field] then return some memory
    match ← write? memory with
    | some (before, o, f, _) =>
      if o = object ∧ f = field then some <$> ContextM.store before object field value
      else return none
    | none => return none
  | _ => throw (.defect .indexOutOfBounds)

def law : HeapFunction → List Handle → ContextM (Option Handle)
  | .select, args => selectLaw args
  | .store, args => storeLaw args
  | .arr, _ | .length, _ => return none

end PathMerge.Theory.Heap
