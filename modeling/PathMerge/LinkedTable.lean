/-
  PathMerge.LinkedTable — values stored once, in chains of linked entries.

  Entries stand in one array in order of arrival. An index is a position counted from 1, and 0 stands for
  no entry. Each entry holds a value and the index of the next entry of its chain. A value's fingerprint
  picks one of `2^bits` buckets, and a bucket holds the index of the first entry of its chain, 0 while there
  is none. `put` follows the links from there: it returns the index of the first equal value it meets, or
  appends an entry and links the last one to it. `add` appends an entry without looking and without linking.

  Nothing about the array keeps links from going round in a circle, and then `put` would never return: an
  `Answer` is `none` in that case. Links that have led to more entries than there are go round in a circle, so
  that is where `search` gives up. Indices have to fit 31 bits, so a table takes `maxSize` entries.
-/

import PathMerge.InternTable

namespace PathMerge

structure Entry (α : Type) where
  value : α
  next : Nat
  deriving DecidableEq, Repr

structure LinkedTable (α : Type) where
  bits : Nat
  entries : Array (Entry α)
  heads : Slots Nat

namespace LinkedTable

variable {α β : Type}

/-- What comes of following links: `none` if they never end. -/
abbrev Answer (β : Type) := ExceptT Failure Option β

def answer (x : Except Failure β) : Answer β := ExceptT.mk (some x)

def maxSize : Nat := 0x7fffffff

def empty (bits : Nat) : LinkedTable α := ⟨bits, #[], .vacant⟩

def create (bits : Nat) : Except Failure (LinkedTable α) :=
  if bits ≤ InternTable.maxBits then .ok (empty bits) else .error (.defect .tooManyTableBits)

def size (t : LinkedTable α) : Nat := t.entries.size

def isEmpty (t : LinkedTable α) : Bool := t.entries.isEmpty

def entry (t : LinkedTable α) (index : Nat) : Except Failure (Entry α) :=
  if index = 0 then .error (.defect .zeroIndex)
  else match t.entries[index - 1]? with
    | some e => .ok e
    | none => .error (.defect .indexOutOfBounds)

def value (t : LinkedTable α) (index : Nat) : Except Failure α := return (← t.entry index).value

def next (t : LinkedTable α) (index : Nat) : Except Failure Nat := return (← t.entry index).next

def setNext (t : LinkedTable α) (index next : Nat) : Except Failure (LinkedTable α) := do
  let e ← t.entry index
  return { t with entries := t.entries.setIfInBounds (index - 1) { e with next } }

def add (t : LinkedTable α) (v : α) : Except Failure (Nat × LinkedTable α) :=
  if t.size < maxSize then .ok (t.size + 1, { t with entries := t.entries.push ⟨v, 0⟩ })
  else .error (.defect .storageFull)

/-- Append `v` and link the entry at `last` to it. -/
def addAfter (t : LinkedTable α) (last : Nat) (v : α) : Except Failure (Nat × LinkedTable α) := do
  let (i, t) ← t.add v
  return (i, ← t.setNext last i)

/-- Follow at most `steps` links from `index` to an entry with the value `v`, or append one. -/
def searchWithin [DecidableEq α] (t : LinkedTable α) (v : α) :
    (steps : Nat) → (index : Nat) → Answer (Nat × LinkedTable α)
  | 0, _ => ExceptT.mk none
  | steps + 1, index => do
    let e ← answer (t.entry index)
    if e.value = v then return (index, t)
    else if e.next = 0 then answer (t.addAfter index v)
    else t.searchWithin v steps e.next

/-- Follow the links from `index` to an entry with the value `v`, or append one. -/
def search [DecidableEq α] (t : LinkedTable α) (v : α) (index : Nat) : Answer (Nat × LinkedTable α) :=
  t.searchWithin v (t.size + 1) index

variable [Hashable α]

def head (t : LinkedTable α) (v : α) : Nat := (t.heads.get? t.bits (hash v).toNat).getD 0

/-- Append `v` as the first entry of its chain. -/
def addFirst (t : LinkedTable α) (v : α) : Except Failure (Nat × LinkedTable α) := do
  let (i, t) ← t.add v
  return (i, { t with heads := t.heads.set t.bits (hash v).toNat i })

def put [DecidableEq α] (t : LinkedTable α) (v : α) : Answer (Nat × LinkedTable α) :=
  if t.head v = 0 then answer (t.addFirst v) else t.search v (t.head v)

end LinkedTable

end PathMerge
