/-
  PathMerge.Memo — a lossy memory of results, one handle for another.

  There are `2^bits` slots and a key goes to the slot of its rank modulo that number. Remembering
  overwrites whatever was in the slot. Fetching finds an entry only under its own key, and counts
  whether it did.
-/

import PathMerge.Failure
import PathMerge.Handle
import PathMerge.Slots

namespace PathMerge

structure Memo where
  bits : Nat
  slots : Slots (Handle × Handle)
  hits : Nat
  misses : Nat

namespace Memo

def maxBits : Nat := 31

def empty (bits : Nat) : Memo := ⟨bits, .vacant, 0, 0⟩

def create (bits : Nat) : Except Failure Memo :=
  if bits ≤ maxBits then .ok (empty bits) else .error (.defect .tooManyMemoBits)

def find? (m : Memo) (key : Handle) : Option Handle :=
  match m.slots.get? m.bits key.rank with
  | some (k, v) => if k = key then some v else none
  | none => none

def fetch (m : Memo) (key : Handle) : Option Handle × Memo :=
  match m.find? key with
  | some v => (some v, { m with hits := m.hits + 1 })
  | none => (none, { m with misses := m.misses + 1 })

def remember (m : Memo) (key value : Handle) : Memo :=
  { m with slots := m.slots.set m.bits key.rank (key, value) }

/-- Forget every entry; the counters stay. -/
def clear (m : Memo) : Memo := { m with slots := .vacant }

end Memo

end PathMerge
