/-
  PathMerge.Slots — an array of `2^bits` slots, most of them vacant.

  The array is a binary trie over the low bits of the key, least significant first, so keys that
  agree modulo `2^bits` share a slot and a slot that was never written costs nothing.
-/

namespace PathMerge

inductive Slots (α : Type) where
  | vacant
  | slot (a : α)
  | fork (even odd : Slots α)
  deriving Repr

namespace Slots

variable {α : Type}

def get? : (bits key : Nat) → Slots α → Option α
  | 0, _, .slot a => some a
  | bits + 1, key, .fork even odd =>
    if key % 2 = 0 then get? bits (key / 2) even else get? bits (key / 2) odd
  | _, _, _ => none

def halves : Slots α → Slots α × Slots α
  | .fork even odd => (even, odd)
  | _ => (.vacant, .vacant)

def set : (bits key : Nat) → α → Slots α → Slots α
  | 0, _, a, _ => .slot a
  | bits + 1, key, a, s =>
    let (even, odd) := s.halves
    if key % 2 = 0 then .fork (set bits (key / 2) a even) odd
    else .fork even (set bits (key / 2) a odd)

end Slots

end PathMerge
