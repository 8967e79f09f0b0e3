/-
  PathMerge.InternTable — values stored once, addressed by index.

  Indices count from 1 in order of arrival and never change. A value's fingerprint picks one of
  `2^bits` chains; a chain lists the indices of the values put into it, oldest first. `put`
  returns the index of an equal value of the chain if there is one and appends otherwise.

  This is the table behind a pool. `LinkedTable` holds its chains as links between the entries and
  gives the same answers, except that it is full at `2^31 - 1` entries: here indices are natural
  numbers without a bound.
-/

import PathMerge.Failure
import PathMerge.Slots

namespace PathMerge

structure InternTable (α : Type) where
  bits : Nat
  values : Array α
  chains : Slots (List Nat)

namespace InternTable

variable {α : Type}

def maxBits : Nat := 31

def empty (bits : Nat) : InternTable α := ⟨bits, #[], .vacant⟩

def size (t : InternTable α) : Nat := t.values.size

def value? (t : InternTable α) (index : Nat) : Option α :=
  if index = 0 then none else t.values[index - 1]?

def value (t : InternTable α) (index : Nat) : Except Failure α :=
  if index = 0 then .error (.defect .zeroIndex)
  else match t.values[index - 1]? with
    | some v => .ok v
    | none => .error (.defect .indexOutOfBounds)

variable [Hashable α] [DecidableEq α]

def chain (t : InternTable α) (v : α) : List Nat :=
  (t.chains.get? t.bits (hash v).toNat).getD []

def find? (t : InternTable α) (v : α) : Option Nat :=
  (t.chain v).find? fun i => t.value? i = some v

def put (t : InternTable α) (v : α) : Nat × InternTable α :=
  match t.find? v with
  | some i => (i, t)
  | none =>
    let index := t.size + 1
    let chain := t.chain v ++ [index]
    (index, { t with
      values := t.values.push v
      chains := t.chains.set t.bits (hash v).toNat chain })

end InternTable

end PathMerge
