/-
  PathMerge.Handle — signed names of expressions.

  A handle is the index of an interned node and a sign; the sign is logical negation, so
  complementing a handle never makes a node and complementing twice gives the handle back.
  Indices count from 1 and node 1 is the literal `true`.

  Handles are ordered by index and then by sign. `rank` is that order as a number: a handle and
  its complement have neighbouring ranks, so in a sorted list they stand side by side.

  Indices are natural numbers here. A handle that is one signed number of 32 bits has room for indices
  up to `2^31 - 1`, which is why a `LinkedTable` takes that many entries and no more. A pool is not
  bounded, so what is proved of pools is about those that stay below.
-/

import PathMerge.Failure

namespace PathMerge

structure Handle where
  index : Nat
  negated : Bool
  deriving DecidableEq, Repr, Inhabited

namespace Handle

def tt : Handle := ⟨1, false⟩

def ff : Handle := ⟨1, true⟩

def ofIndex (i : Nat) : Handle := ⟨i, false⟩

def ofBool (b : Bool) : Handle := if b then tt else ff

def complement (h : Handle) : Handle := { h with negated := !h.negated }

instance : Neg Handle := ⟨complement⟩

def regular (h : Handle) : Handle := { h with negated := false }

/-- `h` itself, or its complement when `flip` is set. -/
def signed (flip : Bool) (h : Handle) : Handle := if flip then -h else h

def rank (h : Handle) : Nat := 2 * h.index + h.negated.toNat

instance : Hashable Handle := ⟨fun h => UInt64.ofNat h.rank⟩

def number (h : Handle) : Int := if h.negated then -(h.index : Int) else h.index

/-- The handle with the number `n`; no handle has the number 0. -/
def ofNumber (n : Int) : Except Failure Handle :=
  if n = 0 then .error (.defect .zeroHandle) else .ok ⟨n.natAbs, n < 0⟩

def text (h : Handle) : String := (if h.negated then "~@" else "@") ++ toString h.index

@[simp] theorem neg_index (h : Handle) : (-h).index = h.index := rfl

@[simp] theorem neg_negated (h : Handle) : (-h).negated = !h.negated := rfl

@[simp] theorem neg_neg (h : Handle) : - -h = h := by
  cases h with
  | mk i n => cases n <;> rfl

end Handle

end PathMerge
