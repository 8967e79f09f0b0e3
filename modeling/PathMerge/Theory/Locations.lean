/-
  PathMerge.Theory.Locations — laws of location sets.

  The empty set is neutral for union and the set of all locations absorbs. Membership is decided
  for these two and for the singleton of the location asked about, and splits over a union. The two
  constant sets are interned before any law is tried.
-/

import PathMerge.Context

namespace PathMerge.Theory.Locations

def unionLaw (empty all : Handle) : List Handle → ContextM (Option Handle)
  | a :: b :: _ =>
    if a = empty ∨ a = b then return some b
    else if b = empty then return some a
    else if a = all ∨ b = all then return some all
    else return none
  | _ => throw (.defect .indexOutOfBounds)

/-- The two parts of `h` if it is a union. -/
def parts? (h : Handle) : ContextM (Option (Handle × Handle)) := do
  match ← ContextM.asking (·.asApp? h LocFunction.union.decl.name) with
  | some (a :: b :: _) => return some (a, b)
  | some _ => throw (.defect .indexOutOfBounds)
  | none => return none

def isLocation (object field set : Handle) : ContextM Bool :=
  return set = (← ContextM.location object field)

def elementLaw (empty all : Handle) : List Handle → ContextM (Option Handle)
  | object :: field :: set :: _ => do
    if set = empty then return some .ff
    else if set = all then return some .tt
    else if ← isLocation object field set then return some .tt
    else
      match ← parts? set with
      | some (a, b) =>
        let left ← ContextM.elementOf object field a
        let right ← ContextM.elementOf object field b
        some <$> ContextM.disj [left, right]
      | none => return none
  | _ => throw (.defect .indexOutOfBounds)

def law (f : Option LocFunction) (args : List Handle) : ContextM (Option Handle) := do
  let empty ← ContextM.noLocations
  let all ← ContextM.allLocations
  match f with
  | some .union => unionLaw empty all args
  | some .elementOf => elementLaw empty all args
  | _ => return none

end PathMerge.Theory.Locations
