/-
  PathMerge.Pool.Choice — equations and guarded values.

  `equation a b` decides what it can: equal handles, complements, a side that is `true` or `false`,
  two different literals. Otherwise it is a node with its sides as given.

  `choice` builds the value that a list of guarded values stands for. Branches with a false guard
  go away, branches with one value share it under the disjunction of their guards, a true guard
  decides. What remains is that value alone or a summary, sorted by guard and then by value.
-/

import PathMerge.Pool.Junction

namespace PathMerge

abbrev Branch := Handle × Handle

def Branch.lt (a b : Branch) : Bool := a.1.lt b.1 || (a.1 = b.1 && a.2.lt b.2)

namespace PoolM

def equation (a b : Handle) : PoolM Handle := do
  if a = b then return .tt
  else if a = -b then return .ff
  else if a = .tt then return b
  else if b = .tt then return a
  else if a = .ff then return -b
  else if b = .ff then return -a
  else
    let bothLiteral ← do if ← isLiteral a then isLiteral b else pure false
    if bothLiteral then return .ff else intern (.eq a b)

/-- Enter a branch: a value already there gets the disjunction of both guards. -/
def addBranch (guard value : Handle) : List Branch → PoolM (List Branch)
  | [] => return [(guard, value)]
  | (g, v) :: rest => do
    if v = value then return (← disj [g, guard], v) :: rest
    else return (g, v) :: (← addBranch guard value rest)

def mergeBranches : (merged branches : List Branch) → PoolM (List Branch)
  | merged, [] => return merged
  | merged, (g, v) :: rest => do
    if g = .ff then mergeBranches merged rest
    else mergeBranches (← addBranch g v merged) rest

def choice (branches : List Branch) : PoolM Handle := do
  match branches with
  | [] => throw (.defect .emptySummary)
  | (_, first) :: _ =>
    let merged ← mergeBranches [] branches
    match merged.find? (·.1 = .tt) with
    | some (_, v) => return v
    | none =>
      match merged with
      | [] => return first
      | [(_, v)] => return v
      | _ => intern (.summary (SortedList.ofList Branch.lt merged))

end PoolM

end PathMerge
