/-
  PathMerge.Pool.Junction — conjunctions and disjunctions in canonical form.

  `join c items` is the conjunction (or disjunction) of `items`. Neutral operands go away, an
  absorbing one decides; nested junctions of the same kind are flattened; operands are sorted
  without repetition, and a pair of complements decides. Then operands of the dual kind are held
  against their siblings: `x || (x && y)` is `x`, and `x || (!x && y)` is `x || y`. Each such step
  starts over with smaller operands. A junction node is made only when two or more operands remain.

  The steps are counted down from the tree sizes of the operands. An absorption drops an operand or
  replaces it by a smaller one, so the count never reaches its end.
-/

import PathMerge.Pool
import PathMerge.SortedList

namespace PathMerge

namespace Handle

def lt (a b : Handle) : Bool := a.rank < b.rank

/-- The handles in increasing order, each once. -/
def sorted (hs : List Handle) : List Handle := SortedList.ofList lt hs

/-- The handles in increasing order, as often as they occur. -/
def ordered (hs : List Handle) : List Handle := hs.mergeSort fun a b => a.rank ≤ b.rank

/-- Whether two neighbours of a sorted list are complements. -/
def hasComplements : List Handle → Bool
  | a :: b :: rest => a = -b || hasComplements (b :: rest)
  | _ => false

end Handle

namespace PoolM

/-- The operands of a junction of kind `c` over `items`, flattened; `none` if one of them decides. -/
def flatten (c : Connective) : List Handle → PoolM (Option (List Handle))
  | [] => return some []
  | h :: rest => do
    if h = c.neutral then flatten c rest
    else if h = c.absorbing then return none
    else
      let here := (← operands? c h).getD [h]
      return (← flatten c rest).map (here ++ ·)

/-- What an operand of the dual kind turns into beside its siblings. -/
inductive Absorption where
  /-- It holds a sibling: the others are enough. -/
  | drop (rest : List Handle)
  /-- It holds complements of siblings: only `kept` of it matters. -/
  | shrink (before kept after : List Handle)

/-- The first absorption among `after`, where `before ++ after` are the operands `items`. -/
def absorption? (c : Connective) (items : List Handle) :
    (before after : List Handle) → PoolM (Option Absorption)
  | _, [] => return none
  | before, h :: after => do
    match ← operands? c.dual h with
    | none => absorption? c items (before ++ [h]) after
    | some inner =>
      if inner.any items.contains then return some (.drop (before ++ after))
      let kept := inner.filter fun x => !items.contains (-x)
      if kept.length < inner.length then return some (.shrink before kept after)
      else absorption? c items (before ++ [h]) after

def joinWithin : Nat → Connective → List Handle → PoolM Handle
  | 0, _, _ => throw (.defect .boundExceeded)
  | steps + 1, c, items => do
    match ← flatten c items with
    | none => return c.absorbing
    | some flat =>
      let flat := Handle.sorted flat
      if Handle.hasComplements flat then return c.absorbing
      match ← absorption? c flat [] flat with
      | some (.drop rest) => joinWithin steps c rest
      | some (.shrink before kept after) =>
        let smaller ← joinWithin steps c.dual kept
        joinWithin steps c (before ++ smaller :: after)
      | none =>
        match flat with
        | [] => return c.neutral
        | [h] => return h
        | _ => intern (.junction c flat)

def join (c : Connective) (items : List Handle) : PoolM Handle := do
  let p ← get
  joinWithin (1 + Pool.total (items.map p.treeSize)) c items

def conj (items : List Handle) : PoolM Handle := join .conj items

def disj (items : List Handle) : PoolM Handle := join .disj items

end PoolM

end PathMerge
