/-
  PathMerge.Flow.DominatorTree — immediate dominators, found by iteration.

  The tree gives positions their parents, as far as they are known; at first it has the root only, which is its own
  parent. A sweep takes the other positions in reverse postorder and gives each one the last common ancestor of those of
  its predecessors that are in the tree already. Sweeps are made until one changes nothing.

  Common ancestors are found by going up from two positions, always from the one that comes later in the order.
-/

import PathMerge.Flow

namespace PathMerge

/-- Numbers for some of the positions. -/
structure Table where
  entries : Array (Option Nat)

namespace Table

def empty (n : Nat) : Table := ⟨.replicate n none⟩

def get? (t : Table) (i : Nat) : Option Nat := t.entries[i]?.join

/-- The entry at `i`, which must be there. -/
def get (t : Table) (i : Nat) : Except Failure Nat :=
  match t.get? i with
  | some a => .ok a
  | none => .error (.defect .indexOutOfBounds)

def insert (t : Table) (i a : Nat) : Table := ⟨t.entries.setIfInBounds i (some a)⟩

end Table

namespace Flow

/-- Where each position stands in the order. -/
def ranks (g : Flow) (order : List Nat) : Table :=
  order.zipIdx.foldl (fun t (i, k) => t.insert i k) (.empty g.size)

/-- The last common ancestor of two positions; every step goes up from one of them. -/
def ancestor (rank tree : Table) : (steps : Nat) → Nat → Nat → Except Failure Nat
  | 0, _, _ => .error (.defect .boundExceeded)
  | steps + 1, a, b =>
    if a = b then .ok a
    else do
      if (← rank.get b) < (← rank.get a) then ancestor rank tree steps (← tree.get a) b
      else ancestor rank tree steps a (← tree.get b)

/-- Go on from what was found to the last common ancestor with `p`, if that is in the tree. -/
def joinWith (rank tree : Table) (steps : Nat) (found : Option Nat) (p : Nat) : Except Failure (Option Nat) := do
  if (tree.get? p).isNone then return found
  else match found with
    | none => return some p
    | some c => return some (← ancestor rank tree steps p c)

/-- The last common ancestor of those positions that are in the tree, if any are. -/
def ancestorOf? (rank tree : Table) (steps : Nat) (sources : List Nat) : Except Failure (Option Nat) :=
  sources.foldlM (joinWith rank tree steps) none

/-- Give the position its parent by the tree as it is, and note whether that is another one than before. -/
def adopt (g : Flow) (sources : Array (List Nat)) (rank : Table) (now : Table × Bool) (i : Nat) :
    Except Failure (Table × Bool) := do
  let (tree, changed) := now
  match ← ancestorOf? rank tree (2 * g.size) (sources[i]?.getD []) with
  | some d => return if tree.get? i = some d then (tree, changed) else (tree.insert i d, true)
  | none => return (tree, changed)

/-- One sweep over the order, the root left out. -/
def sweep (g : Flow) (sources : Array (List Nat)) (rank : Table) (order : List Nat) (tree : Table) :
    Except Failure (Table × Bool) :=
  order.tail.foldlM (g.adopt sources rank) (tree, false)

def settle (g : Flow) (sources : Array (List Nat)) (rank : Table) (order : List Nat) :
    (sweeps : Nat) → Table → Except Failure Table
  | 0, _ => .error (.defect .boundExceeded)
  | sweeps + 1, tree => do
    let (tree, changed) ← g.sweep sources rank order tree
    if changed then g.settle sources rank order sweeps tree else return tree

/-- The immediate dominator of every position that can be reached. The root's is the root. -/
def dominatorTree (g : Flow) : Except Failure Table :=
  let order := g.reversePostorder
  g.settle g.sources (g.ranks order) order (g.size + 1) ((Table.empty g.size).insert root root)

end Flow

end PathMerge
