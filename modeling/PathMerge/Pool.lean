/-
  PathMerge.Pool — the interned nodes of one context.

  Node 1 is `true`. Operands are interned before the node that uses them, so an operand's index is
  smaller than its node's, and a handle unfolds into a finite tree. Beside each node the pool keeps
  the size of that tree. It bounds every recursion that takes expressions apart: what such a
  recursion goes on with is always a smaller tree.

  The table is the one with chains, which is never full: a pool stands for one with linked entries as long
  as it has at most `LinkedTable.maxSize` nodes.
-/

import PathMerge.InternTable
import PathMerge.Node

namespace PathMerge

structure Pool where
  table : InternTable Node
  /-- The tree size of node `i` stands at position `i - 1`. -/
  sizes : Array Nat

namespace Pool

def total (sizes : List Nat) : Nat := sizes.foldr (· + ·) 0

def sizeAt (sizes : Array Nat) (h : Handle) : Nat := sizes[h.index - 1]?.getD 0

/-- The number of nodes in the tree that `h` unfolds into. -/
def treeSize (p : Pool) (h : Handle) : Nat := sizeAt p.sizes h

def size (p : Pool) : Nat := p.table.size

def put (p : Pool) (n : Node) : Handle × Pool :=
  let ⟨table, sizes⟩ := p
  let (i, table) := table.put n
  let sizes :=
    if i = sizes.size + 1 then sizes.push (1 + total (n.children.map (sizeAt sizes))) else sizes
  (.ofIndex i, ⟨table, sizes⟩)

/-- The pool that holds `true` alone. -/
def initial (bits : Nat) : Pool := (put ⟨.empty bits, #[]⟩ .truth).2

end Pool

abbrev PoolM := ExceptT Failure (StateM Pool)

namespace PoolM

def intern (n : Node) : PoolM Handle := modifyGet fun p => p.put n

/-- The node behind `h`, its sign ignored. -/
def node (h : Handle) : PoolM Node := do
  match (← get).table.value h.index with
  | .ok n => return n
  | .error e => throw e

def isLiteral (h : Handle) : PoolM Bool := do
  if h.negated then return false
  match ← node h with
  | .literal _ => return true
  | _ => return false

/-- The operands of `h` if it is an unnegated junction of kind `c`. -/
def operands? (c : Connective) (h : Handle) : PoolM (Option (List Handle)) := do
  if h.negated then return none
  match ← node h with
  | .junction d items => return if d = c then some items else none
  | _ => return none

end PoolM

end PathMerge
