/-
  PathMerge.Flow.Loops — the natural loops of a flow graph.

  A back edge is an edge to a dominator of its source. Its target heads a loop, whose body is the
  head and everything that can be reached from the sources of its back edges by going backwards
  without passing through the head. Exits are the body's positions with an edge out of it.

  `findLoops` goes through the edges in order. Dominators are looked up in the dominator tree, and a
  back edge adds to the body of its head whatever leads to its source and is not there yet.
-/

import PathMerge.Flow.DominatorTree

namespace PathMerge

structure Loop where
  head : Nat
  body : List Nat
  exits : List Nat
  deriving DecidableEq, Repr

namespace Loop

def contains (l : Loop) (i : Nat) : Bool := l.body.contains i

def isBackEdge (l : Loop) (source target : Nat) : Bool := target = l.head && l.contains source

/-- The number of edges that enter the head from outside. -/
def entryEdges (l : Loop) (g : Flow) : Nat := ((g.preds l.head).filter (!l.contains ·)).length

def id (number : Nat) : String := "L" ++ toString number

end Loop

namespace Flow

/-- Whether `a` is met on the way up the tree from `b`, where `b` itself counts. -/
def isAbove (tree : Table) : (steps : Nat) → (a b : Nat) → Except Failure Bool
  | 0, _, _ => .error (.defect .boundExceeded)
  | steps + 1, a, b =>
    if a = b then .ok true
    else match tree.get? b with
      | some parent => if parent = b then .ok false else isAbove tree steps a parent
      | none => .ok false

/-- The bodies that have been begun, by their heads. -/
structure Bodies where
  entries : Array (Option Marks)

namespace Bodies

def empty (n : Nat) : Bodies := ⟨.replicate n none⟩

def get? (b : Bodies) (head : Nat) : Option Marks := b.entries[head]?.join

def insert (b : Bodies) (head : Nat) (members : Marks) : Bodies := ⟨b.entries.setIfInBounds head (some members)⟩

end Bodies

/-- If the edge is a back edge, add what leads to its source to the body of its target. -/
def follow (g : Flow) (tree : Table) (sources : Array (List Nat)) (bodies : Bodies) (edge : Nat × Nat) :
    Except Failure Bodies := do
  let (source, head) := edge
  if ← isAbove tree g.size head source then
    let before (i : Nat) : List Nat := (sources[i]?.getD []).filter fun j => (tree.get? j).isSome
    let body := (bodies.get? head).getD ((Marks.empty g.size).insert head)
    return bodies.insert head (reach before [source] body)
  else return bodies

/-- The edges whose sources are in the tree, in order. -/
def edgesWithin (g : Flow) (tree : Table) : List (Nat × Nat) :=
  (g.positions.filter fun i => (tree.get? i).isSome).flatMap fun i => (g.succs i).map (i, ·)

/-- The loop with the given head and body. -/
def loopOf (g : Flow) (head : Nat) (members : Marks) : Loop :=
  let body := members.toList
  ⟨head, body, body.filter fun i => (g.succs i).any (!members.contains ·)⟩

/-- The natural loops by the dominator tree, in the order of their heads. -/
def loopsAlong (g : Flow) (tree : Table) : Except Failure (List Loop) := do
  let bodies ← (g.edgesWithin tree).foldlM (g.follow tree g.sources) (.empty g.size)
  return g.positions.filterMap fun head => (bodies.get? head).map (g.loopOf head)

def findLoops (g : Flow) : Except Failure (List Loop) := do g.loopsAlong (← g.dominatorTree)

/-- What the graph of a body that is not empty looks like. -/
structure Outline where
  order : List Nat
  immediateDominators : List (Option Nat)
  loops : List Loop

def outline (g : Flow) : Except Failure Outline :=
  if g.size = 0 then .error (.defect .indexOutOfBounds)
  else do
    let tree ← g.dominatorTree
    return ⟨g.reversePostorder, g.positions.map tree.get?, ← g.loopsAlong tree⟩

/-- The back edges of a loop, in the order of their sources. -/
def backEdges (g : Flow) (l : Loop) : List (Nat × Nat) :=
  g.positions.flatMap fun i => ((g.succs i).filter (l.isBackEdge i)).map fun t => (i, t)

end Flow

end PathMerge
