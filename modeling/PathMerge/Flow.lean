/-
  PathMerge.Flow — the flow graph of a method body.

  Positions are the statements' and position 0 is the root. Edges leave a statement in order: a
  branch falls through first and jumps second. Two edges between the same positions are two edges,
  also when they are counted on the way in. Every edge ends inside the body.

  `reach` collects what can be reached from a list of positions without passing through a given
  set; `reversePostorder` lists what can be reached from the root, every position before those it
  leads to except where the graph turns back on itself.
-/

import PathMerge.Failure
import PathMerge.Marks
import PathMerge.Statement

namespace PathMerge

/-- Where control goes from the statement at position `i`. -/
def Statement.successors (i : Nat) : Statement → List Nat
  | .branch _ goal => [i + 1, goal]
  | .jump goal => [goal]
  | .ret _ | .raise _ => []
  | _ => [i + 1]

structure Flow where
  edges : Array (List Nat)
  inside : ∀ out ∈ edges.toList, ∀ t ∈ out, t < edges.size

namespace Flow

def ofBody (body : List Statement) : Except Failure Flow :=
  let edges := (body.zipIdx.map fun (s, i) => s.successors i).toArray
  if h : ∀ out ∈ edges.toList, ∀ t ∈ out, t < edges.size then .ok ⟨edges, h⟩
  else .error (.defect .indexOutOfBounds)

def size (g : Flow) : Nat := g.edges.size

def root : Nat := 0

def positions (g : Flow) : List Nat := List.range g.size

def succs (g : Flow) (i : Nat) : List Nat := g.edges[i]?.getD []

/-- The positions with an edge to `i`, one entry for each edge. -/
def preds (g : Flow) (i : Nat) : List Nat :=
  g.positions.flatMap fun j => (g.succs j).filterMap fun t => if t = i then some j else none

/-- The positions with an edge to each position, as `preds` lists them. -/
def sources (g : Flow) : Array (List Nat) := (g.positions.map g.preds).toArray

def isTail (g : Flow) (i : Nat) : Bool := (g.succs i).isEmpty

def tails (g : Flow) : List Nat := g.positions.filter g.isTail

/-! ## Reachability -/

/-- What `next` leads to from `todo` through positions that are not in `seen`, together with
`seen`. -/
def reach (next : Nat → List Nat) : (todo : List Nat) → (seen : Marks) → Marks
  | [], seen => seen
  | i :: todo, seen =>
    if seen.lacks i then reach next (next i ++ todo) (seen.insert i) else reach next todo seen
termination_by todo seen => (seen.missing, todo.length)
decreasing_by
  · exact Prod.Lex.left _ _ (Marks.missing_insert_lt ‹_›)
  · exact Prod.Lex.right _ (by simp)

/-! ## Depth-first order -/

/-- Depth-first search. The stack holds the positions being explored with the edges still to
follow; `finished` holds the explored ones, the last one first. -/
def explore (g : Flow) :
    (stack : List (Nat × List Nat)) → (seen : Marks) → (finished : List Nat) → List Nat
  | [], _, finished => finished
  | (i, []) :: stack, seen, finished => explore g stack seen (i :: finished)
  | (i, t :: ts) :: stack, seen, finished =>
    if seen.lacks t then
      explore g ((t, g.succs t) :: (i, ts) :: stack) (seen.insert t) finished
    else explore g ((i, ts) :: stack) seen finished
termination_by stack seen => (seen.missing, (stack.flatMap (·.2)).length + stack.length)
decreasing_by
  · exact Prod.Lex.right _ (by simp)
  · exact Prod.Lex.left _ _ (Marks.missing_insert_lt ‹_›)
  · refine Prod.Lex.right _ ?_
    simp only [List.flatMap_cons, List.length_append, List.length_cons]
    omega

def reversePostorder (g : Flow) : List Nat :=
  g.explore [(root, g.succs root)] ((Marks.empty g.size).insert root) []

end Flow

end PathMerge
