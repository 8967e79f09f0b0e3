/-
  PathMerge.Analysis.Dot — the flow graph of an analysed method in the DOT language.

  There is one node for each statement, labelled with its text and the numbers of states before and
  after it. Loop heads and tails have shapes of their own; back edges and the edges that fall
  through a branch have styles of their own.
-/

import PathMerge.Analysis

namespace PathMerge.Analysis

structure DotStyle where
  nodeShape : String := "box"
  headShape : String := "doubleoctagon"
  tailShape : String := "doublecircle"
  edgeStyle : String := "solid"
  fallThroughStyle : String := "dashed"
  backEdgeStyle : String := "dotted"
  /-- Whether tails show the states in which the method ends. -/
  showLeaves : Bool := false
  deriving Repr

namespace DotStyle

/-- Text as it stands in a quoted label. -/
def escape (s : String) : String :=
  String.join (s.toList.map fun c =>
    if c = '\\' then "\\\\" else if c = '"' then "\\\"" else c.toString)

/-- The line break of a label. -/
def lineBreak : String := "\\n"

variable (style : DotStyle) (a : Analysis)

def shape (i : Nat) : String :=
  if a.layout.loops.any (·.head = i) then style.headShape
  else if a.layout.flow.isTail i then style.tailShape
  else style.nodeShape

def leafLines (i : Nat) : Except Failure (List String) :=
  if style.showLeaves && a.layout.flow.isTail i then
    (a.outputs i).mapM fun s => return lineBreak ++ escape (← s.render a.context)
  else return []

def nodeLine (stmt : Statement) (i : Nat) : Except Failure String := do
  let before := (a.inputs i).length
  let after := (a.outputs i).length
  let leaves := String.join (← style.leafLines a i)
  return s!"{i} [shape=" ++ style.shape a i ++ s!", label=\"{i}: " ++ escape stmt.text ++ lineBreak ++
    s!"in {before} / out {after}" ++ leaves ++ "\"];\n"

def edgeLine (stmt : Statement) (source : Nat) (number target : Nat) : String :=
  let isBranch := match stmt with
    | .branch .. => true
    | _ => false
  let drawn :=
    if (a.layout.loopClosedBy? source target).isSome then style.backEdgeStyle
    else if isBranch && number = 0 then style.fallThroughStyle
    else style.edgeStyle
  s!"{source} -> {target} [style=" ++ drawn ++ "];\n"

def edgeLines (stmt : Statement) (i : Nat) : String :=
  String.join ((a.layout.flow.succs i).zipIdx.map fun (target, k) =>
    style.edgeLine a stmt i k target)

end DotStyle

def toDot (a : Analysis) (style : DotStyle) : Except Failure String := do
  let positions := a.method.body.zipIdx
  let nodes ← positions.mapM fun (stmt, i) => style.nodeLine a stmt i
  let edges := positions.map fun (stmt, i) => style.edgeLines a stmt i
  return "digraph \"" ++ DotStyle.escape a.method.signature ++ "\" \x7b\n" ++
    "node [shape=" ++ style.nodeShape ++ ", fontname=monospace];\n" ++
    String.join nodes ++ String.join edges ++ "\x7d\n"

end PathMerge.Analysis
