/-
  PathMerge.Walk — carrying states along the edges of a method.

  A walk starts at the root of a region with some states and takes statements from a queue. A
  statement waits until it has a state for every edge that leads to it; a loop head waits for the
  edges that enter the loop. If the whole queue waits, the walk has stalled: the statement is taken
  with the states it has, or dropped if it has none. No statement is carried out twice.

  A loop met on the way is not walked into: `summarise` is asked about it, the states it recorded
  for the loop's statements are taken over, and the walk goes on behind the loop's exits. A walk
  over a loop's body starts at the head, stays inside the body, and keeps the states that come back
  to the head apart from following them.

  A walk stops at the positions its region names. That it also stops at a loop exit it has come through is not
  written down here: the exit has been carried out, and so a walk does not take it again anyway.

  With every statement taken, one less is pending; otherwise the queue gets shorter, or one more
  statement has been put back since the last one was taken. So a walk ends.
-/

import PathMerge.Flow.Loops
import PathMerge.Rule

namespace PathMerge

/-- A list of states for every position. -/
structure StateMap where
  get : Nat → List State

namespace StateMap

def empty : StateMap := ⟨fun _ => []⟩

def put (m : StateMap) (i : Nat) (states : List State) : StateMap :=
  ⟨fun j => if j = i then states else m.get j⟩

def push (m : StateMap) (i : Nat) (s : State) : StateMap := m.put i (m.get i ++ [s])

/-- Take over what `other` has for the `positions`, where it has anything. -/
def takeOver (m other : StateMap) (positions : List Nat) : StateMap :=
  positions.foldl (fun m i =>
    match other.get i with
    | [] => m
    | states => m.put i states) m

end StateMap

/-- What all iterations of a loop have in common. -/
structure LoopSummary where
  head : Nat
  /-- The state at the head of an arbitrary iteration. -/
  leaf : State
  /-- The symbols that iterations may change. -/
  modified : List SymbolId
  /-- The heap locations that iterations may write. -/
  modifies : Handle
  /-- How often the body was walked. -/
  passes : Nat

/-- Summaries by the number of their loop, in order. -/
abbrev Summaries := List (Nat × LoopSummary)

def Summaries.insert (id : Nat) (s : LoopSummary) : Summaries → Summaries
  | [] => [(id, s)]
  | (n, t) :: rest =>
    if id < n then (id, s) :: (n, t) :: rest
    else if n < id then (n, t) :: insert id s rest
    else (id, s) :: rest

/-- A method body with its flow graph and loops. -/
structure Layout where
  body : Array Statement
  flow : Flow
  loops : Array Loop

namespace Layout

def statement (l : Layout) (i : Nat) : Except Failure Statement :=
  match l.body[i]? with
  | some s => .ok s
  | none => .error (.defect .indexOutOfBounds)

def getLoop (l : Layout) (id : Nat) : Except Failure Loop :=
  match l.loops[id]? with
  | some lp => .ok lp
  | none => .error (.defect .indexOutOfBounds)

def loopHeadedBy? (l : Layout) (i : Nat) : Option Nat := l.loops.findIdx? (·.head = i)

/-- The loop that the edge from `source` to `target` closes. -/
def loopClosedBy? (l : Layout) (source target : Nat) : Option Nat :=
  l.loops.findIdx? (·.isBackEdge source target)

end Layout

/-- The part of a method that a walk covers: all of it, or the body of one loop. -/
structure Region where
  root : Nat
  /-- Positions where the walk stops; states that reach them are still recorded. -/
  stops : List Nat
  loop? : Option (Nat × Loop)

namespace Region

def whole (stops : List Nat) : Region := ⟨Flow.root, stops, none⟩

def ofLoop (id : Nat) (l : Loop) : Region := ⟨l.head, [], some (id, l)⟩

def contains (r : Region) (i : Nat) : Bool :=
  match r.loop? with
  | none => true
  | some (_, l) => l.contains i

/-- Whether `i` is the head of the loop being walked. -/
def isOwnHead (r : Region) (i : Nat) : Bool := r.loop?.isSome && i = r.root

end Region

/-- What a walk has recorded. -/
structure Walk where
  inputs : StateMap
  outputs : StateMap
  summaries : Summaries

/-- What the last walk over a loop's body recorded, and the loop's summary. -/
structure LoopRun where
  walk : Walk
  summary : LoopSummary

namespace Walk

def start (root : Nat) (states : List State) : Walk :=
  ⟨StateMap.empty.put root states, .empty, []⟩

variable (layout : Layout) (region : Region)

/-- Hand `s` over the edge from `source` to `target`; the position is returned if it is to be
queued. A state that closes a loop is kept only by the walk over that loop. -/
def deliver (w : Walk) (source target : Nat) (s : State) : Walk × List Nat :=
  let kept := { w with inputs := w.inputs.push target s }
  match layout.loopClosedBy? source target with
  | some id => if region.loop?.map (·.1) = some id then (kept, []) else (w, [])
  | none => (kept, [target])

def deliverAll (w : Walk) (source : Nat) : List (Nat × State) → Walk × List Nat
  | [] => (w, [])
  | (target, s) :: rest =>
    let (w, first) := deliver layout region w source target s
    let (w, others) := deliverAll w source rest
    (w, first ++ others)

/-- Carry out the statement at `i`; returns the positions to queue. -/
def step (w : Walk) (i : Nat) : ContextM (Walk × List Nat) := do
  let stmt ← ContextM.ofExcept (layout.statement i)
  let succs := layout.flow.succs i
  let inputs := w.inputs.get i
  let rule ← ContextM.ofExcept (Rule.select stmt inputs)
  let outputs ← (← rule.apply stmt inputs succs.length).mapM State.simplify
  if !succs.isEmpty && outputs.length ≠ succs.length then
    throw (.defect (.edgeMismatch i stmt.text succs.length outputs.length))
  let w := { w with outputs := w.outputs.put i outputs }
  return deliverAll layout region w i (succs.zip outputs)

/-- Hand the states recorded at the loop's exits over the edges that leave the loop. -/
def leaveLoop (w : Walk) (l : Loop) (outputs : StateMap) : (exits : List Nat) → Walk × List Nat
  | [] => (w, [])
  | e :: rest =>
    let leaving := ((layout.flow.succs e).zip (outputs.get e)).filter (!l.contains ·.1)
    let (w, first) := deliverAll layout region w e leaving
    let (w, others) := leaveLoop w l outputs rest
    (w, first ++ others)

/-- Have the loop `id` summarised and go on behind its exits. -/
def passLoop (summarise : Nat → List State → ContextM LoopRun) (w : Walk) (id : Nat) :
    ContextM (Walk × List Nat) := do
  let l ← ContextM.ofExcept (layout.getLoop id)
  let run ← summarise id (w.inputs.get l.head)
  let inputs := w.inputs.takeOver run.walk.inputs (l.body.filter (· ≠ l.head))
  let outputs := w.outputs.takeOver run.walk.outputs l.body
  let nested := run.walk.summaries.foldl (fun m (n, s) => m.insert n s) w.summaries
  let w : Walk := ⟨inputs, outputs, nested.insert id run.summary⟩
  return leaveLoop layout region w l run.walk.outputs l.exits

/-- The loop to be summarised when the walk comes to `i`. -/
def loopToPass? (i : Nat) : Option Nat :=
  if region.isOwnHead i then none else layout.loopHeadedBy? i

/-- How many states the statement at `i` waits for. -/
def required (i : Nat) : Nat :=
  if region.isOwnHead i then 0
  else match (layout.loopHeadedBy? i).bind (layout.loops[·]?) with
    | some l => l.entryEdges layout.flow
    | none => (layout.flow.preds i).length

/-- Put positions at the end of the queue: those of the region that are not in it yet. -/
def enqueue (queue next : List Nat) : List Nat :=
  next.foldl (fun q i => if region.contains i && !q.contains i then q ++ [i] else q) queue

/-- Work through the queue. `pending` are the statements not carried out yet, `postponed` counts
those put back since one was taken. -/
def run (summarise : Nat → List State → ContextM LoopRun) (w : Walk) :
    (queue pending : List Nat) → (postponed : Nat) → ContextM Walk
  | [], _, _ => return w
  | i :: queue, pending, postponed =>
    if region.stops.contains i then run summarise w queue pending postponed
    else if _ : i ∈ pending then
      let received := (w.inputs.get i).length
      let waiting := received < required layout region i
      if waiting ∧ postponed ≤ queue.length then
        run summarise w (queue ++ [i]) pending (postponed + 1)
      else if waiting ∧ received = 0 then run summarise w queue pending 0
      else do
        let (w, next) ← match loopToPass? layout region i with
          | some id => passLoop layout region summarise w id
          | none => step layout region w i
        run summarise w (enqueue region queue next) (pending.erase i) 0
    else run summarise w queue pending postponed
termination_by queue pending postponed =>
  (pending.length, queue.length, queue.length + 1 - postponed)
decreasing_by
  · exact Prod.Lex.right _ (Prod.Lex.left _ _ (by simp))
  · rename_i hw
    simp only [List.length_append, List.length_cons, List.length_nil]
    exact Prod.Lex.right _ (Prod.Lex.right _ (by omega))
  · exact Prod.Lex.right _ (Prod.Lex.left _ _ (by simp))
  · refine Prod.Lex.left _ _ ?_
    have queued := ‹i ∈ pending›
    rw [List.length_erase_of_mem queued]
    have := List.length_pos_of_mem queued
    omega
  · exact Prod.Lex.right _ (Prod.Lex.left _ _ (by simp))

/-- Walk the region from its root, where `states` arrive. -/
def through (summarise : Nat → List State → ContextM LoopRun) (states : List State) : ContextM Walk :=
  run layout region summarise (start region.root states) [region.root] layout.flow.positions 0

end Walk

end PathMerge
