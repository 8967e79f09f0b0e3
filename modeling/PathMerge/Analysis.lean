/-
  PathMerge.Analysis — the symbolic execution of one method.

  Creating an analysis checks the method and registers its symbols: the result, parameters, locals,
  and a function for each pure method whose result is used. `execute` walks the method and keeps
  what the walk recorded; executing again changes nothing.
-/

import PathMerge.Method
import PathMerge.Text.Quoted
import PathMerge.Walk.Summary

namespace PathMerge

/-- How many bits the pool's table has, and the statements where the walk stops. -/
structure Settings where
  bits : Nat := 16
  stops : List Nat := []
  deriving Repr

structure Analysis where
  method : Method
  settings : Settings
  context : Context
  layout : Layout
  /-- What the walk recorded; nothing before the analysis is executed. -/
  walk? : Option Walk

namespace Analysis

/-- The owner recorded for functions that stand for pure methods. -/
def programTheory : String := "program"

def registerCall : Statement → ContextM Unit
  | .call (some _) receiver? callee args => do
    let name := callee.signature
    let known := ((← get).symbols.functions.lookup name).isSome
    if Purity.isPure name && !known then
      let arity := 1 + receiver?.toList.length + args.length
      let sort := (callee.result?.map ValueType.sort).getD .any
      let _ ← ContextM.register (·.addFunction programTheory name arity sort)
  | _ => return ()

def registerSymbols (m : Method) : ContextM Unit := do
  if let some t := m.result? then
    let _ ← ContextM.register (·.addResult t.sort)
  m.declarations.forM fun (name, type) => do
    let _ ← ContextM.register (·.addLocal name type.sort)
  m.body.forM registerCall

/-- Run an action of the context from `ctx`. -/
def within {α : Type} (ctx : Context) (x : ContextM α) : Except Failure (α × Context) :=
  let (r, ctx) := x.run.run ctx
  r.map (·, ctx)

def create (m : Method) (settings : Settings) : Except Failure Analysis := do
  m.validate
  let (_, context) ← within (← Context.create settings.bits Theory.all) (registerSymbols m)
  let flow ← Flow.ofBody m.body
  let loops ← flow.findLoops
  return ⟨m, settings, context, ⟨m.body.toArray, flow, loops.toArray⟩, none⟩

/-- The analysis of the method `signature` of `owner`. -/
def ofProgram (p : Program) (owner signature : String) : Except Failure Analysis := do
  create (← p.find owner signature) {}

def executed (a : Analysis) : Bool := a.walk?.isSome

def execute (a : Analysis) : Except Failure Analysis :=
  match a.walk? with
  | some _ => .ok a
  | none => do
    let (w, context) ← within a.context (Walk.ofMethod a.layout a.settings.stops)
    return { a with context, walk? := some w }

/-- Execute `runs` times. -/
def executeTimes (a : Analysis) : (runs : Nat) → Except Failure Analysis
  | 0 => .ok a
  | runs + 1 => do (← a.execute).executeTimes runs

/-- The states that reach the statement at `i`. -/
def inputs (a : Analysis) (i : Nat) : List State :=
  match a.walk? with
  | some w => w.inputs.get i
  | none => []

/-- The states after the statement at `i`, one for each edge. -/
def outputs (a : Analysis) (i : Nat) : List State :=
  match a.walk? with
  | some w => w.outputs.get i
  | none => []

def summaries (a : Analysis) : Summaries :=
  match a.walk? with
  | some w => w.summaries
  | none => []

/-- The states in which the method ends, by statement. -/
def leaves (a : Analysis) : List (Nat × List State) :=
  a.layout.flow.tails.map fun i => (i, a.outputs i)

def leafStates (a : Analysis) : List State := a.leaves.flatMap (·.2)

/-- The state at the head `i` of a summarised loop. -/
def loopLeaf? (a : Analysis) (i : Nat) : Option State :=
  (a.summaries.find? (·.2.head = i)).map (·.2.leaf)

/-- The parameter or local `name`. -/
def localSymbol (a : Analysis) (name : String) : Except Failure SymbolId :=
  a.context.symbols.lookup name

/-- The term for the value `name` has at the start. -/
def initialValue (a : Analysis) (name : String) : Except Failure (Handle × Analysis) := do
  let (h, context) ← within a.context (ContextM.symbol (← a.localSymbol name))
  return (h, { a with context })

def functionSymbol (a : Analysis) (name : String) : Except Failure SymbolId :=
  a.context.symbols.function name

/-- One line about the analysis. -/
def outline (a : Analysis) : String :=
  "Analysis \x7b method: " ++ Text.quoted a.method.signature ++
    ", statements: " ++ toString a.method.body.length ++
    ", loops: " ++ toString a.layout.loops.size ++
    ", executed: " ++ toString a.executed ++
    ", context: " ++ a.context.outline ++ " \x7d"

end Analysis

end PathMerge
