/-
  PathMerge.Context.Render — expressions as text.

  Operators stand between their operands, and an operand that is itself an operation is put in
  parentheses. A negated equation is written with `!=`, any other negation with a leading `!`. A
  summary lists its guarded values between braces.
-/

import PathMerge.Context

namespace PathMerge.Context

def parenthesized (nested : Bool) (s : String) : String := if nested then "(" ++ s ++ ")" else s

variable (ctx : Context) (operand : Bool → Handle → Except Failure String)

def renderBinary (nested : Bool) (op : String) (a b : Handle) : Except Failure String := do
  let left ← operand true a
  let right ← operand true b
  return parenthesized nested (left ++ " " ++ op ++ " " ++ right)

def renderBranch (b : Branch) : Except Failure String := do
  let guard ← operand false b.1
  let value ← operand false b.2
  return guard ++ " => " ++ value

def renderApp (nested : Bool) (f : SymbolId) (args : List Handle) : Except Failure String := do
  let name ← ctx.symbolName f
  let op := (← ctx.theoryOf? f).bind (·.operator? name)
  match op, args with
  | some op, [a, b] => renderBinary operand nested op a b
  | some op, [a] => return op ++ (← operand true a)
  | _, _ => return name ++ "(" ++ String.intercalate ", " (← args.mapM (operand false)) ++ ")"

def renderNode (nested : Bool) : Node → Except Failure String
  | .truth => return "true"
  | .literal (.int n) => return toString n
  | .literal .null => return "null"
  | .literal (.field name) => return name
  | .symbol id => ctx.symbolName id
  | .app f args => renderApp ctx operand nested f args
  | .summary branches => do
    let parts ← branches.mapM (renderBranch operand)
    return "\x7b" ++ String.intercalate "; " parts ++ "\x7d"
  | .eq a b => renderBinary operand nested "==" a b
  | .junction c operands => do
    let parts ← operands.mapM (operand true)
    let sign := match c with
      | .conj => " && "
      | .disj => " || "
    return parenthesized nested (String.intercalate sign parts)

def renderWithin : Nat → Bool → Handle → Except Failure String
  | 0, _, _ => .error (.defect .boundExceeded)
  | depth + 1, nested, h => do
    if h = .tt then return "true"
    else if h = .ff then return "false"
    else
      match ← ctx.node h, h.negated with
      | .eq a b, true => renderBinary (renderWithin depth) nested "!=" a b
      | n, true => return "!" ++ (← renderNode ctx (renderWithin depth) true n)
      | n, false => renderNode ctx (renderWithin depth) nested n

/-- The text of `h`. Operands have smaller indices, so the index of `h` bounds the depth. -/
def render (h : Handle) : Except Failure String := ctx.renderWithin (h.index + 1) false h

/-- One line about the context's size and the use of its memory. -/
def outline : String :=
  let names := ctx.theories.map fun t => "\"" ++ t.name ++ "\""
  "Context \x7b nodes: " ++ toString ctx.pool.size ++
    ", symbols: " ++ toString ctx.symbols.size ++
    ", theories: [" ++ String.intercalate ", " names ++
    "], cache_hits: " ++ toString ctx.memo.hits ++
    ", cache_misses: " ++ toString ctx.memo.misses ++ " \x7d"

end PathMerge.Context
