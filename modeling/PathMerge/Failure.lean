/-
  PathMerge.Failure — why an operation gives no result.

  An `Error` reports something wrong with what was handed in: a name nobody registered, a body
  that runs off its end. A `Defect` is a contract broken between two parts of the library: an
  index that was never handed out, a function applied to the wrong number of arguments.
  `Failure.message` is the only place where either is put into words.
-/

import PathMerge.ValueSort

namespace PathMerge

inductive Error where
  | symbolNotFound (name : String)
  | functionNotFound (name : String)
  | functionNameClash (name theory : String)
  | invalidStorageBits (bits : Nat)
  | sortMismatch (name : String) (existing requested : ValueSort)
  | methodNotFound (owner signature : String)
  | emptyBody
  | invalidJumpTarget (stmt target : Nat)
  | undeclaredLocal (stmt : Nat) (name : String)
  | missingTerminator (stmt : Nat)
  | returnMismatch (stmt : Nat)
  deriving DecidableEq, Repr

inductive Defect where
  | indexOutOfBounds
  | zeroIndex
  | zeroHandle
  | tooManyTableBits
  | storageFull
  | tooManyMemoBits
  | unknownBuiltin (name : String)
  | wrongArity (function : String) (arguments : Nat)
  | notAFunction (name : String)
  | emptySummary
  | emptyMerge
  | noRule (stmt : String) (states : Nat)
  | severalRules (rules : List String) (stmt : String)
  | ruleMismatch (rule stmt : String)
  | edgeMismatch (position : Nat) (stmt : String) (edges states : Nat)
  /-- A recursion went deeper than the size of what it works on allows. -/
  | boundExceeded
  deriving DecidableEq, Repr

inductive Failure where
  | error (e : Error)
  | defect (d : Defect)
  deriving DecidableEq, Repr

namespace Error

def message : Error → String
  | symbolNotFound name => s!"symbol `{name}` is not registered"
  | functionNotFound name => s!"function symbol `{name}` is not registered"
  | functionNameClash name theory =>
    s!"function `{name}` of theory `{theory}` clashes with an existing symbol"
  | invalidStorageBits bits => s!"storage bits must be in the range 0..=31, got {bits}"
  | sortMismatch name existing requested =>
    s!"symbol `{name}` has sort " ++ existing.name ++ ", cannot re-register it as " ++ requested.name
  | methodNotFound owner signature => s!"method `{signature}` not found in class `{owner}`"
  | emptyBody => "method body is empty"
  | invalidJumpTarget stmt target => s!"statement #{stmt} jumps to #{target}, outside the method body"
  | undeclaredLocal stmt name => s!"statement #{stmt} uses undeclared local `{name}`"
  | missingTerminator stmt => s!"statement #{stmt} falls off the end of the method body"
  | returnMismatch stmt =>
    s!"statement #{stmt} returns a value inconsistent with the method return type"

end Error

namespace Defect

def message : Defect → String
  | indexOutOfBounds => "index out of bounds"
  | zeroIndex => "Index is 0"
  | zeroHandle => "Node index should not be zero"
  | tooManyTableBits => "Storage bits should be in the range 0..=31"
  | storageFull => "Storage is full"
  | tooManyMemoBits => "Bits should be in the range 0..=31"
  | unknownBuiltin name => s!"function symbol `{name}` is not registered"
  | wrongArity function arguments => s!"Function `{function}` applied to {arguments} arguments"
  | notAFunction name => s!"`{name}` is not a function symbol"
  | emptySummary => "Value summary needs at least one branch"
  | emptyMerge => "Cannot merge zero states"
  | noRule stmt states => s!"No rule accepts `{stmt}` with {states} input states"
  | severalRules rules stmt =>
    "Rules [" ++ String.intercalate ", " rules ++ s!"] all accept `{stmt}`"
  | ruleMismatch rule stmt => s!"Rule {rule} applied to `{stmt}`"
  | edgeMismatch position stmt edges states =>
    s!"Statement #{position} `{stmt}` has {edges} outgoing edges but produced {states} states"
  | boundExceeded => "recursion bound exceeded"

end Defect

def Failure.message : Failure → String
  | error e => e.message
  | defect d => d.message

end PathMerge
