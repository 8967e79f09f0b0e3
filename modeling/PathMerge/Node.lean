/-
  PathMerge.Node — one layer of an expression.

  A node's operands are handles, so equal expressions are equal nodes once their operands are
  interned. Negation is the sign of a handle and is never a node. Conjunction and disjunction are
  one constructor, since every rule about one holds of the other with `true` and `false` exchanged.
-/

import PathMerge.Fingerprint
import PathMerge.Handle
import PathMerge.Symbol

namespace PathMerge

inductive Literal where
  | int (n : Int)
  | null
  | field (name : String)
  deriving DecidableEq, Repr

inductive Connective where
  | conj
  | disj
  deriving DecidableEq, Repr

inductive Node where
  | truth
  | literal (l : Literal)
  | symbol (id : SymbolId)
  | app (f : SymbolId) (args : List Handle)
  /-- One of several values, each under its guard. -/
  | summary (branches : List (Handle × Handle))
  | eq (a b : Handle)
  | junction (c : Connective) (operands : List Handle)
  deriving DecidableEq, Repr

namespace Connective

def dual : Connective → Connective
  | conj => disj
  | disj => conj

/-- The operand that changes nothing. -/
def neutral : Connective → Handle
  | conj => .tt
  | disj => .ff

/-- The operand that decides the outcome. -/
def absorbing (c : Connective) : Handle := -c.neutral

end Connective

def Literal.fingerprint : Literal → UInt64
  | int n => Fingerprint.pair 1 (Fingerprint.integer n)
  | null => 2
  | field name => Fingerprint.pair 3 (Fingerprint.text name)

namespace Node

/-- The operands in order; a branch contributes its guard and then its value. -/
def children : Node → List Handle
  | truth | literal _ | symbol _ => []
  | app _ args => args
  | summary branches => branches.flatMap fun (g, v) => [g, v]
  | eq a b => [a, b]
  | junction _ operands => operands

def fingerprint (n : Node) : UInt64 :=
  let operands := Fingerprint.sequence (n.children.map hash)
  match n with
  | truth => 1
  | literal l => Fingerprint.pair 2 l.fingerprint
  | symbol id => Fingerprint.pair 3 (UInt64.ofNat id.number)
  | app f _ => Fingerprint.triple 4 (UInt64.ofNat f.number) operands
  | summary _ => Fingerprint.pair 5 operands
  | eq a b => Fingerprint.triple 6 (hash a) (hash b)
  | junction .conj _ => Fingerprint.pair 7 operands
  | junction .disj _ => Fingerprint.pair 8 operands

instance : Hashable Node := ⟨fingerprint⟩

end Node

end PathMerge
