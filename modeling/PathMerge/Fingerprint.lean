/-
  PathMerge.Fingerprint — 64-bit fingerprints of structured values.

  A pair of words is packed by the square-shell pairing: `(a, b)` with the larger component
  picking the shell. On the integers it is one to one; here it wraps modulo `2^64`, so equal
  values have equal fingerprints and nothing more is promised. Sequences fold pairs from the
  left and close with their length; byte strings use the multiply-and-xor hash with the usual
  64-bit offset and prime.
-/

namespace PathMerge.Fingerprint

def pair (a b : UInt64) : UInt64 :=
  if a < b then b * b + a else a * a + a + b

def triple (a b c : UInt64) : UInt64 := pair (pair a b) c

def sequence (words : List UInt64) : UInt64 :=
  pair (words.foldl pair 0) (UInt64.ofNat words.length)

def bytes (bs : List UInt8) : UInt64 :=
  bs.foldl (fun acc b => (acc ^^^ b.toUInt64) * 0x100000001b3) 0xcbf29ce484222325

def text (s : String) : UInt64 := bytes s.toUTF8.toList

/-- The shortest two's-complement form of `n`, least significant byte first. -/
def littleEndian (n : Int) : List UInt8 :=
  let low := UInt8.ofNat (n % 256).toNat
  if -128 ≤ n ∧ n < 128 then [low] else low :: littleEndian (n / 256)
termination_by n.natAbs
decreasing_by omega

def integer (n : Int) : UInt64 := bytes (littleEndian n)

end PathMerge.Fingerprint
