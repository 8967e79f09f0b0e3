/-
  PathMerge.Purity — methods known to leave the heap alone.

  A call to a pure method is a function of the heap, the receiver and the arguments. Methods are
  listed by their full signatures, in byte order.
-/

namespace PathMerge.Purity

def signatures : List String := [
  "<java.lang.Character: boolean isDigit(char)>",
  "<java.lang.Character: boolean isLetter(char)>",
  "<java.lang.Integer: int bitCount(int)>",
  "<java.lang.Integer: int compare(int,int)>",
  "<java.lang.Integer: int signum(int)>",
  "<java.lang.Long: int compare(long,long)>",
  "<java.lang.Math: int abs(int)>",
  "<java.lang.Math: int floorDiv(int,int)>",
  "<java.lang.Math: int floorMod(int,int)>",
  "<java.lang.Math: int max(int,int)>",
  "<java.lang.Math: int min(int,int)>",
  "<java.lang.Math: long abs(long)>",
  "<java.lang.Math: long max(long,long)>",
  "<java.lang.Math: long min(long,long)>",
  "<java.lang.Object: boolean equals(java.lang.Object)>",
  "<java.lang.Object: int hashCode()>",
  "<java.lang.String: boolean equals(java.lang.Object)>",
  "<java.lang.String: boolean isEmpty()>",
  "<java.lang.String: char charAt(int)>",
  "<java.lang.String: int hashCode()>",
  "<java.lang.String: int length()>"]

def isPure (signature : String) : Bool := signatures.contains signature

end PathMerge.Purity
