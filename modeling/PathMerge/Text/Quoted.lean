/-
  PathMerge.Text.Quoted — text between double quotes, on one line.

  Quotes and backslashes are written with a backslash before them, four control characters by a
  letter or digit after a backslash, and everything else that cannot be shown by its code point in
  hexadecimal, between braces after `\u`.
-/

import PathMerge.Text.Printable

namespace PathMerge.Text

def byCodePoint (c : Char) : String :=
  "\\u\x7b" ++ String.ofList (Nat.toDigits 16 c.toNat) ++ "\x7d"

def quotedChar (c : Char) : String :=
  if c = '"' then "\\\""
  else if c = '\\' then "\\\\"
  else if c = '\n' then "\\n"
  else if c = '\r' then "\\r"
  else if c = '\t' then "\\t"
  else if c.toNat = 0 then "\\0"
  else if isPrintable c then c.toString
  else byCodePoint c

def quoted (s : String) : String := "\"" ++ String.join (s.toList.map quotedChar) ++ "\""

end PathMerge.Text
