import Smoothing.Text.Unseen

/-!
# Quoted text

A text in double quotes, where quotes and backslashes are marked by a backslash and characters that
are not seen by themselves are given by name or number.
-/

namespace Smoothing.Text

def codeText (c : Char) : String := "\\u\x7b" ++ String.ofList (Nat.toDigits 16 c.toNat) ++ "\x7d"

def quotedChar (c : Char) : String :=
  if c = '"' then "\\\""
  else if c = '\\' then "\\\\"
  else if c = '\n' then "\\n"
  else if c = '\r' then "\\r"
  else if c = '\t' then "\\t"
  else if c.toNat = 0 then "\\0"
  else if isUnseen c then codeText c
  else c.toString

def quoted (t : String) : String := "\"" ++ String.join (t.toList.map quotedChar) ++ "\""

end Smoothing.Text
