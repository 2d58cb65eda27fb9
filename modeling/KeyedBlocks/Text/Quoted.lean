import KeyedBlocks.Text.Unseen

/-!
Characters and texts in quotation marks. What cannot be seen on its own is written as an escape.
-/
namespace KeyedBlocks.Quoted

/-- The lower-case hexadecimal digits of a code point, without leading zeros. -/
def codePoint (c : Char) : String := String.ofList (Nat.toDigits 16 c.toNat)

/-- One character inside the quotation mark `mark`, which is escaped too. -/
def escape (mark c : Char) : String :=
  if c = '\x00' then "\\0"
  else if c = '\t' then "\\t"
  else if c = '\n' then "\\n"
  else if c = '\r' then "\\r"
  else if c = '\\' then "\\\\"
  else if c = mark then String.ofList ['\\', mark]
  else if Unseen.isUnseen c then "\\u\x7b" ++ codePoint c ++ "\x7d"
  else c.toString

def char (c : Char) : String := "'" ++ escape '\'' c ++ "'"

def text (s : String) : String :=
  "\"" ++ String.join (s.toList.map (escape '"')) ++ "\""

end KeyedBlocks.Quoted
