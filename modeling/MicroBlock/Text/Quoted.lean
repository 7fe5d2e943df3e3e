import MicroBlock.Text.ByteString
import MicroBlock.Text.Hex
import MicroBlock.Text.Printable

/-! Texts in double quotes, with escapes for what cannot be printed. -/

namespace MicroBlock.Text

/-- One character between quotes. Seven control characters have a letter of their own, the other
    ASCII controls are written as a byte, and code points that cannot be printed by number. -/
def quotedChar (c : Char) : String :=
  if c = '"' then "\\\""
  else if c = '\\' then "\\\\"
  else if isPrintable c then c.toString
  else
    let n := c.toNat
    if n = 7 then "\\a"
    else if n = 8 then "\\b"
    else if n = 12 then "\\f"
    else if n = 10 then "\\n"
    else if n = 13 then "\\r"
    else if n = 9 then "\\t"
    else if n = 11 then "\\v"
    else if n < 0x80 then "\\x" ++ hexPadded 2 n
    else if n < 0x10000 then "\\u" ++ hexPadded 4 n
    else "\\U" ++ hexPadded 8 n

def quotedRune : ByteString.Rune → String
  | .char c => quotedChar c
  | .stray b => "\\x" ++ hexPadded 2 b.toNat

def quotedBytes (s : ByteString) : String :=
  "\"" ++ String.join ((ByteString.runes s.bytes).map quotedRune) ++ "\""

def quoted (s : String) : String :=
  "\"" ++ String.join (s.toList.map quotedChar) ++ "\""

end MicroBlock.Text
