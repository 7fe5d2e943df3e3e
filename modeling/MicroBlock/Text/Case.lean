/-! Letter case of names.

Names of the library are ASCII, so only the characters whose lower or upper form is an ASCII letter
matter; every other character is left alone and matches nothing. -/

namespace MicroBlock.Text

/-- The lower-case form of a character, where that form is ASCII: the Latin capitals, the capital I
    with a dot and the Kelvin sign. -/
def lowerChar (c : Char) : Char :=
  if c.val = 0x130 then 'i'
  else if c.val = 0x212a then 'k'
  else c.toLower

/-- The upper-case form of a character, where that form is ASCII: the small Latin letters, the small
    i without a dot and the long s. -/
def upperChar (c : Char) : Char :=
  if c.val = 0x131 then 'I'
  else if c.val = 0x17f then 'S'
  else c.toUpper

def lowerToAscii (s : String) : String := s.map lowerChar

def upperToAscii (s : String) : String := s.map upperChar

/-- Upper case of the ASCII letters alone. -/
def upperAscii (s : String) : String := s.map Char.toUpper

end MicroBlock.Text
