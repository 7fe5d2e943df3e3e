import MicroBlock.Text.Quoted

/-! Integer numerals as users write them: plain decimal, or with a base that the first characters
mark. A numeral is read from the left, so that a value too large for 64 bits is found before a
character that follows it. -/

namespace MicroBlock.Numeral

/-- Why a text is no 64-bit integer. -/
inductive Flaw where
  | malformed
  | range
  deriving DecidableEq

/-- The words for a flaw that the reader called `reader` found in `text`. -/
def Flaw.message (reader text : String) : Flaw → String
  | .malformed => reader ++ ": parsing " ++ Text.quoted text ++ ": invalid syntax"
  | .range => reader ++ ": parsing " ++ Text.quoted text ++ ": value out of range"

def digit? (c : Char) : Option Nat :=
  if '0' ≤ c ∧ c ≤ '9' then some (c.toNat - 48)
  else if 'a' ≤ c ∧ c ≤ 'z' then some (c.toNat - 87)
  else if 'A' ≤ c ∧ c ≤ 'Z' then some (c.toNat - 55)
  else none

/-- The value of a run of digits, which must stay below 2^64. -/
def scan (base acc : Nat) : List Char → Except Flaw Nat
  | [] => .ok acc
  | c :: cs =>
    match digit? c with
    | none => .error .malformed
    | some d =>
      if d < base then
        if acc * base + d < UInt64.size then scan base (acc * base + d) cs else .error .range
      else .error .malformed

/-- A numeral split into its base, whether a mark for the base came first, and its digits. A lone
    zero in front marks octal, and is a digit itself. -/
def splitBase : List Char → Nat × Bool × List Char
  | '0' :: m :: c :: cs =>
    if m = 'x' ∨ m = 'X' then (16, true, c :: cs)
    else if m = 'b' ∨ m = 'B' then (2, true, c :: cs)
    else if m = 'o' ∨ m = 'O' then (8, true, c :: cs)
    else (8, true, m :: c :: cs)
  | '0' :: cs => (8, true, cs)
  | cs => (10, false, cs)

/-- Whether each underscore stands alone after a digit or a mark and before a digit; `free` says
    whether one may come next. -/
def separated (free : Bool) : List Char → Bool
  | [] => true
  | ['_'] => false
  | '_' :: cs => free && separated false cs
  | _ :: cs => separated true cs

/-- An unsigned numeral with a marked base and underscores between its digits. -/
def unsigned (cs : List Char) : Except Flaw Nat :=
  if cs.isEmpty then .error .malformed
  else
    let (base, marked, body) := splitBase cs
    match scan base 0 (body.filter (· != '_')) with
    | .error e => .error e
    | .ok n => if separated marked body then .ok n else .error .malformed

/-- Whether a minus sign comes first, and what follows the sign. -/
def splitSign : List Char → Bool × List Char
  | '-' :: cs => (true, cs)
  | '+' :: cs => (false, cs)
  | cs => (false, cs)

def withSign (negative : Bool) (n : Nat) : Except Flaw Int :=
  if negative then
    if n ≤ 0x8000000000000000 then .ok (-(n : Int)) else .error .range
  else if n < 0x8000000000000000 then .ok n
  else .error .range

/-- Reads a 64-bit integer in any of the marked bases. -/
def read (s : String) : Except Flaw Int :=
  let (negative, cs) := splitSign s.toList
  match unsigned cs with
  | .error e => .error e
  | .ok n => withSign negative n

/-- Reads an integer in any of the marked bases whose digits alone make a number below 2^64. -/
def readWide (s : String) : Except Flaw Int :=
  let (negative, cs) := splitSign s.toList
  (unsigned cs).map fun n => if negative then -(n : Int) else n

/-- Reads a 64-bit integer in plain decimal. -/
def readDecimal (s : String) : Except Flaw Int :=
  let (negative, cs) := splitSign s.toList
  if cs.isEmpty then .error .malformed
  else match scan 10 0 cs with
    | .error e => .error e
    | .ok n => withSign negative n

end MicroBlock.Numeral
