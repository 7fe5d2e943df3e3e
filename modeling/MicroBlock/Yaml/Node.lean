import MicroBlock.Numeral

/-! Documents in a subset of YAML: scalars, sequences, and mappings with scalar keys. -/

namespace MicroBlock.Yaml

structure Scalar where
  text : String
  /-- A quoted scalar is text and nothing else. -/
  quoted : Bool := false
  deriving DecidableEq

inductive Node where
  | scalar (s : Scalar)
  | sequence (items : List Node)
  | mapping (entries : List (Scalar × Node))

namespace Scalar

def null : Scalar := { text := "" }

def isNull (s : Scalar) : Bool := !s.quoted && ["", "~", "null", "Null", "NULL"].contains s.text

/-- The digits of a decimal fraction before and after its point, and what follows them. -/
def splitFraction (cs : List Char) : List Char × List Char × List Char :=
  let whole := cs.takeWhile Char.isDigit
  match cs.dropWhile Char.isDigit with
  | '.' :: rest => (whole, rest.takeWhile Char.isDigit, rest.dropWhile Char.isDigit)
  | rest => (whole, [], rest)

/-- The power of ten that ends a decimal fraction. -/
def power? : List Char → Option Int
  | [] => some 0
  | e :: cs =>
    if e = 'e' ∨ e = 'E' then
      let (negative, digits) := Numeral.splitSign cs
      if digits.isEmpty || !digits.all Char.isDigit then none
      else
        let n : Int := (Nat.ofDigitChars 10 digits 0 : Nat)
        some (if negative then -n else n)
    else none

/-- A decimal fraction cut to the integer towards zero. Powers past the range of a double are refused. -/
def truncated? (text : String) : Option Int := do
  let (negative, cs) := Numeral.splitSign text.toList
  let (whole, part, rest) := splitFraction cs
  if whole.isEmpty && part.isEmpty then none
  let power ← power? rest
  if 309 ≤ power.natAbs then none
  let digits := Nat.ofDigitChars 10 (whole ++ part) 0
  let exponent := power - part.length
  let n := if 0 ≤ exponent then digits * Nat.pow 10 exponent.toNat else digits / Nat.pow 10 exponent.natAbs
  return if negative then -(n : Int) else (n : Int)

/-- The number that a plain scalar stands for. Numerals may have a marked base and underscores
    anywhere; a fraction is cut to an integer. -/
def number? (s : Scalar) : Option Int :=
  if s.quoted then none
  else
    let text := String.ofList (s.text.toList.filter (· != '_'))
    match Numeral.read text with
    | .ok n => some n
    | .error _ =>
      match Numeral.unsigned text.toList with
      | .ok n => some n
      | .error _ => truncated? text

end Scalar

namespace Node

def null : Node := .scalar .null

/-- The entries of a mapping whose keys differ, those with a null key left out. Null is a mapping with no
    entries. -/
def entries? : Node → Option (List (Scalar × Node))
  | .scalar s => if s.isNull then some [] else none
  | .sequence _ => none
  | .mapping es =>
    if (es.map fun e => e.1.text).Nodup then some (es.filter fun e => !e.1.isNull) else none

/-- The items of a sequence, null ones left out. Null is a sequence with no items. -/
def items? : Node → Option (List Node)
  | .scalar s => if s.isNull then some [] else none
  | .mapping _ => none
  | .sequence ns => some (ns.filter fun
    | .scalar s => !s.isNull
    | _ => true)

/-- The text of a scalar; null has none. -/
def text? : Node → Option String
  | .scalar s => some (if s.isNull then "" else s.text)
  | _ => none

/-- A number below a bound, for null zero. -/
def below? (bound : Nat) : Node → Option Nat
  | .scalar s =>
    if s.isNull then some 0
    else s.number?.bind fun n => if 0 ≤ n ∧ n < bound then some n.toNat else none
  | _ => none

/-- A number of 64 bits with a sign, for null zero. -/
def int64? : Node → Option Int64
  | .scalar s =>
    if s.isNull then some 0
    else s.number?.bind fun n =>
      if Int64.minValue.toInt ≤ n ∧ n ≤ Int64.maxValue.toInt then some (Int64.ofInt n) else none
  | _ => none

end Node
end MicroBlock.Yaml
