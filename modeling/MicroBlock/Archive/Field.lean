/-! The field of 256 elements: bytes as polynomials over two elements, modulo x^8 + x^4 + x^3 + x^2 + 1.
Addition is exclusive or. -/

namespace MicroBlock.Field256

/-- A polynomial times x. -/
def double (a : UInt8) : UInt8 := (a <<< 1) ^^^ (if 0x80 ≤ a then 0x1d else 0)

/-- Adds `a`, times the lowest bits of `b`, to a sum. -/
def addProduct : Nat → UInt8 → UInt8 → UInt8 → UInt8
  | 0, _, _, sum => sum
  | n + 1, a, b, sum => addProduct n (double a) (b >>> 1) (if b &&& 1 = 1 then sum ^^^ a else sum)

def mul (a b : UInt8) : UInt8 := addProduct 8 a b 0

def pow (a : UInt8) : Nat → UInt8
  | 0 => 1
  | n + 1 => mul a (pow a n)

/-- The inverse of an element other than zero. -/
def inv (a : UInt8) : UInt8 := pow a 254

/-- The factors by which the values of a polynomial at some points give its value at `x`, if its degree
    is below the number of points. -/
def weights (points : List UInt8) (x : UInt8) : List UInt8 :=
  points.map fun p =>
    (points.filter (· != p)).foldl (fun w q => mul w (mul (x ^^^ q) (inv (p ^^^ q)))) 1

end MicroBlock.Field256
