/-! The variable-length form of signed integers in containers and code, and the primitive readers.

Integers from -64 to 63 take one byte, from -8192 to 8191 two, and from -2^29 to 2^29 - 1 four; the two
top bits of the first byte tell which. -/

namespace MicroBlock

abbrev Bytes := List UInt8

/-- Why bytes could not be read. -/
inductive ReadError where
  | endOfData
  | truncatedOperand
  | count (n : Int)
  | truncatedWord
  | unterminatedString
  | shortOf (wanted have_ : Nat)
  deriving DecidableEq

def ReadError.message : ReadError → String
  | endOfData => "unexpected end of data"
  | truncatedOperand => "truncated operand"
  | count n => "count " ++ toString n ++ " out of range"
  | truncatedWord => "truncated word"
  | unterminatedString => "unterminated string"
  | shortOf wanted have_ => "need " ++ toString wanted ++ " bytes, have " ++ toString have_

namespace Operand

def min : Int := -0x20000000

def max : Int := 0x1fffffff

/-- Whether an integer has a form. -/
def fits (v : Int) : Bool := min ≤ v && v ≤ max

/-- Writes the low 30 bits of an integer in the shortest form that holds it. -/
def encode (v : Int32) : Bytes :=
  let u := v.toUInt32
  if -64 ≤ v.toInt ∧ v.toInt ≤ 63 then [u.toUInt8 &&& 0x7f]
  else if -8192 ≤ v.toInt ∧ v.toInt ≤ 8191 then
    [((u >>> 8).toUInt8 &&& 0x3f) ||| 0x80, u.toUInt8]
  else [(u >>> 24).toUInt8 ||| 0xc0, (u >>> 16).toUInt8, (u >>> 8).toUInt8, u.toUInt8]

/-- Reads an integer and leaves the bytes after it. -/
def decode : Bytes → Except ReadError (Int32 × Bytes)
  | [] => .error .endOfData
  | b :: rest =>
    let form := b &&& 0xc0
    let high := (b &&& 0x3f).toUInt32
    if form = 0 then .ok (b.toUInt32.toInt32, rest)
    else if form = 0x40 then .ok ((b.toUInt32 ||| 0xffffff80).toInt32, rest)
    else if form = 0x80 then
      match rest with
      | [] => .error .endOfData
      | c :: rest =>
        let v := (high <<< 8) ||| c.toUInt32
        .ok ((if b &&& 0x20 = 0 then v else v ||| 0xffffc000).toInt32, rest)
    else
      match rest with
      | c :: d :: e :: rest =>
        let v := (high <<< 24) ||| (c.toUInt32 <<< 16) ||| (d.toUInt32 <<< 8) ||| e.toUInt32
        .ok ((if b &&& 0x20 = 0 then v else v ||| 0xc0000000).toInt32, rest)
      | _ => .error .truncatedOperand

/-- The number of bytes of the form that the first byte announces. -/
def formSize : Bytes → Nat
  | [] => 0
  | b :: _ => if b < 0x80 then 1 else if b < 0xc0 then 2 else 4

theorem decode_length {bs rest : Bytes} {v : Int32} (h : decode bs = .ok (v, rest)) :
    rest.length < bs.length := by
  unfold decode at h
  split at h
  · cases h
  · simp only at h
    split at h
    · cases h; simp
    · split at h
      · cases h; simp
      · split at h
        · split at h
          · cases h
          · cases h; simp only [List.length_cons]; omega
        · split at h
          · cases h; simp only [List.length_cons]; omega
          · cases h

end Operand

namespace Read

/-- One byte. -/
def byte : Bytes → Except ReadError (UInt8 × Bytes)
  | [] => .error .endOfData
  | b :: rest => .ok (b, rest)

/-- A count from zero to `limit`. -/
def count (limit : Nat) (bs : Bytes) : Except ReadError (Nat × Bytes) :=
  match Operand.decode bs with
  | .error e => .error e
  | .ok (n, rest) =>
    if n.toInt < 0 ∨ (limit : Int) < n.toInt then .error (.count n.toInt)
    else .ok (n.toInt.toNat, rest)

/-- A count that is no larger than the number of bytes left before it is read. -/
def countWithin (bs : Bytes) : Except ReadError (Nat × Bytes) := count bs.length bs

/-- A big-endian word. -/
def word : Bytes → Except ReadError (UInt32 × Bytes)
  | a :: b :: c :: d :: rest =>
    .ok ((a.toUInt32 <<< 24) ||| (b.toUInt32 <<< 16) ||| (c.toUInt32 <<< 8) ||| d.toUInt32, rest)
  | _ => .error .truncatedWord

/-- The bytes before the first NUL. -/
def string (bs : Bytes) : Except ReadError (Bytes × Bytes) :=
  match bs.dropWhile (· != 0) with
  | [] => .error .unterminatedString
  | _ :: rest => .ok (bs.takeWhile (· != 0), rest)

/-- The next `n` bytes. -/
def take (n : Nat) (bs : Bytes) : Except ReadError (Bytes × Bytes) :=
  if bs.length < n then .error (.shortOf n bs.length) else .ok (bs.take n, bs.drop n)

end Read

namespace Write

/-- A big-endian word. -/
def word (v : UInt32) : Bytes := [(v >>> 24).toUInt8, (v >>> 16).toUInt8, (v >>> 8).toUInt8, v.toUInt8]

/-- A little-endian word. -/
def wordLowFirst (v : UInt32) : Bytes :=
  [v.toUInt8, (v >>> 8).toUInt8, (v >>> 16).toUInt8, (v >>> 24).toUInt8]

/-- A count, which keeps its low 32 bits. -/
def count (n : Nat) : Bytes := Operand.encode (Int32.ofNat n)

/-- A text and the NUL that ends it. -/
def string (s : Bytes) : Bytes := s ++ [0]

end Write
end MicroBlock
