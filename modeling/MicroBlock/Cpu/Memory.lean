import MicroBlock.Cpu.Fault
import MicroBlock.Cpu.Width

/-! Flat memory from linear address zero. An access past the end is a page fault. -/

namespace MicroBlock

structure Memory where
  bytes : ByteArray

instance : DecidableEq Memory := fun a b =>
  if h : a.bytes.data = b.bytes.data then
    isTrue (by cases a; cases b; exact congrArg Memory.mk (ByteArray.ext h))
  else isFalse (fun e => h (by rw [e]))

/-- Why an access of a raw size gave nothing. -/
inductive AccessFailure where
  | fault (f : Fault)
  /-- No access has this size. -/
  | badSize (size : Int)
  /-- The address lies past the end although the access, counted modulo 2^64, does not. -/
  | outside
  deriving DecidableEq

namespace Memory

/-- Zeroed memory. -/
def ofSize (n : Nat) : Memory := ⟨⟨Array.replicate n 0⟩⟩

/-- The largest size that can be asked for. -/
def maxSize : Nat := 0x1000000000000

/-- Zeroed memory of a size as callers give it. -/
def ofSize? (n : Int) : Option Memory :=
  if n < 0 ∨ (maxSize : Int) < n then none else some (ofSize n.toNat)

def size (m : Memory) : Nat := m.bytes.size

/-- The byte at an address; nothing is stored past the end. -/
def byte (m : Memory) (a : Nat) : UInt8 := if h : a < m.bytes.size then m.bytes[a] else 0

def setByte (m : Memory) (a : Nat) (b : UInt8) : Memory :=
  if h : a < m.bytes.size then ⟨m.bytes.set a b h⟩ else m

/-- Little-endian value of the bytes at an address. -/
def peek (m : Memory) (a : Nat) : Width → UInt32
  | .byte => (m.byte a).toUInt32
  | .word => (m.byte a).toUInt32 ||| ((m.byte (a + 1)).toUInt32 <<< 8)
  | .dword =>
    (m.byte a).toUInt32 ||| ((m.byte (a + 1)).toUInt32 <<< 8) |||
      ((m.byte (a + 2)).toUInt32 <<< 16) ||| ((m.byte (a + 3)).toUInt32 <<< 24)

def poke (m : Memory) (a : Nat) (w : Width) (v : UInt32) : Memory :=
  match w with
  | .byte => m.setByte a v.toUInt8
  | .word => (m.setByte a v.toUInt8).setByte (a + 1) (v >>> 8).toUInt8
  | .dword =>
    (((m.setByte a v.toUInt8).setByte (a + 1) (v >>> 8).toUInt8).setByte (a + 2)
      (v >>> 16).toUInt8).setByte (a + 3) (v >>> 24).toUInt8

def read (m : Memory) (a : UInt32) (w : Width) : Except Fault UInt32 :=
  if m.size < a.toNat + w.bytes then .error (.pageFault a false) else .ok (m.peek a.toNat w)

def write (m : Memory) (a : UInt32) (w : Width) (v : UInt32) : Except Fault Memory :=
  if m.size < a.toNat + w.bytes then .error (.pageFault a true) else .ok (m.poke a.toNat w v)

/-- The access width of a raw size at an address, sizes counting modulo 2^64. -/
def accessWidth (m : Memory) (a : UInt32) (size : Int) (write : Bool) : Except AccessFailure Width :=
  if m.size < (a.toUInt64 + UInt64.ofInt size).toNat then .error (.fault (.pageFault a write))
  else if m.size < a.toNat then .error .outside
  else match Width.ofBytes? size with
    | some w => .ok w
    | none => .error (.badSize size)

def readSized (m : Memory) (a : UInt32) (size : Int) : Except AccessFailure UInt32 := do
  let w ← m.accessWidth a size false
  return m.peek a.toNat w

def writeSized (m : Memory) (a : UInt32) (size : Int) (v : UInt32) : Except AccessFailure Memory := do
  let w ← m.accessWidth a size true
  return m.poke a.toNat w v

/-- Copies bytes in from an address on. -/
def load (m : Memory) (a : Nat) : List UInt8 → Memory
  | [] => m
  | b :: bs => (m.setByte a b).load (a + 1) bs

/-- The maximal runs of bytes in which two memories differ, each with its address: the bytes are
    those of the second memory. -/
def changes (before after : Memory) : List (Nat × List UInt8) :=
  go 0 after.size [] []
where
  /-- `run` holds the bytes of the run that ends just before `a`, last first. -/
  go (a : Nat) : Nat → List UInt8 → List (Nat × List UInt8) → List (Nat × List UInt8)
    | 0, run, done => (close a run done).reverse
    | n + 1, run, done =>
      if before.byte a = after.byte a then go (a + 1) n [] (close a run done)
      else go (a + 1) n (after.byte a :: run) done
  /-- Ends the run before `a`. -/
  close (a : Nat) (run : List UInt8) (done : List (Nat × List UInt8)) : List (Nat × List UInt8) :=
    if run.isEmpty then done else (a - run.length, run.reverse) :: done

end Memory
end MicroBlock
