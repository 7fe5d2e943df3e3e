/-! Storage classes of the values that blocks compute with. -/

namespace MicroBlock

/-- How a value is stored. Containers hold a class as one byte; a byte past the four classes is
    kept as it stands. -/
inductive Kind where
  | void | int | long | ref
  | reserved (code : UInt8) (undefined : 4 ≤ code)
  deriving DecidableEq

namespace Kind

def code : Kind → UInt8
  | void => 0
  | int => 1
  | long => 2
  | ref => 3
  | reserved c _ => c

def ofCode (c : UInt8) : Kind :=
  if c = 0 then void
  else if c = 1 then int
  else if c = 2 then long
  else if c = 3 then ref
  else if h : 4 ≤ c then reserved c h
  else void

def name : Kind → String
  | void => "void"
  | int => "int"
  | long => "long"
  | ref => "ref"
  | reserved c _ => "kind(" ++ toString c.toNat ++ ")"

/-- The number of slot units a value takes: two for a long, none for nothing. -/
def units : Kind → Nat
  | void => 0
  | long => 2
  | _ => 1

instance : Inhabited Kind := ⟨void⟩

end Kind
end MicroBlock
