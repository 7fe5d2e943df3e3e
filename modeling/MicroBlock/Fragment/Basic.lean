import MicroBlock.Helper.Basic
import MicroBlock.Microcode.Op

/-! Fragments: how one op computes one element, as a short stack program over helper calls. -/

namespace MicroBlock

/-- A number a fragment pushes: fixed, or taken from the place where the fragment stands. -/
inductive Literal where
  | const (v : Int)
  /-- The immediate of the op. -/
  | immediate
  /-- The bytes from the point EIP was last brought up to, to the end of the instruction. A fragment
      that uses it moves EIP forward to there. -/
  | x86Length
  /-- The offset of the end of the instruction in the block. -/
  | x86Position
  deriving DecidableEq

inductive Step where
  /-- Pushes one of the inputs. -/
  | input (i : Int)
  | literal (l : Literal)
  | call (helper : String)
  | dup
  | pop
  /-- A step of no known kind does nothing, and no table takes it. -/
  | unknown (kind : UInt8)
  deriving DecidableEq

/-- The numbers that literals stand for at one record. -/
structure Place where
  immediate : Int32
  x86Length : Int64
  x86Position : Int64
  deriving DecidableEq

namespace Literal

def resolve (p : Place) : Literal → Int
  | const v => v
  | immediate => p.immediate.toInt
  | x86Length => p.x86Length.toInt
  | x86Position => p.x86Position.toInt

def describe : Literal → String
  | const v => "const " ++ toString v
  | immediate => "imm"
  | x86Length => "x86length"
  | x86Position => "x86position"

end Literal

namespace Step

/-- The step with a raw kind and nothing else to it. -/
def ofKind (kind : UInt8) : Step :=
  if kind = 0 then input 0
  else if kind = 1 then literal (.const 0)
  else if kind = 2 then call ""
  else if kind = 3 then dup
  else if kind = 4 then pop
  else unknown kind

def describe : Step → String
  | input i => "in " ++ toString i
  | literal l => l.describe
  | call helper => "call " ++ helper
  | dup => "dup"
  | pop => "pop"
  | unknown kind => "step(" ++ toString kind.toNat ++ ")"

/-- The number a step pushes at a place; steps that are no literals push none. -/
def resolve (p : Place) : Step → Int
  | literal l => l.resolve p
  | _ => 0

end Step

/-- What evaluating a fragment can do besides computing its value. Effects run exactly once and in
    program order; only a fault fragment may fault. -/
inductive EffectClass where
  | pure | effect | fault
  deriving DecidableEq

namespace EffectClass

def name : EffectClass → String
  | pure => "pure"
  | effect => "effect"
  | fault => "fault"

def ofName? (s : String) : Option EffectClass :=
  if s = "pure" then some pure
  else if s = "effect" then some effect
  else if s = "fault" then some fault
  else none

end EffectClass

/-- What a fragment's name says of it. -/
structure Signature where
  cls : EffectClass
  op : Op
  target : Element
  inputs : List Element
  deriving DecidableEq

structure Fragment extends Signature where
  name : String
  steps : List Step
  deriving DecidableEq

namespace Fragment

def hasEffect (f : Fragment) : Bool := f.cls != .pure

def canFault (f : Fragment) : Bool := f.cls == .fault

/-- Whether the fragment brings EIP up to the end of its instruction. -/
def foldsEip (f : Fragment) : Bool := f.steps.any (· == .literal .x86Length)

def describe (f : Fragment) : String :=
  f.name ++ ": " ++ String.intercalate "; " (f.steps.map Step.describe)

end Fragment
end MicroBlock
