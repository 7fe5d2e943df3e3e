import MicroBlock.Compile.Unit
import MicroBlock.Loader.Basic
import MicroBlock.Text.Label

/-! Why a block could not be compiled. Every compile error can be recovered from by interpreting the
block. -/

namespace MicroBlock

inductive CompileErrorKind where
  | emptyBlock
  | malformedBlock
  | unimplementedMicrocode
  | slotExhaustion
  | oversizeUnit
  | nameCollision
  | loadFailure
  /-- A number that stands for no kind. -/
  | other (code : Int)
  deriving DecidableEq

namespace CompileErrorKind

def code : CompileErrorKind → Int
  | emptyBlock => 1
  | malformedBlock => 2
  | unimplementedMicrocode => 3
  | slotExhaustion => 4
  | oversizeUnit => 5
  | nameCollision => 6
  | loadFailure => 7
  | other c => c

def ofCode (c : Int) : CompileErrorKind :=
  if c = 1 then emptyBlock
  else if c = 2 then malformedBlock
  else if c = 3 then unimplementedMicrocode
  else if c = 4 then slotExhaustion
  else if c = 5 then oversizeUnit
  else if c = 6 then nameCollision
  else if c = 7 then loadFailure
  else other c

def name : CompileErrorKind → String
  | emptyBlock => "empty block"
  | malformedBlock => "malformed block"
  | unimplementedMicrocode => "unimplemented microcode"
  | slotExhaustion => "slot exhaustion"
  | oversizeUnit => "oversize unit"
  | nameCollision => "name collision"
  | loadFailure => "load failure"
  | other c => "kind(" ++ toString c ++ ")"

end CompileErrorKind

/-- What a compile error goes back to. -/
inductive CompileCause where
  | stream (e : StreamError)
  | unimplemented (e : Unimplemented)
  | slots (e : Slots.Exhausted)
  | unit (e : Target.UnitError)
  | encode (e : Module.EncodeError)
  | load (e : LoadError)
  /-- Any other cause, in a caller's words. -/
  | other (text : String)
  deriving DecidableEq

def CompileCause.message : CompileCause → Message
  | stream e => e.message
  | unimplemented e => .plain e.message
  | slots e => e.message
  | unit e => e.message
  | encode e => e.message
  | load e => e.message
  | other text => .ofCaller text

structure CompileError where
  kind : CompileErrorKind
  /-- The name of the block. -/
  block : String
  detail : String := ""
  cause : Option CompileCause := none
  deriving DecidableEq

/-- Block, kind, detail and cause, as far as they are there. -/
def CompileError.message (e : CompileError) : String :=
  Text.labelled e.block e.kind.name ++ (if e.detail = "" then "" else ": " ++ e.detail) ++
    (match e.cause with
      | some c => ": " ++ c.message.line
      | none => "")

/-- The words for an error under a caller's label. -/
def CompileError.messageUnder (label : String) (e : CompileError) : String :=
  Text.labelled (Clause.text [.label label]) e.message

/-- How a call of the compiler can fail. -/
inductive CompileFailure where
  | error (e : CompileError)
  /-- The block is so long that its length has no operand. -/
  | unwritable (e : EmitError)
  /-- There is no target, or an accessor of the unit breaks down. -/
  | crash
  deriving DecidableEq

end MicroBlock
