import MicroBlock.Bytecode.Instr
import MicroBlock.Message
import MicroBlock.Text.Quoted

/-! The container that compiled blocks are stored in: slot kinds, a constant pool, a table of helper
links, and named methods whose code carries fault handlers. -/

namespace MicroBlock

/-- A constant of the pool. A constant of no known kind can be held but not written out. -/
inductive Constant where
  | int (v : Int32)
  | long (v : Int64)
  | text (s : ByteString)
  | ints (a : List Int32)
  | unknown (kind : UInt8)
  deriving DecidableEq

namespace Constant

/-- The empty constant of a raw kind. -/
def ofKind (kind : UInt8) : Constant :=
  if kind = 1 then int 0
  else if kind = 2 then long 0
  else if kind = 3 then text ⟨[]⟩
  else if kind = 4 then ints []
  else unknown kind

def kindCode : Constant → UInt8
  | int _ => 1
  | long _ => 2
  | text _ => 3
  | ints _ => 4
  | unknown kind => kind

def kindName : Constant → String
  | int _ => "int"
  | long _ => "long"
  | text _ => "string"
  | ints _ => "int[]"
  | unknown kind => "const(" ++ toString kind.toNat ++ ")"

def describe : Constant → String
  | int v => "int " ++ toString v.toInt
  | long v => "long " ++ toString v.toInt
  | text s => "string " ++ Text.quotedBytes s
  | ints a => "int[" ++ toString a.length ++ "]"
  | c@(unknown _) => c.kindName

/-- Whether two constants share one entry of the pool: equal constants do, and all constants of
    unknown kind. -/
def shares : Constant → Constant → Bool
  | unknown _, unknown _ => true
  | a, b => a == b

end Constant

/-- Guards the code offsets from `first` up to but not including `last`; a fault raised there goes on
    at `target`. -/
structure Guard where
  first : Int32
  last : Int32
  target : Int32
  deriving DecidableEq

structure Method where
  name : ByteString
  code : Bytes := []
  guards : List Guard := []
  deriving DecidableEq

/-- Whether the body was never set. -/
def Method.isPlaceholder (m : Method) : Bool := m.code.isEmpty

structure Module where
  name : ByteString
  magic : Int32
  /-- The kind of every slot unit of the execute method. -/
  slots : List Kind
  constants : List Constant
  /-- The helpers that call operands refer to. -/
  links : List ByteString
  methods : List Method
  deriving DecidableEq

namespace Module

/-- The number every container starts with. -/
def standardMagic : Int32 := 0x0bc0de

/-- The largest method body. -/
def maxMethodBytes : Nat := 65535

def countMethod : String := "x86InstructionCount"
def lengthMethod : String := "x86ByteLength"
def microcodesMethod : String := "microcodes"
def positionsMethod : String := "positions"
def executeMethod : String := "execute"

/-- The methods of a block. -/
def blockMethods : List String :=
  [countMethod, lengthMethod, microcodesMethod, positionsMethod, executeMethod]

/-- A module with placeholders for the given methods, or for those of a block if none are given. -/
def skeleton (name : String) (methods : List String) : Module where
  name := name
  magic := standardMagic
  slots := []
  constants := []
  links := []
  methods := (if methods.isEmpty then blockMethods else methods).map fun n => { name := ByteString.ofString n }

inductive BodyError where
  | unknownMethod (name : String)
  | oversize (name : String) (size : Nat)
  deriving DecidableEq

def BodyError.ground : BodyError → Ground
  | unknownMethod _ => .unknownMethod
  | oversize _ _ => .oversize

def BodyError.message (e : BodyError) : Message :=
  match e with
  | unknownMethod name => e.ground.under [.given name]
  | oversize name size => e.ground.under [.given name, " is ", toString size, " bytes"]

/-- The last place in a list whose entry satisfies a test. -/
def lastIndex? {α : Type} (p : α → Bool) (l : List α) : Option Nat :=
  (l.foldl (fun (i, found) a => (i + 1, if p a then some i else found)) (0, none)).2

/-- Adds a constant unless its entry is already there, and returns the place of the entry. -/
def intern (m : Module) (c : Constant) : Nat × Module :=
  match lastIndex? (·.shares c) m.constants with
  | some i => (i, m)
  | none => (m.constants.length, { m with constants := m.constants ++ [c] })

/-- Adds a helper link unless it is already there, and returns its place. -/
def link (m : Module) (helper : String) : Nat × Module :=
  match lastIndex? (· == ByteString.ofString helper) m.links with
  | some i => (i, m)
  | none => (m.links.length, { m with links := m.links ++ [ByteString.ofString helper] })

/-- The first method of a name. -/
def method? (m : Module) (name : String) : Option Method :=
  m.methods.find? (·.name == ByteString.ofString name)

/-- Changes the first method of a name. -/
def updateMethod (name : ByteString) (f : Method → Method) : List Method → List Method
  | [] => []
  | m :: ms => if m.name = name then f m :: ms else m :: updateMethod name f ms

/-- Sets the body of a method without a check of its size. -/
def setCode (m : Module) (name : String) (code : Bytes) : Module :=
  { m with methods := updateMethod name (fun me => { me with code }) m.methods }

/-- Sets the body and the guards of an existing method. -/
def setBody (m : Module) (name : String) (code : Bytes) (guards : List Guard) :
    Except BodyError Module :=
  if (m.method? name).isNone then .error (.unknownMethod name)
  else if maxMethodBytes < code.length then .error (.oversize name code.length)
  else .ok { m with methods := updateMethod name (fun me => { me with code, guards }) m.methods }

end Module
end MicroBlock
