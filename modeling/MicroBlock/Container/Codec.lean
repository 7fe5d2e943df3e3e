import MicroBlock.Container.Module

/-! Containers as bytes: magic, name, slot kinds, constants, links and methods, in this order. Counts
and small integers are operands, int constants big-endian words, and texts end in NUL. -/

namespace MicroBlock.Module

/-! ### Writing -/

inductive EncodeError where
  /-- A text of the given role holds a NUL. -/
  | nul (role : String) (s : ByteString)
  | badKind (index : Nat) (kind : UInt8)
  | oversize (method : ByteString) (size : Nat)
  deriving DecidableEq

def EncodeError.message : EncodeError → Message
  | nul role s => .ofClause [role, " ", .given (Text.quotedBytes s), " contains NUL"]
  | badKind index kind => .plain ("constant " ++ toString index ++ ": bad kind " ++ toString kind.toNat)
  | oversize name size => Ground.oversize.under [.given name, " is ", toString size, " bytes"]

def encodeText (role : String) (s : ByteString) : Except EncodeError Bytes :=
  if s.bytes.contains 0 then .error (.nul role s) else .ok (Write.string s.bytes)

def encodeConstant (index : Nat) (c : Constant) : Except EncodeError Bytes :=
  match c with
  | .int v => .ok (c.kindCode :: Write.word v.toUInt32)
  | .long v =>
    .ok (c.kindCode :: (Write.word (v.toUInt64 >>> 32).toUInt32 ++ Write.word v.toUInt64.toUInt32))
  | .text s => (encodeText "string constant" s).map (c.kindCode :: ·)
  | .ints a => .ok (c.kindCode :: (Write.count a.length ++ a.flatMap fun v => Write.word v.toUInt32))
  | .unknown kind => .error (.badKind index kind)

def encodeGuard (g : Guard) : Bytes :=
  Operand.encode g.first ++ Operand.encode g.last ++ Operand.encode g.target

def encodeMethod (m : Method) : Except EncodeError Bytes := do
  let name ← encodeText "method name" m.name
  if maxMethodBytes < m.code.length then throw (.oversize m.name m.code.length)
  return name ++ Write.count m.code.length ++ m.code ++ Write.count m.guards.length ++
    m.guards.flatMap encodeGuard

/-- The items after their count. -/
def encodeList {α : Type} (f : α → Except EncodeError Bytes) (l : List α) : Except EncodeError Bytes := do
  let items ← l.mapM f
  return Write.count l.length ++ items.flatten

/-- The bytes of a module, or the first thing in it that has no form. -/
def encode (m : Module) : Except EncodeError Bytes := do
  let name ← encodeText "module name" m.name
  let constants ← encodeList (fun c => encodeConstant c.2 c.1) m.constants.zipIdx
  let links ← encodeList (encodeText "helper name") m.links
  let methods ← encodeList encodeMethod m.methods
  return Operand.encode m.magic ++ name ++ Write.count m.slots.length ++ m.slots.map Kind.code ++
    constants ++ links ++ methods

/-! ### Reading -/

inductive ConstantError where
  | read (e : ReadError)
  | badKind (kind : UInt8)
  deriving DecidableEq

def ConstantError.message : ConstantError → String
  | read e => e.message
  | badKind kind => "bad kind " ++ toString kind.toNat

inductive MethodError where
  | name (e : ReadError)
  | codeSize (name : ByteString) (e : ReadError)
  | code (name : ByteString) (e : ReadError)
  | guardCount (name : ByteString) (e : ReadError)
  | guard (name : ByteString) (index : Nat) (e : ReadError)
  deriving DecidableEq

def MethodError.message : MethodError → Message
  | name e => (Message.plain e.message).under ["name"]
  | codeSize n e => (Message.plain e.message).under [.given n, ": code size"]
  | code n e => (Message.plain e.message).under [.given n, ": code"]
  | guardCount n e => (Message.plain e.message).under [.given n, ": handler count"]
  | guard n index e => (Message.plain e.message).under [.given n, ": handler ", toString index]

inductive DecodeError where
  | magic (e : ReadError)
  | badMagic (v : Int32)
  | name (e : ReadError)
  | slotCount (e : ReadError)
  | slot (index : Nat) (e : ReadError)
  | constantCount (e : ReadError)
  | constant (index : Nat) (e : ConstantError)
  | linkCount (e : ReadError)
  | link (index : Nat) (e : ReadError)
  | methodCount (e : ReadError)
  | method (index : Nat) (e : MethodError)
  | trailing (n : Nat)
  deriving DecidableEq

def DecodeError.message : DecodeError → Message
  | magic e => (Message.plain e.message).under ["magic"]
  | badMagic v => .plain ("bad magic: " ++ toString v.toInt)
  | name e => (Message.plain e.message).under ["module name"]
  | slotCount e => (Message.plain e.message).under ["slot count"]
  | slot index e => (Message.plain e.message).under ["slot ", toString index]
  | constantCount e => (Message.plain e.message).under ["constant count"]
  | constant index e => (Message.plain e.message).under ["constant ", toString index]
  | linkCount e => (Message.plain e.message).under ["helper count"]
  | link index e => (Message.plain e.message).under ["helper ", toString index]
  | methodCount e => (Message.plain e.message).under ["method count"]
  | method index e => e.message.under ["method ", toString index]
  | trailing n => .plain (toString n ++ " trailing bytes")

/-- A reader takes what it needs from the front. -/
abbrev Reader (ε α : Type) := Bytes → Except ε (α × Bytes)

/-- Renames the errors of a reader. -/
def onError {ε ε' α : Type} (f : ε → ε') (r : Reader ε α) : Reader ε' α := fun bs =>
  match r bs with
  | .error e => .error (f e)
  | .ok x => .ok x

/-- Reads `n` items; `done` holds the items before, last first, and an error is told with the number
    of its item. -/
def readMany {ε ε' α : Type} (item : Reader ε α) (f : Nat → ε → ε') :
    Nat → List α → Reader ε' (List α)
  | 0, done, bs => .ok (done.reverse, bs)
  | n + 1, done, bs =>
    match item bs with
    | .error e => .error (f done.length e)
    | .ok (a, rest) => readMany item f n (a :: done) rest

/-- Reads a count and that many items. -/
def readList {ε ε' α : Type} (onCount : ReadError → ε') (onItem : Nat → ε → ε') (item : Reader ε α) :
    Reader ε' (List α) := fun bs =>
  match Read.countWithin bs with
  | .error e => .error (onCount e)
  | .ok (n, rest) => readMany item onItem n [] rest

def readText : Reader ReadError ByteString := fun bs =>
  (Read.string bs).map fun (s, rest) => (⟨s⟩, rest)

def readKind : Reader ReadError Kind := fun bs =>
  (Read.byte bs).map fun (b, rest) => (Kind.ofCode b, rest)

def readInt : Reader ReadError Int32 := fun bs =>
  (Read.word bs).map fun (w, rest) => (w.toInt32, rest)

def readLong : Reader ReadError Int64 := fun bs => do
  let (hi, rest) ← Read.word bs
  let (lo, rest) ← Read.word rest
  return (((hi.toUInt64 <<< 32) ||| lo.toUInt64).toInt64, rest)

def readInts : Reader ReadError (List Int32) := fun bs => do
  let (n, rest) ← Read.count (bs.length / 4) bs
  readMany readInt (fun _ e => e) n [] rest

def readConstant : Reader ConstantError Constant := fun bs =>
  match Read.byte bs with
  | .error e => .error (.read e)
  | .ok (kind, rest) =>
    let lift {α : Type} (make : α → Constant) (r : Reader ReadError α) :
        Except ConstantError (Constant × Bytes) :=
      match r rest with
      | .error e => .error (.read e)
      | .ok (a, rest) => .ok (make a, rest)
    if kind = 1 then lift .int readInt
    else if kind = 2 then lift .long readLong
    else if kind = 3 then lift .text readText
    else if kind = 4 then lift .ints readInts
    else .error (.badKind kind)

def readGuard : Reader ReadError Guard := fun bs => do
  let (first, rest) ← Operand.decode bs
  let (last, rest) ← Operand.decode rest
  let (target, rest) ← Operand.decode rest
  return (⟨first, last, target⟩, rest)

def readMethod : Reader MethodError Method := fun bs => do
  let (name, bs) ← onError .name readText bs
  let (size, bs) ← onError (.codeSize name) (Read.count maxMethodBytes) bs
  let (code, bs) ← onError (.code name) (Read.take size) bs
  let (guards, bs) ← readList (.guardCount name) (.guard name) readGuard bs
  return (⟨name, code, guards⟩, bs)

/-- Reads a module that takes up all of the bytes. -/
def decode (bs : Bytes) : Except DecodeError Module := do
  let (magic, bs) ← onError .magic Operand.decode bs
  if magic ≠ standardMagic then throw (.badMagic magic)
  let (name, bs) ← onError .name readText bs
  let (slots, bs) ← readList .slotCount .slot readKind bs
  let (constants, bs) ← readList .constantCount .constant readConstant bs
  let (links, bs) ← readList .linkCount .link readText bs
  let (methods, bs) ← readList .methodCount .method readMethod bs
  if bs.isEmpty then return { name, magic, slots, constants, links, methods }
  throw (.trailing bs.length)

end MicroBlock.Module
