import MicroBlock.Archive.Shards
import MicroBlock.Digest.Blake2b
import MicroBlock.Loader.Basic
import MicroBlock.Sorting

/-! The archive: keeps the containers of units, so that a later session can load them without compiling.
Every unit is spread over shards and survives the loss or corruption of two of them. -/

namespace MicroBlock

/-- What a unit is kept under. -/
inductive ArchiveKey where
  | header (name : String)
  | shard (name : String) (index : Nat)
  deriving DecidableEq

namespace ArchiveKey

/-- The key of every header lies from here on ... -/
def firstHeader : Bytes := [0x6d, 0x2f]

/-- ... and below this. -/
def headersEnd : Bytes := [0x6d, 0x30]

def firstShard : Bytes := [0x75, 0x2f]

def nameBytes (name : String) : Bytes := (ByteString.ofString name).bytes

/-- The key as it stands in the archive: what the record is, the name, and the index of a shard. -/
def bytes : ArchiveKey → Bytes
  | header name => firstHeader ++ nameBytes name
  | shard name index => firstShard ++ nameBytes name ++ [0x2f, UInt8.ofNat index]

/-- The name in the key of a header. -/
def nameOf (key : Bytes) : String :=
  let name := key.drop firstHeader.length
  (String.fromUTF8? ⟨name.toArray⟩).getD (ByteString.display ⟨name⟩)

end ArchiveKey

structure Archive where
  /-- Sixteen bytes that identify this opening of the archive. -/
  session : Bytes
  records : List (Bytes × Bytes) := []

namespace Archive

/-- What is recorded of a unit. -/
structure Header where
  session : Bytes
  size : Nat
  sum : Bytes
  shardSums : List Bytes
  deriving DecidableEq

namespace Header

/-- Session, size, digest of the data, digest of every shard. -/
def encodedSize : Nat := 16 + 4 + 32 + Shards.total * 32

def encode (m : Header) : Bytes :=
  m.session ++ Write.wordLowFirst (UInt32.ofNat m.size) ++ m.sum ++ m.shardSums.flatten

def decode? (b : Bytes) : Option Header :=
  if b.length ≠ encodedSize then none
  else some
    { session := b.take 16
      size := ((b.drop 16).take 4).foldr (fun x n => n * 256 + x.toNat) 0
      sum := (b.drop 20).take 32
      shardSums := (List.range Shards.total).map fun i => (b.drop (52 + 32 * i)).take 32 }

end Header

/-- Why an archived unit cannot be recovered. -/
inductive Damage where
  | metadata (size : Nat)
  | lost (shards : Nat)
  | shards (e : Shards.Error)
  | checksum
  deriving DecidableEq

def Damage.message : Damage → String
  | metadata size => "metadata is " ++ toString size ++ " bytes"
  | lost n => toString n ++ " shards lost"
  | shards e => e.message
  | checksum => "checksum mismatch"

inductive Error where
  | badName (name : String)
  | emptyUnit (name : String)
  | notArchived (name : String)
  | damaged (name : String) (d : Damage)
  | load (name : String) (e : LoadError)
  deriving DecidableEq

def Error.message : Error → Message
  | badName name => .ofClause ["archive: bad unit name ", .given (Text.quoted name)]
  | emptyUnit name => .ofClause ["archive ", .given name, ": empty unit"]
  | notArchived name => Ground.notArchived.under [.given name]
  | damaged name d => Ground.damaged.under [.given name, ": ", d.message]
  | load name e => e.message.under ["restore ", .given name]

/-- An archive with nothing in it. -/
def empty (session : Bytes) : Archive := { session }

/-- The same archive opened in another session. -/
def reopen (a : Archive) (session : Bytes) : Archive := { a with session }

def get? (a : Archive) (k : ArchiveKey) : Option Bytes := a.records.lookup k.bytes

def erase (a : Archive) (k : ArchiveKey) : Archive :=
  { a with records := a.records.filter (·.1 != k.bytes) }

def put (a : Archive) (k : ArchiveKey) (v : Bytes) : Archive :=
  { a with records := (k.bytes, v) :: (a.erase k).records }

/-- The records with keys in a range, in key order. -/
def scan (a : Archive) (low high : Bytes) : List (Bytes × Bytes) :=
  sortBy (fun x y => decide (x.1 ≤ y.1)) (a.records.filter fun r => low ≤ r.1 && r.1 < high)

/-- Writes bytes over part of a record, which keeps its size. -/
def patch (a : Archive) (k : ArchiveKey) (at_ : Nat) (data : Bytes) : Archive :=
  let old := (a.get? k).getD []
  a.put k ((old.take at_ ++ data ++ old.drop (at_ + data.length)).take old.length)

/-- Stores a unit and replaces an earlier one of its name. -/
def store (a : Archive) (name : String) (data : Bytes) : Except Error Archive :=
  if name = "" || name.toList.contains (Char.ofNat 0) then .error (.badName name)
  else if data.isEmpty then .error (.emptyUnit name)
  else
    let shards := Shards.split data
    let m : Header :=
      { session := a.session, size := data.length, sum := Digest.blake2b256 data
        shardSums := shards.map Digest.blake2b256 }
    let a := shards.zipIdx.foldl (fun a s => a.put (.shard name s.2) s.1) a
    .ok (a.put (.header name) m.encode)

/-- Stores a unit that a compiler loaded. -/
def accept (name : String) (data : Bytes) (a : Archive) : Except Message Archive :=
  (a.store name data).mapError (·.message)

def readHeader (name : String) (b : Bytes) : Except Error Header :=
  match Header.decode? b with
  | some m => .ok m
  | none => .error (.damaged name (.metadata b.length))

/-- The shards that are as they were stored; the others are empty, and their number is told. -/
def intact (a : Archive) (name : String) (sums : List Bytes) : Nat × List Bytes :=
  let shards := sums.zipIdx.map fun s =>
    (a.get? (.shard name s.2)).filter (Digest.blake2b256 · = s.1)
  ((shards.filter Option.isNone).length, shards.map (·.getD []))

/-- The unit archived under a name. Missing and corrupt shards are rebuilt from the others. -/
def read (a : Archive) (name : String) : Except Error Bytes := do
  let some b := a.get? (.header name) | throw (.notArchived name)
  let m ← readHeader name b
  let (lost, shards) := a.intact name m.shardSums
  if Shards.parityShards < lost then throw (.damaged name (.lost lost))
  let shards ←
    match if lost = 0 then .ok shards else Shards.reconstruct shards with
    | .error e => throw (.damaged name (.shards e))
    | .ok shards => pure shards
  match Shards.join shards m.size with
  | .error e => throw (.damaged name (.shards e))
  | .ok data =>
    if Digest.blake2b256 data = m.sum then return data else throw (.damaged name .checksum)

/-- What is told of an archived unit. -/
structure Entry where
  name : String
  session : Bytes
  size : Nat
  sum : Bytes
  deriving DecidableEq

/-- The records of units, in name order. -/
def headers (a : Archive) : List (String × Bytes) :=
  (a.scan ArchiveKey.firstHeader ArchiveKey.headersEnd).map fun r => (ArchiveKey.nameOf r.1, r.2)

def entry (name : String) (b : Bytes) : Except Error Entry := do
  let m ← readHeader name b
  return { name, session := m.session, size := m.size, sum := m.sum }

/-- The archived units in name order, or the first whose record cannot be read. -/
def entries (a : Archive) : Except Error (List Entry) :=
  a.headers.mapM fun r => entry r.1 r.2

def names (a : Archive) : Except Error (List String) := do
  let es ← a.entries
  return es.map (·.name)

/-- Loads the units of the given names that the loader does not hold. Stops at the first that cannot be
    read or loaded. -/
def restoreFrom (a : Archive) : List String → Nat → Loader → Except Error Unit × Nat × Loader
  | [], n, l => (.ok (), n, l)
  | name :: rest, n, l =>
    if (l.find? name).isSome then restoreFrom a rest n l
    else match a.read name with
      | .error e => (.error e, n, l)
      | .ok data =>
        match l.load name data with
        | (.error e, l) => (.error (.load name e), n, l)
        | (.ok _, l) => restoreFrom a rest (n + 1) l

/-- Loads every archived unit, and tells how many were loaded. -/
def restore (a : Archive) (l : Loader) : Except Error Unit × Nat × Loader :=
  match a.names with
  | .error e => (.error e, 0, l)
  | .ok names => a.restoreFrom names 0 l

/-- The bytes of a session in groups of hexadecimal digits. -/
def sessionText (s : Bytes) : String :=
  String.intercalate "-" ([(0, 4), (4, 2), (6, 2), (8, 2), (10, 6)].map fun (at_, n) =>
    Text.hexBytes ((s.drop at_).take n))

end Archive
end MicroBlock
