import MicroBlock.Archive.Field
import MicroBlock.Bytecode.Operand

/-! Data spread over six shards, any four of which hold all of it.

The bytes at one offset of the shards are the values of a polynomial of degree three at the points 0 to
5. The first four shards are the data itself. -/

namespace MicroBlock.Shards

def dataShards : Nat := 4

def parityShards : Nat := 2

def total : Nat := dataShards + parityShards

inductive Error where
  | noData
  | sizes
  | tooFew
  | missing
  | short
  deriving DecidableEq

def Error.message : Error → String
  | noData => "no shard data"
  | sizes => "shard sizes do not match"
  | tooFew => "too few shards given"
  | missing => "reconstruction required as one or more required data shards are nil"
  | short => "not enough data to fill the number of requested shards"

/-- Adds a multiple of a shard to a sum of shards. -/
def addMultiple (sum : Bytes) (w : UInt8) (shard : Bytes) : Bytes :=
  List.zipWith (fun s b => s ^^^ Field256.mul w b) sum shard

/-- The shard at a point from four shards at other points, all of one size. -/
def interpolate (size : Nat) (known : List (UInt8 × Bytes)) (x : UInt8) : Bytes :=
  let ws := Field256.weights (known.map (·.1)) x
  (ws.zip known).foldl (fun sum wk => addMultiple sum wk.1 wk.2.2) (List.replicate size 0)

/-- The number of bytes in a shard of some data. -/
def shardSize (data : Bytes) : Nat := (data.length + dataShards - 1) / dataShards

/-- The data in four pieces of one size, with zeros after its end. -/
def pieces (data : Bytes) : List Bytes :=
  let size := shardSize data
  let padded := data ++ List.replicate (size * dataShards - data.length) 0
  (List.range dataShards).map fun i => (padded.drop (i * size)).take size

/-- The shards with the points they stand at. -/
def atPoints (shards : List Bytes) : List (UInt8 × Bytes) :=
  shards.zipIdx.map fun s => (UInt8.ofNat s.2, s.1)

/-- The six shards of some data. -/
def split (data : Bytes) : List Bytes :=
  let ps := pieces data
  ps ++ [4, 5].map (interpolate (shardSize data) (atPoints ps))

/-- Fills in missing data shards; an empty shard is a missing one. -/
def reconstruct (shards : List Bytes) : Except Error (List Bytes) :=
  let present := (atPoints shards).filter (!·.2.isEmpty)
  match present with
  | [] => .error .noData
  | (_, first) :: _ =>
    let size := first.length
    if present.any (·.2.length != size) then .error .sizes
    else if (shards.take dataShards).all (!·.isEmpty) then .ok shards
    else if present.length < dataShards then .error .tooFew
    else
      let known := present.take dataShards
      .ok ((atPoints shards).map fun s =>
        if s.2.isEmpty && s.1.toNat < dataShards then interpolate size known s.1 else s.2)

/-- The bytes that data shards hold together, taken from as many shards as `size` needs. -/
def gather (size : Nat) : List Bytes → Nat → Except Error Nat
  | [], have_ => .ok have_
  | s :: rest, have_ =>
    if s.isEmpty then .error .missing
    else if size ≤ have_ + s.length then .ok (have_ + s.length)
    else gather size rest (have_ + s.length)

/-- The first `size` bytes of the data. -/
def join (shards : List Bytes) (size : Nat) : Except Error Bytes :=
  let data := shards.take dataShards
  match gather size data 0 with
  | .error e => .error e
  | .ok n => if n < size then .error .short else .ok (data.flatten.take size)

end MicroBlock.Shards
