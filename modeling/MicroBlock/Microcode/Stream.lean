import MicroBlock.Message
import MicroBlock.Microcode.Op

/-! Blocks of decoded instructions, and the stream of op records that a block is drawn into. -/

namespace MicroBlock

/-- One decoded x86 instruction: its encoded length and its microcode words. -/
structure Instruction where
  length : Int64
  words : List Int32
  deriving DecidableEq

abbrev Block := List Instruction

/-- One op with its immediate and the place of the instruction that owns it. Offsets count bytes from
    the start of the block. -/
structure Record where
  op : Option Op
  immediate : Option Int32
  /-- The offset just past the owning instruction. -/
  position : Int64
  /-- The offset at which the owning instruction begins. -/
  start : Int64
  /-- The number of instructions before the owning one. -/
  index : Nat
  deriving DecidableEq

/-- A block drawn to its end. -/
structure Stream where
  records : List Record
  /-- Every word in order. -/
  microcodes : List Int32
  /-- For every word the offset just past its instruction, cut to 32 bits. -/
  positions : List Int32
  length : Int64
  count : Nat
  deriving DecidableEq

inductive StreamError where
  | emptyBlock
  /-- An op that takes an immediate is the last word of its instruction. -/
  | truncatedImmediate (op : Op) (index : Nat)
  deriving DecidableEq

def StreamError.ground : StreamError → Ground
  | emptyBlock => .emptyBlock
  | truncatedImmediate _ _ => .truncatedImmediate

def StreamError.message (e : StreamError) : Message :=
  match e with
  | emptyBlock => e.ground.message
  | truncatedImmediate op index => e.ground.under [op.name, " in instruction ", toString index]

namespace Stream

/-- Splits the words of one instruction into records: a word that names an op with an immediate takes
    the next word along. -/
def recordsOf (start position : Int64) (index : Nat) : List Int32 → Except StreamError (List Record)
  | [] => .ok []
  | w :: ws =>
    match Op.ofWord? w with
    | some op =>
      if op.hasImmediate then
        match ws with
        | [] => .error (.truncatedImmediate op index)
        | v :: ws =>
          match recordsOf start position index ws with
          | .error e => .error e
          | .ok rs => .ok (⟨some op, some v, position, start, index⟩ :: rs)
      else
        match recordsOf start position index ws with
        | .error e => .error e
        | .ok rs => .ok (⟨some op, none, position, start, index⟩ :: rs)
    | none =>
      match recordsOf start position index ws with
      | .error e => .error e
      | .ok rs => .ok (⟨none, none, position, start, index⟩ :: rs)

/-- The records of the instructions from offset `start` on; `index` instructions came before. -/
def recordsFrom (start : Int64) (index : Nat) : Block → Except StreamError (List Record)
  | [] => .ok []
  | i :: is =>
    match recordsOf start (start + i.length) index i.words with
    | .error e => .error e
    | .ok rs =>
      match recordsFrom (start + i.length) (index + 1) is with
      | .error e => .error e
      | .ok rest => .ok (rs ++ rest)

/-- The positions of all words from offset `start` on. -/
def positionsFrom (start : Int64) : Block → List Int32
  | [] => []
  | i :: is => i.words.map (fun _ => (start + i.length).toInt32) ++ positionsFrom (start + i.length) is

def lengthOf (b : Block) : Int64 := b.foldl (fun n i => n + i.length) 0

/-- Draws a block to its end. -/
def ofBlock (b : Block) : Except StreamError Stream :=
  match recordsFrom 0 0 b with
  | .error e => .error e
  | .ok records =>
    if b.isEmpty then .error .emptyBlock
    else .ok
      { records
        microcodes := b.flatMap (·.words)
        positions := positionsFrom 0 b
        length := lengthOf b
        count := b.length }

end Stream
end MicroBlock
