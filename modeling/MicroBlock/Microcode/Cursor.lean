import MicroBlock.Microcode.Stream

/-! A cursor that draws a block instruction by instruction and word by word, and the drawing of a whole
block into a stream. -/

namespace MicroBlock

/-- Where drawing stands. Before the first advance and after the last there is no current
    instruction. -/
structure Cursor where
  block : Block
  /-- The instructions passed, the current one included; one more than there are at the end. -/
  passed : Nat := 0
  word : Nat := 0

namespace Cursor

def ofBlock (b : Block) : Cursor := { block := b }

def reset (c : Cursor) : Cursor := { c with passed := 0, word := 0 }

/-- Moves to the next instruction and tells whether there is one. -/
def advance (c : Cursor) : Bool × Cursor :=
  if c.passed < c.block.length then (true, { c with passed := c.passed + 1, word := 0 })
  else (false, { c with passed := c.block.length + 1 })

def current? (c : Cursor) : Option Instruction :=
  if c.passed = 0 then none else c.block[c.passed - 1]?

def wordCount? (c : Cursor) : Option Nat := c.current?.map (·.words.length)

def length? (c : Cursor) : Option Int64 := c.current?.map (·.length)

/-- Draws the next word of the current instruction. -/
def next? (c : Cursor) : Option (Int32 × Cursor) :=
  match c.current? with
  | none => none
  | some i => (i.words[c.word]?).map fun w => (w, { c with word := c.word + 1 })

end Cursor

namespace Stream

/-- Nothing drawn yet. -/
def empty : Stream := ⟨[], [], [], 0, 0⟩

/-- One more word of the instruction that ends where the stream does. -/
def addWord (s : Stream) (w : Int32) : Stream :=
  { s with microcodes := s.microcodes ++ [w], positions := s.positions ++ [s.length.toInt32] }

/-- One more record of that instruction, which began at `start`. -/
def addRecord (s : Stream) (start : Int64) (op : Option Op) (immediate : Option Int32) : Stream :=
  { s with records := s.records ++ [⟨op, immediate, s.length, start, s.count⟩] }

end Stream

namespace Cursor

/-- Draws `n` more words of the current instruction, which began at `start`, into a stream. There is no
    result if the instruction has fewer. -/
def drawWords? (start : Int64) (c : Cursor) (s : Stream) : Nat → Option (Except StreamError Stream × Cursor)
  | 0 => some (.ok s, c)
  | n + 1 =>
    match c.next? with
    | none => none
    | some (w, c) =>
      let s := s.addWord w
      match Op.ofWord? w with
      | none => drawWords? start c (s.addRecord start none none) n
      | some op =>
        if op.hasImmediate then
          match n with
          | 0 => some (.error (.truncatedImmediate op s.count), c)
          | n + 1 =>
            match c.next? with
            | none => none
            | some (v, c) => drawWords? start c ((s.addWord v).addRecord start (some op) (some v)) n
        else drawWords? start c (s.addRecord start (some op) none) n

theorem next?_keeps {c c' : Cursor} {w : Int32} (h : c.next? = some (w, c')) :
    c'.block = c.block ∧ c'.passed = c.passed := by
  unfold next? at h
  split at h
  · cases h
  · simp only [Option.map_eq_some_iff, Prod.mk.injEq] at h
    obtain ⟨_, -, -, rfl⟩ := h
    exact ⟨rfl, rfl⟩

/-- Drawing words stays in the instruction. -/
theorem drawWords?_keeps {start : Int64} {c c' : Cursor} {s : Stream} {n : Nat} {r : Except StreamError Stream}
    (h : c.drawWords? start s n = some (r, c')) : c'.block = c.block ∧ c'.passed = c.passed := by
  fun_induction drawWords? start c s n with
  | case1 => cases h; exact ⟨rfl, rfl⟩
  | case2 | case5 => cases h
  | case3 c s n w c₁ hnext _ _ ih | case7 c s n w c₁ hnext _ _ _ _ ih =>
    obtain ⟨hblock, hpassed⟩ := next?_keeps hnext
    exact ⟨(ih h).1.trans hblock, (ih h).2.trans hpassed⟩
  | case4 c s w c₁ hnext =>
    cases h
    exact next?_keeps hnext
  | case6 c s w c₁ hnext _ _ _ _ _ v c₂ hnext₂ ih =>
    obtain ⟨hblock, hpassed⟩ := next?_keeps hnext
    obtain ⟨hblock₂, hpassed₂⟩ := next?_keeps hnext₂
    exact ⟨(ih h).1.trans (hblock₂.trans hblock), (ih h).2.trans (hpassed₂.trans hpassed)⟩

/-- Draws the instructions that are left into a stream. -/
def drawRest? (c : Cursor) (s : Stream) : Option (Except StreamError Stream × Cursor) :=
  match _hmoved : c.advance with
  | (false, c) => some (.ok s, c)
  | (true, c) =>
    match c.length?, c.wordCount? with
    | some length, some n =>
      match _hdrawn : c.drawWords? s.length { s with length := s.length + length } n with
      | none => none
      | some (.error e, c) => some (.error e, c)
      | some (.ok s, c) => drawRest? c { s with count := s.count + 1 }
    | _, _ => none
termination_by c.block.length - c.passed
decreasing_by
  obtain ⟨hblock, hpassed⟩ := drawWords?_keeps _hdrawn
  unfold advance at _hmoved
  split at _hmoved
  · cases _hmoved
    simp only [hblock, hpassed]
    omega
  · cases _hmoved

/-- Draws a block to its end from the beginning, wherever the cursor stands. -/
def draw? (c : Cursor) : Option (Except StreamError Stream × Cursor) :=
  match c.reset.drawRest? .empty with
  | some (.ok s, c) => some (if s.count = 0 then .error .emptyBlock else .ok s, c)
  | r => r

end Cursor
end MicroBlock
