import Mathlib
import MicroBlock.Microcode.Cursor
import MicroBlock.Proofs.Prefixes
import MicroBlock.Proofs.Refinement

/-! What a block is drawn into.

The words of an instruction are read from left to right: the word of an op that takes an immediate is read
together with the next one, every other word alone. A cursor draws a block in this way from its first
instruction on, wherever it stood, and the stream it fills holds nothing else: its records are the readings,
its two arrays have one entry for every word, and each record stands at the place of its instruction. -/

namespace MicroBlock

/-! ### The grammar -/

/-- The word names an op that takes an immediate. -/
def Op.TakesNext (w : Int32) : Prop := ∃ op, Op.ofWord? w = some op ∧ op.hasImmediate = true

/-- A record with the words it was read from. -/
structure Reading where
  record : Record
  words : List Int32

/-- One word, or two where the op of the first takes an immediate. -/
inductive Reading.Valid : Reading → Prop
  | plain {r : Record} {w : Int32} (htakes : ¬Op.TakesNext w) (hop : r.op = Op.ofWord? w) (himm : r.immediate = none) :
    Valid ⟨r, [w]⟩
  | wide {r : Record} {w v : Int32} (htakes : Op.TakesNext w) (hop : r.op = Op.ofWord? w)
    (himm : r.immediate = some v) : Valid ⟨r, [w, v]⟩

/-- Reading the words comes to `op`, which takes an immediate, when no word is left. -/
inductive Op.EndsScan (op : Op) : List Int32 → Prop
  | last {w : Int32} (hop : Op.ofWord? w = some op) (himm : op.hasImmediate = true) : EndsScan op [w]
  | plain {w : Int32} {ws : List Int32} (htakes : ¬Op.TakesNext w) (hrest : EndsScan op ws) : EndsScan op (w :: ws)
  | wide {w v : Int32} {ws : List Int32} (htakes : Op.TakesNext w) (hrest : EndsScan op ws) :
    EndsScan op (w :: v :: ws)

/-- The readings of an instruction that begins `start` bytes and `index` instructions into its block. -/
structure Instruction.Reads (i : Instruction) (start : Int64) (index : Nat) (row : List Reading) : Prop where
  words : row.flatMap (·.words) = i.words
  valid : ∀ p ∈ row, p.Valid
  place : ∀ p ∈ row, p.record.index = index ∧ p.record.start = start ∧ p.record.position = start + i.length

/-- A stream that holds the readings of a block, one row for an instruction, and nothing else. -/
structure Stream.Holds (s : Stream) (b : Block) (rows : List (List Reading)) : Prop where
  reads : ∀ (k : Nat) (i : Instruction), b[k]? = some i →
    ∃ row, rows[k]? = some row ∧ i.Reads ((b.take k).map (·.length)).sum k row
  height : rows.length = b.length
  records : s.records = rows.flatten.map (·.record)
  microcodes : s.microcodes = b.flatMap (·.words)
  consumed : s.microcodes = rows.flatten.flatMap (·.words)
  positions : s.positions = rows.flatten.flatMap fun p => p.words.map fun _ => p.record.position.toInt32
  aligned : s.positions.length = s.microcodes.length
  length : s.length = (b.map (·.length)).sum
  count : s.count = b.length

/-- Words are none, a last one whose immediate is missing, one that is read alone, or two read together. -/
theorem Op.words_induction {P : List Int32 → Prop} (nil : P [])
    (last : ∀ w op, Op.ofWord? w = some op → op.hasImmediate = true → P [w])
    (plain : ∀ w ws, ¬TakesNext w → P ws → P (w :: ws))
    (wide : ∀ w v ws, TakesNext w → P ws → P (w :: v :: ws)) (ws : List Int32) : P ws := by
  induction ws using List.twoStepInduction with
  | nil => exact nil
  | singleton w =>
    by_cases h : TakesNext w
    · obtain ⟨op, hop, himm⟩ := h
      exact last w op hop himm
    · exact plain w [] h nil
  | cons_cons w v ws hws htail =>
    by_cases h : TakesNext w
    · exact wide w v ws h hws
    · exact plain w (v :: ws) h (htail v)

namespace Op.EndsScan
variable {op : Op} {w v : Int32} {ws : List Int32}

theorem not_nil : ¬op.EndsScan [] := by
  rintro ⟨⟩

theorem plain_iff (h : ¬TakesNext w) : op.EndsScan (w :: ws) ↔ op.EndsScan ws := by
  constructor
  · rintro (⟨hop, himm⟩ | ⟨-, hrest⟩ | ⟨htakes, -⟩)
    · exact absurd ⟨op, hop, himm⟩ h
    · exact hrest
    · exact absurd htakes h
  · exact .plain h

theorem wide_iff (h : TakesNext w) : op.EndsScan (w :: v :: ws) ↔ op.EndsScan ws := by
  constructor
  · rintro (_ | ⟨htakes, -⟩ | ⟨-, hrest⟩)
    · exact absurd h htakes
    · exact hrest
  · exact .wide h

theorem last_iff {op' : Op} (hop : Op.ofWord? w = some op') (himm : op'.hasImmediate = true) :
    op.EndsScan [w] ↔ op = op' := by
  constructor
  · rintro (⟨hop₂, -⟩ | ⟨htakes, -⟩)
    · exact Option.some.inj (hop₂.symm.trans hop)
    · exact absurd ⟨op', hop, himm⟩ htakes
  · rintro rfl
    exact .last hop himm

end Op.EndsScan

/-! ### One instruction -/

namespace Stream
variable {start position : Int64} {index : Nat} {w v : Int32} {ws : List Int32}

theorem recordsOf_plain (h : ¬Op.TakesNext w) :
    recordsOf start position index (w :: ws) =
      (recordsOf start position index ws).map (⟨Op.ofWord? w, none, position, start, index⟩ :: ·) := by
  cases hop : Op.ofWord? w with
  | none => cases hrest : recordsOf start position index ws <;> simp [recordsOf, hop, hrest, Except.map]
  | some op =>
    have himm : ¬op.hasImmediate = true := fun himm => h ⟨op, hop, himm⟩
    cases hrest : recordsOf start position index ws <;> simp [recordsOf, hop, himm, hrest, Except.map]

theorem recordsOf_wide (h : Op.TakesNext w) :
    recordsOf start position index (w :: v :: ws) =
      (recordsOf start position index ws).map (⟨Op.ofWord? w, some v, position, start, index⟩ :: ·) := by
  obtain ⟨op, hop, himm⟩ := h
  cases hrest : recordsOf start position index ws <;> simp [recordsOf, hop, himm, hrest, Except.map]

theorem recordsOf_last {op : Op} (hop : Op.ofWord? w = some op) (himm : op.hasImmediate = true) :
    recordsOf start position index [w] = .error (.truncatedImmediate op index) := by
  simp [recordsOf, hop, himm]

/-- Reading fails with the op on which it ends. -/
theorem recordsOf_eq_error {e : StreamError} :
    recordsOf start position index ws = .error e ↔ ∃ op, op.EndsScan ws ∧ e = .truncatedImmediate op index := by
  induction ws using Op.words_induction with
  | nil => simp [recordsOf, Op.EndsScan.not_nil]
  | last w op hop himm =>
    simp [recordsOf_last hop himm, Op.EndsScan.last_iff hop himm, eq_comm]
  | plain w ws h ih =>
    simp only [recordsOf_plain h, Op.EndsScan.plain_iff h, ← ih]
    cases recordsOf start position index ws <;> simp [Except.map]
  | wide w v ws h ih =>
    simp only [recordsOf_wide h, Op.EndsScan.wide_iff h, ← ih]
    cases recordsOf start position index ws <;> simp [Except.map]

/-- What reading makes of the words. -/
theorem exists_readings {rs : List Record} (h : recordsOf start position index ws = .ok rs) :
    ∃ row : List Reading, rs = row.map (·.record) ∧ row.flatMap (·.words) = ws ∧
      ∀ p ∈ row, p.Valid ∧ p.record.index = index ∧ p.record.start = start ∧ p.record.position = position := by
  induction ws using Op.words_induction generalizing rs with
  | nil =>
    cases h
    exact ⟨[], rfl, rfl, by simp⟩
  | last w op hop himm => rw [recordsOf_last hop himm] at h; cases h
  | plain w ws htakes ih =>
    rw [recordsOf_plain htakes] at h
    cases hrest : recordsOf start position index ws with
    | error e => rw [hrest] at h; cases h
    | ok rest =>
      rw [hrest] at h
      cases h
      obtain ⟨row, rfl, hwords, hrow⟩ := ih hrest
      refine ⟨⟨_, [w]⟩ :: row, rfl, by simp [hwords], List.forall_mem_cons.mpr ⟨?_, hrow⟩⟩
      exact ⟨.plain htakes rfl rfl, rfl, rfl, rfl⟩
  | wide w v ws htakes ih =>
    rw [recordsOf_wide htakes] at h
    cases hrest : recordsOf start position index ws with
    | error e => rw [hrest] at h; cases h
    | ok rest =>
      rw [hrest] at h
      cases h
      obtain ⟨row, rfl, hwords, hrow⟩ := ih hrest
      refine ⟨⟨_, [w, v]⟩ :: row, rfl, by simp [hwords], List.forall_mem_cons.mpr ⟨?_, hrow⟩⟩
      exact ⟨.wide htakes rfl rfl, rfl, rfl, rfl⟩

/-- The stream with the words and records of an instruction that ends where the stream does. -/
def fill (s : Stream) (ws : List Int32) (rs : List Record) : Stream :=
  { s with
    records := s.records ++ rs
    microcodes := s.microcodes ++ ws
    positions := s.positions ++ ws.map fun _ => s.length.toInt32 }

@[simp] theorem length_addWord (s : Stream) : (s.addWord w).length = s.length := rfl
@[simp] theorem count_addWord (s : Stream) : (s.addWord w).count = s.count := rfl
@[simp] theorem length_addRecord (s : Stream) (op : Option Op) (imm : Option Int32) :
    (s.addRecord start op imm).length = s.length := rfl
@[simp] theorem count_addRecord (s : Stream) (op : Option Op) (imm : Option Int32) :
    (s.addRecord start op imm).count = s.count := rfl

@[simp] theorem fill_nil (s : Stream) : s.fill [] [] = s := by
  simp [fill]

@[simp] theorem fill_addWord (s : Stream) (rs : List Record) : (s.addWord w).fill ws rs = s.fill (w :: ws) rs := by
  simp [fill, addWord]

@[simp] theorem fill_addRecord (s : Stream) (op : Option Op) (imm : Option Int32) (rs : List Record) :
    (s.addRecord start op imm).fill ws rs = s.fill ws (⟨op, imm, s.length, start, s.count⟩ :: rs) := by
  simp [fill, addRecord]

end Stream

namespace Cursor

/-- The words of the current instruction that were not drawn. -/
def left (c : Cursor) : List Int32 := (c.current?.elim [] (·.words)).drop c.word

theorem exists_next? {c : Cursor} {w : Int32} {ws : List Int32} (h : c.left = w :: ws) :
    ∃ c', c.next? = some (w, c') ∧ c'.left = ws := by
  unfold left at h
  cases hcur : c.current? with
  | none => simp [hcur] at h
  | some i =>
    simp only [hcur, Option.elim_some] at h
    have hword : i.words[c.word]? = some w := by
      rw [← List.head?_drop, h, List.head?_cons]
    refine ⟨{ c with word := c.word + 1 }, by simp [next?, hcur, hword], ?_⟩
    have hcur' : ({ c with word := c.word + 1 } : Cursor).current? = some i := hcur
    rw [left, hcur', Option.elim_some, ← List.drop_drop, h, List.drop_succ_cons, List.drop_zero]

/-- The words that are left are drawn into what they are read as. -/
theorem exists_drawWords? (start : Int64) {c : Cursor} {s : Stream} {ws : List Int32} (hleft : c.left = ws) :
    ∃ c', c.drawWords? start s ws.length =
      some ((Stream.recordsOf start s.length s.count ws).map (s.fill ws), c') := by
  induction ws using Op.words_induction generalizing c s with
  | nil => exact ⟨c, by simp [drawWords?, Stream.recordsOf, Except.map]⟩
  | last w op hop himm =>
    obtain ⟨c₁, hnext, -⟩ := exists_next? hleft
    exact ⟨c₁, by simp [drawWords?, hnext, hop, himm, Stream.recordsOf_last hop himm, Except.map, Stream.addWord]⟩
  | plain w ws htakes ih =>
    obtain ⟨c₁, hnext, hleft₁⟩ := exists_next? hleft
    obtain ⟨c₂, hrest⟩ := ih (s := (s.addWord w).addRecord start (Op.ofWord? w) none) hleft₁
    refine ⟨c₂, ?_⟩
    have hstep : c.drawWords? start s (w :: ws).length =
        c₁.drawWords? start ((s.addWord w).addRecord start (Op.ofWord? w) none) ws.length := by
      cases hop : Op.ofWord? w with
      | none => simp [drawWords?, hnext, hop]
      | some op =>
        have himm : ¬op.hasImmediate = true := fun himm => htakes ⟨op, hop, himm⟩
        simp [drawWords?, hnext, hop, himm]
    rw [hstep, hrest, Stream.recordsOf_plain htakes]
    cases hrecords : Stream.recordsOf start s.length s.count ws <;> simp [Except.map, hrecords]
  | wide w v ws htakes ih =>
    obtain ⟨c₁, hnext₁, hleft₁⟩ := exists_next? hleft
    obtain ⟨c₂, hnext₂, hleft₂⟩ := exists_next? hleft₁
    obtain ⟨c₃, hrest⟩ := ih (s := ((s.addWord w).addWord v).addRecord start (Op.ofWord? w) (some v)) hleft₂
    refine ⟨c₃, ?_⟩
    have hstep : c.drawWords? start s (w :: v :: ws).length =
        c₂.drawWords? start (((s.addWord w).addWord v).addRecord start (Op.ofWord? w) (some v)) ws.length := by
      obtain ⟨op, hop, himm⟩ := htakes
      simp [drawWords?, hnext₁, hnext₂, hop, himm]
    rw [hstep, hrest, Stream.recordsOf_wide htakes]
    cases hrecords : Stream.recordsOf start s.length s.count ws <;> simp [Except.map, hrecords]

end Cursor

/-! ### Whole blocks -/

namespace Stream

/-- The stream with the instructions of `b` and their records after it. -/
def extend (s : Stream) (b : Block) (rs : List Record) : Stream where
  records := s.records ++ rs
  microcodes := s.microcodes ++ b.flatMap (·.words)
  positions := s.positions ++ positionsFrom s.length b
  length := s.length + lengthOf b
  count := s.count + b.length

@[simp] theorem extend_nil (s : Stream) : s.extend [] [] = s := by
  have hlength : s.length + lengthOf [] = s.length := Int64.add_zero _
  simp [extend, positionsFrom, hlength]

/-- The stream after an instruction, which ends where the stream does. -/
def close (s : Stream) (i : Instruction) (rs : List Record) : Stream :=
  let s := { s with length := s.length + i.length }.fill i.words rs
  { s with count := s.count + 1 }

theorem extend_close (s : Stream) (i : Instruction) (first : List Record) (is : Block) (rest : List Record) :
    (s.close i first).extend is rest = s.extend (i :: is) (first ++ rest) := by
  have hcount : s.count + 1 + is.length = s.count + (is.length + 1) := by omega
  simp [extend, close, fill, positionsFrom, lengthOf_cons, Int64.add_assoc, hcount]

end Stream

namespace Cursor

theorem advance_of_drop_nil {c : Cursor} (h : c.block.drop c.passed = []) :
    c.advance = (false, { c with passed := c.block.length + 1 }) := by
  rw [advance, if_neg (Nat.not_lt.mpr (List.drop_eq_nil_iff.mp h))]

theorem advance_of_drop_cons {c : Cursor} {i : Instruction} {is : Block} (h : c.block.drop c.passed = i :: is) :
    ∃ c', c.advance = (true, c') ∧ c'.current? = some i ∧ c'.left = i.words ∧ c'.block.drop c'.passed = is := by
  have hlt : c.passed < c.block.length := by
    by_contra hge
    rw [List.drop_eq_nil_iff.mpr (Nat.not_lt.mp hge)] at h
    cases h
  have hcur : ({ c with passed := c.passed + 1, word := 0 } : Cursor).current? = some i := by
    simp only [current?, Nat.succ_ne_zero, if_false, Nat.add_sub_cancel]
    rw [← List.head?_drop, h, List.head?_cons]
  refine ⟨_, by rw [advance, if_pos hlt], hcur, by rw [left, hcur]; rfl, ?_⟩
  rw [← List.drop_drop, h, List.drop_succ_cons, List.drop_zero]

section Rest
variable {c c₁ c₂ : Cursor} {s : Stream} {i : Instruction}

theorem drawRest?_of_end (h : c.block.drop c.passed = []) : ∃ c', c.drawRest? s = some (.ok s, c') := by
  rw [drawRest?]
  split
  · exact ⟨_, rfl⟩
  next hmoved =>
  rw [advance_of_drop_nil h] at hmoved
  cases hmoved

theorem drawRest?_of_drawWords? {r : Except StreamError Stream} (hmoved : c.advance = (true, c₁))
    (hcur : c₁.current? = some i)
    (hdrawn : c₁.drawWords? s.length { s with length := s.length + i.length } i.words.length = some (r, c₂)) :
    (∀ e, r = .error e → c.drawRest? s = some (.error e, c₂)) ∧
    ∀ s', r = .ok s' → c.drawRest? s = c₂.drawRest? { s' with count := s'.count + 1 } := by
  rw [drawRest?]
  split
  · next hend => rw [hmoved] at hend; cases hend
  next c' hmoved' =>
  rw [hmoved] at hmoved'
  cases hmoved'
  have hlength : c₁.length? = some i.length := by rw [length?, hcur, Option.map_some]
  have hcount : c₁.wordCount? = some i.words.length := by rw [wordCount?, hcur, Option.map_some]
  simp only [hlength, hcount]
  split
  · next hnone => rw [hdrawn] at hnone; cases hnone
  · next herror => rw [hdrawn] at herror; cases herror; simp
  · next hok => rw [hdrawn] at hok; cases hok; simp

end Rest

/-- The instructions that are left are drawn into their records. -/
theorem exists_drawRest? {c : Cursor} {s : Stream} {b : Block} (hb : c.block.drop c.passed = b) :
    ∃ c', c.drawRest? s = some ((Stream.recordsFrom s.length s.count b).map (s.extend b), c') := by
  induction b generalizing c s with
  | nil => simpa [Stream.recordsFrom, Except.map] using drawRest?_of_end hb
  | cons i is ih =>
    obtain ⟨c₁, hmoved, hcur, hleft, hrest⟩ := advance_of_drop_cons hb
    obtain ⟨c₂, hdrawn⟩ := exists_drawWords? s.length (s := { s with length := s.length + i.length }) hleft
    obtain ⟨hblock, hpassed⟩ := drawWords?_keeps hdrawn
    simp only [Stream.recordsFrom]
    cases hfirst : Stream.recordsOf s.length (s.length + i.length) s.count i.words with
    | error e =>
      rw [hfirst] at hdrawn
      exact ⟨c₂, (drawRest?_of_drawWords? hmoved hcur hdrawn).1 e rfl⟩
    | ok first =>
      rw [hfirst] at hdrawn
      obtain ⟨c₃, hc₃⟩ := ih (c := c₂) (s := s.close i first) (by rw [hblock, hpassed, hrest])
      refine ⟨c₃, ((drawRest?_of_drawWords? hmoved hcur hdrawn).2 _ rfl).trans (hc₃.trans ?_)⟩
      have hlength : (s.close i first).length = s.length + i.length := rfl
      have hcount : (s.close i first).count = s.count + 1 := rfl
      rw [hlength, hcount]
      cases Stream.recordsFrom (s.length + i.length) (s.count + 1) is with
      | error e => rfl
      | ok rest => simp [Except.map, Stream.extend_close]

/-- A cursor draws its block, wherever it stands. -/
theorem exists_draw? (c : Cursor) : ∃ c', c.draw? = some (Stream.ofBlock c.block, c') := by
  obtain ⟨c', hc'⟩ := exists_drawRest? (c := c.reset) (s := .empty) (List.drop_zero (l := c.block))
  refine ⟨c', ?_⟩
  rw [draw?, hc', Stream.ofBlock]
  have hlength : Stream.empty.length = 0 := rfl
  have hcount : Stream.empty.count = 0 := rfl
  rw [hlength, hcount]
  cases Stream.recordsFrom 0 0 c.block with
  | error e => rfl
  | ok rs =>
    cases hblock : c.block with
    | nil => simp [Except.map, Stream.extend, Stream.empty]
    | cons i is => simp [Except.map, Stream.extend, Stream.empty, Int64.zero_add]

end Cursor

namespace Stream

/-! ### Where drawing breaks off -/

/-- Instruction `k` is the first one whose words end on an op without its immediate. -/
def Breaks (b : Block) (op : Op) (k : Nat) : Prop :=
  (∃ i, b[k]? = some i ∧ op.EndsScan i.words) ∧ ∀ i ∈ b.take k, ∀ op : Op, ¬op.EndsScan i.words

section Breaks
variable {i : Instruction} {b : Block} {op : Op} {k : Nat}

theorem breaks_zero : Breaks (i :: b) op 0 ↔ op.EndsScan i.words := by
  simp [Breaks]

theorem breaks_succ : Breaks (i :: b) op (k + 1) ↔ (∀ op : Op, ¬op.EndsScan i.words) ∧ Breaks b op k := by
  simp only [Breaks, List.getElem?_cons_succ, List.take_succ_cons, List.forall_mem_cons]
  tauto

theorem exists_breaks : (∃ op k, Breaks b op k) ↔ ∃ i ∈ b, ∃ op : Op, op.EndsScan i.words := by
  constructor
  · rintro ⟨op, k, ⟨i, hi, hends⟩, -⟩
    exact ⟨i, List.mem_of_getElem? hi, op, hends⟩
  · rintro ⟨i, hi, op, hends⟩
    induction b with
    | nil => cases hi
    | cons j b ih =>
      by_cases hj : ∃ op : Op, op.EndsScan j.words
      · obtain ⟨op, hends⟩ := hj
        exact ⟨op, 0, breaks_zero.mpr hends⟩
      · rcases List.mem_cons.mp hi with rfl | hi
        · exact absurd ⟨op, hends⟩ hj
        · obtain ⟨op, k, hbreaks⟩ := ih hi
          exact ⟨op, k + 1, breaks_succ.mpr ⟨not_exists.mp hj, hbreaks⟩⟩

theorem recordsFrom_eq_error {start : Int64} {index : Nat} {e : StreamError} :
    recordsFrom start index b = .error e ↔ ∃ op k, Breaks b op k ∧ e = .truncatedImmediate op (index + k) := by
  induction b generalizing start index with
  | nil => simp [recordsFrom, Breaks]
  | cons i b ih =>
    rw [recordsFrom]
    cases hfirst : recordsOf start (start + i.length) index i.words with
    | error e' =>
      obtain ⟨op, hends, rfl⟩ := recordsOf_eq_error.mp hfirst
      constructor
      · intro h
        cases h
        exact ⟨op, 0, breaks_zero.mpr hends, rfl⟩
      · rintro ⟨op', k, hbreaks, rfl⟩
        cases k with
        | zero =>
          have hop : recordsOf start (start + i.length) index i.words = .error (.truncatedImmediate op' index) :=
            recordsOf_eq_error.mpr ⟨op', breaks_zero.mp hbreaks, rfl⟩
          rw [hfirst] at hop
          simpa using hop
        | succ k => exact absurd hends ((breaks_succ.mp hbreaks).1 op)
    | ok first =>
      -- The first instruction is sound, so it is a later one that breaks.
      have hsound : ∀ op : Op, ¬op.EndsScan i.words := by
        intro op hends
        rw [recordsOf_eq_error.mpr ⟨op, hends, rfl⟩] at hfirst
        cases hfirst
      have hrest : recordsFrom (start + i.length) (index + 1) b = .error e ↔
          ∃ op k, Breaks (i :: b) op k ∧ e = .truncatedImmediate op (index + k) := by
        rw [ih]
        constructor
        · rintro ⟨op, k, hbreaks, rfl⟩
          exact ⟨op, k + 1, breaks_succ.mpr ⟨hsound, hbreaks⟩, by rw [Nat.add_right_comm, Nat.add_assoc]⟩
        · rintro ⟨op, k, hbreaks, rfl⟩
          cases k with
          | zero => exact absurd (breaks_zero.mp hbreaks) (hsound op)
          | succ k => exact ⟨op, k, (breaks_succ.mp hbreaks).2, by rw [Nat.add_right_comm, Nat.add_assoc]⟩
      rw [← hrest]
      cases recordsFrom (start + i.length) (index + 1) b <;> simp

theorem ofBlock_eq_truncated : ofBlock b = .error (.truncatedImmediate op k) ↔ Breaks b op k := by
  have herror : ofBlock b = .error (.truncatedImmediate op k) ↔
      recordsFrom 0 0 b = .error (.truncatedImmediate op k) := by
    rw [ofBlock]
    cases recordsFrom 0 0 b with
    | error e => simp
    | ok rs => by_cases hb : b.isEmpty <;> simp [hb]
  rw [herror, recordsFrom_eq_error]
  simp

theorem ofBlock_eq_empty : ofBlock b = .error .emptyBlock ↔ b = [] := by
  rw [ofBlock]
  cases hrecords : recordsFrom 0 0 b with
  | error e =>
    obtain ⟨op, k, ⟨⟨i, hi, -⟩, -⟩, rfl⟩ := recordsFrom_eq_error.mp hrecords
    have hb : b ≠ [] := List.ne_nil_of_mem (List.mem_of_getElem? hi)
    simp [hb]
  | ok rs => simp

end Breaks

/-! ### What a stream holds -/

theorem lengthOf_eq_sum (b : Block) : lengthOf b = (b.map (·.length)).sum := by
  induction b with
  | nil => rfl
  | cons i is ih => rw [lengthOf_cons, ih, List.map_cons, List.sum_cons]

theorem exists_reads {i : Instruction} {start : Int64} {index : Nat} {rs : List Record}
    (h : recordsOf start (start + i.length) index i.words = .ok rs) :
    ∃ row, rs = row.map Reading.record ∧ i.Reads start index row := by
  obtain ⟨row, hrs, hwords, hrow⟩ := exists_readings h
  exact ⟨row, hrs, hwords, fun p hp => (hrow p hp).1, fun p hp => (hrow p hp).2⟩

/-- Every word of an instruction has the same position. -/
theorem positions_of_reads {i : Instruction} {start : Int64} {index : Nat} {row : List Reading}
    (h : i.Reads start index row) :
    (row.flatMap fun p => p.words.map fun _ => p.record.position.toInt32) =
      i.words.map fun _ => (start + i.length).toInt32 := by
  rw [← h.words, List.map_flatMap]
  refine List.flatMap_congr fun p hp => ?_
  rw [(h.place p hp).2.2]

theorem exists_rows {start : Int64} {index : Nat} {b : Block} {rs : List Record}
    (h : recordsFrom start index b = .ok rs) :
    ∃ rows : List (List Reading), rows.length = b.length ∧ rs = rows.flatten.map (·.record) ∧
      b.flatMap (·.words) = rows.flatten.flatMap (·.words) ∧
      positionsFrom start b = (rows.flatten.flatMap fun p => p.words.map fun _ => p.record.position.toInt32) ∧
      ∀ (k : Nat) (i : Instruction), b[k]? = some i →
        ∃ row, rows[k]? = some row ∧ i.Reads (start + lengthOf (b.take k)) (index + k) row := by
  fun_induction recordsFrom start index b generalizing rs with
  | case1 =>
    cases h
    exact ⟨[], rfl, rfl, rfl, rfl, by simp⟩
  | case2 | case3 => cases h
  | case4 start index i b first hfirst rest hrest ih =>
    cases h
    obtain ⟨row, rfl, hrow⟩ := exists_reads hfirst
    obtain ⟨rows, hlength, rfl, hwords, hpositions, hreads⟩ := ih hrest
    refine ⟨row :: rows, by simp [hlength], by simp, by simp [hwords, hrow.words], ?_, fun k j hj => ?_⟩
    · rw [positionsFrom, hpositions, List.flatten_cons, List.flatMap_append, positions_of_reads hrow]
    · cases k with
      | zero =>
        have hstart : start + lengthOf [] = start := Int64.add_zero start
        cases hj
        exact ⟨row, rfl, by rwa [List.take_zero, hstart]⟩
      | succ k =>
        obtain ⟨row', hrow', hreads'⟩ := hreads k j hj
        refine ⟨row', hrow', ?_⟩
        rwa [List.take_succ_cons, lengthOf_cons, ← Int64.add_assoc, Nat.add_comm k 1, ← Nat.add_assoc]

theorem exists_holds {b : Block} {s : Stream} (h : ofBlock b = .ok s) : ∃ rows, s.Holds b rows := by
  obtain ⟨hrecords, -, hs⟩ := eq_of_ofBlock h
  obtain ⟨rows, hheight, hmap, hwords, hpositions, hreads⟩ := exists_rows hrecords
  refine ⟨rows, ?_, hheight, hmap, ?_, ?_, ?_, ?_, ?_, ?_⟩
  · intro k i hi
    simpa [lengthOf_eq_sum] using hreads k i hi
  all_goals rw [hs]
  · exact hwords
  · exact hpositions
  · simp only [hpositions, hwords, List.length_flatMap, List.length_map]
  · exact lengthOf_eq_sum b

end Stream

/-- A cursor, wherever it stands, draws its block to the end and reads it by the grammar. -/
theorem Cursor.draw_reads_grammar (c : Cursor) :
    ∃ r c', c.draw? = some (r, c') ∧ r = Stream.ofBlock c.block ∧
      (r = .error .emptyBlock ↔ c.block = []) ∧
      ((∃ op k, r = .error (.truncatedImmediate op k)) ↔ ∃ i ∈ c.block, ∃ op : Op, op.EndsScan i.words) ∧
      (∀ op k, r = .error (.truncatedImmediate op k) ↔ Stream.Breaks c.block op k) ∧
      ((∃ s rows, r = .ok s ∧ s.Holds c.block rows) ↔
        c.block ≠ [] ∧ ∀ i ∈ c.block, ∀ op : Op, ¬op.EndsScan i.words) := by
  obtain ⟨c', hc'⟩ := c.exists_draw?
  have htruncated : (∃ op k, Stream.ofBlock c.block = .error (.truncatedImmediate op k)) ↔
      ∃ i ∈ c.block, ∃ op : Op, op.EndsScan i.words := by
    simp only [Stream.ofBlock_eq_truncated, Stream.exists_breaks]
  refine ⟨_, c', hc', rfl, Stream.ofBlock_eq_empty, htruncated, fun _ _ => Stream.ofBlock_eq_truncated, ?_⟩
  constructor
  · rintro ⟨s, rows, hs, -⟩
    refine ⟨fun hempty => ?_, fun i hi op hends => ?_⟩
    · rw [Stream.ofBlock_eq_empty.mpr hempty] at hs
      cases hs
    · obtain ⟨op, k, herror⟩ := htruncated.mpr ⟨i, hi, op, hends⟩
      rw [herror] at hs
      cases hs
  · rintro ⟨hne, hsound⟩
    cases hr : Stream.ofBlock c.block with
    | error e =>
      cases e with
      | emptyBlock => exact absurd (Stream.ofBlock_eq_empty.mp hr) hne
      | truncatedImmediate op k =>
        obtain ⟨i, hi, op, hends⟩ := htruncated.mp ⟨op, k, hr⟩
        exact absurd hends (hsound i hi op)
    | ok s =>
      obtain ⟨rows, hrows⟩ := Stream.exists_holds hr
      exact ⟨s, rows, rfl, hrows⟩

end MicroBlock
