import Mathlib
import MicroBlock.Proofs.Prefixes
import MicroBlock.Proofs.Refinement

/-! What the arrays of a stream tell of its block.

Positions are cut to 32 bits. As long as a block is shorter than 2^32 bytes they grow from one instruction to the
next, so that they tell the lengths of the instructions, and how many words each one has, if each has one at all. -/

namespace MicroBlock

namespace Block

/-- The length of a block in bytes, without a bound. -/
def size (b : Block) : Int := (b.map (·.length.toInt)).sum

/-- A block whose instructions have positive lengths, with fewer than `bytes` bytes and fewer words than a container
    can count. -/
structure Bounded (bytes : Int) (b : Block) : Prop where
  positive : ∀ i ∈ b, 0 < i.length.toInt
  size_lt : b.size < bytes
  words_lt : (b.flatMap (·.words)).length < 2 ^ 30

/-- Every instruction of a block has words. -/
def Worded (b : Block) : Prop := ∀ i ∈ b, i.words ≠ []

instance (bytes : Int) (b : Block) : Decidable (b.Bounded bytes) :=
  decidable_of_iff ((∀ i ∈ b, 0 < i.length.toInt) ∧ b.size < bytes ∧ (b.flatMap (·.words)).length < 2 ^ 30)
    ⟨fun ⟨h₁, h₂, h₃⟩ => ⟨h₁, h₂, h₃⟩, fun ⟨h₁, h₂, h₃⟩ => ⟨h₁, h₂, h₃⟩⟩

instance (b : Block) : Decidable b.Worded := inferInstanceAs (Decidable (∀ i ∈ b, i.words ≠ []))

theorem size_cons (i : Instruction) (b : Block) : size (i :: b) = i.length.toInt + size b := rfl

theorem length_le_size {b : Block} (h : ∀ i ∈ b, 0 < i.length.toInt) : (b.length : Int) ≤ b.size := by
  induction b with
  | nil => exact le_rfl
  | cons i b ih =>
    have hi := h i List.mem_cons_self
    have := ih fun j hj => h j (List.mem_cons_of_mem i hj)
    rw [size_cons, List.length_cons]
    omega

end Block

namespace Stream

theorem toInt_add {a b : Int64} (h : -2 ^ 63 ≤ a.toInt + b.toInt) (h' : a.toInt + b.toInt < 2 ^ 63) :
    (a + b).toInt = a.toInt + b.toInt := by
  rw [Int64.toInt_add, Int.bmod_eq_of_le (by omega) (by omega)]

theorem toInt_lengthOf {b : Block} (h : ∀ i ∈ b, 0 < i.length.toInt) (hsize : b.size < 2 ^ 63) :
    (lengthOf b).toInt = b.size := by
  induction b with
  | nil => rfl
  | cons i b ih =>
    have hb : ∀ j ∈ b, 0 < j.length.toInt := fun j hj => h j (List.mem_cons_of_mem i hj)
    have hi := h i List.mem_cons_self
    have hle := Block.length_le_size hb
    rw [Block.size_cons] at hsize ⊢
    have hrest := ih hb (by omega)
    rw [lengthOf_cons, toInt_add (by omega) (by omega), hrest]

/-- Two offsets below 2^32 that are equal when cut to 32 bits are equal. -/
theorem toInt32_inj {a b : Int64} (ha : 0 ≤ a.toInt) (ha' : a.toInt < 2 ^ 32) (hb : 0 ≤ b.toInt) (hb' : b.toInt < 2 ^ 32)
    (h : a.toInt32 = b.toInt32) : a = b := by
  have hmod := congrArg Int32.toInt h
  rw [Int64.toInt_toInt32, Int64.toInt_toInt32] at hmod
  apply Int64.toInt_inj.mp
  have := congrArg (· % (2 ^ 32 : Int)) hmod
  simp only [Int.bmod_def] at this
  omega

/-- The positions of a block are offsets past its start, cut to 32 bits. -/
theorem mem_positionsFrom {start : Int64} {b : Block} (hstart : 0 ≤ start.toInt) (hpos : ∀ i ∈ b, 0 < i.length.toInt)
    (hsize : start.toInt + b.size < 2 ^ 32) {p : Int32} (hp : p ∈ positionsFrom start b) :
    ∃ q : Int64, start.toInt < q.toInt ∧ q.toInt < 2 ^ 32 ∧ p = q.toInt32 := by
  induction b generalizing start with
  | nil => cases hp
  | cons i b ih =>
    have hb : ∀ j ∈ b, 0 < j.length.toInt := fun j hj => hpos j (List.mem_cons_of_mem i hj)
    have hi := hpos i List.mem_cons_self
    have hle := Block.length_le_size hb
    rw [Block.size_cons] at hsize
    have hnext : (start + i.length).toInt = start.toInt + i.length.toInt := toInt_add (by omega) (by omega)
    rcases List.mem_append.mp hp with hp | hp
    · obtain ⟨w, -, rfl⟩ := List.mem_map.mp hp
      exact ⟨start + i.length, by omega, by omega, rfl⟩
    · obtain ⟨q, hlt, hlt', rfl⟩ := ih (by omega) hb (by omega) hp
      exact ⟨q, by omega, hlt', rfl⟩

theorem toInt32_not_mem_positionsFrom {start : Int64} {b : Block} (hstart : 0 ≤ start.toInt)
    (hpos : ∀ i ∈ b, 0 < i.length.toInt) (hsize : start.toInt + b.size < 2 ^ 32) :
    start.toInt32 ∉ positionsFrom start b := by
  intro hmem
  have hle := Block.length_le_size hpos
  obtain ⟨q, hlt, hlt', heq⟩ := mem_positionsFrom hstart hpos hsize hmem
  have := toInt32_inj hstart (by omega) (by omega) hlt' heq
  rw [this] at hlt
  exact lt_irrefl _ hlt

/-- Two blocks that start with instructions of the same length have as many words in them. -/
theorem length_words_eq {p : Int64} {ws ws' : List Int32} {b b' : Block} (hp : 0 ≤ p.toInt)
    (hpos : ∀ i ∈ b, 0 < i.length.toInt) (hpos' : ∀ i ∈ b', 0 < i.length.toInt) (hsize : p.toInt + b.size < 2 ^ 32)
    (hsize' : p.toInt + b'.size < 2 ^ 32)
    (h : ws.map (fun _ => p.toInt32) ++ positionsFrom p b = ws'.map (fun _ => p.toInt32) ++ positionsFrom p b') :
    ws.length = ws'.length := by
  have hcount := congrArg (List.count p.toInt32) h
  simpa [List.map_const', List.count_eq_zero.mpr (toInt32_not_mem_positionsFrom hp hpos hsize),
    List.count_eq_zero.mpr (toInt32_not_mem_positionsFrom hp hpos' hsize')] using hcount

/-- The words and the positions of a block tell the block. -/
theorem block_unique {b b' : Block} (hw : b.Worded) (hw' : b'.Worded) (hpos : ∀ i ∈ b, 0 < i.length.toInt)
    (hpos' : ∀ i ∈ b', 0 < i.length.toInt) (start : Int64) (hstart : 0 ≤ start.toInt)
    (hsize : start.toInt + b.size < 2 ^ 32) (hsize' : start.toInt + b'.size < 2 ^ 32)
    (hwords : b.flatMap (·.words) = b'.flatMap (·.words)) (hpositions : positionsFrom start b = positionsFrom start b') :
    b = b' := by
  induction b generalizing b' start with
  | nil =>
    cases b' with
    | nil => rfl
    | cons i' b' => simp [hw' i' List.mem_cons_self] at hwords
  | cons i b ih =>
    cases b' with
    | nil => simp [hw i List.mem_cons_self] at hwords
    | cons i' b' =>
      have hb : ∀ j ∈ b, 0 < j.length.toInt := fun j hj => hpos j (List.mem_cons_of_mem i hj)
      have hb' : ∀ j ∈ b', 0 < j.length.toInt := fun j hj => hpos' j (List.mem_cons_of_mem i' hj)
      have hi := hpos i List.mem_cons_self
      have hi' := hpos' i' List.mem_cons_self
      have hle := Block.length_le_size hb
      have hle' := Block.length_le_size hb'
      rw [Block.size_cons] at hsize hsize'
      have hnext : (start + i.length).toInt = start.toInt + i.length.toInt := toInt_add (by omega) (by omega)
      have hnext' : (start + i'.length).toInt = start.toInt + i'.length.toInt := toInt_add (by omega) (by omega)
      simp only [positionsFrom] at hpositions
      -- The first position tells the length of the first instruction.
      have hlength : i.length = i'.length := by
        obtain ⟨w, ws, hws⟩ := List.exists_cons_of_ne_nil (hw i List.mem_cons_self)
        obtain ⟨w', ws', hws'⟩ := List.exists_cons_of_ne_nil (hw' i' List.mem_cons_self)
        rw [hws, hws'] at hpositions
        have hend := toInt32_inj (by omega) (by omega) (by omega) (by omega) (List.cons.inj hpositions).1
        apply Int64.toInt_inj.mp
        have := congrArg Int64.toInt hend
        omega
      rw [← hlength] at hpositions hnext' hsize'
      -- How often it comes tells the number of its words.
      have hcount := length_words_eq (by omega) hb hb' (by omega) (by omega) hpositions
      obtain ⟨hwords₁, hwords₂⟩ := List.append_inj hwords hcount
      obtain ⟨-, hpositions₂⟩ := List.append_inj hpositions (by simpa using hcount)
      have hrest := ih (fun j hj => hw j (List.mem_cons_of_mem i hj)) (fun j hj => hw' j (List.mem_cons_of_mem i' hj)) hb
        hb' _ (by omega) (by omega) (by omega) hwords₂ hpositions₂
      rw [hrest]
      obtain ⟨length, words⟩ := i
      obtain ⟨length', words'⟩ := i'
      cases hlength
      cases hwords₁
      rfl

/-- Two streams with the same arrays are the same, if their blocks have words in every instruction. -/
theorem eq_of_arrays {b b' : Block} {s s' : Stream} (hs : ofBlock b = .ok s) (hs' : ofBlock b' = .ok s') {bytes : Int}
    (hbytes : bytes ≤ 2 ^ 32) (hb : b.Bounded bytes) (hb' : b'.Bounded bytes) (hw : b.Worded) (hw' : b'.Worded)
    (hmicrocodes : s.microcodes = s'.microcodes) (hpositions : s.positions = s'.positions) : s = s' := by
  obtain ⟨-, -, heq⟩ := eq_of_ofBlock hs
  obtain ⟨-, -, heq'⟩ := eq_of_ofBlock hs'
  rw [heq, heq'] at hmicrocodes hpositions
  have hsize := hb.size_lt
  have hsize' := hb'.size_lt
  have hzero : (0 : Int64).toInt = 0 := rfl
  have hblock := block_unique hw hw' hb.positive hb'.positive 0 (by omega) (by omega) (by omega) hmicrocodes
    hpositions
  rw [hblock, hs'] at hs
  exact (Except.ok.inj hs).symm

end Stream
end MicroBlock
