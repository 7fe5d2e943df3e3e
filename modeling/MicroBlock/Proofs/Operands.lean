import Mathlib
import MicroBlock.Bytecode.Instr
import MicroBlock.Proofs.Runs

/-! Reading back what was written: operands and code.

An operand keeps the low 30 bits of its number, so a number that fits comes back as it was. Code whose
operands fit comes back as the instructions that were written, each at its offset. -/

namespace MicroBlock

namespace Operand

/-- The number that the low 30 bits of a number make, the top one of them being the sign. -/
def wrap (v : Int32) : Int32 := .ofInt (v.toInt.bmod (2 ^ 30))

theorem toInt_wrap (v : Int32) : (wrap v).toInt = v.toInt.bmod (2 ^ 30) := by
  have h₁ := Int.le_bmod (x := v.toInt) (m := 2 ^ 30) (by decide)
  have h₂ := Int.bmod_lt (x := v.toInt) (m := 2 ^ 30) (by decide)
  exact Int32.toInt_ofInt_of_le (by omega) (by omega)

theorem wrap_of_le {v : Int32} (h : -2 ^ 29 ≤ v.toInt) (h' : v.toInt < 2 ^ 29) : wrap v = v := by
  apply Int32.toInt_inj.mp
  rw [toInt_wrap, Int.bmod_eq_of_le (by omega) (by omega)]

theorem fits_iff {v : Int} : fits v = true ↔ -2 ^ 29 ≤ v ∧ v < 2 ^ 29 := by
  simp only [fits, Bool.and_eq_true, decide_eq_true_iff]
  show -0x20000000 ≤ v ∧ v ≤ 0x1fffffff ↔ _
  omega

theorem wrap_of_fits {v : Int32} (h : fits v.toInt = true) : wrap v = v :=
  wrap_of_le (fits_iff.mp h).1 (fits_iff.mp h).2

theorem wrap_eq_iff {v : Int32} : wrap v = v ↔ fits v.toInt = true := by
  refine ⟨fun h => ?_, wrap_of_fits⟩
  have hv := toInt_wrap v
  rw [h] at hv
  have h₁ := Int.le_bmod (x := v.toInt) (m := 2 ^ 30) (by decide)
  have h₂ := Int.bmod_lt (x := v.toInt) (m := 2 ^ 30) (by decide)
  rw [fits_iff]
  omega

/-! ### Bits -/

/-- Filling a word up with one of its bits. -/
theorem toInt_extend {u w : UInt32} {k : Nat} (hk : k < 32)
    (h : w.toBitVec = (u.toBitVec.setWidth (k + 1)).signExtend 32) :
    w.toInt32.toInt = u.toInt32.toInt.bmod (2 ^ (k + 1)) := by
  have hdvd : 2 ^ (k + 1) ∣ 2 ^ 32 := pow_dvd_pow 2 (by omega)
  show w.toBitVec.toInt = u.toBitVec.toInt.bmod (2 ^ (k + 1))
  rw [h, BitVec.toInt_signExtend_of_le (by omega), BitVec.toInt_setWidth, BitVec.toInt_eq_toNat_bmod,
    Int.bmod_bmod_of_dvd hdvd]

/-- A word with only the low `k` bits of `u` is its own sign extension if the last of these is clear, and needs the
    other bits set if it is not. -/
theorem signExtend_of_low {w u : BitVec 32} {k : Nat} (hpos : 0 < k)
    (hlow : ∀ i < 32, w.getLsbD i = (decide (i < k) && u.getLsbD i)) {high : BitVec 32}
    (hhigh : ∀ i < 32, high.getLsbD i = !decide (i < k)) :
    (u.getLsbD (k - 1) = false → w = (u.setWidth k).signExtend 32) ∧
      (u.getLsbD (k - 1) = true → w ||| high = (u.setWidth k).signExtend 32) := by
  have hbit : ∀ i < 32, ((u.setWidth k).signExtend 32).getLsbD i = u.getLsbD (if i < k then i else k - 1) := by
    intro i hi
    rw [BitVec.getLsbD_signExtend, BitVec.msb_eq_getLsbD_last, BitVec.getLsbD_setWidth, BitVec.getLsbD_setWidth]
    by_cases h : i < k <;> simp [h, hi, hpos]
  refine ⟨fun hsign => BitVec.eq_of_getLsbD_eq fun i hi => ?_, fun hsign => BitVec.eq_of_getLsbD_eq fun i hi => ?_⟩
  · rw [hbit i hi, hlow i hi]
    by_cases h : i < k <;> simp only [h, hsign, decide_true, decide_false, Bool.true_and, Bool.false_and, if_true, if_false]
  · rw [hbit i hi, BitVec.getLsbD_or, hlow i hi, hhigh i hi]
    by_cases h : i < k <;> simp [h, hsign]

/-- A byte moved up by `n` bits. -/
theorem getLsbD_place (b : UInt8) {s : UInt32} {n : Nat} (hs : (s.toBitVec % 32).toNat = n) {i : Nat} (hi : i < 32) :
    (b.toUInt32 <<< s).toBitVec.getLsbD i = (decide (n ≤ i) && b.toBitVec.getLsbD (i - n)) := by
  rw [UInt32.toBitVec_shiftLeft, BitVec.shiftLeft_eq', hs, BitVec.getLsbD_shiftLeft, UInt8.toBitVec_toUInt32,
    BitVec.getLsbD_setWidth]
  by_cases h : n ≤ i
  · simp [h, hi, Nat.not_lt.mpr h, show i - n < 32 by omega]
  · simp [h, Nat.not_le.mp h]

/-- The byte that begins at bit `n` of a word. -/
theorem getLsbD_byteAt (u : UInt32) {s : UInt32} {n : Nat} (hs : (s.toBitVec % 32).toNat = n) (j : Nat) :
    (u >>> s).toUInt8.toBitVec.getLsbD j = (decide (j < 8) && u.toBitVec.getLsbD (n + j)) := by
  rw [UInt32.toBitVec_toUInt8, BitVec.getLsbD_setWidth, UInt32.toBitVec_shiftRight, BitVec.ushiftRight_eq', hs,
    BitVec.getLsbD_ushiftRight]

theorem getLsbD_lowByte (u : UInt32) (i : Nat) :
    u.toUInt8.toUInt32.toBitVec.getLsbD i = (decide (i < 8) && u.toBitVec.getLsbD i) := by
  rw [UInt8.toBitVec_toUInt32, UInt32.toBitVec_toUInt8, BitVec.getLsbD_setWidth, BitVec.getLsbD_setWidth]
  by_cases h : i < 8
  · simp [h, show i < 32 by omega]
  · simp [h]

theorem getLsbD_low7 (u : UInt32) {i : Nat} (hi : i < 32) :
    (u.toUInt8 &&& 0x7f).toUInt32.toBitVec.getLsbD i = (decide (i < 7) && u.toBitVec.getLsbD i) := by
  have hmask : ∀ i < 32, (0x7f : UInt8).toBitVec.getLsbD i = decide (i < 7) := by decide
  rw [UInt8.toBitVec_toUInt32, BitVec.getLsbD_setWidth, UInt8.toBitVec_and, BitVec.getLsbD_and, hmask i hi,
    UInt32.toBitVec_toUInt8, BitVec.getLsbD_setWidth]
  by_cases h : i < 7
  · simp [h, hi, show i < 8 by omega]
  · simp [h]

theorem getLsbD_low14 (u : UInt32) {i : Nat} (hi : i < 32) :
    ((((u >>> 8).toUInt8 &&& 0x3f ||| 0x80) &&& 0x3f).toUInt32 <<< 8 ||| u.toUInt8.toUInt32).toBitVec.getLsbD i =
      (decide (i < 14) && u.toBitVec.getLsbD i) := by
  have hmask : ∀ j < 32, (0x3f : UInt8).toBitVec.getLsbD j = decide (j < 6) := by decide
  have hmark : ∀ j < 32, (0x80 : UInt8).toBitVec.getLsbD j = decide (j = 7) := by decide
  have hj : i - 8 < 32 := by omega
  rw [UInt32.toBitVec_or, BitVec.getLsbD_or, getLsbD_lowByte, getLsbD_place _ rfl hi, UInt8.toBitVec_and, UInt8.toBitVec_or,
    UInt8.toBitVec_and, BitVec.getLsbD_and, BitVec.getLsbD_or, BitVec.getLsbD_and, getLsbD_byteAt u rfl]
  simp only [show (BitVec.toNat ((8 : UInt32).toBitVec % 32)) = 8 from rfl, hmask _ hj, hmark _ hj]
  rcases Nat.lt_or_ge i 8 with h | h
  · simp [h, show i < 14 by omega]
  · have hback : 8 + (i - 8) = i := by omega
    by_cases h' : i < 14
    · simp [hback, h', h, Nat.not_lt.mpr h, show i - 8 < 8 by omega, show i - 8 < 6 by omega, show i - 8 ≠ 7 by omega]
    · simp [h', Nat.not_lt.mpr h, show ¬i - 8 < 6 by omega]
theorem getLsbD_low30 (u : UInt32) {i : Nat} (hi : i < 32) :
    ((((u >>> 24).toUInt8 ||| 0xc0) &&& 0x3f).toUInt32 <<< 24 ||| (u >>> 16).toUInt8.toUInt32 <<< 16 |||
      (u >>> 8).toUInt8.toUInt32 <<< 8 ||| u.toUInt8.toUInt32).toBitVec.getLsbD i =
      (decide (i < 30) && u.toBitVec.getLsbD i) := by
  have hmask : ∀ j < 32, (0x3f : UInt8).toBitVec.getLsbD j = decide (j < 6) := by decide
  have hmark : ∀ j < 32, (0xc0 : UInt8).toBitVec.getLsbD j = (decide (6 ≤ j) && decide (j < 8)) := by decide
  have hj : i - 24 < 32 := by omega
  have h8 : ((8 : UInt32).toBitVec % 32).toNat = 8 := rfl
  have h16 : ((16 : UInt32).toBitVec % 32).toNat = 16 := rfl
  have h24 : ((24 : UInt32).toBitVec % 32).toNat = 24 := rfl
  simp only [UInt32.toBitVec_or, BitVec.getLsbD_or, getLsbD_lowByte, getLsbD_place _ h8 hi, getLsbD_place _ h16 hi,
    getLsbD_place _ h24 hi, UInt8.toBitVec_and, UInt8.toBitVec_or, BitVec.getLsbD_and, getLsbD_byteAt u h8,
    getLsbD_byteAt u h16, getLsbD_byteAt u h24, hmask _ hj, hmark _ hj]
  -- Each bit comes from the one byte that it lies in.
  rcases Nat.lt_or_ge i 8 with h | h
  · simp [h, show ¬8 ≤ i by omega, show ¬16 ≤ i by omega, show ¬24 ≤ i by omega, show i < 30 by omega]
  rcases Nat.lt_or_ge i 16 with h' | h'
  · simp [h, show ¬16 ≤ i by omega, show ¬24 ≤ i by omega, show i < 30 by omega, show ¬i < 8 by omega,
      show i - 8 < 8 by omega, show 8 + (i - 8) = i by omega]
  rcases Nat.lt_or_ge i 24 with h'' | h''
  · simp [h', show ¬24 ≤ i by omega, show i < 30 by omega, show ¬i < 8 by omega, show ¬i - 8 < 8 by omega,
      show i - 16 < 8 by omega, show 16 + (i - 16) = i by omega]
  · by_cases hlast : i < 30
    · simp [h'', hlast, show ¬i < 8 by omega, show ¬i - 8 < 8 by omega, show ¬i - 16 < 8 by omega,
        show i - 24 < 8 by omega, show i - 24 < 6 by omega, show ¬6 ≤ i - 24 by omega, show 24 + (i - 24) = i by omega]
    · simp [hlast, show ¬i < 8 by omega, show ¬i - 8 < 8 by omega, show ¬i - 16 < 8 by omega,
        show ¬i - 24 < 6 by omega]

theorem extend_low7 (u : UInt32) :
    ((u.toUInt8 &&& 0x7f) &&& 0xc0 = 0 ∧
      (u.toUInt8 &&& 0x7f).toUInt32.toBitVec = (u.toBitVec.setWidth 7).signExtend 32) ∨
    ((u.toUInt8 &&& 0x7f) &&& 0xc0 = 0x40 ∧
      ((u.toUInt8 &&& 0x7f).toUInt32 ||| 0xffffff80).toBitVec = (u.toBitVec.setWidth 7).signExtend 32) := by
  have hhigh : ∀ i < 32, (0xffffff80 : UInt32).toBitVec.getLsbD i = !decide (i < 7) := by decide
  obtain ⟨hclear, hset⟩ := signExtend_of_low (by decide) (fun i hi => getLsbD_low7 u hi) hhigh
  cases hs : u.toBitVec.getLsbD 6 with
  | false =>
    refine .inl ⟨UInt8.toBitVec_inj.mp ?_, hclear hs⟩
    clear hhigh hclear hset
    ext i hi
    interval_cases i <;> simp_all
  | true =>
    refine .inr ⟨UInt8.toBitVec_inj.mp ?_, hset hs⟩
    clear hhigh hclear hset
    ext i hi
    interval_cases i <;> simp_all

theorem extend_low14 (u : UInt32) :
    (((u >>> 8).toUInt8 &&& 0x3f ||| 0x80) &&& 0x20 = 0 ∧
      ((((u >>> 8).toUInt8 &&& 0x3f ||| 0x80) &&& 0x3f).toUInt32 <<< 8 ||| u.toUInt8.toUInt32).toBitVec =
        (u.toBitVec.setWidth 14).signExtend 32) ∨
    (((u >>> 8).toUInt8 &&& 0x3f ||| 0x80) &&& 0x20 ≠ 0 ∧
      ((((u >>> 8).toUInt8 &&& 0x3f ||| 0x80) &&& 0x3f).toUInt32 <<< 8 ||| u.toUInt8.toUInt32 ||| 0xffffc000).toBitVec =
        (u.toBitVec.setWidth 14).signExtend 32) := by
  have hhigh : ∀ i < 32, (0xffffc000 : UInt32).toBitVec.getLsbD i = !decide (i < 14) := by decide
  obtain ⟨hclear, hset⟩ := signExtend_of_low (by decide) (fun i hi => getLsbD_low14 u hi) hhigh
  cases hs : u.toBitVec.getLsbD 13 with
  | false =>
    refine .inl ⟨UInt8.toBitVec_inj.mp ?_, hclear hs⟩
    clear hhigh hclear hset
    ext i hi
    interval_cases i <;> simp_all
  | true =>
    refine .inr ⟨fun h => ?_, hset hs⟩
    have hbit := congrArg (fun b : UInt8 => b.toBitVec.getLsbD 5) h
    simp [show u.toBitVec[13] = true from hs] at hbit

theorem extend_low30 (u : UInt32) :
    (((u >>> 24).toUInt8 ||| 0xc0) &&& 0x20 = 0 ∧
      ((((u >>> 24).toUInt8 ||| 0xc0) &&& 0x3f).toUInt32 <<< 24 ||| (u >>> 16).toUInt8.toUInt32 <<< 16 |||
        (u >>> 8).toUInt8.toUInt32 <<< 8 ||| u.toUInt8.toUInt32).toBitVec = (u.toBitVec.setWidth 30).signExtend 32) ∨
    (((u >>> 24).toUInt8 ||| 0xc0) &&& 0x20 ≠ 0 ∧
      ((((u >>> 24).toUInt8 ||| 0xc0) &&& 0x3f).toUInt32 <<< 24 ||| (u >>> 16).toUInt8.toUInt32 <<< 16 |||
        (u >>> 8).toUInt8.toUInt32 <<< 8 ||| u.toUInt8.toUInt32 ||| 0xc0000000).toBitVec =
          (u.toBitVec.setWidth 30).signExtend 32) := by
  have hhigh : ∀ i < 32, (0xc0000000 : UInt32).toBitVec.getLsbD i = !decide (i < 30) := by decide
  obtain ⟨hclear, hset⟩ := signExtend_of_low (by decide) (fun i hi => getLsbD_low30 u hi) hhigh
  cases hs : u.toBitVec.getLsbD 29 with
  | false =>
    refine .inl ⟨UInt8.toBitVec_inj.mp ?_, hclear hs⟩
    clear hhigh hclear hset
    ext i hi
    interval_cases i <;> simp_all
  | true =>
    refine .inr ⟨fun h => ?_, hset hs⟩
    have hbit := congrArg (fun b : UInt8 => b.toBitVec.getLsbD 5) h
    simp [show u.toBitVec[29] = true from hs] at hbit

/-- What the first byte of a form tells. -/
theorem first_byte (b : UInt8) :
    b &&& 0x7f < 0x80 ∧ ¬ (b &&& 0x3f ||| 0x80 < 0x80) ∧ b &&& 0x3f ||| 0x80 < 0xc0 ∧
      (b &&& 0x3f ||| 0x80) &&& 0xc0 = 0x80 ∧ ¬ (b ||| 0xc0 < 0x80) ∧ ¬ (b ||| 0xc0 < 0xc0) ∧
      (b ||| 0xc0) &&& 0xc0 = 0xc0 := by
  have key : ∀ b : BitVec 8, UInt8.ofBitVec b &&& 0x7f < 0x80 ∧ ¬ (UInt8.ofBitVec b &&& 0x3f ||| 0x80 < 0x80) ∧
      UInt8.ofBitVec b &&& 0x3f ||| 0x80 < 0xc0 ∧ (UInt8.ofBitVec b &&& 0x3f ||| 0x80) &&& 0xc0 = 0x80 ∧
      ¬ (UInt8.ofBitVec b ||| 0xc0 < 0x80) ∧ ¬ (UInt8.ofBitVec b ||| 0xc0 < 0xc0) ∧
      (UInt8.ofBitVec b ||| 0xc0) &&& 0xc0 = 0xc0 := by
    decide
  exact key b.toBitVec

/-! ### Operands -/

theorem toInt32_eq_wrap {u w : UInt32} {k : Nat} (hk : k < 30)
    (h : w.toBitVec = (u.toBitVec.setWidth (k + 1)).signExtend 32)
    (hu : u.toInt32.toInt.bmod (2 ^ (k + 1)) = u.toInt32.toInt.bmod (2 ^ 30)) : w.toInt32 = wrap u.toInt32 := by
  apply Int32.toInt_inj.mp
  rw [toInt_extend (by omega) h, toInt_wrap, hu]

/-- Reading gives the number that the low 30 bits make. -/
theorem decode_encode (v : Int32) (rest : Bytes) : decode (encode v ++ rest) = .ok (wrap v, rest) := by
  have hv : v.toUInt32.toInt32 = v := Int32.toInt32_toUInt32 v
  unfold encode
  simp only
  split
  · next h =>
    have hwrap : v.toUInt32.toInt32.toInt.bmod (2 ^ 7) = v.toUInt32.toInt32.toInt.bmod (2 ^ 30) := by
      rw [hv, Int.bmod_eq_of_le (by omega) (by omega), Int.bmod_eq_of_le (by omega) (by omega)]
    rcases extend_low7 v.toUInt32 with ⟨hform, hbits⟩ | ⟨hform, hbits⟩
    · simp only [List.cons_append, List.nil_append, decode, hform, if_true]
      rw [toInt32_eq_wrap (by omega) hbits hwrap, hv]
    · simp only [List.cons_append, List.nil_append, decode, hform, if_true]
      rw [if_neg (by decide), toInt32_eq_wrap (by omega) hbits hwrap, hv]
  next h₇ =>
  split
  · next h =>
    have hwrap : v.toUInt32.toInt32.toInt.bmod (2 ^ 14) = v.toUInt32.toInt32.toInt.bmod (2 ^ 30) := by
      rw [hv, Int.bmod_eq_of_le (by omega) (by omega), Int.bmod_eq_of_le (by omega) (by omega)]
    obtain ⟨-, -, -, hform, -⟩ := first_byte (v.toUInt32 >>> 8).toUInt8
    simp only [List.cons_append, List.nil_append, decode, hform, if_true]
    rw [if_neg (by decide), if_neg (by decide)]
    rcases extend_low14 v.toUInt32 with ⟨hsign, hbits⟩ | ⟨hsign, hbits⟩
    · rw [if_pos hsign, toInt32_eq_wrap (by omega) hbits hwrap, hv]
    · rw [if_neg hsign, toInt32_eq_wrap (by omega) hbits hwrap, hv]
  · obtain ⟨-, -, -, -, -, -, hform⟩ := first_byte (v.toUInt32 >>> 24).toUInt8
    simp only [List.cons_append, List.nil_append, decode, hform]
    rw [if_neg (by decide), if_neg (by decide), if_neg (by decide)]
    rcases extend_low30 v.toUInt32 with ⟨hsign, hbits⟩ | ⟨hsign, hbits⟩
    · rw [if_pos hsign, toInt32_eq_wrap (by omega) hbits rfl, hv]
    · rw [if_neg hsign, toInt32_eq_wrap (by omega) hbits rfl, hv]

theorem formSize_encode (v : Int32) (rest : Bytes) : formSize (encode v ++ rest) = (encode v).length := by
  unfold encode
  simp only
  split
  · obtain ⟨h, -⟩ := first_byte v.toUInt32.toUInt8
    simp only [List.cons_append, formSize, h, if_true, List.length_cons, List.length_nil]
  · split
    · obtain ⟨-, h₁, h₂, -⟩ := first_byte (v.toUInt32 >>> 8).toUInt8
      simp only [List.cons_append, formSize, h₁, h₂, if_true, if_false, List.length_cons, List.length_nil]
    · obtain ⟨-, -, -, -, h₁, h₂, -⟩ := first_byte (v.toUInt32 >>> 24).toUInt8
      simp only [List.cons_append, formSize, h₁, h₂, if_false, List.length_cons, List.length_nil]

end Operand

/-! ### Code -/

namespace Code

/-- Whether the operand of an instruction comes back as it was. -/
def Fits (i : Instr) : Prop := ∀ v, i.operand? = some v → Operand.fits v.toInt = true

theorem decodeOne_encode {i : Instr} (h : Fits i) (pc : Nat) (rest : Bytes) :
    ∃ b bs, i.encode = b :: bs ∧ decodeOne pc b (bs ++ rest) = .ok (⟨pc, i, i.size⟩, rest) := by
  refine ⟨_, _, rfl, ?_⟩
  have hop : i.opcode.hasOperand = i.operand?.isSome := by cases i with
    | load c | store c => cases c <;> rfl
    | _ => rfl
  have hof : ∀ v, i.operand?.getD 0 = v → Instr.ofOpcode i.opcode v = i := by
    rintro v rfl
    cases i with
    | load c | store c => cases c <;> rfl
    | _ => rfl
  simp only [decodeOne, Opcode.ofCode?_code, hop]
  cases hv : i.operand? with
  | none =>
    have hsize : i.size = 1 := by simp [Instr.size, Instr.encode, hv]
    simp only [Option.isSome_none, Bool.false_eq_true, if_false, List.nil_append, hsize, hof 0 (by simp [hv])]
  | some v =>
    have hsize : i.size = 1 + (Operand.encode v).length := by
      simp only [Instr.size, Instr.encode, hv, List.length_cons]
      omega
    simp only [Option.isSome_some, if_true, Operand.decode_encode, Operand.formSize_encode, hsize,
      Operand.wrap_of_fits (h v hv), hof v (by simp [hv])]

theorem decodeFrom_encode {is : List Instr} (h : ∀ i ∈ is, Fits i) (pc : Nat) (done : List Placed) :
    decodeFrom pc done (is.flatMap Instr.encode) = .ok (done.reverse ++ Emission.place pc is) := by
  induction is generalizing pc done with
  | nil => simp [decodeFrom, Emission.place]
  | cons i is ih =>
    obtain ⟨b, bs, hbytes, hone⟩ := decodeOne_encode (h i List.mem_cons_self) pc (is.flatMap Instr.encode)
    rw [List.flatMap_cons, hbytes, List.cons_append, decodeFrom]
    split
    · next e he =>
      rw [hone] at he
      cases he
    · next p rest' he =>
      rw [hone] at he
      cases he
      rw [ih (fun j hj => h j (List.mem_cons_of_mem i hj)), Emission.place, List.reverse_cons, List.append_assoc]
      rfl

/-- Code comes back as the instructions that were written. -/
theorem decode_encode {is : List Instr} (h : ∀ i ∈ is, Fits i) :
    decode (is.flatMap Instr.encode) = .ok (Emission.place 0 is) :=
  decodeFrom_encode h 0 []

end Code
end MicroBlock
