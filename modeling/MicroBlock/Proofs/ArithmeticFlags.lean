import Mathlib
import MicroBlock.Proofs.Computations

/-! Arithmetic flags.

The flag helpers see the result of an operation and its second operand, 32 bits of each, and win the first operand back
from them. Below its width an operation does not depend on what the registers hold above it, so at every width the flags
are those of the exact operation on the operands cut to the width. -/

namespace MicroBlock

/-! ### Words at a width -/

namespace Width

/-- A word, cut to a width and read as unsigned. -/
def unsigned (w : Width) (a : UInt32) : Int := a.toNat % 2 ^ w.bits

/-- A word, cut to a width and read as signed. -/
def signed (w : Width) (a : UInt32) : Int := Int.bmod a.toNat (2 ^ w.bits)

theorem unsigned_mem (w : Width) (a : UInt32) : 0 ≤ w.unsigned a ∧ w.unsigned a < 2 ^ w.bits := by
  cases w <;> simp only [unsigned, bits, bytes] <;> omega

theorem unsigned_add (w : Width) (a b : UInt32) :
    w.unsigned (a + b) = (w.unsigned a + w.unsigned b) % 2 ^ w.bits := by
  rw [unsigned, UInt32.toNat_add]
  cases w <;> simp only [unsigned, bits, bytes] <;> omega

theorem unsigned_sub (w : Width) (a b : UInt32) :
    w.unsigned (a - b) = (w.unsigned a - w.unsigned b) % 2 ^ w.bits := by
  have := b.toNat_lt
  rw [unsigned, UInt32.toNat_sub]
  cases w <;> simp only [unsigned, bits, bytes] <;> omega

theorem testBit_top (w : Width) (a : UInt32) :
    a.toNat.testBit (w.bits - 1) = decide (2 ^ (w.bits - 1) ≤ w.unsigned a) := by
  rw [Nat.testBit_eq_decide_div_mod_eq, decide_eq_decide]
  cases w <;> simp only [unsigned, bits, bytes] <;> omega

/-- A word with the top bit of its width set is negative. -/
theorem signed_eq (w : Width) (a : UInt32) :
    w.signed a = if 2 ^ (w.bits - 1) ≤ w.unsigned a then w.unsigned a - 2 ^ w.bits else w.unsigned a := by
  rw [signed, Int.bmod_def]
  cases w <;> simp only [unsigned, bits, bytes] <;> split_ifs <;> omega

end Width

namespace Flags

/-- A width as the flag functions take it. -/
def size (w : Width) : UInt32 := UInt32.ofNat w.bits

theorem toNat_and_widthMask (w : Width) (x : UInt32) : ((x &&& widthMask (size w)).toNat : Int) = w.unsigned x := by
  have hmask : (widthMask (size w)).toNat = 2 ^ w.bits - 1 := by cases w <;> rfl
  rw [UInt32.toNat_and, hmask, Nat.and_two_pow_sub_one_eq_mod, Width.unsigned]
  norm_cast

theorem and_bit {x y : UInt32} {i : Nat} (hy : y.toNat = 2 ^ i) : (x &&& y != 0) = x.toNat.testBit i := by
  rw [Bool.eq_iff_iff, bne_iff_ne, ne_eq, ← UInt32.toNat_inj, UInt32.toNat_and, hy, Nat.and_two_pow]
  cases x.toNat.testBit i <;> simp

theorem testBit_xor (x y : UInt32) (i : Nat) : (x ^^^ y).toNat.testBit i = (x.toNat.testBit i ^^ y.toNat.testBit i) := by
  rw [UInt32.toNat_xor, Nat.testBit_xor]

theorem and_signBit (w : Width) (x : UInt32) : (x &&& signBit (size w) != 0) = x.toNat.testBit (w.bits - 1) :=
  and_bit (by cases w <;> rfl)

/-! ### Flags of the result and an operand -/

section Operands
variable (w : Width) (a b : UInt32)

theorem carryAdd_eq :
    carryAdd (a + b) b (size w) =
      decide (w.unsigned a + w.unsigned b < 0 ∨ 2 ^ w.bits ≤ w.unsigned a + w.unsigned b) := by
  have hr := w.unsigned_add a b
  have ha := w.unsigned_mem a
  have hb := w.unsigned_mem b
  rw [carryAdd, decide_eq_decide, UInt32.lt_iff_toNat_lt, ← Int.ofNat_lt, toNat_and_widthMask, toNat_and_widthMask]
  cases w <;> simp only [Width.bits, Width.bytes] at * <;> omega

theorem carrySub_eq :
    carrySub (a - b) b (size w) =
      decide (w.unsigned a - w.unsigned b < 0 ∨ 2 ^ w.bits ≤ w.unsigned a - w.unsigned b) := by
  have ha := w.unsigned_mem a
  have hb := w.unsigned_mem b
  rw [carrySub, UInt32.sub_add_cancel, decide_eq_decide, UInt32.lt_iff_toNat_lt, ← Int.ofNat_lt, toNat_and_widthMask,
    toNat_and_widthMask]
  omega

theorem overflowAdd_eq :
    overflowAdd (a + b) b (size w) =
      decide (w.signed a + w.signed b < -2 ^ (w.bits - 1) ∨ 2 ^ (w.bits - 1) ≤ w.signed a + w.signed b) := by
  have hr := w.unsigned_add a b
  have ha := w.unsigned_mem a
  have hb := w.unsigned_mem b
  rw [overflowAdd, and_signBit, UInt32.add_sub_cancel, UInt32.toNat_and, Nat.testBit_and, testBit_xor, testBit_xor,
    w.testBit_top, w.testBit_top, w.testBit_top, w.signed_eq, w.signed_eq]
  -- the signs of the operands and of the result settle the flag, and which of them can come together is arithmetic
  by_cases h₁ : 2 ^ (w.bits - 1) ≤ w.unsigned a <;> by_cases h₂ : 2 ^ (w.bits - 1) ≤ w.unsigned b <;>
    by_cases h₃ : 2 ^ (w.bits - 1) ≤ w.unsigned (a + b) <;> simp only [h₁, h₂, h₃] <;> cases w <;>
    simp [Width.bits, Width.bytes] at * <;> omega

theorem overflowSub_eq :
    overflowSub (a - b) b (size w) =
      decide (w.signed a - w.signed b < -2 ^ (w.bits - 1) ∨ 2 ^ (w.bits - 1) ≤ w.signed a - w.signed b) := by
  have hr := w.unsigned_sub a b
  have ha := w.unsigned_mem a
  have hb := w.unsigned_mem b
  rw [overflowSub, and_signBit, UInt32.sub_add_cancel, UInt32.toNat_and, Nat.testBit_and, testBit_xor, testBit_xor,
    w.testBit_top, w.testBit_top, w.testBit_top, w.signed_eq, w.signed_eq]
  by_cases h₁ : 2 ^ (w.bits - 1) ≤ w.unsigned a <;> by_cases h₂ : 2 ^ (w.bits - 1) ≤ w.unsigned b <;>
    by_cases h₃ : 2 ^ (w.bits - 1) ≤ w.unsigned (a - b) <;> simp only [h₁, h₂, h₃] <;> cases w <;>
    simp [Width.bits, Width.bytes] at * <;> omega

theorem testBit_four : a.toNat.testBit 4 = decide (a.toNat / 16 % 2 = 1) := Nat.testBit_eq_decide_div_mod_eq

theorem adjustAdd_eq :
    adjustAdd (a + b) b = decide ((a.toNat % 16 + b.toNat % 16 : Int) < 0 ∨ (16 : Int) ≤ a.toNat % 16 + b.toNat % 16) := by
  have hr := UInt32.toNat_add a b
  rw [adjustAdd, and_bit (i := 4) rfl, UInt32.add_sub_cancel, testBit_xor, testBit_xor, testBit_four, testBit_four,
    testBit_four]
  by_cases h₁ : a.toNat / 16 % 2 = 1 <;> by_cases h₂ : b.toNat / 16 % 2 = 1 <;>
    by_cases h₃ : (a + b).toNat / 16 % 2 = 1 <;> simp only [h₁, h₂, h₃] <;> simp <;> omega

theorem adjustSub_eq :
    adjustSub (a - b) b = decide ((a.toNat % 16 - b.toNat % 16 : Int) < 0 ∨ (16 : Int) ≤ a.toNat % 16 - b.toNat % 16) := by
  have hlt := b.toNat_lt
  have hr := UInt32.toNat_sub a b
  rw [adjustSub, and_bit (i := 4) rfl, UInt32.sub_add_cancel, testBit_xor, testBit_xor, testBit_four, testBit_four,
    testBit_four]
  by_cases h₁ : a.toNat / 16 % 2 = 1 <;> by_cases h₂ : b.toNat / 16 % 2 = 1 <;>
    by_cases h₃ : (a - b).toNat / 16 % 2 = 1 <;> simp only [h₁, h₂, h₃] <;> simp <;> omega

end Operands

theorem lowOnes_eq (r : UInt32) : lowOnes r = ∑ i ∈ Finset.range 8, r.toNat / 2 ^ i % 2 := by
  have hsum (n : Nat) : ((List.range n).filter r.toNat.testBit).length = ∑ i ∈ Finset.range n, r.toNat / 2 ^ i % 2 := by
    induction n with
    | zero => rfl
    | succ n ih =>
      rw [List.range_succ, List.filter_append, List.length_append, ih, Finset.sum_range_succ, ← Nat.toNat_testBit]
      cases h : r.toNat.testBit n <;> simp [h]
  exact hsum 8

/-! ### Flags of the result -/

theorem toNat_add_emod (a b : UInt32) : ((a + b).toNat : Int) = (a.toNat + b.toNat : Int) % 2 ^ 32 := by
  rw [UInt32.toNat_add]
  omega

theorem toNat_sub_emod (a b : UInt32) : ((a - b).toNat : Int) = (a.toNat - b.toNat : Int) % 2 ^ 32 := by
  have := b.toNat_lt
  rw [UInt32.toNat_sub]
  omega

section Result
variable (w : Width) {r : UInt32} {x : Int} (hr : (r.toNat : Int) = x % 2 ^ 32)
include hr

theorem isZero_eq : isZero r (size w) = decide (x % 2 ^ w.bits = 0) := by
  rw [isZero, beq_eq_decide, decide_eq_decide, ← UInt32.toNat_inj, ← Int.ofNat_inj, toNat_and_widthMask]
  cases w <;> simp only [Width.unsigned, Width.bits, Width.bytes] <;> simp <;> omega

theorem isNegative_eq : isNegative r (size w) = decide (2 ^ (w.bits - 1) ≤ x % 2 ^ w.bits) := by
  rw [isNegative, and_signBit, w.testBit_top, decide_eq_decide]
  cases w <;> simp only [Width.unsigned, Width.bits, Width.bytes] <;> omega

theorem parity_eq : parity r = decide (Even (∑ i ∈ Finset.range 8, x / 2 ^ i % 2)) := by
  have hones : (lowOnes r : Int) = ∑ i ∈ Finset.range 8, x / 2 ^ i % 2 := by
    rw [lowOnes_eq, Nat.cast_sum]
    refine Finset.sum_congr rfl fun i hi => ?_
    rw [Finset.mem_range] at hi
    interval_cases i <;> omega
  rw [parity, beq_eq_decide, decide_eq_decide, ← hones, Int.even_coe_nat, Nat.even_iff]

end Result

/-! ### Steps by one -/

section One
variable (a : UInt32)

theorem overflowInc_eq :
    (a + 1 == 0x80000000) = decide (Width.dword.signed a + Width.dword.signed 1 < -2 ^ (Width.dword.bits - 1) ∨
      2 ^ (Width.dword.bits - 1) ≤ Width.dword.signed a + Width.dword.signed 1) := by
  have hlt := a.toNat_lt
  have hr := UInt32.toNat_add a 1
  rw [beq_eq_decide, decide_eq_decide, ← UInt32.toNat_inj, hr, Width.signed_eq, Width.signed_eq]
  simp [Width.unsigned, Width.bits, Width.bytes]
  split_ifs <;> omega

theorem overflowDec_eq :
    (a - 1 == 0x7fffffff) = decide (Width.dword.signed a - Width.dword.signed 1 < -2 ^ (Width.dword.bits - 1) ∨
      2 ^ (Width.dword.bits - 1) ≤ Width.dword.signed a - Width.dword.signed 1) := by
  have hlt := a.toNat_lt
  have hr := UInt32.toNat_sub a 1
  rw [beq_eq_decide, decide_eq_decide, ← UInt32.toNat_inj, hr, Width.signed_eq, Width.signed_eq]
  simp [Width.unsigned, Width.bits, Width.bytes]
  split_ifs <;> omega

theorem toNat_and_fifteen : (a &&& 0xf).toNat = a.toNat % 16 := Nat.and_two_pow_sub_one_eq_mod a.toNat 4

theorem adjustInc_eq :
    ((a + 1) &&& 0xf == 0) = decide ((a.toNat % 16 + (1 : UInt32).toNat % 16 : Int) < 0 ∨
      (16 : Int) ≤ a.toNat % 16 + (1 : UInt32).toNat % 16) := by
  have hr := UInt32.toNat_add a 1
  rw [beq_eq_decide, decide_eq_decide, ← UInt32.toNat_inj, toNat_and_fifteen, hr]
  simp
  omega

theorem adjustDec_eq :
    ((a - 1) &&& 0xf == 0xf) = decide ((a.toNat % 16 - (1 : UInt32).toNat % 16 : Int) < 0 ∨
      (16 : Int) ≤ a.toNat % 16 - (1 : UInt32).toNat % 16) := by
  have hr := UInt32.toNat_sub a 1
  rw [beq_eq_decide, decide_eq_decide, ← UInt32.toNat_inj, toNat_and_fifteen, hr]
  simp
  omega

end One

end Flags

/-! ### Flag fragments -/

namespace Fragment
variable {op : Op} {f : Flag} {w : Width} {b : Builtin} {p : Place} {m : Machine}

/-- The width that a flag fragment pushes. -/
theorem toUInt32_bits (w : Width) : (Value.ofUInt32 (UInt32.ofInt w.bits)).toUInt32 = Flags.size w := by
  rw [Value.toUInt32_ofUInt32, ofInt_natCast, Flags.size]

theorem outcome_appliedFlag {F : UInt32 → Bool} (hb : b.Computes (Builtin.test1 F) 1) (r : Value) :
    (Lowering.appliedFlag op f b).outcome [r] p m = (.ok (.ofBool (F r.toUInt32)), m) := by
  have hbody : b.body [r] m = .ok (.ofBool (F r.toUInt32), m) := by
    rw [hb.body]
    rfl
  have hsteps : Yields [r] p (Lowering.appliedFlag op f b).steps [] m (.ok [.ofBool (F r.toUInt32)]) m := by
    refine .input (i := 0) rfl (.call [_] hb.arity.symm rfl hbody ?_)
    rw [hb.result]
    exact .nil
  exact hsteps.outcome_ok

theorem outcome_resultFlag {F : UInt32 → UInt32 → Bool} (hb : b.Computes (Builtin.test2 F) 2) (r : Value) :
    (Lowering.resultFlag op f w b).outcome [r] p m = (.ok (.ofBool (F r.toUInt32 (Flags.size w))), m) := by
  have hbody : b.body [r, .ofUInt32 (UInt32.ofInt w.bits)] m = .ok (.ofBool (F r.toUInt32 (Flags.size w)), m) := by
    rw [hb.body, ← toUInt32_bits]
    rfl
  have hsteps : Yields [r] p (Lowering.resultFlag op f w b).steps [] m
      (.ok [.ofBool (F r.toUInt32 (Flags.size w))]) m := by
    refine .input (i := 0) rfl (.literal (.call [_, _] hb.arity.symm rfl hbody ?_))
    rw [hb.result]
    exact .nil
  exact hsteps.outcome_ok

theorem outcome_operandFlag {F : UInt32 → UInt32 → UInt32 → Bool} (hb : b.Computes (Builtin.test3 F) 3) (r o : Value) :
    (Lowering.operandFlag op f w b).outcome [r, o] p m = (.ok (.ofBool (F r.toUInt32 o.toUInt32 (Flags.size w))), m) := by
  have hbody : b.body [r, o, .ofUInt32 (UInt32.ofInt w.bits)] m =
      .ok (.ofBool (F r.toUInt32 o.toUInt32 (Flags.size w)), m) := by
    rw [hb.body, ← toUInt32_bits]
    rfl
  have hsteps : Yields [r, o] p (Lowering.operandFlag op f w b).steps [] m
      (.ok [.ofBool (F r.toUInt32 o.toUInt32 (Flags.size w))]) m := by
    refine .input (i := 0) rfl (.input (i := 1) rfl (.literal (.call [_, _, _] hb.arity.symm rfl hbody ?_)))
    rw [hb.result]
    exact .nil
  exact hsteps.outcome_ok

end Fragment

namespace Interpreter

/-! ### Evaluating an operation and its flags -/

/-- What the flags say of an operation: of its exact result on the low four bits, on the whole words, and on the
    signed readings at a width. -/
structure FlagsOf (f : Int → Int → Int) (w : Width) (a b : UInt32) (values : Values) : Prop where
  pf : values.get (.flag .pf) = .ofBool (decide (Even (∑ i ∈ Finset.range 8, f a.toNat b.toNat / 2 ^ i % 2)))
  af : values.get (.flag .af) =
    .ofBool (decide (f (a.toNat % 16) (b.toNat % 16) < 0 ∨ 16 ≤ f (a.toNat % 16) (b.toNat % 16)))
  zf : values.get (.flag .zf) = .ofBool (decide (f a.toNat b.toNat % 2 ^ w.bits = 0))
  sf : values.get (.flag .sf) = .ofBool (decide (2 ^ (w.bits - 1) ≤ f a.toNat b.toNat % 2 ^ w.bits))
  of : values.get (.flag .of) = .ofBool (decide (f (w.signed a) (w.signed b) < -2 ^ (w.bits - 1) ∨
    2 ^ (w.bits - 1) ≤ f (w.signed a) (w.signed b)))

/-- CF says that the exact result on the unsigned readings does not fit the width. -/
def CarryOf (f : Int → Int → Int) (w : Width) (a b : UInt32) (values : Values) : Prop :=
  values.get (.flag .cf) =
    .ofBool (decide (f (w.unsigned a) (w.unsigned b) < 0 ∨ 2 ^ w.bits ≤ f (w.unsigned a) (w.unsigned b)))

/-- What the flag fragments of an addition or a subtraction compute of its result and second operand. -/
def operandResults (C A O : UInt32 → UInt32 → UInt32 → Bool) (w : Width) (r o : UInt32) : List (Element × Value) :=
  [(.flag .cf, .ofBool (C r o (Flags.size w))), (.flag .pf, .ofBool (Flags.parity r)),
   (.flag .af, .ofBool (A r o (Flags.size w))), (.flag .zf, .ofBool (Flags.isZero r (Flags.size w))),
   (.flag .sf, .ofBool (Flags.isNegative r (Flags.size w))), (.flag .of, .ofBool (O r o (Flags.size w)))]

/-- What the flag fragments of a step by one compute of its result. -/
def stepResults (A O : UInt32 → Bool) (r : UInt32) : List (Element × Value) :=
  [(.flag .pf, .ofBool (Flags.parity r)), (.flag .af, .ofBool (A r)),
   (.flag .zf, .ofBool (Flags.isZero r (Flags.size .dword))),
   (.flag .sf, .ofBool (Flags.isNegative r (Flags.size .dword))), (.flag .of, .ofBool (O r))]

theorem gives_arithmeticFlags {values : Values} {place : Place} {m : Machine} {op : Op} {w : Width}
    {carry adjust overflow : Builtin} {C A O : UInt32 → UInt32 → UInt32 → Bool}
    (hc : carry.Computes (Builtin.test3 C) 3) (ha : adjust.Computes (Builtin.test3 A) 3)
    (ho : overflow.Computes (Builtin.test3 O) 3) :
    Gives values place (Lowering.arithmeticFlags op w carry adjust overflow) m
      (operandResults C A O w (values.get .reg0).toUInt32 (values.get .reg1).toUInt32) m :=
  .cons rfl (by decide) (Fragment.outcome_operandFlag hc _ _)
    (.cons rfl (by decide) (Fragment.outcome_appliedFlag ⟨rfl, rfl, rfl⟩ _)
    (.cons rfl (by decide) (Fragment.outcome_operandFlag ha _ _)
    (.cons rfl (by decide) (Fragment.outcome_resultFlag ⟨rfl, rfl, rfl⟩ _)
    (.cons rfl (by decide) (Fragment.outcome_resultFlag ⟨rfl, rfl, rfl⟩ _)
    (.single rfl (by decide) (Fragment.outcome_operandFlag ho _ _))))))

theorem gives_stepFlags {values : Values} {place : Place} {m : Machine} {op : Op} {adjust overflow : Builtin}
    {A O : UInt32 → Bool} (ha : adjust.Computes (Builtin.test1 A) 1) (ho : overflow.Computes (Builtin.test1 O) 1) :
    Gives values place (Lowering.stepFlags op adjust overflow) m (stepResults A O (values.get .reg0).toUInt32) m :=
  .cons rfl (by decide) (Fragment.outcome_appliedFlag ⟨rfl, rfl, rfl⟩ _)
    (.cons rfl (by decide) (Fragment.outcome_appliedFlag ha _)
    (.cons rfl (by decide) (Fragment.outcome_resultFlag ⟨rfl, rfl, rfl⟩ _)
    (.cons rfl (by decide) (Fragment.outcome_resultFlag ⟨rfl, rfl, rfl⟩ _)
    (.single rfl (by decide) (Fragment.outcome_appliedFlag ho _)))))

section Evaluates
variable {mode : Mode} {values : Values} {m : Machine} {op flags : Op} {f : Int → Int → Int} {w : Width} {a b r : UInt32}
  (hop : ∀ place, Gives values place (Lowering.targets mode op) m [(.reg0, .ofUInt32 r)] m)
  (hr : (r.toNat : Int) = f a.toNat b.toNat % 2 ^ 32)
include hop hr

/-- The flags of an operation whose helpers recover them from its result and second operand. -/
theorem exists_evaluates_operands {C A O : UInt32 → UInt32 → UInt32 → Bool}
    (hflags : ∀ values place, Gives values place (Lowering.targets mode flags) m
      (operandResults C A O w (values.get .reg0).toUInt32 (values.get .reg1).toUInt32) m)
    (hb : (values.get .reg1).toUInt32 = b)
    (hc : C r b (Flags.size w) = decide (f (w.unsigned a) (w.unsigned b) < 0 ∨ 2 ^ w.bits ≤ f (w.unsigned a) (w.unsigned b)))
    (ha : A r b (Flags.size w) = decide (f (a.toNat % 16) (b.toNat % 16) < 0 ∨ 16 ≤ f (a.toNat % 16) (b.toNat % 16)))
    (ho : O r b (Flags.size w) = decide (f (w.signed a) (w.signed b) < -2 ^ (w.bits - 1) ∨
      2 ^ (w.bits - 1) ≤ f (w.signed a) (w.signed b))) :
    ∃ values', Evaluates mode [op, flags] values m values' m ∧ CarryOf f w a b values' ∧ FlagsOf f w a b values' := by
  have hflags := hflags (values.commit [(.reg0, .ofUInt32 r)])
  have hreg : ((values.commit [(.reg0, .ofUInt32 r)]).get .reg0).toUInt32 = r := by simp [Values.commit]
  have hreg' : ((values.commit [(.reg0, .ofUInt32 r)]).get .reg1).toUInt32 = b := by simp [Values.commit, Bank.get_set, hb]
  rw [hreg, hreg'] at hflags
  refine ⟨_, .step hop (.step hflags .nil), ?_, ?_⟩
  · simp [CarryOf, Values.commit, Bank.get_set, hc]
  · constructor <;>
      simp [Values.commit, Bank.get_set, Flags.parity_eq hr, ha, Flags.isZero_eq w hr,
        Flags.isNegative_eq w hr, ho]

/-- The flags of a step by one, whose helpers need the result alone. CF stays. -/
theorem exists_evaluates_step {A O : UInt32 → Bool}
    (hflags : ∀ values place, Gives values place (Lowering.targets mode flags) m
      (stepResults A O (values.get .reg0).toUInt32) m)
    (ha : A r = decide (f (a.toNat % 16) (b.toNat % 16) < 0 ∨ 16 ≤ f (a.toNat % 16) (b.toNat % 16)))
    (ho : O r = decide (f (Width.dword.signed a) (Width.dword.signed b) < -2 ^ (Width.dword.bits - 1) ∨
      2 ^ (Width.dword.bits - 1) ≤ f (Width.dword.signed a) (Width.dword.signed b))) :
    ∃ values', Evaluates mode [op, flags] values m values' m ∧ values'.get (.flag .cf) = values.get (.flag .cf) ∧
      FlagsOf f .dword a b values' := by
  have hflags := hflags (values.commit [(.reg0, .ofUInt32 r)])
  have hreg : ((values.commit [(.reg0, .ofUInt32 r)]).get .reg0).toUInt32 = r := by simp [Values.commit]
  rw [hreg] at hflags
  refine ⟨_, .step hop (.step hflags .nil), ?_, ?_⟩
  · simp [Values.commit, Bank.get_set]
  · constructor <;>
      simp [Values.commit, Bank.get_set, Flags.parity_eq hr, ha, Flags.isZero_eq .dword hr,
        Flags.isNegative_eq .dword hr, ho]

end Evaluates

/-- Arithmetic flags are exact. After an addition or a subtraction at a width, CF says that the unsigned result does
    not fit the width, OF that the signed one does not, AF that the low four bits give a carry or borrow, ZF and SF speak
    of the result cut to the width, and PF of the parity of its low byte, whatever the operands hold above the width.
    A step by one sets all but CF as adding or subtracting one does, and leaves CF alone. -/
theorem arithmetic_flags_exact (mode : Mode) (values : Values) (m : Machine) {a b : UInt32}
    (ha : (values.get .reg0).toUInt32 = a) (hb : (values.get .reg1).toUInt32 = b) :
    (∀ w, ∃ values', Evaluates mode [.alu .add, .addFlags w] values m values' m ∧
      CarryOf (· + ·) w a b values' ∧ FlagsOf (· + ·) w a b values') ∧
    (∀ w, ∃ values', Evaluates mode [.alu .sub, .subFlags w] values m values' m ∧
      CarryOf (· - ·) w a b values' ∧ FlagsOf (· - ·) w a b values') ∧
    (∃ values', Evaluates mode [.unary .inc, .incFlags] values m values' m ∧
      values'.get (.flag .cf) = values.get (.flag .cf) ∧ FlagsOf (· + ·) .dword a 1 values') ∧
    (∃ values', Evaluates mode [.unary .dec, .decFlags] values m values' m ∧
      values'.get (.flag .cf) = values.get (.flag .cf) ∧ FlagsOf (· - ·) .dword a 1 values') := by
  have hadd (place : Place) : Gives values place (Lowering.targets mode (.alu .add)) m [(.reg0, .ofUInt32 (a + b))] m :=
    ha ▸ hb ▸ .single rfl (by decide) (Fragment.outcome_applied rfl rfl rfl)
  have hsub (place : Place) : Gives values place (Lowering.targets mode (.alu .sub)) m [(.reg0, .ofUInt32 (a - b))] m :=
    ha ▸ hb ▸ .single rfl (by decide) (Fragment.outcome_applied rfl rfl rfl)
  have hinc (place : Place) : Gives values place (Lowering.targets mode (.unary .inc)) m [(.reg0, .ofUInt32 (a + 1))] m :=
    ha ▸ .single rfl (by decide) (Fragment.outcome_applied rfl rfl rfl)
  have hdec (place : Place) : Gives values place (Lowering.targets mode (.unary .dec)) m [(.reg0, .ofUInt32 (a - 1))] m :=
    ha ▸ .single rfl (by decide) (Fragment.outcome_applied rfl rfl rfl)
  have hplus := Flags.toNat_add_emod
  have hminus := Flags.toNat_sub_emod
  refine ⟨fun w => ?_, fun w => ?_, ?_, ?_⟩
  · exact exists_evaluates_operands hadd (hplus a b)
      (fun _ _ => gives_arithmeticFlags ⟨rfl, rfl, rfl⟩ ⟨rfl, rfl, rfl⟩ ⟨rfl, rfl, rfl⟩) hb
      (Flags.carryAdd_eq w a b) (Flags.adjustAdd_eq a b) (Flags.overflowAdd_eq w a b)
  · exact exists_evaluates_operands hsub (hminus a b)
      (fun _ _ => gives_arithmeticFlags ⟨rfl, rfl, rfl⟩ ⟨rfl, rfl, rfl⟩ ⟨rfl, rfl, rfl⟩) hb
      (Flags.carrySub_eq w a b) (Flags.adjustSub_eq a b) (Flags.overflowSub_eq w a b)
  · exact exists_evaluates_step hinc (hplus a 1) (fun _ _ => gives_stepFlags ⟨rfl, rfl, rfl⟩ ⟨rfl, rfl, rfl⟩)
      (Flags.adjustInc_eq a) (Flags.overflowInc_eq a)
  · exact exists_evaluates_step hdec (hminus a 1) (fun _ _ => gives_stepFlags ⟨rfl, rfl, rfl⟩ ⟨rfl, rfl, rfl⟩)
      (Flags.adjustDec_eq a) (Flags.overflowDec_eq a)

/-- Two negative bytes below other bits: their sum leaves the byte zero with a carry and an overflow. -/
theorem arithmetic_flags_exact_junk :
    ∃ values : Values, (values.get .reg0).toUInt32 = 0x12345680 ∧ (values.get .reg1).toUInt32 = 0xffffff80 ∧
      ∃ values', Evaluates .real [.alu .add, .addFlags .byte] values (Machine.reset (.ofSize 0)) values'
          (Machine.reset (.ofSize 0)) ∧
        values'.get (.flag .cf) = .ofBool true ∧ values'.get (.flag .of) = .ofBool true ∧
        values'.get (.flag .zf) = .ofBool true ∧ values'.get (.flag .sf) = .ofBool false ∧
        values'.get (.flag .pf) = .ofBool true ∧ values'.get (.flag .af) = .ofBool false := by
  have h₀ : ((((Bank.replicate .zero : Values).set .reg0 (.ofUInt32 0x12345680)).set .reg1
    (.ofUInt32 0xffffff80)).get .reg0).toUInt32 = 0x12345680 := by decide
  have h₁ : ((((Bank.replicate .zero : Values).set .reg0 (.ofUInt32 0x12345680)).set .reg1
    (.ofUInt32 0xffffff80)).get .reg1).toUInt32 = 0xffffff80 := by decide
  obtain ⟨hadd, -⟩ := arithmetic_flags_exact .real _ (Machine.reset (.ofSize 0)) h₀ h₁
  obtain ⟨values', heval, hcf, hflags⟩ := hadd .byte
  refine ⟨_, h₀, h₁, values', heval, hcf.trans ?_, hflags.of.trans ?_, hflags.zf.trans ?_, hflags.sf.trans ?_,
    hflags.pf.trans ?_, hflags.af.trans ?_⟩ <;> decide +kernel

end Interpreter
end MicroBlock
