import Mathlib.Algebra.CharP.Two
import Mathlib.Algebra.CharP.Lemmas
import Mathlib.Algebra.Ring.MinimalAxioms
import Mathlib.LinearAlgebra.Lagrange
import MicroBlock.Archive.Field

/-! The bytes with exclusive or and `mul` are a field, and `weights` are its Lagrange weights.

The laws of `mul` are linear in each of their arguments, so they are checked on the eight powers of x. -/

namespace MicroBlock.Field256

/-! ### Linearity -/

theorem top_iff (a : UInt8) : 0x80 ≤ a ↔ a.toBitVec.msb = true := by
  simp [BitVec.msb_eq_decide, UInt8.le_iff_toNat_le]

theorem xor_xor_xor_comm (a b c d : UInt8) : (a ^^^ b) ^^^ (c ^^^ d) = (a ^^^ c) ^^^ (b ^^^ d) := by
  ac_rfl

theorem double_xor (a b : UInt8) : double (a ^^^ b) = double a ^^^ double b := by
  unfold double
  rw [xor_xor_xor_comm, UInt8.shiftLeft_xor]
  simp only [top_iff, UInt8.toBitVec_xor, BitVec.msb_xor]
  cases a.toBitVec.msb <;> cases b.toBitVec.msb <;> rfl

theorem low_xor (a b : UInt8) : (a ^^^ b) &&& 1 = 1 ↔ ¬ (a &&& 1 = 1 ↔ b &&& 1 = 1) := by
  have hlow : ∀ c : UInt8, c &&& 1 = 1 ↔ c.toBitVec.getLsbD 0 = true := by
    intro c
    rw [← UInt8.toNat_inj, UInt8.toNat_and, BitVec.getLsbD, Nat.testBit_zero, decide_eq_true_iff]
    exact iff_of_eq (congrArg (· = 1) (Nat.and_one_is_mod _))
  simp only [hlow, UInt8.toBitVec_xor, BitVec.getLsbD_xor]
  cases a.toBitVec.getLsbD 0 <;> cases b.toBitVec.getLsbD 0 <;> simp

theorem addProduct_xor_left (n : Nat) (a a' b s s' : UInt8) :
    addProduct n (a ^^^ a') b (s ^^^ s') = addProduct n a b s ^^^ addProduct n a' b s' := by
  induction n generalizing a a' b s s' with
  | zero => rfl
  | succ n ih =>
    simp only [addProduct, double_xor, ← ih]
    split
    · rw [xor_xor_xor_comm]
    · rfl

theorem addProduct_xor_right (n : Nat) (a b b' s s' : UInt8) :
    addProduct n a (b ^^^ b') (s ^^^ s') = addProduct n a b s ^^^ addProduct n a b' s' := by
  induction n generalizing a b b' s s' with
  | zero => rfl
  | succ n ih =>
    simp only [addProduct, low_xor, UInt8.shiftRight_xor, ← ih]
    by_cases hb : b &&& 1 = 1 <;> by_cases hb' : b' &&& 1 = 1 <;> simp only [hb, hb', iff_true, iff_false,
      not_true, not_false_iff, if_true, if_false]
    · rw [xor_xor_xor_comm, UInt8.xor_self, UInt8.xor_zero]
    · rw [UInt8.xor_assoc, UInt8.xor_comm s' a, ← UInt8.xor_assoc]
    · rw [UInt8.xor_assoc]

theorem xor_mul (a b c : UInt8) : mul (a ^^^ b) c = mul a c ^^^ mul b c := addProduct_xor_left 8 a b c 0 0

theorem mul_xor (a b c : UInt8) : mul a (b ^^^ c) = mul a b ^^^ mul a c := addProduct_xor_right 8 a b c 0 0

/-! ### What holds of the powers of x, and of sums, holds of every byte -/

/-- A power of x below the eighth. -/
def xPow (i : Nat) : UInt8 := 1 <<< UInt8.ofNat i

def square (b : UInt8) : UInt8 := mul b b

/-- What is computed of the bytes: each is the sum of its powers of x, and only zero and one are their own squares. -/
theorem bytes_checked : ∀ n < 256,
    ((List.range 8).filter fun i => UInt8.ofNat n &&& xPow i ≠ 0).foldr (fun i s => xPow i ^^^ s) 0 = UInt8.ofNat n ∧
    (square (UInt8.ofNat n) = UInt8.ofNat n → UInt8.ofNat n = 0 ∨ UInt8.ofNat n = 1) := by decide +kernel

/-- What is computed of the powers of x: the laws of the product, and that eight squares lead back. -/
theorem mul_xPow : ∀ i < 8, mul 1 (xPow i) = xPow i ∧
    square (square (square (square (square (square (square (square (xPow i)))))))) = xPow i ∧
    ∀ j < 8, mul (xPow i) (xPow j) = mul (xPow j) (xPow i) ∧
      ∀ k < 8, mul (mul (xPow i) (xPow j)) (xPow k) = mul (xPow i) (mul (xPow j) (xPow k)) := by decide +kernel

theorem xor_induction {P : UInt8 → Prop} (zero : P 0) (xor : ∀ a b, P a → P b → P (a ^^^ b))
    (bit : ∀ i < 8, P (xPow i)) (a : UInt8) : P a := by
  have hall : ∀ is : List Nat, (∀ i ∈ is, i < 8) → P (is.foldr (fun i s => xPow i ^^^ s) 0) := by
    intro is
    induction is with
    | nil => exact fun _ => zero
    | cons i is ih =>
      intro his
      rw [List.foldr_cons]
      exact xor _ _ (bit i (his i List.mem_cons_self)) (ih fun j hj => his j (List.mem_cons_of_mem i hj))
  have ha : UInt8.ofNat a.toNat = a := UInt8.ofNat_toNat
  rw [← ha, ← (bytes_checked a.toNat a.toNat_lt).1]
  exact hall _ fun i hi => List.mem_range.mp (List.mem_of_mem_filter hi)

protected theorem zero_mul (a : UInt8) : mul 0 a = 0 := by
  have h := xor_mul 0 0 a
  rwa [UInt8.xor_self, UInt8.xor_self] at h

protected theorem mul_zero (a : UInt8) : mul a 0 = 0 := by
  have h := mul_xor a 0 0
  rwa [UInt8.xor_self, UInt8.xor_self] at h

protected theorem mul_comm (a b : UInt8) : mul a b = mul b a := by
  induction a using xor_induction with
  | zero => rw [Field256.zero_mul, Field256.mul_zero]
  | xor a a' ha ha' => rw [xor_mul, mul_xor, ha, ha']
  | bit i hi =>
    induction b using xor_induction with
    | zero => rw [Field256.zero_mul, Field256.mul_zero]
    | xor b b' hb hb' => rw [xor_mul, mul_xor, hb, hb']
    | bit j hj => exact ((mul_xPow i hi).2.2 j hj).1

protected theorem mul_assoc (a b c : UInt8) : mul (mul a b) c = mul a (mul b c) := by
  induction a using xor_induction with
  | zero => simp only [Field256.zero_mul]
  | xor a a' ha ha' => simp only [xor_mul, ha, ha']
  | bit i hi =>
    induction b using xor_induction with
    | zero => simp only [Field256.zero_mul, Field256.mul_zero]
    | xor b b' hb hb' => simp only [xor_mul, mul_xor, hb, hb']
    | bit j hj =>
      induction c using xor_induction with
      | zero => simp only [Field256.mul_zero]
      | xor c c' hc hc' => simp only [mul_xor, hc, hc']
      | bit k hk => exact ((mul_xPow i hi).2.2 j hj).2 k hk

protected theorem one_mul (a : UInt8) : mul 1 a = a := by
  induction a using xor_induction with
  | zero => rw [Field256.mul_zero]
  | xor a b ha hb => rw [mul_xor, ha, hb]
  | bit i hi => exact (mul_xPow i hi).1

/-! ### The field -/

/-- A byte as an element of the field. -/
@[ext] structure Element where
  byte : UInt8
  deriving DecidableEq

namespace Element

instance : Zero Element := ⟨⟨0⟩⟩
instance : One Element := ⟨⟨1⟩⟩
instance : Add Element := ⟨fun a b => ⟨a.byte ^^^ b.byte⟩⟩
instance : Neg Element := ⟨id⟩
instance : Mul Element := ⟨fun a b => ⟨mul a.byte b.byte⟩⟩
instance : Inv Element := ⟨fun a => ⟨inv a.byte⟩⟩

@[simp] theorem byte_zero : (0 : Element).byte = 0 := rfl
@[simp] theorem byte_add (a b : Element) : (a + b).byte = a.byte ^^^ b.byte := rfl
@[simp] theorem byte_mul (a b : Element) : (a * b).byte = mul a.byte b.byte := rfl

instance : CommRing Element := CommRing.ofMinimalAxioms
  (fun _ _ _ => Element.ext (UInt8.xor_assoc _ _ _)) (fun _ => Element.ext UInt8.zero_xor)
  (fun _ => Element.ext UInt8.xor_self) (fun _ _ _ => Element.ext (Field256.mul_assoc _ _ _))
  (fun _ _ => Element.ext (Field256.mul_comm _ _)) (fun _ => Element.ext (Field256.one_mul _))
  (fun _ _ _ => Element.ext (mul_xor _ _ _))

theorem byte_pow (a : Element) (n : Nat) : (a ^ n).byte = pow a.byte n := by
  induction n with
  | zero => rw [pow_zero]; rfl
  | succ n ih => rw [pow_succ', byte_mul, ih]; rfl

instance : Nontrivial Element := ⟨0, 1, by decide⟩

instance : CharP Element 2 := CharTwo.of_one_ne_zero_of_two_eq_zero one_ne_zero
  (one_add_one_eq_two.symm.trans (Element.ext UInt8.xor_self))

theorem byte_sq (a : Element) : (a ^ 2).byte = square a.byte := by
  rw [sq, byte_mul, square]

/-- Taking the power 256 is linear, so this too is checked on the powers of x. -/
theorem pow_card (a : Element) : a ^ 256 = a := by
  obtain ⟨a⟩ := a
  induction a using xor_induction with
  | zero => exact zero_pow (by decide : 256 ≠ 0)
  | xor a b ha hb =>
    have hsum : (⟨a ^^^ b⟩ : Element) = ⟨a⟩ + ⟨b⟩ := rfl
    have hlinear : ((⟨a⟩ : Element) + ⟨b⟩) ^ 2 ^ 8 = ⟨a⟩ ^ 2 ^ 8 + ⟨b⟩ ^ 2 ^ 8 := add_pow_char_pow _ _ 2 8
    norm_num only at hlinear
    rw [hsum, hlinear, ha, hb]
  | bit i hi =>
    have hsquares (e : Element) : e ^ 256 = (((((((e ^ 2) ^ 2) ^ 2) ^ 2) ^ 2) ^ 2) ^ 2) ^ 2 := by
      simp only [← pow_mul, Nat.reduceMul]
    apply Element.ext
    rw [hsquares]
    simp only [byte_sq]
    exact (mul_xPow i hi).2.1

theorem eq_zero_or_one_of_idem (e : Element) (h : e * e = e) : e = 0 ∨ e = 1 := by
  have hn := (bytes_checked e.byte.toNat e.byte.toNat_lt).2
  rw [UInt8.ofNat_toNat] at hn
  exact (hn (congrArg byte h)).imp Element.ext Element.ext

theorem inv_eq_pow (a : Element) : a⁻¹ = a ^ 254 := Element.ext (byte_pow a 254).symm

theorem mul_inv_cancel (a : Element) (ha : a ≠ 0) : a * a⁻¹ = 1 := by
  have hpow : a * a⁻¹ = a ^ 255 := by rw [inv_eq_pow, ← pow_succ']
  rw [hpow]
  -- The power 255 squares to itself, as the power 256 is the identity.
  have hidem : a ^ 255 * a ^ 255 = a ^ 255 := by
    rw [← pow_add, show 255 + 255 = 256 + 254 from rfl, pow_add, pow_card, ← pow_succ']
  rcases eq_zero_or_one_of_idem _ hidem with h | h
  · have hzero : a = 0 := by rw [← pow_card a, pow_succ, h, zero_mul]
    exact absurd hzero ha
  · exact h

instance : Field Element where
  mul_inv_cancel := mul_inv_cancel
  inv_zero := (inv_eq_pow 0).trans (zero_pow (by decide))
  nnqsmul := _
  nnqsmul_def := fun _ _ => rfl
  qsmul := _
  qsmul_def := fun _ _ => rfl

theorem mk_injective : Function.Injective Element.mk := fun _ _ h => congrArg byte h

end Element

/-! ### Interpolation -/

open Polynomial

/-- The Lagrange weight of the value at `p` in the value at `x`. -/
noncomputable def lagrange (points : List UInt8) (x p : UInt8) : Element :=
  (Lagrange.basis points.toFinset Element.mk p).eval ⟨x⟩

theorem foldl_mul (g : UInt8 → Element) (points : List UInt8) (w : Element) :
    points.foldl (fun w q => mul w (g q).byte) w.byte = (w * (points.map g).prod).byte := by
  induction points generalizing w with
  | nil => rw [List.foldl_nil, List.map_nil, List.prod_nil, mul_one]
  | cons q points ih => rw [List.foldl_cons, ← Element.byte_mul, ih, List.map_cons, List.prod_cons, mul_assoc]

theorem weights_eq {points : List UInt8} (hpoints : points.Nodup) (x : UInt8) :
    weights points x = points.map fun p => (lagrange points x p).byte := by
  unfold weights
  refine List.map_congr_left fun p _ => ?_
  -- A difference is an exclusive or, so the factors are those of the basis polynomial.
  have hfold := foldl_mul (fun q => (⟨x⟩ - ⟨q⟩) * (⟨p⟩ - ⟨q⟩)⁻¹) (points.filter (· != p)) 1
  have herase : points.toFinset.erase p = (points.filter (· != p)).toFinset := by
    ext q
    simp [and_comm]
  have hnodup : (points.filter (· != p)).Nodup := hpoints.filter _
  refine hfold.trans (congrArg Element.byte ?_)
  rw [one_mul, lagrange, Lagrange.basis, eval_prod, herase, List.prod_toFinset _ hnodup]
  refine congrArg List.prod (List.map_congr_left fun q _ => ?_)
  rw [Lagrange.basisDivisor, eval_mul, eval_C, eval_sub, eval_X, eval_C, mul_comm]

theorem sum_lagrange {points : List UInt8} (hpoints : points.Nodup) {f : Element[X]}
    (hf : f.degree < points.length) (x : UInt8) :
    (points.map fun p => lagrange points x p * f.eval ⟨p⟩).sum = f.eval ⟨x⟩ := by
  have hcard : points.toFinset.card = points.length := List.toFinset_card_of_nodup hpoints
  have heq := Lagrange.eq_interpolate (f := f) (Element.mk_injective.injOn (s := points.toFinset)) (hcard ▸ hf)
  conv_rhs => rw [heq, Lagrange.interpolate_apply, eval_finsetSum, List.sum_toFinset _ hpoints]
  refine congrArg List.sum (List.map_congr_left fun p _ => ?_)
  rw [eval_mul, eval_C, mul_comm, lagrange]

end MicroBlock.Field256
