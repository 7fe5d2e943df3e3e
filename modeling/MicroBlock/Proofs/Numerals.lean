import Mathlib
import MicroBlock.Numeral

/-! Numerals are read back.

A numeral in plain decimal has no zero in front, no mark of a base and no underscore, so both readers take all of
its digits in base ten. -/

namespace MicroBlock.Numeral

/-! ### Digits -/

theorem digit?_of_isDigit {c : Char} (h : c.isDigit = true) : digit? c = some (c.toNat - '0'.toNat) := by
  simp only [Char.isDigit, Bool.and_eq_true, decide_eq_true_eq] at h
  exact if_pos h

theorem sub_lt_of_isDigit {c : Char} (h : c.isDigit = true) : c.toNat - '0'.toNat < 10 := by
  simp only [Char.isDigit, Bool.and_eq_true, decide_eq_true_eq] at h
  have hle : c.toNat ≤ '9'.toNat := h.2
  simp only [Char.reduceToNat] at hle ⊢
  omega

theorem le_ofDigitChars (cs : List Char) (n : Nat) : n ≤ Nat.ofDigitChars 10 cs n := by
  rw [Nat.ofDigitChars_eq_ofDigitChars_zero]
  exact (Nat.le_mul_of_pos_left n (by positivity)).trans (Nat.le_add_right _ _)

/-- A run of digits whose number fits is read to its end. -/
theorem scan_digits {cs : List Char} (hcs : ∀ c ∈ cs, c.isDigit = true) {n : Nat}
    (hn : Nat.ofDigitChars 10 cs n < UInt64.size) : scan 10 n cs = .ok (Nat.ofDigitChars 10 cs n) := by
  induction cs generalizing n with
  | nil => simp [scan]
  | cons c cs ih =>
    have hc := hcs c List.mem_cons_self
    rw [Nat.ofDigitChars_cons, Nat.mul_comm] at hn ⊢
    have hlt := (le_ofDigitChars cs _).trans_lt hn
    rw [scan, digit?_of_isDigit hc]
    simp only [if_pos (sub_lt_of_isDigit hc), if_pos hlt]
    exact ih (fun d hd => hcs d (List.mem_cons_of_mem _ hd)) hn

theorem scan_toDigits {n : Nat} (hn : n < UInt64.size) : scan 10 0 (Nat.toDigits 10 n) = .ok n := by
  have hdigits : ∀ c ∈ Nat.toDigits 10 n, c.isDigit = true := by
    intro c hc
    exact Nat.isDigit_of_mem_toDigits (by decide) (by decide) hc
  rw [scan_digits hdigits] <;> rw [Nat.ofDigitChars_ten_toDigits]
  exact hn

/-- The first digit of a positive number is not zero. -/
theorem head?_toDigits {n : Nat} (hn : 0 < n) : (Nat.toDigits 10 n).head? ≠ some '0' := by
  induction n using Nat.strongRecOn with
  | ind n ih =>
    rw [Nat.toDigits_eq_if (by decide)]
    split
    · next hlt => interval_cases n <;> decide
    · next hge =>
      have hpos : 0 < n / 10 := by omega
      rw [List.head?_append_of_ne_nil _ Nat.toDigits_ne_nil]
      exact ih _ (by omega) hpos

/-! ### Reading -/

theorem separated_of_not_mem {cs : List Char} (h : '_' ∉ cs) (free : Bool) : separated free cs = true := by
  fun_induction separated free cs with
  | case1 => rfl
  | case2 => simp at h
  | case3 => simp at h
  | case4 free c cs _ _ ih => exact ih (fun hmem => h (List.mem_cons_of_mem _ hmem))

theorem splitBase_of_head {cs : List Char} (h : cs.head? ≠ some '0') : splitBase cs = (10, false, cs) := by
  unfold splitBase
  split
  · simp at h
  · simp at h
  · rfl

theorem unsigned_toDigits {n : Nat} (hn : n < UInt64.size) : unsigned (Nat.toDigits 10 n) = .ok n := by
  have hempty : (Nat.toDigits 10 n).isEmpty = false := by simp
  rcases Nat.eq_zero_or_pos n with rfl | hpos
  · rfl
  · have hfilter : (Nat.toDigits 10 n).filter (· != '_') = Nat.toDigits 10 n := by
      rw [List.filter_eq_self]
      intro c hc
      rw [bne_iff_ne]
      rintro rfl
      exact Nat.underscore_not_in_toDigits hc
    simp only [unsigned, hempty, Bool.false_eq_true, if_false, splitBase_of_head (head?_toDigits hpos), hfilter,
      scan_toDigits hn, separated_of_not_mem Nat.underscore_not_in_toDigits, if_true]

theorem splitSign_of_isDigit {c : Char} {cs : List Char} (h : c.isDigit = true) :
    splitSign (c :: cs) = (false, c :: cs) := by
  unfold splitSign
  split
  · next heq =>
    cases heq
    exact absurd h (by decide)
  · next heq =>
    cases heq
    exact absurd h (by decide)
  · rfl

theorem splitSign_toDigits (n : Nat) : splitSign (Nat.toDigits 10 n) = (false, Nat.toDigits 10 n) := by
  cases hdigits : Nat.toDigits 10 n with
  | nil => exact absurd hdigits Nat.toDigits_ne_nil
  | cons c cs =>
    refine splitSign_of_isDigit (Nat.isDigit_of_mem_toDigits (b := 10) (n := n) (by decide) (by decide) ?_)
    rw [hdigits]
    exact List.mem_cons_self

/-- The sign and the digits of an integer. -/
theorem toList_repr (i : Int) :
    i.repr.toList = if i < 0 then '-' :: Nat.toDigits 10 i.natAbs else Nat.toDigits 10 i.natAbs := by
  rw [Int.repr_eq_if]
  by_cases hi : i < 0
  · have habs : (-i).toNat = i.natAbs := by omega
    rw [if_neg (by omega), if_pos hi, habs, Nat.repr_eq_ofList_toDigits]
    simp
  · have habs : i.toNat = i.natAbs := by omega
    rw [if_pos (by omega), if_neg hi, habs, Nat.repr_eq_ofList_toDigits, String.toList_ofList]

theorem splitSign_repr (i : Int) : splitSign i.repr.toList = (decide (i < 0), Nat.toDigits 10 i.natAbs) := by
  rw [toList_repr]
  by_cases hi : i < 0
  · simp [hi, splitSign]
  · simp [hi, splitSign_toDigits]

theorem withSign_natAbs {i : Int} (hlow : -2 ^ 63 ≤ i) (hhigh : i < 2 ^ 63) :
    withSign (decide (i < 0)) i.natAbs = .ok i := by
  unfold withSign
  by_cases hi : i < 0
  · simp only [hi, decide_true, if_true]
    rw [if_pos (by omega)]
    congr 1
    omega
  · simp only [hi, decide_false, Bool.false_eq_true, if_false]
    rw [if_pos (by omega)]
    congr 1
    omega

section Repr
variable {i : Int} (hlow : -2 ^ 63 ≤ i) (hhigh : i < 2 ^ 63)
include hlow hhigh

theorem natAbs_lt : i.natAbs < UInt64.size := by
  simp only [UInt64.size]
  omega

theorem read_repr : read i.repr = .ok i := by
  simp only [read, splitSign_repr, unsigned_toDigits (natAbs_lt hlow hhigh), withSign_natAbs hlow hhigh]

theorem readDecimal_repr : readDecimal i.repr = .ok i := by
  have hempty : (Nat.toDigits 10 i.natAbs).isEmpty = false := by simp
  simp only [readDecimal, splitSign_repr, hempty, Bool.false_eq_true, if_false,
    scan_toDigits (natAbs_lt hlow hhigh), withSign_natAbs hlow hhigh]

end Repr
end MicroBlock.Numeral
