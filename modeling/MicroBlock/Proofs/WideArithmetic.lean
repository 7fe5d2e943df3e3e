import Mathlib
import MicroBlock.Proofs.Computations

/-! Wide multiplication and division.

A long holds the product of two words and the dividend of a division. Quotient and remainder are two fragments of
one record, which both read the long and the divisor before either is overwritten, and a division faults on the size of
the quotient. That the quotient is too large, or that there is none, shows in the high half of the dividend alone. -/

namespace MicroBlock

/-! ### Longs -/

namespace Arithmetic

theorem shift_eq : (32 : UInt64).toNat % 64 = 32 := rfl

/-- The two halves of a long. -/
theorem toNat_halves (p : UInt64) : (p >>> 32).toUInt32.toNat * 2 ^ 32 + p.toUInt32.toNat = p.toNat := by
  have := p.toNat_lt
  simp only [UInt64.toNat_toUInt32, UInt64.toNat_shiftRight, Nat.shiftRight_eq_div_pow, shift_eq]
  omega

theorem toNat_mulWide (a b : UInt32) : (mulWide a b).toNat = a.toNat * b.toNat := by
  have hlt : a.toNat * b.toNat < 2 ^ 32 * 2 ^ 32 := Nat.mul_lt_mul'' a.toNat_lt b.toNat_lt
  simp only [mulWide, UInt64.toNat_mul, UInt32.toNat_toUInt64]
  exact Nat.mod_eq_of_lt hlt

theorem toNat_concat (hi lo : UInt32) : (concat hi lo).toNat = hi.toNat * 2 ^ 32 + lo.toNat := by
  have hhi := hi.toNat_lt
  have hshift : hi.toNat <<< 32 % 2 ^ 64 = hi.toNat <<< 32 := Nat.mod_eq_of_lt (by rw [Nat.shiftLeft_eq]; omega)
  simp only [concat, UInt64.toNat_or, UInt64.toNat_shiftLeft, UInt32.toNat_toUInt64, shift_eq, hshift]
  rw [← Nat.shiftLeft_add_eq_or_of_lt lo.toNat_lt, Nat.shiftLeft_eq]

/-- The quotient of a long fits a word if and only if the high half is less than the divisor. -/
theorem concat_div_lt {hi d : UInt32} (lo : UInt32) (hd : d ≠ 0) :
    (concat hi lo / d.toUInt64).toNat < 2 ^ 32 ↔ hi.toNat < d.toNat := by
  have hlo := lo.toNat_lt
  have hpos : 0 < d.toNat := Nat.pos_of_ne_zero fun h => hd (UInt32.toNat_inj.mp h)
  rw [UInt64.toNat_div, toNat_concat, UInt32.toNat_toUInt64, Nat.div_lt_iff_lt_mul hpos]
  constructor <;> intro h <;> omega

theorem divide_eq_error {hi d : UInt32} (lo : UInt32) (h : d ≤ hi) : divide (concat hi lo) d = .error .divideError := by
  rw [divide]
  split
  · rfl
  next hd =>
  have hbig := mt (concat_div_lt lo hd).mp (Nat.not_lt.mpr (UInt32.le_iff_toNat_le.mp h))
  have hlt : (0xffffffff : UInt64) < concat hi lo / d.toUInt64 := by
    rw [UInt64.lt_iff_toNat_lt]
    exact Nat.lt_of_succ_le (Nat.not_lt.mp hbig)
  exact if_pos hlt

theorem exists_divide {hi d : UInt32} (lo : UInt32) (h : hi < d) :
    ∃ q r, divide (concat hi lo) d = .ok (q, r) ∧ q.toNat * d.toNat + r.toNat = hi.toNat * 2 ^ 32 + lo.toNat ∧ r < d := by
  have hlt := UInt32.lt_iff_toNat_lt.mp h
  have hd : d ≠ 0 := by
    rintro rfl
    exact absurd hlt (Nat.not_lt_zero _)
  have hq := (concat_div_lt lo hd).mpr hlt
  have hfits : ¬ (0xffffffff : UInt64) < concat hi lo / d.toUInt64 := by
    rw [UInt64.lt_iff_toNat_lt]
    exact Nat.not_lt.mpr (Nat.le_of_lt_succ hq)
  have hquotient : (concat hi lo / d.toUInt64).toUInt32.toNat = (concat hi lo).toNat / d.toNat := by
    rw [UInt64.toNat_toUInt32, Nat.mod_eq_of_lt hq, UInt64.toNat_div, UInt32.toNat_toUInt64]
  have hmod : (concat hi lo).toNat % d.toNat < d.toNat := Nat.mod_lt _ (Nat.zero_lt_of_lt hlt)
  have hremainder : (concat hi lo % d.toUInt64).toUInt32.toNat = (concat hi lo).toNat % d.toNat := by
    rw [UInt64.toNat_toUInt32, UInt64.toNat_mod, UInt32.toNat_toUInt64, Nat.mod_eq_of_lt (hmod.trans d.toNat_lt)]
  refine ⟨_, _, by rw [divide, if_neg hd]; exact if_neg hfits, ?_, ?_⟩
  · rw [hquotient, hremainder, ← toNat_concat, Nat.div_add_mod']
  · rwa [UInt32.lt_iff_toNat_lt, hremainder]

end Arithmetic

namespace Interpreter

/-! ### The ops of a multiplication and a division -/

section Ops
variable {mode : Mode} {values : Values} {place : Place} {m : Machine}

theorem gives_mul {a b : UInt32} (ha : values.get .reg0 = .ofUInt32 a) (hb : values.get .reg1 = .ofUInt32 b) :
    Gives values place (Lowering.targets mode .mul) m [(.long0, .word (Arithmetic.mulWide a b))] m := by
  have hbody : Builtin.mul64u.body [values.get .reg0, values.get .reg1] m =
      .ok (.word (Arithmetic.mulWide (values.get .reg0).toUInt32 (values.get .reg1).toUInt32), m) := rfl
  rw [ha, hb, Value.toUInt32_ofUInt32, Value.toUInt32_ofUInt32, ← ha, ← hb] at hbody
  exact gives_applied (by decide) rfl (by decide) hbody

theorem gives_mulFlags {p : UInt64} (hp : values.get .long0 = .word p) :
    Gives values place (Lowering.targets mode .mulFlags) m
      [(.flag .cf, .ofBool ((p >>> 32).toUInt32 != 0)), (.flag .of, .ofBool ((p >>> 32).toUInt32 != 0))] m := by
  have hsteps : Fragment.Yields [values.get .long0] place [.input 0, Lowering.call .hi32, Lowering.call .nonzero] [] m
      (.ok [.ofBool ((p >>> 32).toUInt32 != 0)]) m := by
    have hnonzero : Builtin.nonzero.body [.ofUInt32 (p >>> 32).toUInt32] m =
        .ok (.ofBool ((Value.ofUInt32 (p >>> 32).toUInt32).toUInt32 != 0), m) := rfl
    rw [Value.toUInt32_ofUInt32] at hnonzero
    rw [hp]
    exact .input (i := 0) rfl (.call [_] rfl rfl rfl (.call [_] rfl rfl hnonzero .nil))
  exact .cons rfl (by decide) hsteps.outcome_ok (.single rfl (by decide) hsteps.outcome_ok)

theorem gives_storePair {p : UInt64} (hp : values.get .long0 = .word p) :
    Gives values place (Lowering.targets mode .storePair) m
      [(.gpr .eax, .ofUInt32 p.toUInt32), (.gpr .edx, .ofUInt32 (p >>> 32).toUInt32)] m := by
  have hlo : Builtin.lo32.body [values.get .long0] m = .ok (.ofUInt32 p.toUInt32, m) := by
    rw [hp]
    rfl
  have hhi : Builtin.hi32.body [values.get .long0] m = .ok (.ofUInt32 (p >>> 32).toUInt32, m) := by
    rw [hp]
    rfl
  exact .cons rfl (by decide) (Fragment.outcome_applied rfl rfl hlo)
    (.single rfl (by decide) (Fragment.outcome_applied rfl rfl hhi))

theorem gives_loadPair {hi lo : UInt32} (hhi : values.get (.gpr .edx) = .ofUInt32 hi)
    (hlo : values.get (.gpr .eax) = .ofUInt32 lo) :
    Gives values place (Lowering.targets mode .loadPair) m [(.long0, .word (Arithmetic.concat hi lo))] m := by
  have hbody : Builtin.concat64.body [values.get (.gpr .edx), values.get (.gpr .eax)] m =
      .ok (.word (Arithmetic.concat (values.get (.gpr .edx)).toUInt32 (values.get (.gpr .eax)).toUInt32), m) := rfl
  rw [hhi, hlo, Value.toUInt32_ofUInt32, Value.toUInt32_ofUInt32, ← hhi, ← hlo] at hbody
  exact gives_applied (by decide) rfl (by decide) hbody

section Div
variable {p : UInt64} {d : UInt32} (hp : values.get .long0 = .word p) (hd : values.get .reg1 = .ofUInt32 d)
include hp hd

theorem divideBody_eq (pick : UInt32 × UInt32 → UInt32) :
    Builtin.divideBody pick [values.get .long0, values.get .reg1] m =
      (Builtin.ofFault (Arithmetic.divide p d)).map fun r => (.ofUInt32 (pick r), m) := by
  rw [hp, hd]
  change (Builtin.ofFault (Arithmetic.divide p (Value.ofUInt32 d).toUInt32) >>= fun r =>
    .ok (Value.ofUInt32 (pick r), m)) = _
  rw [Value.toUInt32_ofUInt32]
  cases Arithmetic.divide p d <;> rfl

/-- The quotient and the remainder are computed one after the other, of the same long and the same divisor. -/
theorem gives_div {q r : UInt32} (h : Arithmetic.divide p d = .ok (q, r)) :
    Gives values place (Lowering.targets mode .div) m [(.reg0, .ofUInt32 q), (.reg1, .ofUInt32 r)] m := by
  have hq : Builtin.divq32.body [values.get .long0, values.get .reg1] m = .ok (.ofUInt32 q, m) := by
    rw [show Builtin.divq32.body = Builtin.divideBody Prod.fst from rfl, divideBody_eq hp hd, h]
    rfl
  have hr : Builtin.divr32.body [values.get .long0, values.get .reg1] m = .ok (.ofUInt32 r, m) := by
    rw [show Builtin.divr32.body = Builtin.divideBody Prod.snd from rfl, divideBody_eq hp hd, h]
    rfl
  exact .cons rfl (by decide) (Fragment.outcome_applied rfl rfl hq)
    (.single rfl (by decide) (Fragment.outcome_applied rfl rfl hr))

theorem faultsWith_div {x : Fault} (h : Arithmetic.divide p d = .error x) :
    FaultsWith values place (Lowering.targets mode .div) m x := by
  have hq : Builtin.divq32.body [values.get .long0, values.get .reg1] m = .error (.fault x) := by
    rw [show Builtin.divq32.body = Builtin.divideBody Prod.fst from rfl, divideBody_eq hp hd, h]
    rfl
  exact ⟨[], _, _, [], rfl, .nil, Fragment.outcome_applied_error rfl rfl hq, rfl⟩

end Div
end Ops

/-! ### Blocks of one instruction -/

section Blocks
variable (mode : Mode) (r : Gpr) (m : Machine)

theorem exists_evaluates_mul :
    ∃ values p, Evaluates mode [.load0 .eax, .load1 r, .mul, .mulFlags, .storePair] (initialValues m) m values m ∧
      p = Arithmetic.mulWide (m.gpr.get .eax) (m.gpr.get r) ∧
      values.get (.gpr .eax) = .ofUInt32 p.toUInt32 ∧ values.get (.gpr .edx) = .ofUInt32 (p >>> 32).toUInt32 ∧
      values.get (.flag .cf) = .ofBool ((p >>> 32).toUInt32 != 0) ∧
      values.get (.flag .of) = .ofBool ((p >>> 32).toUInt32 != 0) ∧
      ∀ q, q ∉ [.gpr .eax, .gpr .edx, .flag .cf, .flag .of] → values.get (.reg q) = m.getReg q := by
  have hget (q : Register) : (initialValues m).get (.reg q) = m.getReg q := get_initialValues m (.reg q)
  have hgpr (e : Gpr) : (initialValues m).get (.gpr e) = .ofUInt32 (m.gpr.get e) := hget (.gpr e)
  generalize hp : Arithmetic.mulWide (m.gpr.get .eax) (m.gpr.get r) = p
  refine ⟨_, p, .copied rfl (by decide) (hgpr .eax) (.copied rfl (by decide) (v := .ofUInt32 (m.gpr.get r)) ?_
    (.step (fun _ => gives_mul (a := m.gpr.get .eax) (b := m.gpr.get r) ?_ ?_) (.step (fun _ => gives_mulFlags (p := p) ?_)
      (.step (fun _ => gives_storePair (p := p) ?_) .nil)))), rfl, ?_, ?_, ?_, ?_, fun q hq => ?_⟩
  · simp [Values.commit, Bank.get_set, hgpr]
  · simp [Values.commit, Bank.get_set]
  · simp [Values.commit]
  · simp [Values.commit, hp]
  · simp [Values.commit, Bank.get_set, hp]
  · simp [Values.commit, Bank.get_set]
  · simp [Values.commit]
  · simp [Values.commit, Bank.get_set]
  · simp [Values.commit, Bank.get_set]
  · simp only [List.mem_cons, List.not_mem_nil, or_false, not_or] at hq
    simp [Values.commit, Bank.get_set, hget, Ne.symm hq.1, Ne.symm hq.2.1, Ne.symm hq.2.2.1, Ne.symm hq.2.2.2]

/-- The operands of a division in their working registers. -/
theorem exists_evaluates_dividend :
    ∃ values, Evaluates mode [.loadPair, .load1 r] (initialValues m) m values m ∧
      values.get .long0 = .word (Arithmetic.concat (m.gpr.get .edx) (m.gpr.get .eax)) ∧
      values.get .reg1 = .ofUInt32 (m.gpr.get r) ∧ ∀ q, values.get (.reg q) = m.getReg q := by
  have hget (q : Register) : (initialValues m).get (.reg q) = m.getReg q := get_initialValues m (.reg q)
  have hgpr (e : Gpr) : (initialValues m).get (.gpr e) = .ofUInt32 (m.gpr.get e) := hget (.gpr e)
  refine ⟨_, .step (fun _ => gives_loadPair (hgpr .edx) (hgpr .eax))
    (.copied rfl (by decide) (v := .ofUInt32 (m.gpr.get r)) ?_ .nil), ?_, ?_, fun q => ?_⟩
  · simp [Values.commit, Bank.get_set, hgpr]
  · simp [Values.commit, Bank.get_set]
  · simp [Values.commit]
  · simp [Values.commit, Bank.get_set, hget]

variable {r m}

theorem exists_evaluates_div (h : m.gpr.get .edx < m.gpr.get r) :
    ∃ values q x, Evaluates mode [.loadPair, .load1 r, .div, .store0 .eax, .store1 .edx] (initialValues m) m values m ∧
      values.get (.gpr .eax) = .ofUInt32 q ∧ values.get (.gpr .edx) = .ofUInt32 x ∧
      q.toNat * (m.gpr.get r).toNat + x.toNat = (m.gpr.get .edx).toNat * 2 ^ 32 + (m.gpr.get .eax).toNat ∧
      x < m.gpr.get r ∧ ∀ q, q ∉ [.gpr .eax, .gpr .edx] → values.get (.reg q) = m.getReg q := by
  obtain ⟨values, heval, hlong, hreg, hget⟩ := exists_evaluates_dividend mode r m
  obtain ⟨q, x, hdivide, hsum, hlt⟩ := Arithmetic.exists_divide (m.gpr.get .eax) h
  refine ⟨_, q, x, heval.append (.step (fun _ => gives_div hlong hreg hdivide) (.copied rfl (by decide) (v := .ofUInt32 q) ?_
    (.copied rfl (by decide) (v := .ofUInt32 x) ?_ .nil))), ?_, ?_, hsum, hlt, fun e he => ?_⟩
  · simp [Values.commit, Bank.get_set]
  · simp [Values.commit, Bank.get_set]
  · simp [Values.commit, Bank.get_set]
  · simp [Values.commit]
  · simp only [List.mem_cons, List.not_mem_nil, or_false, not_or] at he
    simp [Values.commit, Bank.get_set, hget, Ne.symm he.1, Ne.symm he.2]

end Blocks

/-- Wide multiplication and division are exact. A multiplication leaves the product in EDX and EAX, and CF and OF tell
    whether EDX is needed for it. A division faults if and only if the high half of the dividend reaches the divisor, and
    leaves the machine as it was; otherwise EAX is the quotient and EDX the remainder. -/
theorem wide_arithmetic_exact (mode : Mode) (n : Int64) (r : Gpr) {c : Context} (hn : c.machine.Normalised) :
    (∃ s c', Stream.ofBlock [.ofOps n [.load0 .eax, .load1 r, .mul, .mulFlags, .storePair]] = .ok s ∧
      runMode mode .builtin s c = (.ok 1, c') ∧
      (c'.machine.gpr.get .edx).toNat * 2 ^ 32 + (c'.machine.gpr.get .eax).toNat =
        (c.machine.gpr.get .eax).toNat * (c.machine.gpr.get r).toNat ∧
      c'.machine.flags.get .cf = (if c'.machine.gpr.get .edx ≠ 0 then 1 else 0) ∧
      c'.machine.flags.get .of = (if c'.machine.gpr.get .edx ≠ 0 then 1 else 0) ∧
      ChangesOnly [.gpr .eax, .gpr .edx, .flag .cf, .flag .of] c.machine c'.machine) ∧
    (∃ s, Stream.ofBlock [.ofOps n [.loadPair, .load1 r, .div, .store0 .eax, .store1 .edx]] = .ok s ∧
      (Routes mode .divideError 0 c (runMode mode .builtin s c) ↔ c.machine.gpr.get r ≤ c.machine.gpr.get .edx) ∧
      (c.machine.gpr.get .edx < c.machine.gpr.get r → ∃ c', runMode mode .builtin s c = (.ok 1, c') ∧
        (c'.machine.gpr.get .eax).toNat * (c.machine.gpr.get r).toNat + (c'.machine.gpr.get .edx).toNat =
          (c.machine.gpr.get .edx).toNat * 2 ^ 32 + (c.machine.gpr.get .eax).toNat ∧
        c'.machine.gpr.get .edx < c.machine.gpr.get r ∧ ChangesOnly [.gpr .eax, .gpr .edx] c.machine c'.machine)) := by
  constructor
  · have hops : ∀ op ∈ ([.load0 .eax, .load1 r, .mul, .mulFlags, .storePair] : List Op), op.hasImmediate = false := by
      simp [Op.hasImmediate]
    obtain ⟨s, hs, hrecords, hcount⟩ := Stream.exists_ofBlock n hops (b := []) rfl
    obtain ⟨values, p, heval, rfl, heax, hedx, hcf, hof, hframe⟩ := exists_evaluates_mul mode r c.machine
    obtain ⟨c', hrun, hrest, hends⟩ := heval.exists_runMode (s := s) (by simp [hrecords, Stream.recordsOfOps]) hn
    refine ⟨s, c', hs, by rw [hrun, hcount]; rfl, ?_, ?_, ?_, changesOnly_of_ends hends hn hframe hrest⟩
    · rw [gpr_of_ends hends hedx, gpr_of_ends hends heax, Arithmetic.toNat_halves, Arithmetic.toNat_mulWide]
    · rw [flag_of_ends hends hcf, gpr_of_ends hends hedx]
      simp
    · rw [flag_of_ends hends hof, gpr_of_ends hends hedx]
      simp
  · have hops : ∀ op ∈ ([.loadPair, .load1 r, .div, .store0 .eax, .store1 .edx] : List Op), op.hasImmediate = false := by
      simp [Op.hasImmediate]
    obtain ⟨s, hs, hrecords, hcount⟩ := Stream.exists_ofBlock n hops (b := []) rfl
    have hcomplete (h : c.machine.gpr.get .edx < c.machine.gpr.get r) : ∃ c', runMode mode .builtin s c = (.ok 1, c') ∧
        (c'.machine.gpr.get .eax).toNat * (c.machine.gpr.get r).toNat + (c'.machine.gpr.get .edx).toNat =
          (c.machine.gpr.get .edx).toNat * 2 ^ 32 + (c.machine.gpr.get .eax).toNat ∧
        c'.machine.gpr.get .edx < c.machine.gpr.get r ∧ ChangesOnly [.gpr .eax, .gpr .edx] c.machine c'.machine := by
      obtain ⟨values, q, x, heval, heax, hedx, hsum, hlt, hframe⟩ := exists_evaluates_div mode h
      obtain ⟨c', hrun, hrest, hends⟩ := heval.exists_runMode (s := s) (by simp [hrecords, Stream.recordsOfOps]) hn
      refine ⟨c', by rw [hrun, hcount]; rfl, ?_, ?_, changesOnly_of_ends hends hn hframe hrest⟩
      · rw [gpr_of_ends hends heax, gpr_of_ends hends hedx, hsum]
      · rwa [gpr_of_ends hends hedx]
    refine ⟨s, hs, ⟨fun hroutes => ?_, fun h => ?_⟩, hcomplete⟩
    · by_contra hlt
      obtain ⟨c', hrun, -⟩ := hcomplete (UInt32.not_le.mp hlt)
      have hresult := hroutes.result
      rw [hrun] at hresult
      split at hresult <;> simp at hresult
    · obtain ⟨values, heval, hlong, hreg, -⟩ := exists_evaluates_dividend mode r c.machine
      exact heval.routes hn .div [.store0 .eax, .store1 .edx] hrecords
        fun _ => faultsWith_div hlong hreg (Arithmetic.divide_eq_error _ h)

/-- A divisor that is the high half of its own dividend. -/
theorem wide_arithmetic_exact_edx :
    ∃ m : Machine, m.Normalised ∧ m.gpr.get .edx = 7 ∧ ∃ s,
      Stream.ofBlock [.ofOps 2 [.loadPair, .load1 .edx, .div, .store0 .eax, .store1 .edx]] = .ok s ∧
      Routes .real .divideError 0 ⟨m, []⟩ (runMode .real .builtin s ⟨m, []⟩) := by
  have hn : ({ Machine.reset (.ofSize 0) with gpr := (Bank.replicate 0).set .edx 7 } : Machine).Normalised :=
    ⟨fun f => by cases f <;> decide, by decide⟩
  obtain ⟨-, s, hs, hroutes, -⟩ := wide_arithmetic_exact .real 2 .edx
    (c := ⟨{ Machine.reset (.ofSize 0) with gpr := (Bank.replicate 0).set .edx 7 }, []⟩) hn
  exact ⟨_, hn, by decide, s, hs, hroutes.mpr (UInt32.le_refl _)⟩

end Interpreter
end MicroBlock
