import Mathlib
import MicroBlock.Proofs.Computations
import MicroBlock.Proofs.Segments

/-! The stack.

A push writes below the stack pointer and a pop reads at it. Both compute the address and the new stack pointer in two
fragments of one record, and where the stack pointer is 16 bits wide they wrap inside its low half. A push that gets
through has passed every check that the pop after it makes. -/

namespace MicroBlock

/-! ### Bytes and halves -/

theorem toNat_or_shiftLeft {x y k : UInt32} (hk : k.toNat < 32) (hx : x.toNat < 2 ^ k.toNat)
    (hy : y.toNat * 2 ^ k.toNat < 2 ^ 32) : (x ||| (y <<< k)).toNat = y.toNat * 2 ^ k.toNat + x.toNat := by
  rw [UInt32.toNat_or, UInt32.toNat_shiftLeft, Nat.mod_eq_of_lt hk, Nat.shiftLeft_eq, Nat.mod_eq_of_lt hy, Nat.or_comm,
    ← Nat.shiftLeft_eq, ← Nat.shiftLeft_add_eq_or_of_lt hx, Nat.shiftLeft_eq]

namespace Memory

theorem byte_setByte (m : Memory) (a k : Nat) (b : UInt8) :
    (m.setByte a b).byte k = if a = k ∧ a < m.size then b else m.byte k := by
  split
  · next h =>
    obtain ⟨rfl, h⟩ := h
    rw [setByte, dif_pos (show a < m.bytes.size from h)]
    obtain ⟨⟨data⟩⟩ := m
    have ha : a < data.size := h
    change (if h' : a < (data.set a b ha).size then (data.set a b ha)[a] else 0) = b
    rw [dif_pos (by rwa [Array.size_set]), Array.getElem_set_self]
  · next h =>
    by_cases hne : a = k
    · rw [setByte, dif_neg (show ¬ a < m.bytes.size from fun hlt => h ⟨hne, hlt⟩)]
    · exact byte_setByte_of_ne m hne b

/-- A write puts down the bytes of its value in little-endian order. -/
theorem byte_poke {m : Memory} {a i : Nat} {w : Width} (h : a + w.bytes ≤ m.size) (hi : i < w.bytes) (v : UInt32) :
    (m.poke a w v).byte (a + i) = (v >>> UInt32.ofNat (8 * i)).toUInt8 := by
  cases w with
  | byte =>
    rw [Width.bytes] at h hi
    obtain rfl : i = 0 := by omega
    have h0 : a < m.size := by omega
    simp [poke, byte_setByte, h0]
  | word =>
    rw [Width.bytes] at h hi
    have h0 : a < m.size := by omega
    have h1 : a + 1 < m.size := by omega
    interval_cases i <;> simp [poke, byte_setByte, size_setByte, h0, h1]
  | dword =>
    rw [Width.bytes] at h hi
    have h0 : a < m.size := by omega
    have h1 : a + 1 < m.size := by omega
    have h2 : a + 2 < m.size := by omega
    have h3 : a + 3 < m.size := by omega
    interval_cases i <;> simp [poke, byte_setByte, size_setByte, h0, h1, h2, h3]

theorem byte_poke_of_lt (m : Memory) {a k : Nat} (h : k < a) (w : Width) (v : UInt32) :
    (m.poke a w v).byte k = m.byte k := by
  cases w <;> simp (disch := omega) only [poke, byte_setByte_of_ne]

/-- The value at an address is put together from its bytes. -/
theorem toNat_peek (m : Memory) (a : Nat) (w : Width) :
    (m.peek a w).toNat = ∑ i ∈ Finset.range w.bytes, (m.byte (a + i)).toNat * 2 ^ (8 * i) := by
  have h0 := (m.byte a).toNat_lt
  have h1 := (m.byte (a + 1)).toNat_lt
  have h2 := (m.byte (a + 2)).toNat_lt
  have h3 := (m.byte (a + 3)).toNat_lt
  cases w with
  | byte => simp [peek, Width.bytes]
  | word =>
    rw [peek, toNat_or_shiftLeft (by decide)] <;> simp [Width.bytes, Finset.sum_range_succ] <;> omega
  | dword =>
    have hlow : ((m.byte a).toUInt32 ||| ((m.byte (a + 1)).toUInt32 <<< 8)).toNat =
        (m.byte (a + 1)).toNat * 2 ^ 8 + (m.byte a).toNat := by
      rw [toNat_or_shiftLeft (by decide)] <;> simp <;> omega
    have hmid : ((m.byte a).toUInt32 ||| ((m.byte (a + 1)).toUInt32 <<< 8) ||| ((m.byte (a + 2)).toUInt32 <<< 16)).toNat =
        (m.byte (a + 2)).toNat * 2 ^ 16 + ((m.byte (a + 1)).toNat * 2 ^ 8 + (m.byte a).toNat) := by
      rw [toNat_or_shiftLeft (by decide)] <;> simp [hlow] <;> omega
    rw [peek, toNat_or_shiftLeft (by decide)] <;> simp [hmid, Width.bytes, Finset.sum_range_succ] <;> omega

/-- What was written is read back, cut to the width. -/
theorem toNat_peek_poke {m : Memory} {a : Nat} {w : Width} (h : a + w.bytes ≤ m.size) (v : UInt32) :
    ((m.poke a w v).peek a w).toNat = v.toNat % 2 ^ w.bits := by
  have hv := v.toNat_lt
  have hbyte (i : Nat) (hi : i < w.bytes) : ((m.poke a w v).byte (a + i)).toNat = v.toNat / 2 ^ (8 * i) % 2 ^ 8 := by
    have hlt : 8 * i < 32 := by cases w <;> simp only [Width.bytes] at hi <;> omega
    rw [byte_poke h hi, UInt32.toNat_toUInt8, UInt32.toNat_shiftRight, Nat.shiftRight_eq_div_pow]
    simp [Nat.mod_eq_of_lt hlt]
  have hsum : ((m.poke a w v).peek a w).toNat = ∑ i ∈ Finset.range w.bytes, v.toNat / 2 ^ (8 * i) % 2 ^ 8 * 2 ^ (8 * i) := by
    rw [toNat_peek]
    exact Finset.sum_congr rfl fun i hi => by rw [hbyte i (Finset.mem_range.mp hi)]
  rw [hsum]
  cases w <;> simp [Width.bits, Width.bytes, Finset.sum_range_succ] <;> omega

end Memory

namespace Arithmetic

theorem toNat_and_highHalf (a : UInt32) : (a &&& 0xffff0000).toNat = a.toNat / 2 ^ 16 * 2 ^ 16 := by
  have hmask : (0xffff0000 : UInt32).toNat = (2 ^ 16 - 1) <<< 16 := rfl
  rw [UInt32.toNat_and, hmask, ← Nat.shiftRight_eq_div_pow, ← Nat.shiftLeft_eq]
  refine Nat.eq_of_testBit_eq fun i => ?_
  rw [Nat.testBit_and, Nat.testBit_shiftLeft, Nat.testBit_two_pow_sub_one, Nat.testBit_shiftLeft, Nat.testBit_shiftRight]
  by_cases hi : 16 ≤ i
  · by_cases hi' : i < 32
    · simp [hi, show i - 16 < 16 by omega]
    · have hbit : a.toNat.testBit i = false :=
        Nat.testBit_lt_two_pow (a.toNat_lt.trans_le (Nat.pow_le_pow_right (by decide) (by omega)))
      simp [hi, hbit]
  · simp [hi]

theorem toNat_and_lowHalf (a : UInt32) : (a &&& 0xffff).toNat = a.toNat % 2 ^ 16 :=
  Nat.and_two_pow_sub_one_eq_mod a.toNat 16

theorem toNat_mergeHalf (a b : UInt32) : (mergeHalf a b).toNat = a.toNat / 2 ^ 16 * 2 ^ 16 + b.toNat % 2 ^ 16 := by
  rw [mergeHalf, UInt32.toNat_or, toNat_and_highHalf, toNat_and_lowHalf, ← Nat.shiftLeft_eq,
    ← Nat.shiftLeft_add_eq_or_of_lt (Nat.mod_lt _ (by decide))]

end Arithmetic

/-! ### The stack pointer -/

namespace Lowering

/-- The stack pointer moved by some bytes, inside its low half where it wraps at 16 bits. -/
def stackPointer (wraps : Bool) (esp delta : UInt32) : UInt32 :=
  if wraps then Arithmetic.mergeHalf esp (esp + delta) else esp + delta

/-- The stack offset that a stack pointer stands for. -/
def stackOffset (wraps : Bool) (esp : UInt32) : UInt32 := if wraps then esp &&& 0xffff else esp

/-- Moving the stack pointer down and up again leaves it where it was. -/
theorem stackPointer_stackPointer (wraps : Bool) (esp size : UInt32) :
    stackPointer wraps (stackPointer wraps esp (-size)) size = esp := by
  cases wraps with
  | false => simp [stackPointer]
  | true =>
    have h := esp.toNat_lt
    have hs := size.toNat_lt
    rw [stackPointer, stackPointer, if_pos rfl, if_pos rfl, ← UInt32.toNat_inj]
    simp only [Arithmetic.toNat_mergeHalf, UInt32.toNat_add, UInt32.toNat_neg, UInt32.size]
    omega

/-- The stack pointer of a push stands for the offset that the push writes to. -/
theorem stackOffset_stackPointer (wraps : Bool) (esp delta : UInt32) :
    stackOffset wraps (stackPointer wraps esp delta) = stackOffset wraps (esp + delta) := by
  cases wraps with
  | false => rfl
  | true =>
    rw [stackOffset, stackOffset, stackPointer, if_pos rfl, if_pos rfl, if_pos rfl, ← UInt32.toNat_inj]
    simp only [Arithmetic.toNat_and_lowHalf, Arithmetic.toNat_mergeHalf]
    omega

end Lowering

/-! ### Accesses -/

/-- A segment that may be written may be read. -/
theorem Segment.linear?_of_write {seg : Option Segment} {offset a : UInt32} {size : UInt64}
    (h : linear? seg offset size true = .ok a) (write : Bool) : linear? seg offset size write = .ok a := by
  cases seg with
  | none => exact absurd h (by simp [linear?])
  | some seg =>
    cases write with
    | true => exact h
    | false =>
      simp only [linear?, linear] at h ⊢
      split_ifs at h ⊢ <;> simp_all

/-- The linear address of an access, or the fault that the segment or the end of memory raises. -/
def Machine.access (m : Machine) (seg : Option Segment) (offset : UInt32) (w : Width) (write : Bool) :
    Except Fault UInt32 := do
  let a ← Segment.linear? seg offset w.bytes.toUInt64 write
  if m.memory.size < a.toNat + w.bytes then .error (.pageFault a write) else .ok a

theorem Machine.access_eq_ok {m : Machine} {seg : Option Segment} {offset a : UInt32} {w : Width} {write : Bool} :
    m.access seg offset w write = .ok a ↔
      Segment.linear? seg offset w.bytes.toUInt64 write = .ok a ∧ a.toNat + w.bytes ≤ m.memory.size := by
  rw [access]
  cases Segment.linear? seg offset w.bytes.toUInt64 write with
  | error x => simp [bind, Except.bind]
  | ok a' =>
    simp only [bind, Except.bind]
    split <;> simp <;> grind

/-- The linear address that a push writes to, or the fault it raises. -/
def Machine.pushTarget (m : Machine) (mode : Mode) (w : Width) : Except Fault UInt32 :=
  m.access (m.segs.get .ss) (Lowering.stackOffset mode.wraps16 (m.gpr.get .esp - UInt32.ofNat w.bytes)) w true

namespace Builtin
variable (w : Width) (seg : Option Segment) (offset v : UInt32) (m : Machine)

theorem body_write :
    (write w).body [.cpu, .segment seg, .ofUInt32 offset, .ofUInt32 v] m =
      (ofFault (m.access seg offset w true)).map fun a => (.zero, { m with memory := m.memory.poke a.toNat w v }) := by
  change (ofFault (Segment.linear? seg (Value.ofUInt32 offset).toUInt32 w.bytes.toUInt64 true) >>= fun a =>
    ofFault (m.memory.write a w (Value.ofUInt32 v).toUInt32) >>= fun memory => .ok (Value.zero, { m with memory })) = _
  rw [Value.toUInt32_ofUInt32, Value.toUInt32_ofUInt32, Machine.access]
  cases Segment.linear? seg offset w.bytes.toUInt64 true with
  | error x => rfl
  | ok a =>
    change (ofFault (if m.memory.size < a.toNat + w.bytes then .error (.pageFault a true) else .ok (m.memory.poke a.toNat w v)) >>=
      fun memory => .ok (Value.zero, { m with memory })) = (ofFault (if m.memory.size < a.toNat + w.bytes then .error (.pageFault a true) else .ok a)).map _
    split_ifs <;> rfl

theorem body_read :
    (read w).body [.cpu, .segment seg, .ofUInt32 offset] m =
      (ofFault (m.access seg offset w false)).map fun a => (.ofUInt32 (m.memory.peek a.toNat w), m) := by
  change (ofFault (Segment.linear? seg (Value.ofUInt32 offset).toUInt32 w.bytes.toUInt64 false) >>= fun a =>
    ofFault (m.memory.read a w) >>= fun v => .ok (Value.ofUInt32 v, m)) = _
  rw [Value.toUInt32_ofUInt32, Machine.access]
  cases Segment.linear? seg offset w.bytes.toUInt64 false with
  | error x => rfl
  | ok a =>
    change (ofFault (if m.memory.size < a.toNat + w.bytes then .error (.pageFault a false) else .ok (m.memory.peek a.toNat w)) >>=
      fun v => .ok (Value.ofUInt32 v, m)) = (ofFault (if m.memory.size < a.toNat + w.bytes then .error (.pageFault a false) else .ok a)).map _
    split_ifs <;> rfl

end Builtin

/-! ### The ops -/

namespace Fragment
variable {wraps : Bool} {vs : List Value} {p : Place} {m : Machine}

/-- The offset on the stack is cut to its low half where it wraps. -/
theorem Yields.wrapped {v : UInt32} {first rest : List Step} {stack below : List Value} {m' : Machine}
    {r : Except EvalError (List Value)}
    (h : ∀ ss, Yields vs p ss (.ofUInt32 v :: below) m r m' → Yields vs p (first ++ ss) stack m r m')
    (hrest : Yields vs p rest (.ofUInt32 (Lowering.stackOffset wraps v) :: below) m r m') :
    Yields vs p (Lowering.wrapped wraps first ++ rest) stack m r m' := by
  cases wraps with
  | false => exact h rest hrest
  | true =>
    rw [Lowering.wrapped, if_pos rfl, List.append_assoc]
    exact h _ (.unary ⟨rfl, rfl, rfl⟩ hrest)

end Fragment

namespace Interpreter

section Ops
variable {mode : Mode} {values : Values} {place : Place} {m : Machine} {w : StackWidth} {seg : Option Segment}
  {esp a : UInt32} {x : Fault}

theorem outcome_movedStack (hesp : values.get (.gpr .esp) = .ofUInt32 esp) (place : Place) (m : Machine) (wraps : Bool)
    (op : Op) (delta : Int) :
    (Lowering.movedStack wraps op delta).outcome [values.get (.gpr .esp)] place m =
      (.ok (.ofUInt32 (Lowering.stackPointer wraps esp (UInt32.ofInt delta))), m) := by
  rw [hesp]
  have hsteps : Fragment.Yields [.ofUInt32 esp] place (Lowering.movedStack wraps op delta).steps [] m
      (.ok [.ofUInt32 (Lowering.stackPointer wraps esp (UInt32.ofInt delta))]) m := by
    cases wraps with
    | false => exact .input (i := 0) rfl (.literal (.binary ⟨rfl, rfl, rfl⟩ .nil))
    | true =>
      exact .input (i := 0) rfl (.input (i := 0) rfl (.literal (.binary ⟨rfl, rfl, rfl⟩ (.binary ⟨rfl, rfl, rfl⟩ .nil))))
  exact hsteps.outcome_ok

section Push
variable {v : UInt32} (hcpu : values.get .cpu = .cpu) (hseg : values.get (.seg .ss) = .segment seg)
  (hesp : values.get (.gpr .esp) = .ofUInt32 esp) (hreg : values.get .reg0 = .ofUInt32 v)
include hcpu hseg hesp hreg

/-- The steps of a push write below the stack pointer. -/
theorem yields_push (place : Place) {r : Except Fragment.EvalError (List Value)} {m' : Machine} (wraps : Bool)
    (h : Fragment.Yields ([.cpu, .seg .ss, .gpr .esp, .reg0].map values.get) place [Lowering.call (.write w.width)]
      [.ofUInt32 v, .ofUInt32 (Lowering.stackOffset wraps (esp - UInt32.ofNat w.width.bytes)), .segment seg, .cpu] m r m') :
    Fragment.Yields ([.cpu, .seg .ss, .gpr .esp, .reg0].map values.get) place
      ([.input 0, .input 1] ++ Lowering.wrapped wraps [.input 2, Lowering.const (-w.width.bytes), Lowering.call .add32] ++
       [.input 3, Lowering.call (.write w.width)]) [] m r m' := by
  rw [UInt32.sub_eq_add_neg, ← ofInt_natCast, ← UInt32.ofInt_neg] at h
  rw [List.append_assoc]
  simp only [List.map_cons, List.map_nil, hcpu, hseg, hesp, hreg] at h ⊢
  exact .input (i := 0) rfl (.input (i := 1) rfl (.wrapped (fun _ hss =>
    .input (i := 2) rfl (.literal (.binary ⟨rfl, rfl, rfl⟩ hss))) (.input (i := 3) rfl h)))

theorem gives_push
    (h : m.access seg (Lowering.stackOffset mode.wraps16 (esp - UInt32.ofNat w.width.bytes)) w.width true = .ok a) :
    Gives values place (Lowering.targets mode (.push w)) m
      [(.gpr .esp, .ofUInt32 (Lowering.stackPointer mode.wraps16 esp (-UInt32.ofNat w.width.bytes)))]
      { m with memory := m.memory.poke a.toNat w.width v } := by
  have hbody := Builtin.body_write w.width seg (Lowering.stackOffset mode.wraps16 (esp - UInt32.ofNat w.width.bytes)) v m
  rw [h] at hbody
  have hmoved := outcome_movedStack hesp place m mode.wraps16 (.push w) (-w.width.bytes)
  rw [UInt32.ofInt_neg, ofInt_natCast] at hmoved
  have hsteps := yields_push hcpu hseg hesp hreg place mode.wraps16 (.call [_, _, _, _] rfl rfl hbody .nil)
  exact .cons rfl (by decide) hmoved (.effect rfl hsteps.outcome_effect .nil)

theorem faultsWith_push
    (h : m.access seg (Lowering.stackOffset mode.wraps16 (esp - UInt32.ofNat w.width.bytes)) w.width true = .error x) :
    FaultsWith values place (Lowering.targets mode (.push w)) m x := by
  have hbody := Builtin.body_write w.width seg (Lowering.stackOffset mode.wraps16 (esp - UInt32.ofNat w.width.bytes)) v m
  rw [h] at hbody
  have hmoved := outcome_movedStack hesp place m mode.wraps16 (.push w) (-w.width.bytes)
  have hsteps := yields_push hcpu hseg hesp hreg place mode.wraps16 (.call_error [_, _, _, _] rfl rfl hbody)
  exact ⟨[_], _, [], _, rfl, .single (e := .gpr .esp) rfl (by decide) hmoved, hsteps.outcome_error, rfl⟩

end Push

theorem gives_pop (hcpu : values.get .cpu = .cpu) (hseg : values.get (.seg .ss) = .segment seg)
    (hesp : values.get (.gpr .esp) = .ofUInt32 esp)
    (h : m.access seg (Lowering.stackOffset mode.wraps16 esp) w.width false = .ok a) :
    Gives values place (Lowering.targets mode (.pop w)) m
      [(.gpr .esp, .ofUInt32 (Lowering.stackPointer mode.wraps16 esp (UInt32.ofNat w.width.bytes))),
       (.reg0, .ofUInt32 (m.memory.peek a.toNat w.width))] m := by
  have hbody := Builtin.body_read w.width seg (Lowering.stackOffset mode.wraps16 esp) m
  rw [h] at hbody
  have hmoved := outcome_movedStack hesp place m mode.wraps16 (.pop w) w.width.bytes
  rw [ofInt_natCast] at hmoved
  have hsteps : Fragment.Yields ([.cpu, .seg .ss, .gpr .esp].map values.get) place
      ([.input 0, .input 1] ++ Lowering.wrapped mode.wraps16 [.input 2] ++ [Lowering.call (.read w.width)]) [] m
      (.ok [.ofUInt32 (m.memory.peek a.toNat w.width)]) m := by
    rw [List.append_assoc]
    simp only [List.map_cons, List.map_nil, hcpu, hseg, hesp]
    exact .input (i := 0) rfl (.input (i := 1) rfl (.wrapped (fun _ hss => .input (i := 2) rfl hss)
      (.call [_, _, _] rfl rfl hbody .nil)))
  exact .cons rfl (by decide) hmoved (.single rfl (by decide) hsteps.outcome_ok)

end Ops

/-! ### The block -/

section Block
variable (mode : Mode) (w : StackWidth) (r s : Gpr) (m : Machine)

/-- The register to be pushed in its working register. -/
theorem exists_evaluates_load0 :
    ∃ values, Evaluates mode [.load0 r] (initialValues m) m values m ∧ values.get .reg0 = .ofUInt32 (m.gpr.get r) ∧
      values.get .cpu = .cpu ∧ ∀ q, values.get (.reg q) = m.getReg q := by
  have hget (q : Register) : (initialValues m).get (.reg q) = m.getReg q := get_initialValues m (.reg q)
  have hcpu : (initialValues m).get .cpu = .cpu := get_initialValues m .cpu
  refine ⟨_, .copied rfl (by decide) (hget (.gpr r)) .nil, ?_, ?_, fun q => ?_⟩
  · simp [Values.commit]
    rfl
  · simp [Values.commit, Bank.get_set, hcpu]
  · simp [Values.commit, Bank.get_set, hget]

variable {m}

theorem exists_evaluates_pushPop {a : UInt32} (h : m.pushTarget mode w.width = .ok a) :
    ∃ values memory, memory = m.memory.poke a.toNat w.width (m.gpr.get r) ∧
      Evaluates mode [.load0 r, .push w, .pop w, .store0 s] (initialValues m) m values { m with memory } ∧
      values.get (.gpr s) = .ofUInt32 (memory.peek a.toNat w.width) ∧
      ∀ q, q ∉ [.gpr s] → values.get (.reg q) = m.getReg q := by
  obtain ⟨values, hload, hreg, hcpu, hget⟩ := exists_evaluates_load0 mode r m
  generalize hmemory : m.memory.poke a.toNat w.width (m.gpr.get r) = memory
  have hpush (place : Place) : Gives values place (Lowering.targets mode (.push w)) m
      [(.gpr .esp, .ofUInt32 (Lowering.stackPointer mode.wraps16 (m.gpr.get .esp) (-UInt32.ofNat w.width.bytes)))]
      { m with memory } :=
    hmemory ▸ gives_push hcpu (hget (.seg .ss)) (hget (.gpr .esp)) hreg h
  -- the segment that took the write and the memory that it fits let the read through
  have hread : ({ m with memory } : Machine).access (m.segs.get .ss) (Lowering.stackOffset mode.wraps16
      (Lowering.stackPointer mode.wraps16 (m.gpr.get .esp) (-UInt32.ofNat w.width.bytes))) w.width false = .ok a := by
    obtain ⟨hlinear, hfits⟩ := Machine.access_eq_ok.mp h
    rw [Lowering.stackOffset_stackPointer, ← UInt32.sub_eq_add_neg]
    refine Machine.access_eq_ok.mpr ⟨Segment.linear?_of_write hlinear false, ?_⟩
    rwa [← hmemory, Memory.size_poke]
  refine ⟨_, memory, rfl, hload.append (.step hpush (.step (fun _ => gives_pop ?_ ?_ ?_ hread)
    (.copied rfl (by cases s <;> decide) (v := .ofUInt32 (memory.peek a.toNat w.width)) ?_ .nil))), ?_, fun q hq => ?_⟩
  · simp [Values.commit, Bank.get_set, hcpu]
  · simp [Values.commit, Bank.get_set, hget]
    rfl
  · simp [Values.commit]
  · simp [Values.commit]
  · simp [Values.commit]
  · rw [List.mem_singleton] at hq
    by_cases hesp : q = .gpr .esp
    · subst hesp
      simp [Values.commit, Bank.get_set, Ne.symm hq, Lowering.stackPointer_stackPointer]
      rfl
    · simp [Values.commit, Bank.get_set, hget, Ne.symm hq, Ne.symm hesp]

end Block

/-- A pop undoes a push. Either the push faults and leaves the machine as it was, or both instructions complete: the
    register popped into holds the value pushed, cut to the width; every other register, ESP among them, is as it was;
    and no byte has changed outside those that the push wrote. -/
theorem pop_undoes_push (mode : Mode) (n₁ n₂ : Int64) (w : StackWidth) (r s : Gpr) {c : Context}
    (hn : c.machine.Normalised) :
    ∃ b, Stream.ofBlock [.ofOps n₁ [.load0 r, .push w], .ofOps n₂ [.pop w, .store0 s]] = .ok b ∧
      ((∃ x, c.machine.pushTarget mode w.width = .error x ∧ Routes mode x 0 c (runMode mode .builtin b c)) ∨
       ∃ a c', c.machine.pushTarget mode w.width = .ok a ∧ runMode mode .builtin b c = (.ok 2, c') ∧
         (c'.machine.gpr.get s).toNat = (c.machine.gpr.get r).toNat % 2 ^ w.width.bits ∧
         ChangesOnly [.gpr s] { c.machine with memory := c'.machine.memory } c'.machine ∧
         c'.machine.memory.size = c.machine.memory.size ∧
         ∀ k, k < a.toNat ∨ a.toNat + w.width.bytes ≤ k → c'.machine.memory.byte k = c.machine.memory.byte k) := by
  have hpush : ∀ op ∈ ([.load0 r, .push w] : List Op), op.hasImmediate = false := by simp [Op.hasImmediate]
  have hpop : ∀ op ∈ ([.pop w, .store0 s] : List Op), op.hasImmediate = false := by simp [Op.hasImmediate]
  obtain ⟨b, hb, hrecords, hcount⟩ := Stream.exists_ofBlock n₁ hpush (Stream.recordsFrom_ofOps (n := n₂) hpop (b := []) rfl)
  refine ⟨b, hb, ?_⟩
  cases htarget : c.machine.pushTarget mode w.width with
  | error x =>
    obtain ⟨values, heval, hreg, hcpu, hget⟩ := exists_evaluates_load0 mode r c.machine
    exact .inl ⟨x, rfl, heval.routes hn (.push w) [] hrecords
      fun _ => faultsWith_push hcpu (hget (.seg .ss)) (hget (.gpr .esp)) hreg htarget⟩
  | ok a =>
    obtain ⟨values, memory, hmemory, heval, hvalue, hframe⟩ := exists_evaluates_pushPop mode w r s htarget
    obtain ⟨c', hrun, hrest, hends⟩ := heval.exists_runMode (s := b) (by simp [hrecords, Stream.recordsOfOps]) hn
    have hfits := (Machine.access_eq_ok.mp htarget).2
    have hc' : c'.machine.memory = memory := hrest.memory
    refine .inr ⟨a, c', rfl, by rw [hrun, hcount]; rfl, ?_, ?_, ?_, fun k hk => ?_⟩
    · rw [gpr_of_ends hends hvalue, hmemory, Memory.toNat_peek_poke hfits]
    · have hn' : ({ c.machine with memory } : Machine).Normalised := hn
      rw [hc']
      exact changesOnly_of_ends hends hn' hframe hrest
    · rw [hc', hmemory, Memory.size_poke]
    · rw [hc', hmemory]
      exact hk.elim (fun h => Memory.byte_poke_of_lt _ h _ _) (fun h => Memory.byte_poke_of_le _ h _)

/-- A 16-bit push that wraps twice: below SP zero to the top of the segment, and past the top of the address space to
    linear address zero. -/
theorem pop_undoes_push_wrap :
    ∃ m : Machine, m.Normalised ∧ m.gpr.get .esp = 0x12340000 ∧ m.gpr.get .ebx = 0xabcd5678 ∧
      m.pushTarget .real .word = .ok 0 ∧ ∃ b c',
        Stream.ofBlock [.ofOps 1 [.load0 .ebx, .push .word], .ofOps 1 [.pop .word, .store0 .ecx]] = .ok b ∧
        runMode .real .builtin b ⟨m, []⟩ = (.ok 2, c') ∧ (c'.machine.gpr.get .ecx).toNat = 0x5678 ∧
        c'.machine.getReg (.gpr .esp) = m.getReg (.gpr .esp) := by
  generalize hm : ({ Machine.reset (.ofSize 2) with
    gpr := ((Bank.replicate 0).set .esp 0x12340000).set .ebx 0xabcd5678
    segs := (Bank.replicate none).set .ss
      (some { base := 0xffff0002, limit := 0xffff, present := true, writable := true }) } : Machine) = m
  have hn : m.Normalised := by
    subst hm
    exact ⟨fun f => by cases f <;> decide, by decide⟩
  have hebx : m.gpr.get .ebx = 0xabcd5678 := by
    subst hm
    decide
  have htarget : m.pushTarget .real .word = .ok 0 := by
    subst hm
    rfl
  obtain ⟨b, hb, hend⟩ := pop_undoes_push .real 1 1 .word .ebx .ecx (c := ⟨m, []⟩) hn
  obtain ⟨x, hx, -⟩ | ⟨a, c', -, hrun, hvalue, hframe, -⟩ := hend
  · exact absurd (htarget.symm.trans hx) (by simp)
  · refine ⟨m, hn, by subst hm; decide, hebx, htarget, b, c', hb, hrun, ?_, hframe.regs _ (by decide)⟩
    rw [hvalue, hebx]
    rfl

end Interpreter
end MicroBlock
