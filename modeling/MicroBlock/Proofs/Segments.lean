import Mathlib
import MicroBlock.Proofs.Sources

/-! What the segment registers of a running block hold.

A block fills a segment register only with what the load helper of its mode returns, and a rollback fills it with
what it held before. In protected mode the helper checks the descriptor, so the privileges that the registers stand
for never exceed the current one. In real and virtual-8086 mode it makes the segment from the selector alone, so no
access of a block leaves the first megabyte and the 64 KiB that start at its last paragraph. -/

namespace MicroBlock

/-! ### Loading from a descriptor -/

namespace Segment

/-- The privilege that the selector asks for. -/
def rpl (s : Segment) : UInt32 := s.selector.toUInt32 &&& 3

/-- What a data register may hold at a privilege level: a null segment, or one that is present and, unless it is
    code, not more privileged than its selector and the level. -/
def DataSafe (cpl : UInt32) (s : Segment) : Prop :=
  s.null = true ∨ s.present = true ∧ (s.code = false → max s.rpl.toNat cpl.toNat ≤ s.dpl.toNat)

/-- What SS may hold at a privilege level. -/
structure StackSafe (cpl : UInt32) (s : Segment) : Prop where
  present : s.present = true
  writable : s.writable = true
  stack : s.stack = true
  rpl : s.rpl = cpl
  dpl : s.dpl = cpl

end Segment

namespace Machine

theorem stackSafe_of_admitStack {m : Machine} {selector : UInt16} {lo hi : UInt32} {s : Segment}
    (h : m.admitStack selector (.ofDescriptor selector lo hi) = .ok s) : s.StackSafe m.cpl := by
  unfold admitStack at h
  simp only at h
  split at h
  · cases h
  next hcheck =>
  obtain ⟨hrpl, hdpl, hwritable⟩ := not_or.mp hcheck |>.imp not_not.mp fun h => (not_or.mp h).imp not_not.mp id
  split at h
  · cases h
  next hpresent =>
  cases h
  exact ⟨by simpa using hpresent, by simpa using hwritable, rfl, hrpl, hdpl⟩

theorem dataSafe_of_admitData {m : Machine} {selector : UInt16} {lo hi : UInt32} {s : Segment}
    (h : m.admitData selector hi (.ofDescriptor selector lo hi) = .ok s) : s.DataSafe m.cpl := by
  unfold admitData at h
  simp only at h
  split at h
  · cases h
  split at h
  · cases h
  next hprivilege =>
  split at h
  · cases h
  next hpresent =>
  cases h
  refine .inr ⟨by simpa using hpresent, fun hcode => ?_⟩
  -- What is not code does not conform, so its privilege was checked.
  rw [hcode, Bool.false_and] at hprivilege
  obtain ⟨hrpl, hcpl⟩ := not_or.mp fun h => hprivilege ⟨h, rfl⟩
  exact max_le (UInt32.le_iff_toNat_le.mp (UInt32.not_lt.mp hrpl)) (UInt32.le_iff_toNat_le.mp (UInt32.not_lt.mp hcpl))

/-- A segment that is loaded may stand in the register it was loaded for. -/
theorem safe_of_loadSegment {m : Machine} {selector : UInt16} {stack : Bool} {s : Segment}
    (h : m.loadSegment selector stack = .ok s) : if stack then s.StackSafe m.cpl else s.DataSafe m.cpl := by
  unfold loadSegment at h
  split at h
  · split at h
    · cases h
    · next hstack =>
      cases h
      rw [if_neg hstack]
      exact .inl rfl
  split at h
  · cases h
  next lo hi hwords =>
  simp only at h
  split at h
  · cases h
  split at h
  · next hstack =>
    rw [if_pos hstack]
    exact stackSafe_of_admitStack h
  · next hstack =>
    rw [if_neg hstack]
    exact dataSafe_of_admitData h

end Machine

namespace Builtin

theorem exists_of_protectedSegment {stack : Bool} {args : List Value} {m m' : Machine} {v : Value}
    (h : (protectedSegment stack).body args m = .ok (v, m')) :
    ∃ s selector, v = .segment (some s) ∧ m.loadSegment selector stack = .ok s := by
  obtain ⟨_, -, h⟩ := exists_of_bind h
  obtain ⟨w, -, h⟩ := exists_of_bind h
  obtain ⟨s, hs, h⟩ := exists_of_bind h
  cases h
  exact ⟨s, w.toUInt16, rfl, eq_of_ofFault hs⟩

end Builtin

/-! ### Protected mode -/

def SegReg.isData : SegReg → Bool
  | .cs | .ss => false
  | _ => true

/-- The segment registers stand for no more privilege than the processor has. A register that holds no segment is as
    good as null. -/
structure Machine.SegmentSafe (m : Machine) : Prop where
  data : ∀ r : SegReg, r.isData = true → ∀ s, m.segs.get r = some s → s.DataSafe m.cpl
  stack : ∃ s, m.segs.get .ss = some s ∧ s.StackSafe m.cpl

/-- Whether a fragment of protected mode fills segment registers by the checked load only, and leaves CPL alone. -/
def Fragment.loadsChecked (f : Fragment) : Bool :=
  f.target != .cpl && f.tracked.any fun x =>
    match f.target with
    | .reg (.seg r) => r != .cs && x.2.head? == some (.result (.protectedSegment (r == .ss)))
    | _ => true

theorem Lowering.loadsChecked_of_mem {op : Option Op} {f : Fragment}
    (hf : f ∈ (Lowering.table .protected_).targets? op) : f.loadsChecked = true :=
  of_mem (P := fun m f => m = .protected_ → f.loadsChecked = true) (by decide +kernel) hf rfl

/-- What a run from `m₀` may put into a segment register. No register loses its segment. -/
def SegReg.Safe (m₀ : Machine) (r : SegReg) (v : Value) : Prop :=
  (r.isData = true → ∀ s, v.segment? = some s → s.DataSafe m₀.cpl) ∧
  (r = .ss → ∃ s, v.segment? = some s ∧ s.StackSafe m₀.cpl) ∧
  ((m₀.segs.get r).isSome = true → v.segment?.isSome = true)

/-- What a run from `m₀` may compute for an element. -/
def Element.Safe (m₀ : Machine) (e : Element) (v : Value) : Prop :=
  (∀ r, e = .seg r → r.Safe m₀ v) ∧ (e = .cpl → v = m₀.get .cpl)

/-- What the load helper of protected mode returns at a privilege level. -/
def Builtin.Safe (cpl : UInt32) (b : Builtin) (v : Value) : Prop :=
  ∀ stack, b = .protectedSegment stack →
    ∃ s, v = .segment (some s) ∧ if stack then s.StackSafe cpl else s.DataSafe cpl

theorem Fragment.respects_safe {f : Fragment} (hf : f.loadsChecked = true) (m₀ : Machine) :
    f.Respects (Element.Safe m₀) fun m => m.cpl = m₀.cpl := by
  simp only [loadsChecked, Bool.and_eq_true, bne_iff_ne] at hf
  obtain ⟨hcpl, hf⟩ := hf
  obtain ⟨⟨sites, sources⟩, htracked, hload⟩ := (Option.any_eq_true _ _).mp hf
  refine respects_of_tracked (Builtin.Safe m₀.cpl) htracked ?_ fun values v _ hhead => ⟨?_, fun h => absurd h hcpl⟩
  · intro values _ t _ args m v m' _ _ hm hbody
    have hfront := t.helper.body_leaves args m v m' hbody
    refine ⟨(Value.ofUInt32_inj (hfront.regs .cpl)).trans hm, ?_⟩
    rintro stack hb
    rw [hb] at hbody
    obtain ⟨s, selector, rfl, hs⟩ := Builtin.exists_of_protectedSegment hbody
    exact ⟨s, rfl, hm ▸ Machine.safe_of_loadSegment hs⟩
  · intro r hr
    rw [hr] at hload
    simp only [Bool.and_eq_true, bne_iff_ne, beq_iff_eq] at hload
    obtain ⟨s, rfl, hs⟩ := hhead _ hload.2 (r == .ss) rfl
    refine ⟨fun hdata => ?_, ?_, fun _ => rfl⟩
    · rintro _ ⟨⟩
      have hne : (r == .ss) = false := by cases r <;> first | rfl | cases hdata
      simpa [hne] using hs
    · rintro rfl
      exact ⟨s, rfl, hs⟩

/-- The privileges of the segment registers survive every block of protected mode, whatever memory and descriptor
    tables it meets and however its run ends. -/
theorem segments_stay_safe (s : Stream) {c : Context} (h : c.machine.SegmentSafe) :
    (Interpreter.runMode .protected_ .builtin s c).2.machine.SegmentSafe ∧
      ∀ r, (c.machine.segs.get r).isSome = true →
        ((Interpreter.runMode .protected_ .builtin s c).2.machine.segs.get r).isSome = true := by
  have hstart : ∀ e : Element, e.Safe c.machine (c.machine.get e) := by
    refine fun e => ⟨?_, fun he => he ▸ rfl⟩
    rintro r rfl
    exact ⟨h.data r, fun hr => hr ▸ h.stack, id⟩
  obtain ⟨-, hregs⟩ := Interpreter.runMode_respects
    (fun _ f hf => Fragment.respects_safe (Lowering.loadsChecked_of_mem hf) c.machine) hstart rfl s
  generalize (Interpreter.runMode .protected_ .builtin s c).2.machine = m at hregs
  have hcpl : m.cpl = c.machine.cpl := by
    refine Value.ofUInt32_inj (show m.getReg .cpl = c.machine.getReg .cpl from ?_)
    rcases hregs .cpl (by decide) with hreg | ⟨v, hv, hreg⟩
    · exact hreg
    · -- The RPL of SS shows that the level has two bits, so writing it back keeps it.
      obtain ⟨ss, -, hss⟩ := h.stack
      have hmask : c.machine.cpl &&& 3 = c.machine.cpl := by
        rw [← hss.rpl, Segment.rpl, UInt32.and_assoc, UInt32.and_self]
      rw [hreg, hv.2 rfl]
      simp [Register.held, Machine.get, Machine.getReg, hmask]
  have hseg : ∀ r : SegReg, r.Safe c.machine (.segment (m.segs.get r)) := by
    intro r
    rcases hregs (.seg r) (by simp) with hreg | ⟨v, hv, hreg⟩
    · have heq : m.segs.get r = c.machine.segs.get r := Value.segment.inj hreg
      rw [heq]
      exact (hstart (.seg r)).1 r rfl
    · have heq : m.segs.get r = v.segment? := Value.segment.inj hreg
      rw [heq]
      exact hv.1 r rfl
  refine ⟨⟨fun r hr s hs => ?_, ?_⟩, fun r => (hseg r).2.2⟩
  · rw [hcpl]
    exact (hseg r).1 hr s hs
  · rw [hcpl]
    exact (hseg .ss).2.1 rfl

/-- At CPL 3, with null data registers, a block loads DS with selector 0Bh, whose descriptor describes a data segment
    of privilege 3. -/
theorem segments_stay_safe_load :
    ∃ (s : Stream) (c : Context), Stream.ofBlock [⟨3, [66, 11, 85]⟩] = .ok s ∧ c.machine.SegmentSafe ∧
      (Interpreter.runMode .protected_ .builtin s c).2.machine.SegmentSafe ∧
      (c.machine.segs.get .ds).any (·.null) = true ∧
      ((Interpreter.runMode .protected_ .builtin s c).2.machine.segs.get .ds).any (fun x => x.present && x.dpl == 3) =
        true := by
  have hrun : (Stream.ofBlock [⟨3, [66, 11, 85]⟩]).toOption.any (fun s =>
      ((Interpreter.runMode .protected_ .builtin s
        ⟨{ Machine.reset ((Memory.ofSize 16).load 8 [0xff, 0xff, 0, 0, 0, 0xf2, 0, 0]) with
            cpl := 3
            segs := (Bank.replicate (some { null := true })).set .ss
              (some { selector := 3, dpl := 3, present := true, writable := true, stack := true })
            tables := (Bank.replicate none).set .gdtr (some { limit := 15 }) }, []⟩).2.machine.segs.get .ds).any
        fun x => x.present && x.dpl == 3) = true := by decide
  obtain ⟨s, hs, hrun⟩ := exists_ok_of_any hrun
  have hsafe : ({ Machine.reset ((Memory.ofSize 16).load 8 [0xff, 0xff, 0, 0, 0, 0xf2, 0, 0]) with
      cpl := 3
      segs := (Bank.replicate (some { null := true })).set .ss
        (some { selector := 3, dpl := 3, present := true, writable := true, stack := true })
      tables := (Bank.replicate none).set .gdtr (some { limit := 15 }) } : Machine).SegmentSafe := by
    refine ⟨fun r hr x hx => ?_, _, rfl, rfl, rfl, rfl, by decide, rfl⟩
    cases r <;> cases hr <;> cases hx <;> exact .inl rfl
  exact ⟨s, ⟨_, []⟩, hs, hsafe, (segments_stay_safe s hsafe).1, rfl, hrun⟩

/-! ### Real and virtual-8086 mode -/

namespace Segment

/-- A segment that real mode makes of a selector, up to the mark of the stack. -/
def IsReal (s : Segment) : Prop := ∃ selector stack, s = { Segment.real selector with stack }

theorem IsReal.base {s : Segment} (h : s.IsReal) : s.base.toNat = s.selector.toNat * 16 := by
  obtain ⟨selector, stack, rfl⟩ := h
  have := selector.toNat_lt
  simp [real, UInt32.toNat_shiftLeft, Nat.shiftLeft_eq]
  omega

theorem IsReal.limit {s : Segment} (h : s.IsReal) : s.limit = 0xffff := by
  obtain ⟨selector, stack, rfl⟩ := h
  rfl

/-- An access through a real segment ends below the end of the last 64 KiB that a selector reaches. -/
theorem IsReal.linear_lt {s : Segment} (h : s.IsReal) {offset a : UInt32} {w : Width} {write : Bool}
    (ha : s.linear offset w.bytes.toUInt64 write = .ok a) : a.toNat + w.bytes ≤ 0x10fff0 := by
  have hlimit := h.limit
  have hbase := h.base
  have hselector := s.selector.toNat_lt
  unfold linear at ha
  split at ha
  · cases ha
  split at ha
  · cases ha
  split at ha
  · cases ha
  split at ha
  · cases ha
  next hle =>
  cases ha
  have hend : offset.toNat + w.bytes ≤ 0x10000 := by
    have hoffset := offset.toNat_lt
    have hw : w.bytes.toUInt64.toNat = w.bytes ∧ 1 ≤ w.bytes ∧ w.bytes ≤ 4 := by cases w <;> decide
    rw [hlimit, UInt64.not_lt, UInt64.le_iff_toNat_le, UInt64.toNat_sub, UInt64.toNat_add, UInt32.toNat_toUInt64, hw.1,
      UInt64.toNat_one, show (0xffff : UInt32).toUInt64.toNat = 0xffff from rfl] at hle
    omega
  rw [UInt32.toNat_add]
  omega

end Segment

namespace Memory

theorem size_setByte (m : Memory) (a : Nat) (b : UInt8) : (m.setByte a b).size = m.size := by
  unfold setByte
  split
  · next h => exact ByteArray.size_set m.bytes ⟨a, h⟩ b
  · rfl

theorem byte_setByte_of_ne (m : Memory) {a k : Nat} (h : a ≠ k) (b : UInt8) : (m.setByte a b).byte k = m.byte k := by
  unfold setByte
  split
  · next ha =>
    obtain ⟨⟨data⟩⟩ := m
    change (if h : k < (data.set a b ha).size then (data.set a b ha)[k] else 0) = if h : k < data.size then data[k] else 0
    simp only [Array.size_set]
    split
    · next hk => exact Array.getElem_set_ne ha hk h
    · rfl
  · rfl

theorem size_poke (m : Memory) (a : Nat) (w : Width) (v : UInt32) : (m.poke a w v).size = m.size := by
  cases w <;> simp only [poke, size_setByte]

/-- A write changes no byte past its end. -/
theorem byte_poke_of_le (m : Memory) {a k : Nat} {w : Width} (h : a + w.bytes ≤ k) (v : UInt32) :
    (m.poke a w v).byte k = m.byte k := by
  cases w <;> simp only [Width.bytes] at h <;> simp only [poke] <;> repeat rw [byte_setByte_of_ne _ (by omega)]

end Memory

namespace Builtin

theorem exists_of_write {w : Width} {args : List Value} {m m' : Machine} {v : Value}
    (h : (write w).body args m = .ok (v, m')) :
    ∃ seg offset a x, args[1]? = some seg ∧ Segment.linear? seg.segment? offset w.bytes.toUInt64 true = .ok a ∧
      m' = { m with memory := m.memory.poke a.toNat w x } := by
  obtain ⟨_, -, h⟩ := exists_of_bind h
  obtain ⟨seg, hseg, h⟩ := exists_of_bind h
  obtain ⟨offset, -, h⟩ := exists_of_bind h
  obtain ⟨a, ha, h⟩ := exists_of_bind h
  obtain ⟨x, -, h⟩ := exists_of_bind h
  obtain ⟨memory, hmemory, h⟩ := exists_of_bind h
  cases h
  refine ⟨seg, offset, a, x, getElem?_of_arg hseg, eq_of_ofFault ha, ?_⟩
  have hwrite := eq_of_ofFault hmemory
  unfold Memory.write at hwrite
  split at hwrite
  · cases hwrite
  · cases hwrite
    rfl

theorem exists_of_realSegment {stack : Bool} {args : List Value} {m m' : Machine} {v : Value}
    (h : (realSegment stack).body args m = .ok (v, m')) : ∃ s, v = .segment (some s) ∧ s.IsReal := by
  obtain ⟨w, -, h⟩ := exists_of_bind h
  cases h
  exact ⟨_, rfl, w.toUInt16, stack, rfl⟩

def isWrite : Builtin → Bool
  | write _ => true
  | _ => false

theorem Touches.memory_eq {b : Builtin} {m m' : Machine} (h : b.Touches m m') (hb : b.isWrite = false) :
    m'.memory = m.memory := by
  cases h with
  | nothing | retired | input | output | delivered => rfl
  | memory => cases hb

end Builtin

/-- Whether a value comes from a segment register, or from the segment that a block has picked for its accesses. -/
def Source.isSegment : Source → Bool
  | .input (.reg (.seg _)) | .input (.temp .seg0) => true
  | _ => false

/-- Whether a fragment of real mode writes memory through the segments of the block only, and fills the segment
    registers with real segments. -/
def Fragment.staysReal (f : Fragment) : Bool :=
  f.tracked.any fun x =>
    x.1.all (fun t => !t.helper.isWrite || t.args[1]?.any Source.isSegment) &&
      match f.target with
      | .reg (.seg _) => x.2.head? == some (.result (.realSegment true)) || x.2.head? == some (.result (.realSegment false))
      | .temp .seg0 => x.2.head?.any Source.isSegment
      | _ => true

theorem Lowering.staysReal_of_mem {mode : Mode} (hmode : mode ≠ .protected_) {op : Option Op} {f : Fragment}
    (hf : f ∈ (Lowering.table mode).targets? op) : f.staysReal = true :=
  of_mem (P := fun m f => m ≠ .protected_ → f.staysReal = true) (by decide +kernel) hf hmode

/-- What a block of real mode may compute for an element. Before it picks a segment there is none. -/
def Element.Real (e : Element) (v : Value) : Prop :=
  (∀ r, e = .seg r → ∃ s, v = .segment (some s) ∧ s.IsReal) ∧ (e = .seg0 → ∀ s, v.segment? = some s → s.IsReal)

/-- What the load helper of real mode returns. -/
def Builtin.Real (b : Builtin) (v : Value) : Prop :=
  ∀ stack, b = .realSegment stack → ∃ s, v = .segment (some s) ∧ s.IsReal

/-- Two memories agree from the end of the 8086 address space on. -/
structure Memory.SameAbove (m m' : Memory) : Prop where
  size : m.size = m'.size
  byte : ∀ a, 0x10fff0 ≤ a → m.byte a = m'.byte a

theorem Source.isReal_of_isSegment {s : Source} (h : s.isSegment = true) {values : Element → Value}
    (hv : ∀ e : Element, e.Real (values e)) {R : Builtin → Value → Prop} {v : Value} (hs : s.Gives values R v) {x : Segment}
    (hx : v.segment? = some x) : x.IsReal := by
  unfold isSegment at h
  split at h
  · next r =>
    obtain ⟨y, hy, hreal⟩ := (hv (.seg r)).1 r rfl
    have heq : v = .segment (some y) := hs.trans hy
    rw [heq] at hx
    cases hx
    exact hreal
  · have heq : v = values .seg0 := hs
    exact (hv .seg0).2 rfl x (heq ▸ hx)
  · cases h

theorem Fragment.respects_real {f : Fragment} (hf : f.staysReal = true) (memory : Memory) :
    f.Respects Element.Real fun m => m.memory.SameAbove memory := by
  obtain ⟨⟨sites, sources⟩, htracked, hf⟩ := (Option.any_eq_true _ _).mp hf
  simp only [Bool.and_eq_true, List.all_eq_true] at hf
  obtain ⟨hsites, htarget⟩ := hf
  refine respects_of_tracked Builtin.Real htracked ?_ fun values v hv hhead => ⟨fun r hr => ?_, fun he x hx => ?_⟩
  · intro values hv t ht args m v m' _ hargs hm hbody
    refine ⟨?_, fun stack hb => Builtin.exists_of_realSegment (hb ▸ hbody)⟩
    cases hw : t.helper.isWrite with
    | false => rwa [(Builtin.body_touches _ args m v m' hbody).memory_eq hw]
    | true =>
      obtain ⟨w, hb⟩ : ∃ w, t.helper = .write w := by
        unfold Builtin.isWrite at hw
        split at hw
        · next w hb => exact ⟨w, hb⟩
        · cases hw
      rw [hb] at hbody
      obtain ⟨seg, offset, a, x, hseg, ha, rfl⟩ := Builtin.exists_of_write hbody
      obtain ⟨source, hsource, hsegment⟩ := (Option.any_eq_true _ _).mp (by simpa [hw] using hsites t ht)
      cases hsg : seg.segment? with
      | none =>
        rw [hsg] at ha
        cases ha
      | some sg =>
        rw [hsg] at ha
        have hreal := Source.isReal_of_isSegment hsegment hv (Source.gives_of_getElem? hargs hsource hseg) hsg
        have hend := hreal.linear_lt ha
        exact ⟨(m.memory.size_poke _ w x).trans hm.size, fun k hk =>
          (m.memory.byte_poke_of_le (hend.trans hk) x).trans (hm.byte k hk)⟩
  · rw [hr] at htarget
    simp only [Bool.or_eq_true, beq_iff_eq] at htarget
    rcases htarget with hs | hs <;> exact hhead _ hs _ rfl
  · rw [he] at htarget
    obtain ⟨source, hsource, hsegment⟩ := (Option.any_eq_true _ _).mp htarget
    exact Source.isReal_of_isSegment hsegment hv (hhead source hsource) hx

/-- Blocks of real and virtual-8086 mode stay inside the address space of the 8086. From a state whose segment caches
    are those of real mode, however a run ends, no byte past that space has changed and the caches are again those of
    real mode. -/
theorem real_blocks_confined {mode : Mode} (hmode : mode ≠ .protected_) (s : Stream) {c : Context}
    (h : ∀ r, ∃ x, c.machine.segs.get r = some x ∧ x.IsReal) :
    (Interpreter.runMode mode .builtin s c).2.machine.memory.SameAbove c.machine.memory ∧
      ∀ r, ∃ x, (Interpreter.runMode mode .builtin s c).2.machine.segs.get r = some x ∧ x.IsReal ∧ x.limit = 0xffff ∧
        x.base.toNat = x.selector.toNat * 16 := by
  have hstart : ∀ e : Element, e.Real (c.machine.get e) := by
    refine fun e => ⟨?_, ?_⟩
    · rintro r rfl
      obtain ⟨x, hx, hreal⟩ := h r
      exact ⟨x, congrArg Value.segment hx, hreal⟩
    · rintro rfl x hx
      cases hx
  obtain ⟨⟨m, hm, hworld⟩, hregs⟩ := Interpreter.runMode_respects
    (fun _ f hf => Fragment.respects_real (Lowering.staysReal_of_mem hmode hf) c.machine.memory) hstart ⟨rfl, fun _ _ => rfl⟩ s
  generalize (Interpreter.runMode mode .builtin s c).2.machine = m' at hworld hregs
  refine ⟨hworld.memory ▸ hm, fun r => ?_⟩
  suffices hreal : ∃ x, m'.segs.get r = some x ∧ x.IsReal by
    obtain ⟨x, hx, hreal⟩ := hreal
    exact ⟨x, hx, hreal, hreal.limit, hreal.base⟩
  rcases hregs (.seg r) (by simp) with hreg | ⟨v, hv, hreg⟩
  · obtain ⟨x, hx, hreal⟩ := h r
    exact ⟨x, (Value.segment.inj hreg).trans hx, hreal⟩
  · obtain ⟨x, rfl, hreal⟩ := hv.1 r rfl
    exact ⟨x, Value.segment.inj hreg, hreal⟩

/-- In virtual-8086 mode a block writes a byte at DS:0002. -/
theorem real_blocks_confined_store :
    ∃ (s : Stream) (c : Context), Stream.ofBlock [⟨3, [74, 88, 98, 2, 65, 7, 107]⟩] = .ok s ∧
      (∀ r, ∃ x, c.machine.segs.get r = some x ∧ x.IsReal) ∧
      (Interpreter.runMode .vm86 .builtin s c).2.machine.memory.SameAbove c.machine.memory ∧
      (∀ r, ∃ x, (Interpreter.runMode .vm86 .builtin s c).2.machine.segs.get r = some x ∧ x.IsReal) ∧
      c.machine.memory.byte 2 = 0 ∧ (Interpreter.runMode .vm86 .builtin s c).2.machine.memory.byte 2 = 7 := by
  have hrun : (Stream.ofBlock [⟨3, [74, 88, 98, 2, 65, 7, 107]⟩]).toOption.any (fun s =>
      (Interpreter.runMode .vm86 .builtin s ⟨Machine.reset (.ofSize 16), []⟩).2.machine.memory.byte 2 = 7) = true := by
    decide
  obtain ⟨s, hs, hrun⟩ := exists_ok_of_any hrun
  have hreal : ∀ r, ∃ x, (Machine.reset (.ofSize 16)).segs.get r = some x ∧ x.IsReal := by
    intro r
    cases r <;> exact ⟨_, rfl, 0, _, rfl⟩
  have hmode : Mode.vm86 ≠ .protected_ := by decide
  obtain ⟨hmemory, hsegs⟩ := real_blocks_confined hmode s (c := ⟨Machine.reset (.ofSize 16), []⟩) hreal
  exact ⟨s, _, hs, hreal, hmemory, fun r => (hsegs r).imp fun _ hx => ⟨hx.1, hx.2.1⟩, rfl, of_decide_eq_true hrun⟩

end MicroBlock
