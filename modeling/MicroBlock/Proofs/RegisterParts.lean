import Mathlib
import MicroBlock.Proofs.Computations

/-! Registers and their parts.

EAX, AX, AL and AH are bits of one register, and so are the names of the other registers. Ops load and store under each of
these names through helpers that cut, shift and merge words. What they do is one thing: a load reads a field of bits, a
store replaces the bits of a field and keeps the others. So a run of loads and stores, however they overlap, leaves what
reading and writing fields one after the other leaves. -/

namespace MicroBlock

/-! ### Fields of bits -/

/-- Neighbouring bits of a register. -/
structure BitField where
  reg : Gpr
  low : Nat
  width : Nat

namespace BitField

/-- The bits of the field in a word, zero-extended. -/
def read (f : BitField) (w : UInt32) : UInt32 := ⟨(w.toBitVec.extractLsb' f.low f.width).setWidth 32⟩

/-- The word with the low bits of another in the field; the bits outside of the field are kept. -/
def write (f : BitField) (w v : UInt32) : UInt32 :=
  ⟨BitVec.ofFnLE fun i : Fin 32 =>
    if f.low ≤ i ∧ i < f.low + f.width then v.toBitVec.getLsbD (i - f.low) else w.toBitVec.getLsbD i⟩

theorem read_eq {f : BitField} {w x : UInt32}
    (h : ∀ i < 32, x.toBitVec.getLsbD i = (decide (i < f.width) && w.toBitVec.getLsbD (f.low + i))) : f.read w = x := by
  refine UInt32.toBitVec_inj.mp (BitVec.eq_of_getLsbD_eq fun i hi => ?_)
  rw [h i hi, read, BitVec.getLsbD_setWidth, BitVec.getLsbD_extractLsb']
  simp [hi]

theorem write_eq {f : BitField} {w v x : UInt32}
    (h : ∀ i < 32, x.toBitVec.getLsbD i =
      if f.low ≤ i ∧ i < f.low + f.width then v.toBitVec.getLsbD (i - f.low) else w.toBitVec.getLsbD i) :
    f.write w v = x := by
  refine UInt32.toBitVec_inj.mp (BitVec.eq_of_getLsbD_eq fun i hi => ?_)
  rw [h i hi, write, BitVec.getLsbD_ofFnLE, dif_pos hi]

theorem read_whole (r : Gpr) (w : UInt32) : read ⟨r, 0, 32⟩ w = w :=
  read_eq fun i hi => by simp [hi]

theorem write_whole (r : Gpr) (w v : UInt32) : write ⟨r, 0, 32⟩ w v = v :=
  write_eq fun i hi => by simp [hi]

section Low
variable (r : Gpr) (n : Nat) (take : UInt32) (htake : ∀ i : Fin 32, take.toBitVec.getLsbD i = decide (i.val < n))
include htake

/-- A field at the low end is read by a mask. -/
theorem read_low (w : UInt32) : read ⟨r, 0, n⟩ w = w &&& take := by
  refine read_eq fun i hi => ?_
  rw [UInt32.toBitVec_and, BitVec.getLsbD_and, htake ⟨i, hi⟩, Bool.and_comm, Nat.zero_add]

theorem write_low (keep : UInt32) (hkeep : ∀ i : Fin 32, keep.toBitVec.getLsbD i = decide (n ≤ i.val)) (w v : UInt32) :
    write ⟨r, 0, n⟩ w v = (w &&& keep) ||| (v &&& take) := by
  refine write_eq fun i hi => ?_
  rw [UInt32.toBitVec_or, BitVec.getLsbD_or, UInt32.toBitVec_and, BitVec.getLsbD_and, UInt32.toBitVec_and,
    BitVec.getLsbD_and, hkeep ⟨i, hi⟩, htake ⟨i, hi⟩]
  by_cases h : i < n
  · simp [h]
  · simp [h, Nat.not_lt.mp h]

end Low

theorem getLsbD_byteMask : ∀ i : Fin 32, (0xff : UInt32).toBitVec.getLsbD i = decide (i.val < 8) := by decide

theorem read_second (r : Gpr) (w : UInt32) : read ⟨r, 8, 8⟩ w = Arithmetic.highByte w := by
  refine read_eq fun i hi => ?_
  rw [Arithmetic.highByte, UInt32.toBitVec_and, BitVec.getLsbD_and, getLsbD_byteMask ⟨i, hi⟩, Bool.and_comm]
  simp

theorem write_second (r : Gpr) (w v : UInt32) : write ⟨r, 8, 8⟩ w v = Arithmetic.mergeHigh w v := by
  have hkeep : ∀ i : Fin 32, (0xffff00ff : UInt32).toBitVec.getLsbD i = decide (i.val < 8 ∨ 16 ≤ i.val) := by decide
  have hshift : ((v &&& (0xff : UInt32)) <<< (8 : UInt32)).toBitVec = (v &&& (0xff : UInt32)).toBitVec <<< 8 := rfl
  refine write_eq fun i hi => ?_
  rw [Arithmetic.mergeHigh, UInt32.toBitVec_or, BitVec.getLsbD_or, UInt32.toBitVec_and, BitVec.getLsbD_and,
    hkeep ⟨i, hi⟩, hshift, BitVec.getLsbD_shiftLeft, UInt32.toBitVec_and, BitVec.getLsbD_and,
    getLsbD_byteMask ⟨i - 8, by omega⟩]
  rcases (by omega : i < 8 ∨ 8 ≤ i ∧ i < 16 ∨ 16 ≤ i) with h | ⟨h, h'⟩ | h
  · simp [h, Nat.not_le.mpr h]
  · simp [h, h', hi, Nat.not_lt.mpr h, Nat.not_le.mpr h', show i - 8 < 8 by omega]
  · simp [h, Nat.not_lt.mpr h, show ¬ i - 8 < 8 by omega]

end BitField

/-- The registers and the parts of them that have a name. -/
inductive RegPart where
  | whole (r : Gpr) | half (r : Gpr) | byte (r : ByteReg)
  deriving DecidableEq

namespace RegPart

def name : RegPart → String
  | whole r => r.name
  | half r => r.halfName
  | byte r => r.name

/-- The bits that a name stands for. -/
def field : RegPart → BitField
  | whole r => ⟨r, 0, 32⟩
  | half r => ⟨r, 0, 16⟩
  | byte .al => ⟨.eax, 0, 8⟩ | byte .cl => ⟨.ecx, 0, 8⟩ | byte .dl => ⟨.edx, 0, 8⟩ | byte .bl => ⟨.ebx, 0, 8⟩
  | byte .ah => ⟨.eax, 8, 8⟩ | byte .ch => ⟨.ecx, 8, 8⟩ | byte .dh => ⟨.edx, 8, 8⟩ | byte .bh => ⟨.ebx, 8, 8⟩

def load : RegPart → Op
  | whole r => .load0 r
  | half r => .load0Half r
  | byte r => .load0Byte r

def store : RegPart → Op
  | whole r => .store0 r
  | half r => .store0Half r
  | byte r => .store0Byte r

end RegPart

/-! ### Moves -/

/-- The eight registers and REG0. -/
structure RegFile where
  regs : Bank Gpr UInt32
  reg0 : UInt32

/-- The ops that move between REG0 and a part of a register, or an immediate into REG0. -/
inductive Move where
  | load (p : RegPart) | store (p : RegPart) | immediate (v : Int32)

namespace Move

/-- A load sets REG0 to a field. A store replaces the bits of a field by the low bits of REG0. -/
def apply (s : RegFile) : Move → RegFile
  | load p => { s with reg0 := p.field.read (s.regs.get p.field.reg) }
  | store p => { s with regs := s.regs.set p.field.reg (p.field.write (s.regs.get p.field.reg) s.reg0) }
  | immediate v => { s with reg0 := v.toUInt32 }

def op : Move → Op
  | load p => p.load
  | store p => p.store
  | immediate _ => .load0Imm .dword

def immediate? : Move → Option Int32
  | immediate v => some v
  | _ => none

def words (a : Move) : List Int32 := a.op.word :: a.immediate?.toList

theorem hasImmediate_op (a : Move) : a.op.hasImmediate = a.immediate?.isSome := by
  rcases a with (_ | _ | _) | (_ | _ | _) | v <;> rfl

theorem targets_op (mode : Mode) (a : Move) : Lowering.targets mode a.op ≠ [] := by
  rcases a with (_ | _ | _) | (_ | _ | _) | v <;> exact List.cons_ne_nil _ _

end Move

namespace Stream

/-- A block of moves, given by the length and the moves of each instruction. -/
def moving (b : List (Int64 × List Move)) : Block := b.map fun i => ⟨i.1, i.2.flatMap Move.words⟩

/-- A record was drawn from a move. -/
def Moves (a : Move) (rec : Record) : Prop := rec.op = some a.op ∧ rec.immediate = a.immediate?

theorem exists_recordsOf_moves (start position : Int64) (index : Nat) (as : List Move) :
    ∃ rs, recordsOf start position index (as.flatMap Move.words) = .ok rs ∧ List.Forall₂ Moves as rs := by
  induction as with
  | nil => exact ⟨[], rfl, .nil⟩
  | cons a as ih =>
    obtain ⟨rs, hrs, hmoves⟩ := ih
    have himm := a.hasImmediate_op
    refine ⟨⟨some a.op, a.immediate?, position, start, index⟩ :: rs, ?_, .cons ⟨rfl, rfl⟩ hmoves⟩
    rw [List.flatMap_cons, Move.words]
    cases hv : a.immediate? with
    | none =>
      rw [hv] at himm
      simp only [Option.toList_none, List.cons_append, List.nil_append, recordsOf, Op.ofWord?_word, himm, hrs]
      rfl
    | some v =>
      rw [hv] at himm
      simp only [Option.toList_some, List.cons_append, List.nil_append, recordsOf, Op.ofWord?_word, himm, hrs]
      rfl

theorem exists_recordsFrom_moving (start : Int64) (index : Nat) (b : List (Int64 × List Move)) :
    ∃ rs, recordsFrom start index (moving b) = .ok rs ∧ List.Forall₂ Moves (b.flatMap Prod.snd) rs := by
  induction b generalizing start index with
  | nil => exact ⟨[], rfl, .nil⟩
  | cons i is ih =>
    obtain ⟨rs, hrs, hmoves⟩ := exists_recordsOf_moves start (start + i.1) index i.2
    obtain ⟨rest, hrest, hmoves'⟩ := ih (start + i.1) (index + 1)
    refine ⟨rs ++ rest, ?_, List.rel_append hmoves hmoves'⟩
    rw [moving, List.map_cons, recordsFrom]
    simp only [hrs, show recordsFrom _ _ (is.map _) = .ok rest from hrest]

end Stream

namespace Interpreter

/-! ### Records of moves -/

/-- Values that are those of a register file. -/
structure Values.Hold (values : Values) (s : RegFile) : Prop where
  gpr : ∀ r, values.get (.gpr r) = .ofUInt32 (s.regs.get r)
  reg0 : values.get .reg0 = .ofUInt32 s.reg0

section Gives
variable {mode : Mode} {values : Values} {place : Place} {m : Machine} {s : RegFile}

theorem gives_unary {op : Op} {target source : Element} {b : Builtin} {f : UInt32 → UInt32} (hk : target.kind ≠ .void)
    (hb : b.Computes (Builtin.unary f) 1) {x : UInt32} (hx : values.get source = .ofUInt32 x) :
    Gives values place [Lowering.applied .pure op target [source] b] m [(target, .ofUInt32 (f x))] m := by
  refine gives_applied hk hb.arity.symm (by rw [hb.result]; decide) ?_
  rw [List.map_cons, List.map_nil, hx, hb.body]
  change Except.ok (Value.ofUInt32 (f (Value.ofUInt32 x).toUInt32), m) = _
  rw [Value.toUInt32_ofUInt32]

theorem gives_binary {op : Op} {target source source' : Element} {b : Builtin} {f : UInt32 → UInt32 → UInt32}
    (hk : target.kind ≠ .void) (hb : b.Computes (Builtin.binary f) 2) {x y : UInt32} (hx : values.get source = .ofUInt32 x)
    (hy : values.get source' = .ofUInt32 y) :
    Gives values place [Lowering.applied .pure op target [source, source'] b] m [(target, .ofUInt32 (f x y))] m := by
  refine gives_applied hk hb.arity.symm (by rw [hb.result]; decide) ?_
  rw [List.map_cons, List.map_cons, List.map_nil, hx, hy, hb.body]
  change Except.ok (Value.ofUInt32 (f (Value.ofUInt32 x).toUInt32 (Value.ofUInt32 y).toUInt32), m) = _
  rw [Value.toUInt32_ofUInt32, Value.toUInt32_ofUInt32]

theorem gives_load (h : Values.Hold values s) (p : RegPart) :
    Gives values place (Lowering.targets mode p.load) m [(.reg0, .ofUInt32 (p.field.read (s.regs.get p.field.reg)))] m := by
  have hlow (r : Gpr) (op : Op) : Gives values place [Lowering.applied .pure op .reg0 [.gpr r] .mask8] m
      [(.reg0, .ofUInt32 (BitField.read ⟨r, 0, 8⟩ (s.regs.get r)))] m := by
    rw [BitField.read_low r 8 0xff BitField.getLsbD_byteMask]
    exact gives_unary (f := (· &&& 0xff)) (by decide) ⟨rfl, rfl, rfl⟩ (h.gpr r)
  have hsecond (r : Gpr) (op : Op) : Gives values place [Lowering.applied .pure op .reg0 [.gpr r] .hi8] m
      [(.reg0, .ofUInt32 (BitField.read ⟨r, 8, 8⟩ (s.regs.get r)))] m := by
    rw [BitField.read_second]
    exact gives_unary (by decide) ⟨rfl, rfl, rfl⟩ (h.gpr r)
  cases p with
  | whole r =>
    rw [RegPart.field, BitField.read_whole, ← h.gpr r]
    exact gives_copied (by decide)
  | half r =>
    rw [RegPart.field, BitField.read_low r 16 0xffff (by decide)]
    exact gives_unary (f := (· &&& 0xffff)) (by decide) ⟨rfl, rfl, rfl⟩ (h.gpr r)
  | byte r =>
    cases r with
    | al | cl | dl | bl => exact hlow _ _
    | ah | ch | dh | bh => exact hsecond _ _

theorem kind_gpr (r : Gpr) : (Element.gpr r).kind ≠ .void := by simp [Element.kind, Register.kind]

theorem gives_store (h : Values.Hold values s) (p : RegPart) :
    Gives values place (Lowering.targets mode p.store) m
      [(.gpr p.field.reg, .ofUInt32 (p.field.write (s.regs.get p.field.reg) s.reg0))] m := by
  have hlow (r : Gpr) (op : Op) : Gives values place [Lowering.applied .pure op (.gpr r) [.gpr r, .reg0] .merge8lo] m
      [(.gpr r, .ofUInt32 (BitField.write ⟨r, 0, 8⟩ (s.regs.get r) s.reg0))] m := by
    rw [BitField.write_low r 8 0xff BitField.getLsbD_byteMask 0xffffff00 (by decide)]
    exact gives_binary (f := Arithmetic.mergeLow) (kind_gpr r) ⟨rfl, rfl, rfl⟩ (h.gpr r) h.reg0
  have hsecond (r : Gpr) (op : Op) : Gives values place [Lowering.applied .pure op (.gpr r) [.gpr r, .reg0] .merge8hi] m
      [(.gpr r, .ofUInt32 (BitField.write ⟨r, 8, 8⟩ (s.regs.get r) s.reg0))] m := by
    rw [BitField.write_second]
    exact gives_binary (kind_gpr r) ⟨rfl, rfl, rfl⟩ (h.gpr r) h.reg0
  cases p with
  | whole r =>
    rw [RegPart.field, BitField.write_whole, ← h.reg0]
    exact gives_copied (kind_gpr r)
  | half r =>
    rw [RegPart.field, BitField.write_low r 16 0xffff (by decide) 0xffff0000 (by decide)]
    exact gives_binary (f := Arithmetic.mergeHalf) (kind_gpr r) ⟨rfl, rfl, rfl⟩ (h.gpr r) h.reg0
  | byte r =>
    cases r with
    | al | cl | dl | bl => exact hlow _ _
    | ah | ch | dh | bh => exact hsecond _ _

theorem ofInt_toInt (v : Int32) : UInt32.ofInt v.toInt = v.toUInt32 := by
  apply UInt32.toNat_inj.mp
  have hint : v.toInt = v.toUInt32.toBitVec.toInt := rfl
  have hlt := v.toUInt32.toNat_lt
  rw [hint, BitVec.toInt_eq_toNat_cond, UInt32.toNat_toBitVec]
  simp only [UInt32.ofInt, UInt32.toNat_ofNat']
  split <;> omega

/-- The element that a move writes, and what it writes there. -/
def moved (s : RegFile) : Move → Element × Value
  | .load p => (.reg0, .ofUInt32 (p.field.read (s.regs.get p.field.reg)))
  | .store p => (.gpr p.field.reg, .ofUInt32 (p.field.write (s.regs.get p.field.reg) s.reg0))
  | .immediate v => (.reg0, .ofUInt32 v.toUInt32)

theorem gives_move (h : Values.Hold values s) (a : Move) (hplace : place.immediate = a.immediate?.getD 0) :
    Gives values place (Lowering.targets mode a.op) m [moved s a] m := by
  cases a with
  | load p => exact gives_load h p
  | store p => exact gives_store h p
  | immediate v =>
    have hsteps : Fragment.Yields [] place [Lowering.imm] [] m (.ok [.ofUInt32 (UInt32.ofInt place.immediate.toInt)]) m :=
      .literal .nil
    have himm : place.immediate = v := hplace
    rw [himm, ofInt_toInt] at hsteps
    exact .single rfl (by decide) hsteps.outcome_ok

theorem Values.Hold.commit (h : Values.Hold values s) (a : Move) :
    Values.Hold (values.commit [moved s a]) (a.apply s) := by
  cases a with
  | load p | immediate v =>
    refine ⟨fun r => ?_, ?_⟩
    · simp [Values.commit, moved, Move.apply, Bank.get_set, h.gpr]
    · simp [Values.commit, moved, Move.apply]
  | store p =>
    refine ⟨fun r => ?_, ?_⟩
    · simp only [Values.commit, moved, Move.apply, List.foldl_cons, List.foldl_nil, Bank.get_set, Element.gpr,
        Element.reg.injEq, Register.gpr.injEq]
      split
      · rfl
      · exact h.gpr r
    · simp [Values.commit, moved, Move.apply, Bank.get_set, h.reg0]

end Gives

/-! ### Runs of moves -/

/-- A run has come to a register file and has computed nothing else that is written back. -/
structure Progress.Mirrors (m : Machine) (s : RegFile) (p : Progress) : Prop where
  values : Values.Hold p.values s
  machine : p.context.machine = m
  written : ∀ r : Register, p.written.get (.reg r) = true → ∃ g, r = .gpr g

theorem Progress.mirrors_start (c : Context) : (Progress.start c).Mirrors c.machine ⟨c.machine.gpr, 0⟩ where
  values := ⟨fun r => get_initialValues c.machine (.gpr r), get_initialValues c.machine .reg0⟩
  machine := rfl
  written r hr := by simp [Progress.start] at hr

section Mirrors
variable {m : Machine} {s : RegFile} {p : Progress} (h : p.Mirrors m s)
include h

theorem Progress.Mirrors.exists_step (mode : Mode) {a : Move} {rec : Record} (hrec : Stream.Moves a rec) :
    ∃ q, step? (Lowering.table mode) p rec = some q ∧ q.Mirrors m (a.apply s) := by
  have hplace : (rec.place p.base).immediate = a.immediate?.getD 0 := by rw [Record.place, hrec.2]
  obtain ⟨q, hq, hvalues, hmachine, hwritten⟩ :=
    Interpreter.exists_step hrec.1 (a.targets_op mode) (gives_move h.values a hplace)
  refine ⟨q, hq, hvalues ▸ h.values.commit a, hmachine.trans h.machine, fun r hr => ?_⟩
  rw [hwritten, List.foldl_cons, List.foldl_nil, Bank.get_set] at hr
  split at hr
  · next htarget =>
    cases a with
    | load p | immediate v => cases htarget
    | store p => exact ⟨_, (Element.reg.inj htarget).symm⟩
  · exact h.written r hr

theorem Progress.Mirrors.exists_advance (mode : Mode) {as : List Move} {rs : List Record}
    (hrs : List.Forall₂ Stream.Moves as rs) :
    ∃ q, advance (Lowering.table mode) p rs = some q ∧ q.Mirrors m (as.foldl Move.apply s) := by
  induction hrs generalizing p s with
  | nil => exact ⟨p, advance_nil.mpr rfl, h⟩
  | cons hrec _ ih =>
    obtain ⟨p₁, hstep, h₁⟩ := h.exists_step mode hrec
    obtain ⟨q, hq, hmirrors⟩ := ih h₁
    exact ⟨q, advance_cons.mpr ⟨p₁, hstep, hq⟩, hmirrors⟩

/-- Nothing but the registers of the file is written back. -/
theorem Progress.Mirrors.machine_writeBack (hp : p.Sound m) : p.writeBack.machine = { m with gpr := s.regs } := by
  have hrest : p.writeBack.machine.SameRest m := h.machine ▸ writeBack_sameRest p
  refine Machine.eq_of_same (fun r => ?_) ⟨hrest.memory, hrest.ports, hrest.router, hrest.delivered, hrest.retired⟩
  rw [writeBack_machine, Machine.getReg_foldl_set (fun r => p.values.get (.reg r)), h.machine]
  by_cases hw : p.written.get (.reg r) = true
  · obtain ⟨g, rfl⟩ := h.written r hw
    rw [if_pos (by simpa [Register.mem_all] using hw), h.values.gpr g]
    simp [Register.held, Machine.getReg]
  · rw [if_neg (by simpa using fun _ => hw)]
    cases r with
    | gpr g =>
      have hg := hp.unwritten (.gpr g) (by simpa using hw)
      rw [h.values.gpr g] at hg
      exact hg.symm
    | eip | flag _ | seg _ | table _ | cpl => rfl

end Mirrors

/-- Loads and stores of registers and their parts are reads and writes of bit fields. Whatever the mode and however the
    moves are spread over instructions, a run of them completes, and it leaves the machine with the registers that the
    moves leave one by one, REG0 being zero at the start, and with nothing else changed. -/
theorem moves_act_on_fields (mode : Mode) (i : Int64 × List Move) (is : List (Int64 × List Move)) (c : Context) :
    (∀ p : RegPart, p.load.name = "LOAD0_" ++ p.name ∧ p.store.name = "STORE0_" ++ p.name) ∧
    (Op.load0Imm .dword).name = "LOAD0_ID" ∧
    ∃ s calls, Stream.ofBlock (Stream.moving (i :: is)) = .ok s ∧
      runMode mode .builtin s c = (.ok (is.length + 1),
        ⟨{ c.machine with
            gpr := (((i :: is).flatMap Prod.snd).foldl Move.apply ⟨c.machine.gpr, 0⟩).regs }, calls⟩) := by
  refine ⟨fun p => by cases p <;> exact ⟨rfl, rfl⟩, rfl, ?_⟩
  obtain ⟨rs, hrs, hmoves⟩ := Stream.exists_recordsFrom_moving 0 0 (i :: is)
  obtain ⟨q, hq, hmirrors⟩ := (Progress.mirrors_start c).exists_advance mode hmoves
  have hsound := (Progress.sound_start c).advance (Lowering.table_disciplined mode) hq
  refine ⟨_, q.writeBack.calls, Stream.ofBlock_of_recordsFrom hrs (List.cons_ne_nil _ _), ?_⟩
  rw [runMode, run, runRecords_of_advance hq, ← hmirrors.machine_writeBack hsound]
  simp [Stream.moving]

end Interpreter
end MicroBlock
