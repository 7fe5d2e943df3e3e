import MicroBlock.Bank
import MicroBlock.Cpu.Kind
import MicroBlock.Text.Case

/-! The pieces of virtual-processor state that microcode reads and writes.

Elements are numbered: registers first, then the working values that the ops of one block hand to
each other, then constants and effect markers. Compiled code refers to an element by its number. -/

namespace MicroBlock

inductive Gpr where
  | eax | ecx | edx | ebx | esp | ebp | esi | edi
  deriving DecidableEq

inductive Flag where
  | cf | pf | af | zf | sf | tf | if_ | df | of | iopl | nt | rf | vm | ac | vif | vip | id
  deriving DecidableEq

inductive SegReg where
  | es | cs | ss | ds | fs | gs
  deriving DecidableEq

inductive TableReg where
  | idtr | gdtr | ldtr | tr
  deriving DecidableEq

/-- A working value shared between the ops of a block. -/
inductive Temp where
  | reg0 | reg1 | addr0 | seg0 | long0
  deriving DecidableEq

/-- What an op does outside the register file; a marker holds no value. -/
inductive Marker where
  | memoryWrite | portWrite | executeCount
  deriving DecidableEq

/-- The guest-visible registers, written back when a block completes or faults. -/
inductive Register where
  | gpr (r : Gpr)
  | eip
  | flag (f : Flag)
  | seg (s : SegReg)
  | table (t : TableReg)
  | cpl
  deriving DecidableEq

inductive Element where
  | reg (r : Register)
  | temp (t : Temp)
  | cpu
  | zero
  | marker (m : Marker)
  deriving DecidableEq

namespace Gpr

def index : Gpr → Fin 8
  | eax => 0 | ecx => 1 | edx => 2 | ebx => 3 | esp => 4 | ebp => 5 | esi => 6 | edi => 7

theorem index_inj : ∀ a b : Gpr, a.index = b.index → a = b := by
  intro a b; cases a <;> cases b <;> simp [index]

instance : Numbered Gpr := ⟨8, index, index_inj⟩

def all : List Gpr := [eax, ecx, edx, ebx, esp, ebp, esi, edi]

def name : Gpr → String
  | eax => "EAX" | ecx => "ECX" | edx => "EDX" | ebx => "EBX"
  | esp => "ESP" | ebp => "EBP" | esi => "ESI" | edi => "EDI"

/-- The name of the low half. -/
def halfName : Gpr → String
  | eax => "AX" | ecx => "CX" | edx => "DX" | ebx => "BX"
  | esp => "SP" | ebp => "BP" | esi => "SI" | edi => "DI"

end Gpr

namespace Flag

def index : Flag → Fin 17
  | cf => 0 | pf => 1 | af => 2 | zf => 3 | sf => 4 | tf => 5 | if_ => 6 | df => 7 | of => 8
  | iopl => 9 | nt => 10 | rf => 11 | vm => 12 | ac => 13 | vif => 14 | vip => 15 | id => 16

theorem index_inj : ∀ a b : Flag, a.index = b.index → a = b := by
  intro a b; cases a <;> cases b <;> simp [index]

instance : Numbered Flag := ⟨17, index, index_inj⟩

def all : List Flag :=
  [cf, pf, af, zf, sf, tf, if_, df, of, iopl, nt, rf, vm, ac, vif, vip, id]

def name : Flag → String
  | cf => "CF" | pf => "PF" | af => "AF" | zf => "ZF" | sf => "SF" | tf => "TF" | if_ => "IF"
  | df => "DF" | of => "OF" | iopl => "IOPL" | nt => "NT" | rf => "RF" | vm => "VM" | ac => "AC"
  | vif => "VIF" | vip => "VIP" | id => "ID"

/-- The lowest bit of the flag in EFLAGS. -/
def bit : Flag → UInt32
  | cf => 0 | pf => 2 | af => 4 | zf => 6 | sf => 7 | tf => 8 | if_ => 9 | df => 10 | of => 11
  | iopl => 12 | nt => 14 | rf => 16 | vm => 17 | ac => 18 | vif => 19 | vip => 20 | id => 21

/-- The values the flag can hold: IOPL has two bits, every other flag one. -/
def mask : Flag → UInt32
  | iopl => 3
  | _ => 1

end Flag

namespace SegReg

def index : SegReg → Fin 6
  | es => 0 | cs => 1 | ss => 2 | ds => 3 | fs => 4 | gs => 5

theorem index_inj : ∀ a b : SegReg, a.index = b.index → a = b := by
  intro a b; cases a <;> cases b <;> simp [index]

instance : Numbered SegReg := ⟨6, index, index_inj⟩

def all : List SegReg := [es, cs, ss, ds, fs, gs]

def name : SegReg → String
  | es => "ES" | cs => "CS" | ss => "SS" | ds => "DS" | fs => "FS" | gs => "GS"

end SegReg

namespace TableReg

def index : TableReg → Fin 4
  | idtr => 0 | gdtr => 1 | ldtr => 2 | tr => 3

theorem index_inj : ∀ a b : TableReg, a.index = b.index → a = b := by
  intro a b; cases a <;> cases b <;> simp [index]

instance : Numbered TableReg := ⟨4, index, index_inj⟩

def all : List TableReg := [idtr, gdtr, ldtr, tr]

def name : TableReg → String
  | idtr => "IDTR" | gdtr => "GDTR" | ldtr => "LDTR" | tr => "TR"

end TableReg

namespace Temp

def index : Temp → Fin 5
  | reg0 => 0 | reg1 => 1 | addr0 => 2 | seg0 => 3 | long0 => 4

theorem index_inj : ∀ a b : Temp, a.index = b.index → a = b := by
  intro a b; cases a <;> cases b <;> simp [index]

def all : List Temp := [reg0, reg1, addr0, seg0, long0]

def name : Temp → String
  | reg0 => "REG0" | reg1 => "REG1" | addr0 => "ADDR0" | seg0 => "SEG0" | long0 => "LONG0"

def kind : Temp → Kind
  | seg0 => .ref
  | long0 => .long
  | _ => .int

end Temp

namespace Marker

def index : Marker → Fin 3
  | memoryWrite => 0 | portWrite => 1 | executeCount => 2

theorem index_inj : ∀ a b : Marker, a.index = b.index → a = b := by
  intro a b; cases a <;> cases b <;> simp [index]

def all : List Marker := [memoryWrite, portWrite, executeCount]

def name : Marker → String
  | memoryWrite => "MEMORYWRITE" | portWrite => "IOPORTWRITE" | executeCount => "EXECUTECOUNT"

end Marker

namespace Register

def number : Register → Nat
  | gpr r => r.index
  | eip => 8
  | flag f => 9 + f.index
  | seg s => 26 + s.index
  | table t => 32 + t.index
  | cpl => 36

def all : List Register :=
  Gpr.all.map gpr ++ [eip] ++ Flag.all.map flag ++ SegReg.all.map seg ++ TableReg.all.map table ++ [cpl]

def name : Register → String
  | gpr r => r.name
  | eip => "EIP"
  | flag f => f.name
  | seg s => s.name
  | table t => t.name
  | cpl => "CPL"

def kind : Register → Kind
  | seg _ => .ref
  | table _ => .ref
  | _ => .int

end Register

namespace Element

/-- The number of elements. -/
def count : Nat := 47

def number : Element → Nat
  | reg r => r.number
  | temp t => 37 + t.index
  | cpu => 42
  | zero => 43
  | marker m => 44 + m.index

theorem number_lt (e : Element) : e.number < count := by
  rcases e with (r | _ | f | s | t | _) | t | _ | _ | m <;>
    simp only [number, Register.number, count] <;> omega

theorem number_inj : ∀ a b : Element, a.number = b.number → a = b := by
  intro a b h
  rcases a with (a | _ | a | a | a | _) | a | _ | _ | a <;>
    rcases b with (b | _ | b | b | b | _) | b | _ | _ | b <;>
    simp only [number, Register.number] at h <;>
    first
      | rfl
      | (exfalso; omega)
      | rw [Gpr.index_inj a b (Fin.ext (by omega))]
      | rw [Flag.index_inj a b (Fin.ext (by omega))]
      | rw [SegReg.index_inj a b (Fin.ext (by omega))]
      | rw [TableReg.index_inj a b (Fin.ext (by omega))]
      | rw [Temp.index_inj a b (Fin.ext (by omega))]
      | rw [Marker.index_inj a b (Fin.ext (by omega))]

instance : Numbered Element where
  card := count
  index e := ⟨e.number, e.number_lt⟩
  index_inj a b h := number_inj a b (congrArg Fin.val h)

/-- Every element, in number order. -/
def all : List Element :=
  Register.all.map reg ++ Temp.all.map temp ++ [cpu, zero] ++ Marker.all.map marker

def ofNumber? (n : Nat) : Option Element := all[n]?

@[simp] theorem ofNumber?_number (e : Element) : ofNumber? e.number = some e := by
  rcases e with (r | _ | f | s | t | _) | t | _ | _ | m
  · cases r <;> rfl
  · rfl
  · cases f <;> rfl
  · cases s <;> rfl
  · cases t <;> rfl
  · rfl
  · cases t <;> rfl
  · rfl
  · rfl
  · cases m <;> rfl

def name : Element → String
  | reg r => r.name
  | temp t => t.name
  | cpu => "CPU"
  | zero => "ZERO"
  | marker m => m.name

def kind : Element → Kind
  | reg r => r.kind
  | temp t => t.kind
  | cpu => .ref
  | zero => .int
  | marker _ => .void

/-- Every element with its name. -/
def byName : List (String × Element) := all.map fun e => (e.name, e)

/-- Reads an element name in any letter case. -/
def ofName? (s : String) : Option Element :=
  byName.lookup (Text.upperAscii (Text.lowerToAscii s))

def register? : Element → Option Register
  | reg r => some r
  | _ => none

def isRegister (e : Element) : Bool := e.register?.isSome

def isTemp : Element → Bool
  | temp _ => true
  | _ => false

/-- Constants and markers, which are not stored state. -/
def isPseudo : Element → Bool
  | cpu | zero | marker _ => true
  | _ => false

/-- Whether a value of the element may be kept in a slot. A marker is consumed at once; the
    processor reference and zero are cheaper to load again than to store. -/
def materializable (e : Element) : Bool := !e.isPseudo

def isFlag : Element → Bool
  | reg (.flag _) => true
  | _ => false

def isSegment : Element → Bool
  | reg (.seg _) => true
  | _ => false

/-! ### Short names for the elements that lowering tables mention -/

abbrev gpr (r : Gpr) : Element := reg (.gpr r)
abbrev flag (f : Flag) : Element := reg (.flag f)
abbrev seg (s : SegReg) : Element := reg (.seg s)
abbrev eip : Element := reg .eip
abbrev cpl : Element := reg .cpl
abbrev reg0 : Element := temp .reg0
abbrev reg1 : Element := temp .reg1
abbrev addr0 : Element := temp .addr0
abbrev seg0 : Element := temp .seg0
abbrev long0 : Element := temp .long0

end Element

/-- An element number as it stands in an operand; numbers past the last element name nothing. -/
structure ElementNumber where
  val : UInt8
  deriving DecidableEq

namespace ElementNumber

def element? (n : ElementNumber) : Option Element := Element.ofNumber? n.val.toNat

def name (n : ElementNumber) : String :=
  match n.element? with
  | some e => e.name
  | none => "element(" ++ toString n.val.toNat ++ ")"

/-- A number that names nothing counts as an int. -/
def kind (n : ElementNumber) : Kind :=
  match n.element? with
  | some e => e.kind
  | none => .int

end ElementNumber
end MicroBlock
