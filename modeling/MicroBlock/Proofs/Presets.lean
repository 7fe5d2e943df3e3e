import Mathlib
import MicroBlock.Listing
import MicroBlock.Proofs.StackOps

/-! The order in which the presets of a listing are put down.

The registers, the words and the ports of a listing are maps, and a machine is built by visiting their entries. In every
cell of the machine the last entry that names it counts. So whether there is a machine at all does not depend on the
order, and neither does the machine, exactly if all entries that name a cell leave the same in it. Ports are one cell
each; but one register has several spellings, and words overlap. -/

namespace MicroBlock

/-! ### Entries that are put down in order -/

/-- The entries of a map that is filled from a list: the last one for each key. -/
def distinct {κ β : Type} [DecidableEq κ] : List (κ × β) → List (κ × β)
  | [] => []
  | e :: es => if es.any (·.1 == e.1) then distinct es else e :: distinct es

section Distinct
variable {κ β : Type} [DecidableEq κ] {es : List (κ × β)} {e : κ × β}

theorem mem_of_mem_distinct (h : e ∈ distinct es) : e ∈ es := by
  induction es with
  | nil => exact h
  | cons x xs ih =>
    rw [distinct] at h
    split at h
    · exact .tail _ (ih h)
    · rcases List.mem_cons.mp h with rfl | h
      · exact .head _
      · exact .tail _ (ih h)

theorem exists_mem_distinct (h : e ∈ es) : ∃ e' ∈ distinct es, e'.1 = e.1 := by
  induction es generalizing e with
  | nil => cases h
  | cons x xs ih =>
    rw [distinct]
    split
    · next hx =>
      rcases List.mem_cons.mp h with rfl | h
      · obtain ⟨y, hy, heq⟩ := List.any_eq_true.mp hx
        obtain ⟨e', he', hkey⟩ := ih hy
        exact ⟨e', he', hkey.trans (by simpa using heq)⟩
      · exact ih h
    · rcases List.mem_cons.mp h with rfl | h
      · exact ⟨e, .head _, rfl⟩
      · obtain ⟨e', he', hkey⟩ := ih h
        exact ⟨e', .tail _ he', hkey⟩

/-- What holds of all keys holds of all keys of the map, and the other way round. -/
theorem forall_distinct_iff {p : κ → Prop} : (∀ e ∈ distinct es, p e.1) ↔ ∀ e ∈ es, p e.1 := by
  constructor
  · intro h e he
    obtain ⟨e', he', hkey⟩ := exists_mem_distinct he
    exact hkey ▸ h e' he'
  · exact fun h e he => h e (mem_of_mem_distinct he)

/-- A map has one value for each key. -/
theorem eq_of_mem_distinct {e' : κ × β} (h : e ∈ distinct es) (h' : e' ∈ distinct es) (hkey : e.1 = e'.1) : e = e' := by
  induction es with
  | nil => cases h
  | cons x xs ih =>
    rw [distinct] at h h'
    split at h
    · next hx =>
      rw [if_pos hx] at h'
      exact ih h h'
    · next hx =>
      rw [if_neg hx] at h'
      have hfresh : ∀ y ∈ distinct xs, y.1 ≠ x.1 := fun y hy heq =>
        hx (List.any_eq_true.mpr ⟨y, mem_of_mem_distinct hy, by simpa using heq⟩)
      rcases List.mem_cons.mp h with rfl | hmem <;> rcases List.mem_cons.mp h' with rfl | hmem'
      · rfl
      · exact absurd hkey.symm (hfresh e' hmem')
      · exact absurd hkey (hfresh e hmem)
      · exact ih hmem hmem'

end Distinct

/-- How entries are put down: the cells that a key names, and what an entry leaves in them. -/
structure Placing (κ β ι ν : Type) where
  cells : κ → List ι
  part : κ × β → ι → ν

namespace Placing
variable {κ β ι ν : Type} (P : Placing κ β ι ν)

/-- What a cell holds once entries were put down one after the other. -/
def held [DecidableEq ι] (base : ν) (es : List (κ × β)) (i : ι) : ν :=
  es.foldl (fun v e => if i ∈ P.cells e.1 then P.part e i else v) base

/-- Any two entries leave the same in every cell that both name. -/
def Agree (es : List (κ × β)) : Prop :=
  ∀ e ∈ es, ∀ e' ∈ es, ∀ i ∈ P.cells e.1, i ∈ P.cells e'.1 → P.part e i = P.part e' i

instance [DecidableEq ι] [DecidableEq ν] (es : List (κ × β)) : Decidable (P.Agree es) :=
  inferInstanceAs (Decidable (∀ e ∈ es, ∀ e' ∈ es, ∀ i ∈ P.cells e.1, i ∈ P.cells e'.1 → P.part e i = P.part e' i))

/-- Entries agree if every key has its own cells. -/
theorem agree_distinct {P : Placing κ β ι ν} [DecidableEq κ]
    (hcells : ∀ k k' i, i ∈ P.cells k → i ∈ P.cells k' → k = k') (es : List (κ × β)) : P.Agree (distinct es) := by
  intro e he e' he' i hi hi'
  rw [eq_of_mem_distinct he he' (hcells _ _ _ hi hi')]

variable [DecidableEq ι] {P} {es es' : List (κ × β)} {i : ι}

theorem held_cons (base : ν) (e : κ × β) (es : List (κ × β)) (i : ι) :
    P.held base (e :: es) i = P.held (if i ∈ P.cells e.1 then P.part e i else base) es i :=
  rfl

/-- A cell holds what one of the entries that name it leaves, whatever it held before, or there is none and it holds what
    it held before. -/
theorem held_cases (P : Placing κ β ι ν) (es : List (κ × β)) (i : ι) :
    (∃ e ∈ es, i ∈ P.cells e.1 ∧ ∀ base, P.held base es i = P.part e i) ∨
      ((∀ e ∈ es, i ∉ P.cells e.1) ∧ ∀ base, P.held base es i = base) := by
  induction es with
  | nil => exact .inr ⟨by simp, fun _ => rfl⟩
  | cons e es ih =>
    rcases ih with ⟨x, hx, hi, hheld⟩ | ⟨hnone, hheld⟩
    · exact .inl ⟨x, .tail _ hx, hi, fun _ => hheld _⟩
    · by_cases hi : i ∈ P.cells e.1
      · exact .inl ⟨e, .head _, hi, fun base => by rw [held_cons, hheld, if_pos hi]⟩
      · exact .inr ⟨List.forall_mem_cons.mpr ⟨hi, hnone⟩, fun base => by rw [held_cons, hheld, if_neg hi]⟩

/-- Earlier entries of a key do not count. -/
theorem held_distinct [DecidableEq κ] (P : Placing κ β ι ν) (base : ν) (es : List (κ × β)) (i : ι) :
    P.held base (distinct es) i = P.held base es i := by
  induction es generalizing base with
  | nil => rfl
  | cons e es ih =>
    rw [distinct, held_cons]
    split
    · next hany =>
      obtain ⟨x, hx, hkey⟩ := List.any_eq_true.mp hany
      rw [beq_iff_eq] at hkey
      rw [ih]
      split
      · next hi =>
        rcases P.held_cases es i with ⟨y, -, -, hheld⟩ | ⟨hnone, -⟩
        · rw [hheld, hheld]
        · exact absurd (hkey ▸ hi) (hnone x hx)
      · rfl
    · rw [held_cons, ih]

/-- Entries that agree can be put down in any order. -/
theorem Agree.held_eq (h : P.Agree es) (hperm : es'.Perm es) (base : ν) (i : ι) :
    P.held base es' i = P.held base es i := by
  rcases P.held_cases es' i with ⟨e, he, hi, hheld⟩ | ⟨hnone, hheld⟩ <;>
    rcases P.held_cases es i with ⟨x, hx, hi', hheld'⟩ | ⟨hnone', hheld'⟩
  · rw [hheld, hheld']
    exact h e (hperm.subset he) x hx i hi hi'
  · exact absurd hi (hnone' e (hperm.subset he))
  · exact absurd hi' (hnone x (hperm.symm.subset hx))
  · rw [hheld, hheld']

/-- If all orders leave the same in all cells, the entries agree: of two that name a cell, each can be put down last. -/
theorem agree_of_held_eq (base : ι → ν)
    (h : ∀ es' es'' : List (κ × β), es'.Perm es → es''.Perm es → ∀ i, P.held (base i) es' i = P.held (base i) es'' i) :
    P.Agree es := by
  classical
  intro e he e' he' i hi hi'
  by_cases heq : e = e'
  · rw [heq]
  obtain ⟨rest, hrest⟩ : ∃ rest, es.Perm (e :: e' :: rest) :=
    ⟨(es.erase e).erase e', (List.perm_cons_erase he).trans
      ((List.perm_cons_erase ((List.mem_erase_of_ne (Ne.symm heq)).mpr he')).cons e)⟩
  have hlast : ∀ x y : κ × β, i ∈ P.cells y.1 → P.held (base i) (rest ++ [x, y]) i = P.part y i := by
    intro x y hy
    simp only [held, List.foldl_append, List.foldl_cons, List.foldl_nil, if_pos hy]
  have hfirst : (rest ++ [e', e]).Perm es := (List.perm_append_comm.trans (List.Perm.swap ..)).trans hrest.symm
  have hsecond : (rest ++ [e, e']).Perm es := List.perm_append_comm.trans hrest.symm
  calc P.part e i = P.held (base i) (rest ++ [e', e]) i := (hlast e' e hi).symm
    _ = P.held (base i) (rest ++ [e, e']) i := h _ _ hfirst hsecond i
    _ = P.part e' i := hlast e e' hi'

end Placing

/-! ### Cells of a machine -/

/-- Two memories with the same bytes are equal. -/
theorem Memory.ext_byte {m m' : Memory} (hsize : m.size = m'.size) (h : ∀ a, m.byte a = m'.byte a) : m = m' := by
  obtain ⟨⟨data⟩⟩ := m
  obtain ⟨⟨data'⟩⟩ := m'
  have hdata : data = data' := by
    refine Array.ext hsize fun a ha ha' => ?_
    have hbyte := h a
    rwa [byte, byte, dif_pos (show a < (ByteArray.mk data).size from ha),
      dif_pos (show a < (ByteArray.mk data').size from ha')] at hbyte
  rw [hdata]

/-- Two latches give the same answers: what they hold and what they logged is the same. -/
structure Ports.Matches (p p' : Ports) : Prop where
  latched : ∀ port, p.latched port = p'.latched port
  writes : p.writes = p'.writes
  reads : p.reads = p'.reads

/-- Two machines are in the same state, with the same memory and the same values at the ports. -/
structure Machine.Matches (m m' : Machine) : Prop where
  regs : m.SameRegs m'
  memory : m.memory = m'.memory
  ports : Option.Rel Ports.Matches m.ports m'.ports
  router : m.router = m'.router
  delivered : m.delivered = m'.delivered
  retired : m.retired = m'.retired

namespace Listing

/-- A name is that of a register, in one of its spellings, or of none. -/
def registerCells : Placing String UInt32 Register Value where
  cells name := (preset? name).toList
  part e r := r.held (.ofUInt32 e.2)

/-- A word fills the four bytes from its address on, the lowest first. -/
def byteCells : Placing UInt32 UInt32 Nat UInt8 where
  cells a := List.range' a.toNat Width.dword.bytes
  part e k := (e.2 >>> UInt32.ofNat (8 * (k - e.1.toNat))).toUInt8

def portCells : Placing UInt16 UInt32 UInt16 UInt32 where
  cells a := [a]
  part e _ := e.2

/-! ### One entry after the other -/

/-- A fold that can fail, by what its steps do on the states that they can meet. -/
theorem foldlM_eq {σ α ε : Type} {f : σ → α → Except ε σ} {g : σ → α → σ} {Fits : α → Prop} (Inv : σ → Prop)
    (hok : ∀ s a, Inv s → Fits a → f s a = .ok (g s a) ∧ Inv (g s a))
    (hfail : ∀ s a, Inv s → ¬ Fits a → ∃ x, f s a = .error x) (as : List α) {s : σ} (hs : Inv s) :
    ((∀ a ∈ as, Fits a) → as.foldlM f s = .ok (as.foldl g s)) ∧
      ((¬ ∀ a ∈ as, Fits a) → ∃ x, as.foldlM f s = .error x) := by
  induction as generalizing s with
  | nil => exact ⟨fun _ => rfl, fun h => absurd (fun _ ha => absurd ha List.not_mem_nil) h⟩
  | cons a as ih =>
    rw [List.forall_mem_cons]
    by_cases ha : Fits a
    · obtain ⟨hstep, hinv⟩ := hok s a hs ha
      rw [List.foldlM_cons, hstep, List.foldl_cons]
      obtain ⟨hall, hsome⟩ := ih hinv
      exact ⟨fun h => hall h.2, fun h => hsome fun hrest => h ⟨ha, hrest⟩⟩
    · obtain ⟨x, hx⟩ := hfail s a hs ha
      rw [List.foldlM_cons, hx]
      exact ⟨fun h => absurd h.1 ha, fun _ => ⟨x, rfl⟩⟩

/-- Sets the register that a name spells, if it spells one. -/
def putRegister (m : Machine) (e : String × UInt32) : Machine :=
  ((preset? e.1).map fun r => m.set r (.ofUInt32 e.2)).getD m

def putWord (m : Machine) (e : UInt32 × UInt32) : Machine := { m with memory := m.memory.poke e.1.toNat .dword e.2 }

theorem getReg_putRegister (m : Machine) (e : String × UInt32) (r : Register) :
    (putRegister m e).getReg r = if r ∈ registerCells.cells e.1 then registerCells.part e r else m.getReg r := by
  rcases (preset? e.1).eq_none_or_eq_some with hname | ⟨q, hname⟩
  · simp [putRegister, registerCells, hname]
  · by_cases hq : r = q
    · simp [putRegister, registerCells, hname, Machine.getReg_set, hq]
    · simp [putRegister, registerCells, hname, Machine.getReg_set, hq, Ne.symm hq]

theorem putRegister_sameRest (m : Machine) (e : String × UInt32) : (putRegister m e).SameRest m := by
  unfold putRegister
  cases preset? e.1 with
  | none => exact .refl m
  | some r => exact m.set_sameRest r _

theorem size_putWord (m : Machine) (e : UInt32 × UInt32) : (putWord m e).memory.size = m.memory.size :=
  m.memory.size_poke e.1.toNat .dword e.2

theorem byte_putWord (m : Machine) {e : UInt32 × UInt32} (he : e.1.toNat + 4 ≤ m.memory.size) (k : Nat) :
    (putWord m e).memory.byte k = if k ∈ byteCells.cells e.1 then byteCells.part e k else m.memory.byte k := by
  simp only [putWord, byteCells, List.mem_range'_1, Width.bytes]
  split
  · next hk =>
    obtain ⟨i, rfl⟩ := Nat.exists_eq_add_of_le hk.1
    rw [Memory.byte_poke he (by simp only [Width.bytes]; omega), Nat.add_sub_cancel_left]
  · next hk =>
    rcases Nat.lt_or_ge k e.1.toNat with hlt | hge
    · exact m.memory.byte_poke_of_lt hlt .dword e.2
    · exact m.memory.byte_poke_of_le (by simp only [Width.bytes]; omega) e.2

theorem latched_preset (p : Ports) (e : UInt16 × UInt32) (port : UInt16) :
    (p.preset e.1 e.2).latched port = if port ∈ portCells.cells e.1 then portCells.part e port else p.latched port := by
  obtain ⟨a, v⟩ := e
  by_cases h : port = a
  · simp [Ports.latched, Ports.preset, portCells, h]
  · simp [Ports.latched, Ports.preset, portCells, List.lookup_cons, beq_false_of_ne h, h]

theorem foldlM_setRegister (es : List (String × UInt32)) (m : Machine) :
    ((∀ e ∈ es, (preset? e.1).isSome = true) → es.foldlM setRegister m = .ok (es.foldl putRegister m)) ∧
      ((¬ ∀ e ∈ es, (preset? e.1).isSome = true) → ∃ x, es.foldlM setRegister m = .error x) := by
  refine foldlM_eq (fun _ => True) (fun m e _ he => ?_) (fun m e _ he => ?_) es trivial
  · obtain ⟨r, hr⟩ := Option.isSome_iff_exists.mp he
    simp [setRegister, putRegister, hr]
  · rw [Bool.not_eq_true, Option.isSome_eq_false_iff, Option.isNone_iff_eq_none] at he
    exact ⟨.preset e.1, by simp only [setRegister, he]⟩

theorem foldlM_setWord (es : List (UInt32 × UInt32)) (m : Machine) :
    ((∀ e ∈ es, e.1.toNat + 4 ≤ m.memory.size) → es.foldlM setWord m = .ok (es.foldl putWord m)) ∧
      ((¬ ∀ e ∈ es, e.1.toNat + 4 ≤ m.memory.size) → ∃ x, es.foldlM setWord m = .error x) := by
  refine foldlM_eq (fun m' => m'.memory.size = m.memory.size) (fun m' e hm' he => ?_) (fun m' e hm' he => ?_) es rfl
  · have hfits : ¬ m'.memory.size < e.1.toNat + Width.dword.bytes := by
      rw [hm', Nat.not_lt]
      exact he
    exact ⟨by simp only [setWord, Memory.write, if_neg hfits, putWord], (size_putWord m' e).trans hm'⟩
  · have hout : m'.memory.size < e.1.toNat + Width.dword.bytes := by
      rw [hm']
      exact Nat.lt_of_not_le he
    exact ⟨.memory e.1 (.pageFault e.1 true), by simp only [setWord, Memory.write, if_pos hout]⟩

section Folds
variable (m : Machine)

theorem getReg_foldl_putRegister (es : List (String × UInt32)) (r : Register) :
    (es.foldl putRegister m).getReg r = registerCells.held (m.getReg r) es r := by
  induction es generalizing m with
  | nil => rfl
  | cons e es ih => rw [List.foldl_cons, ih, getReg_putRegister, Placing.held_cons]

theorem foldl_putRegister_sameRest (es : List (String × UInt32)) : (es.foldl putRegister m).SameRest m := by
  induction es generalizing m with
  | nil => exact .refl m
  | cons e es ih => exact (ih _).trans (putRegister_sameRest m e)

theorem byte_foldl_putWord {es : List (UInt32 × UInt32)} (hes : ∀ e ∈ es, e.1.toNat + 4 ≤ m.memory.size) (k : Nat) :
    (es.foldl putWord m).memory.byte k = byteCells.held (m.memory.byte k) es k := by
  induction es generalizing m with
  | nil => rfl
  | cons e es ih =>
    obtain ⟨he, hrest⟩ := List.forall_mem_cons.mp hes
    rw [List.foldl_cons, ih _ (by simpa only [size_putWord] using hrest), byte_putWord m he, Placing.held_cons]

theorem foldl_putWord_eq (es : List (UInt32 × UInt32)) :
    ∃ memory, es.foldl putWord m = { m with memory } ∧ memory.size = m.memory.size := by
  induction es generalizing m with
  | nil => exact ⟨m.memory, rfl, rfl⟩
  | cons e es ih =>
    obtain ⟨memory, heq, hsize⟩ := ih (putWord m e)
    exact ⟨memory, heq, hsize.trans (size_putWord m e)⟩

end Folds

/-- The latch after some presets. -/
def latch (es : List (UInt16 × UInt32)) : Ports := es.foldl (fun p e => p.preset e.1 e.2) {}

theorem foldl_preset_eq (es : List (UInt16 × UInt32)) (p : Ports) :
    (∀ port, (es.foldl (fun p e => p.preset e.1 e.2) p).latched port = portCells.held (p.latched port) es port) ∧
      (es.foldl (fun p e => p.preset e.1 e.2) p).writes = p.writes ∧
      (es.foldl (fun p e => p.preset e.1 e.2) p).reads = p.reads := by
  induction es generalizing p with
  | nil => exact ⟨fun _ => rfl, rfl, rfl⟩
  | cons e es ih =>
    obtain ⟨hlatched, hlog⟩ := ih (p.preset e.1 e.2)
    exact ⟨fun port => by rw [List.foldl_cons, hlatched, latched_preset, Placing.held_cons], hlog⟩

/-! ### The machine of a listing -/

/-- What a listing asks for can be had: a memory of the size, the registers, and the words in the memory. -/
structure Buildable (l : Listing) : Prop where
  size : 0 ≤ l.memorySize.toInt ∧ l.memorySize.toInt ≤ Memory.maxSize
  registers : ∀ e ∈ l.registers, (preset? e.1).isSome = true
  memory : ∀ e ∈ l.memory, e.1.toNat + 4 ≤ l.memorySize.toInt.toNat

/-- The machine of a listing before its presets. -/
def start (l : Listing) (mode : Mode) : Machine :=
  { Machine.reset (.ofSize l.memorySize.toInt.toNat) with eip := l.eip, cpl := if mode = .vm86 then 3 else 0 }

/-- The machine of a listing if there is one. -/
def built (l : Listing) (mode : Mode) : Machine :=
  { l.memory.foldl putWord (l.registers.foldl putRegister (l.start mode)) with ports := some (latch l.ports) }

theorem size_start (l : Listing) (mode : Mode) (es : List (String × UInt32)) :
    (es.foldl putRegister (l.start mode)).memory.size = l.memorySize.toInt.toNat := by
  rw [(foldl_putRegister_sameRest _ _).memory]
  exact Array.size_replicate

theorem machine_eq (l : Listing) (mode : Mode) :
    l.machine mode =
      if l.memorySize.toInt < 0 ∨ (Memory.maxSize : Int) < l.memorySize.toInt then .error .memorySize
      else do
        let m ← l.registers.foldlM setRegister (l.start mode)
        let m ← l.memory.foldlM setWord m
        return { m with ports := some (latch l.ports) } := by
  by_cases h : l.memorySize.toInt < 0 ∨ (Memory.maxSize : Int) < l.memorySize.toInt
  · simp only [machine, Memory.ofSize?, if_pos h]
    rfl
  · simp only [machine, Memory.ofSize?, if_neg h]
    rfl

/-- There is a machine exactly if what the listing asks for can be had. -/
theorem machine_spec (l : Listing) (mode : Mode) :
    (l.Buildable → l.machine mode = .ok (l.built mode)) ∧ (¬ l.Buildable → ∃ x, l.machine mode = .error x) := by
  have hregisters := foldlM_setRegister l.registers (l.start mode)
  have hmemory := foldlM_setWord l.memory (l.registers.foldl putRegister (l.start mode))
  rw [size_start] at hmemory
  rw [machine_eq]
  split
  · next hsize => exact ⟨fun h => by have := h.size; omega, fun _ => ⟨_, rfl⟩⟩
  next hsize =>
  by_cases hnames : ∀ e ∈ l.registers, (preset? e.1).isSome = true
  · rw [hregisters.1 hnames]
    by_cases hfits : ∀ e ∈ l.memory, e.1.toNat + 4 ≤ l.memorySize.toInt.toNat
    · exact ⟨fun _ => by simp only [bind, Except.bind, hmemory.1 hfits]; rfl,
        fun h => absurd ⟨by omega, hnames, hfits⟩ h⟩
    · obtain ⟨x, hx⟩ := hmemory.2 hfits
      exact ⟨fun h => absurd h.memory hfits, fun _ => ⟨x, by simp only [bind, Except.bind, hx]⟩⟩
  · obtain ⟨x, hx⟩ := hregisters.2 hnames
    exact ⟨fun h => absurd h.registers hnames, fun _ => ⟨x, by simp only [bind, Except.bind, hx]⟩⟩

section Built
variable (l : Listing) (mode : Mode)

theorem getReg_built (r : Register) :
    (l.built mode).getReg r = registerCells.held ((l.start mode).getReg r) l.registers r := by
  obtain ⟨memory, heq, -⟩ := foldl_putWord_eq (l.registers.foldl putRegister (l.start mode)) l.memory
  rw [← getReg_foldl_putRegister, built, heq]
  cases r <;> rfl

theorem byte_built {l : Listing} (h : l.Buildable) (mode : Mode) (k : Nat) :
    (l.built mode).memory.byte k = byteCells.held ((l.start mode).memory.byte k) l.memory k := by
  rw [← (foldl_putRegister_sameRest (l.start mode) l.registers).memory]
  exact byte_foldl_putWord _ (by rw [size_start]; exact h.memory) k

theorem size_built : (l.built mode).memory.size = l.memorySize.toInt.toNat := by
  obtain ⟨memory, heq, hsize⟩ := foldl_putWord_eq (l.registers.foldl putRegister (l.start mode)) l.memory
  rw [built, heq, ← size_start l mode l.registers, ← hsize]

/-- What no preset changes. -/
theorem built_rest : (l.built mode).router = .queue ∧ (l.built mode).delivered = [] ∧ (l.built mode).retired = 0 := by
  obtain ⟨memory, heq, -⟩ := foldl_putWord_eq (l.registers.foldl putRegister (l.start mode)) l.memory
  have hrest := foldl_putRegister_sameRest (l.start mode) l.registers
  rw [built, heq]
  exact ⟨hrest.router, hrest.delivered, hrest.retired⟩

end Built

/-! ### Orders -/

/-- A listing whose maps are visited in some order. -/
structure Visited (l l' : Listing) : Prop where
  rest : l' = { l with registers := l'.registers, memory := l'.memory, ports := l'.ports }
  registers : l'.registers.Perm (distinct l.registers)
  memory : l'.memory.Perm (distinct l.memory)
  ports : l'.ports.Perm (distinct l.ports)

/-- Two listings come to the same: both to machines in the same state, or both to none. -/
def SameOutcome : Except MachineError Machine → Except MachineError Machine → Prop
  | .ok m, .ok m' => m.Matches m'
  | .error _, .error _ => True
  | _, _ => False

/-- All entries for a register store the same in it, and words that overlap have the same bytes where they do. -/
structure Agrees (l : Listing) : Prop where
  registers : registerCells.Agree (distinct l.registers)
  memory : byteCells.Agree (distinct l.memory)

/-- The order of the document. -/
def ordered (l : Listing) : Listing :=
  { l with registers := distinct l.registers, memory := distinct l.memory, ports := distinct l.ports }

section Orders
variable {l l' l'' : Listing} {mode : Mode}

theorem visited_ordered (l : Listing) : l.Visited l.ordered := ⟨rfl, .refl _, .refl _, .refl _⟩

theorem Visited.memorySize (h : l.Visited l') : l'.memorySize = l.memorySize := by rw [h.rest]

theorem Visited.start (h : l.Visited l') (mode : Mode) : l'.start mode = l.start mode := by
  rw [h.rest]
  rfl

/-- Whether a listing can be had is a matter of its keys. -/
theorem Visited.buildable_iff (h : l.Visited l') : l'.Buildable ↔ l.Buildable := by
  have hregisters : (∀ e ∈ l'.registers, (preset? e.1).isSome = true) ↔ ∀ e ∈ l.registers, (preset? e.1).isSome = true := by
    simp only [h.registers.mem_iff]
    exact forall_distinct_iff (p := fun name => (preset? name).isSome = true)
  have hmemory : (∀ e ∈ l'.memory, e.1.toNat + 4 ≤ l.memorySize.toInt.toNat) ↔
      ∀ e ∈ l.memory, e.1.toNat + 4 ≤ l.memorySize.toInt.toNat := by
    simp only [h.memory.mem_iff]
    exact forall_distinct_iff (p := fun a : UInt32 => a.toNat + 4 ≤ l.memorySize.toInt.toNat)
  constructor
  · rintro ⟨hsize, hregs, hwords⟩
    rw [h.memorySize] at hsize hwords
    exact ⟨hsize, hregisters.mp hregs, hmemory.mp hwords⟩
  · rintro ⟨hsize, hregs, hwords⟩
    refine ⟨?_, hregisters.mpr hregs, ?_⟩ <;> rw [h.memorySize]
    · exact hsize
    · exact hmemory.mpr hwords

/-- Two listings that start alike and leave the same in every cell come to machines in the same state. -/
theorem matches_built (hl : l.Buildable) (hl' : l'.Buildable) (hstart : l.start mode = l'.start mode)
    (hregisters : ∀ v r, registerCells.held v l.registers r = registerCells.held v l'.registers r)
    (hmemory : ∀ v k, byteCells.held v l.memory k = byteCells.held v l'.memory k)
    (hports : ∀ v a, portCells.held v l.ports a = portCells.held v l'.ports a) :
    (l.built mode).Matches (l'.built mode) := by
  obtain ⟨hrouter, hdelivered, hretired⟩ := l.built_rest mode
  obtain ⟨hrouter', hdelivered', hretired'⟩ := l'.built_rest mode
  obtain ⟨hlatched, hwrites, hreads⟩ := foldl_preset_eq l.ports {}
  obtain ⟨hlatched', hwrites', hreads'⟩ := foldl_preset_eq l'.ports {}
  refine ⟨fun r => ?_, Memory.ext_byte ?_ fun k => ?_, .some ⟨fun a => ?_, ?_, ?_⟩, ?_, ?_, ?_⟩
  · rw [getReg_built, getReg_built, hstart, hregisters]
  · rw [size_built, size_built, ← size_start l mode [], hstart, size_start l' mode []]
  · rw [byte_built hl, byte_built hl', hstart, hmemory]
  · exact (hlatched a).trans ((hports _ a).trans (hlatched' a).symm)
  · exact hwrites.trans hwrites'.symm
  · exact hreads.trans hreads'.symm
  · rw [hrouter, hrouter']
  · rw [hdelivered, hdelivered']
  · rw [hretired, hretired']

theorem sameOutcome_of_buildable (hl : l.Buildable) (hl' : l'.Buildable) :
    SameOutcome (l.machine mode) (l'.machine mode) ↔ (l.built mode).Matches (l'.built mode) := by
  rw [(l.machine_spec mode).1 hl, (l'.machine_spec mode).1 hl', SameOutcome]

theorem sameOutcome_of_not_buildable (hl : ¬ l.Buildable) (hl' : ¬ l'.Buildable) :
    SameOutcome (l.machine mode) (l'.machine mode) := by
  obtain ⟨x, hx⟩ := (l.machine_spec mode).2 hl
  obtain ⟨x', hx'⟩ := (l'.machine_spec mode).2 hl'
  rw [hx, hx']
  exact trivial

/-- Reading the entries in the order of the document is one way to visit them. -/
theorem sameOutcome_ordered (l : Listing) (mode : Mode) : SameOutcome (l.machine mode) (l.ordered.machine mode) := by
  have hiff := l.visited_ordered.buildable_iff
  by_cases hl : l.Buildable
  · refine (sameOutcome_of_buildable hl (hiff.mpr hl)).mpr (matches_built hl (hiff.mpr hl) rfl ?_ ?_ ?_)
    · exact fun v r => (registerCells.held_distinct v l.registers r).symm
    · exact fun v k => (byteCells.held_distinct v l.memory k).symm
    · exact fun v a => (portCells.held_distinct v l.ports a).symm
  · exact sameOutcome_of_not_buildable hl (hiff.not.mpr hl)

theorem agree_ports (es : List (UInt16 × UInt32)) : portCells.Agree (distinct es) := by
  refine Placing.agree_distinct (fun a a' port h h' => ?_) es
  simp only [portCells, List.mem_singleton] at h h'
  rw [← h, h']

/-- Presets that agree can be visited in any order. -/
theorem Agrees.sameOutcome (h : l.Agrees) (h' : l.Visited l') (h'' : l.Visited l'') :
    SameOutcome (l'.machine mode) (l''.machine mode) := by
  by_cases hl : l.Buildable
  · have hl' := h'.buildable_iff.mpr hl
    have hl'' := h''.buildable_iff.mpr hl
    refine (sameOutcome_of_buildable hl' hl'').mpr (matches_built hl' hl'' ?_ ?_ ?_ ?_)
    · rw [h'.start, h''.start]
    · intro v r
      rw [h.registers.held_eq h'.registers, h.registers.held_eq h''.registers]
    · intro v k
      rw [h.memory.held_eq h'.memory, h.memory.held_eq h''.memory]
    · intro v a
      rw [(agree_ports l.ports).held_eq h'.ports, (agree_ports l.ports).held_eq h''.ports]
  · exact sameOutcome_of_not_buildable (h'.buildable_iff.not.mpr hl) (h''.buildable_iff.not.mpr hl)

/-- If all orders come to the same, no two entries leave something else in a cell. -/
theorem agrees_of_sameOutcome (hl : l.Buildable)
    (h : ∀ l' l'', l.Visited l' → l.Visited l'' → SameOutcome (l'.machine mode) (l''.machine mode)) : l.Agrees := by
  have hmatches : ∀ l' l'', l.Visited l' → l.Visited l'' → (l'.built mode).Matches (l''.built mode) :=
    fun l' l'' h' h'' => (sameOutcome_of_buildable (h'.buildable_iff.mpr hl) (h''.buildable_iff.mpr hl)).mp (h _ _ h' h'')
  constructor
  · refine Placing.agree_of_held_eq (fun r => (l.start mode).getReg r) fun es es' hes hes' r => ?_
    have hvisited : ∀ {es}, es.Perm (distinct l.registers) → l.Visited { l.ordered with registers := es } :=
      fun hes => ⟨rfl, hes, .refl _, .refl _⟩
    have hregs := (hmatches _ _ (hvisited hes) (hvisited hes')).regs r
    rwa [getReg_built, getReg_built, (hvisited hes).start, (hvisited hes').start] at hregs
  · refine Placing.agree_of_held_eq (fun k => (l.start mode).memory.byte k) fun es es' hes hes' k => ?_
    have hvisited : ∀ {es}, es.Perm (distinct l.memory) → l.Visited { l.ordered with memory := es } :=
      fun hes => ⟨rfl, .refl _, hes, .refl _⟩
    have hbyte := congrArg (·.byte k) (hmatches _ _ (hvisited hes) (hvisited hes')).memory
    simp only at hbyte
    rwa [byte_built ((hvisited hes).buildable_iff.mpr hl), byte_built ((hvisited hes').buildable_iff.mpr hl),
      (hvisited hes).start, (hvisited hes').start] at hbyte

end Orders

/-- Whether a listing comes to a machine is a matter of what it asks for, in whatever order its maps are visited; its own
    order is one of these. If it does, all orders come to machines in the same state exactly if its presets agree: all
    entries for a register store the same in it, and words that overlap have the same bytes where they do. -/
theorem machine_order_irrelevant_iff (l : Listing) (mode : Mode) :
    (∀ l', l.Visited l' → ((∃ m, l'.machine mode = .ok m) ↔ l.Buildable)) ∧
    (∃ l', l.Visited l' ∧ SameOutcome (l.machine mode) (l'.machine mode)) ∧
    ((∀ l' l'', l.Visited l' → l.Visited l'' → SameOutcome (l'.machine mode) (l''.machine mode)) ↔
      (l.Buildable → l.Agrees)) := by
  refine ⟨fun l' hl' => ?_, ⟨l.ordered, l.visited_ordered, l.sameOutcome_ordered mode⟩, ?_⟩
  · rw [← hl'.buildable_iff]
    constructor
    · rintro ⟨m, hm⟩
      by_contra hnot
      obtain ⟨x, hx⟩ := (l'.machine_spec mode).2 hnot
      rw [hx] at hm
      cases hm
    · exact fun hbuildable => ⟨_, (l'.machine_spec mode).1 hbuildable⟩
  · constructor
    · exact fun h hl => agrees_of_sameOutcome hl h
    · intro h l' l'' hl' hl''
      by_cases hl : l.Buildable
      · exact (h hl).sameOutcome hl' hl''
      · exact sameOutcome_of_not_buildable (hl'.buildable_iff.not.mpr hl) (hl''.buildable_iff.not.mpr hl)

/-- Presets that hit cells twice and agree: a register in two spellings, and two words that overlap by half. -/
def overlapping : Listing where
  mode := "real"
  instructions := []
  registers := [("EAX", 7), ("eax", 7)]
  eip := 0
  memorySize := 32
  memory := [(16, 0x33221100), (18, 0x55443322)]
  ports := [(0x60, 1)]

theorem machine_order_irrelevant_overlapping :
    (∃ m, overlapping.machine .real = .ok m) ∧
    ∀ l' l'', overlapping.Visited l' → overlapping.Visited l'' → SameOutcome (l'.machine .real) (l''.machine .real) := by
  have hbuildable : overlapping.Buildable := ⟨by decide, by decide +kernel, by simp [overlapping]⟩
  have hagrees : overlapping.Agrees := ⟨by decide +kernel, by decide⟩
  exact ⟨⟨_, (overlapping.machine_spec .real).1 hbuildable⟩,
    (overlapping.machine_order_irrelevant_iff .real).2.2.mpr fun _ => hagrees⟩

/-- A listing that presets nothing but registers. -/
def presetting (registers : List (String × UInt32)) : Listing :=
  { overlapping with registers, memory := [], ports := [] }

theorem visited_presetting {es es' : List (String × UInt32)} (h : es'.Perm (distinct es)) :
    (presetting es).Visited (presetting es') :=
  ⟨rfl, h, .refl _, .refl _⟩

theorem exists_machine_presetting (es : List (String × UInt32)) (h : ∀ e ∈ es, (preset? e.1).isSome = true) :
    ∃ m, (presetting es).machine .real = .ok m ∧
      ∀ r, m.getReg r = registerCells.held ((overlapping.start .real).getReg r) es r := by
  have hsize : 0 ≤ overlapping.memorySize.toInt ∧ overlapping.memorySize.toInt ≤ Memory.maxSize := by decide
  exact ⟨_, ((presetting es).machine_spec .real).1 ⟨hsize, h, by simp [presetting]⟩, (presetting es).getReg_built .real⟩

/-- One register in two spellings with two values: the one that is visited last counts. -/
theorem machine_order_matters :
    let l := presetting [("EAX", 1), ("eax", 2)]
    let l' := presetting [("eax", 2), ("EAX", 1)]
    read? "memory_size: 32\nregisters:\n  EAX: 1\n  eax: 2\n" = some l ∧
    l.Visited l ∧ l.Visited l' ∧ ∃ m m', l.machine .real = .ok m ∧ l'.machine .real = .ok m' ∧
      m.getReg (.gpr .eax) = .ofUInt32 2 ∧ m'.getReg (.gpr .eax) = .ofUInt32 1 := by
  have hdistinct : distinct [("EAX", (1 : UInt32)), ("eax", 2)] = [("EAX", 1), ("eax", 2)] := by decide
  obtain ⟨m, hm, hreg⟩ := exists_machine_presetting [("EAX", 1), ("eax", 2)] (by decide +kernel)
  obtain ⟨m', hm', hreg'⟩ := exists_machine_presetting [("eax", 2), ("EAX", 1)] (by decide +kernel)
  refine ⟨by decide, visited_presetting ?_, visited_presetting ?_, m, m', hm, hm', ?_, ?_⟩
  · rw [hdistinct]
  · rw [hdistinct]
    exact .swap ..
  · rw [hreg]
    decide +kernel
  · rw [hreg']
    decide +kernel

end Listing
end MicroBlock
