import Mathlib
import MicroBlock.Cpu.Machine

/-! Reading and writing the registers of a machine. A machine is its registers and the rest of it, so
two machines that agree on every register and on the rest are equal; a sequence of writes is known
from what each register holds at its end. -/

namespace MicroBlock

/-! ### Banks -/

namespace Bank
variable {ι α : Type} [Numbered ι]

theorem get_set [DecidableEq ι] (b : Bank ι α) (i j : ι) (a : α) :
    (b.set i a).get j = if i = j then a else b.get j := by
  split
  · next h => rw [h, get_set_self]
  · next h => exact get_set_of_ne b a h

/-- Two banks with the same cells are equal, if every number is that of a member. -/
theorem ext_get {b b' : Bank ι α} (onto : ∀ k : Fin (Numbered.card ι), ∃ i : ι, Numbered.index i = k)
    (h : ∀ i, b.get i = b'.get i) : b = b' := by
  obtain ⟨c⟩ := b
  obtain ⟨c'⟩ := b'
  congr 1
  ext k hk
  obtain ⟨i, hi⟩ := onto ⟨k, hk⟩
  have := h i
  simp only [get, hi] at this
  exact this

theorem get_foldl_set [DecidableEq ι] (f : ι → α) (l : List ι) (b : Bank ι α) (i : ι) :
    (l.foldl (fun b j => b.set j (f j)) b).get i = if i ∈ l then f i else b.get i := by
  induction l generalizing b with
  | nil => rfl
  | cons j l ih =>
    rw [List.foldl_cons, ih, get_set]
    by_cases hi : i ∈ l
    · simp [hi]
    · by_cases hj : j = i
      · simp [hj]
      · simp [hi, hj, Ne.symm hj]

end Bank

/-! ### Members of the numbered types -/

theorem Gpr.index_onto (k : Fin 8) : ∃ r : Gpr, r.index = k := by
  have h : ∀ k : Fin 8, ∃ r ∈ Gpr.all, r.index = k := by decide
  obtain ⟨r, -, hr⟩ := h k
  exact ⟨r, hr⟩

theorem Flag.index_onto (k : Fin 17) : ∃ f : Flag, f.index = k := by
  have h : ∀ k : Fin 17, ∃ f ∈ Flag.all, f.index = k := by decide
  obtain ⟨f, -, hf⟩ := h k
  exact ⟨f, hf⟩

theorem SegReg.index_onto (k : Fin 6) : ∃ s : SegReg, s.index = k := by
  have h : ∀ k : Fin 6, ∃ s ∈ SegReg.all, s.index = k := by decide
  obtain ⟨s, -, hs⟩ := h k
  exact ⟨s, hs⟩

theorem TableReg.index_onto (k : Fin 4) : ∃ t : TableReg, t.index = k := by
  have h : ∀ k : Fin 4, ∃ t ∈ TableReg.all, t.index = k := by decide
  obtain ⟨t, -, ht⟩ := h k
  exact ⟨t, ht⟩

theorem Register.mem_all (r : Register) : r ∈ Register.all := by
  rcases r with r | _ | f | s | t | _
  · cases r <;> decide
  · decide
  · cases f <;> decide
  · cases s <;> decide
  · cases t <;> decide
  · decide

theorem Element.mem_all (e : Element) : e ∈ Element.all :=
  List.mem_of_getElem? (ofNumber?_number e)

theorem Element.length_all : Element.all.length = Element.count := rfl

theorem Element.ofNumber?_eq_some {n : Nat} (h : n < Element.count) :
    ∃ e, Element.ofNumber? n = some e ∧ e.number = n := by
  have key : ∀ k : Fin Element.count, ∃ e ∈ Element.all, e.number = k.val := by decide
  obtain ⟨e, -, rfl⟩ := key ⟨n, h⟩
  exact ⟨e, Element.ofNumber?_number e, rfl⟩

/-! ### What a register holds -/

/-- What reading a register gives after a value was written to it. -/
def Register.held (r : Register) (v : Value) : Value :=
  match r with
  | .gpr _ | .eip => .ofUInt32 v.toUInt32
  | .flag f => .ofUInt32 (v.toUInt32 &&& f.mask)
  | .seg _ | .table _ => .segment v.segment?
  | .cpl => .ofUInt32 (v.toUInt32 &&& 3)

@[simp] theorem Value.toUInt32_ofUInt32 (n : UInt32) : (Value.ofUInt32 n).toUInt32 = n := by
  simp [ofUInt32, toUInt32, toUInt64]

theorem Value.ofUInt32_inj {a b : UInt32} (h : Value.ofUInt32 a = .ofUInt32 b) : a = b := by
  rw [← toUInt32_ofUInt32 a, h, toUInt32_ofUInt32]

namespace Machine

/-- Two machines hold the same in every register. -/
def SameRegs (m m' : Machine) : Prop := ∀ r, m.getReg r = m'.getReg r

/-- Two machines are the same but for their registers. -/
structure SameRest (m m' : Machine) : Prop where
  memory : m.memory = m'.memory
  ports : m.ports = m'.ports
  router : m.router = m'.router
  delivered : m.delivered = m'.delivered
  retired : m.retired = m'.retired

theorem SameRegs.refl (m : Machine) : m.SameRegs m := fun _ => rfl

theorem SameRegs.trans {m m' m'' : Machine} (h : m.SameRegs m') (h' : m'.SameRegs m'') : m.SameRegs m'' :=
  fun r => (h r).trans (h' r)

/-- The registers are all that reading an element depends on. -/
theorem SameRegs.get {m m' : Machine} (h : m.SameRegs m') (e : Element) : m.get e = m'.get e := by
  cases e with
  | reg r => exact h r
  | temp _ | cpu | zero | marker _ => rfl

/-- Two machines have the same registers and the same router, which is what no helper changes. -/
structure SameFront (m m' : Machine) : Prop where
  regs : m.SameRegs m'
  router : m.router = m'.router

theorem SameFront.refl (m : Machine) : m.SameFront m := ⟨.refl m, rfl⟩

theorem SameFront.trans {m m' m'' : Machine} (h : m.SameFront m') (h' : m'.SameFront m'') : m.SameFront m'' :=
  ⟨h.regs.trans h'.regs, h.router.trans h'.router⟩

theorem SameFront.of_eq {m m' : Machine} (hg : m.gpr = m'.gpr) (he : m.eip = m'.eip) (hf : m.flags = m'.flags)
    (hs : m.segs = m'.segs) (ht : m.tables = m'.tables) (hc : m.cpl = m'.cpl) (hr : m.router = m'.router) :
    m.SameFront m' where
  regs r := by cases r <;> simp only [getReg, hg, he, hf, hs, ht, hc]
  router := hr

theorem SameRest.refl (m : Machine) : m.SameRest m := ⟨rfl, rfl, rfl, rfl, rfl⟩

theorem SameRest.symm {m m' : Machine} (h : m.SameRest m') : m'.SameRest m :=
  ⟨h.memory.symm, h.ports.symm, h.router.symm, h.delivered.symm, h.retired.symm⟩

theorem SameRest.trans {m m' m'' : Machine} (h : m.SameRest m') (h' : m'.SameRest m'') : m.SameRest m'' :=
  ⟨h.memory.trans h'.memory, h.ports.trans h'.ports, h.router.trans h'.router,
    h.delivered.trans h'.delivered, h.retired.trans h'.retired⟩

/-- A machine is its registers and its rest. -/
theorem eq_of_same {m m' : Machine} (hr : m.SameRegs m') (hs : m.SameRest m') : m = m' := by
  have hg : m.gpr = m'.gpr := Bank.ext_get Gpr.index_onto fun i => Value.ofUInt32_inj (hr (.gpr i))
  have he : m.eip = m'.eip := Value.ofUInt32_inj (hr .eip)
  have hf : m.flags = m'.flags := Bank.ext_get Flag.index_onto fun i => Value.ofUInt32_inj (hr (.flag i))
  have hg' : m.segs = m'.segs := Bank.ext_get SegReg.index_onto fun i => by
    simpa [getReg] using hr (.seg i)
  have ht : m.tables = m'.tables := Bank.ext_get TableReg.index_onto fun i => by
    simpa [getReg] using hr (.table i)
  have hc : m.cpl = m'.cpl := Value.ofUInt32_inj (hr .cpl)
  obtain ⟨h1, h2, h3, h4, h5⟩ := hs
  cases m
  cases m'
  simp_all

theorem getReg_set (m : Machine) (r r' : Register) (v : Value) :
    (m.set r v).getReg r' = if r = r' then r.held v else m.getReg r' := by
  cases r <;> cases r' <;> simp [set, getReg, Register.held, Bank.get_set] <;> split <;> simp_all

theorem set_sameRest (m : Machine) (r : Register) (v : Value) : (m.set r v).SameRest m := by
  cases r <;> exact ⟨rfl, rfl, rfl, rfl, rfl⟩

/-! ### Sequences of writes -/

theorem getReg_foldl_set (f : Register → Value) (l : List Register) (m : Machine) (r : Register) :
    (l.foldl (fun m r => m.set r (f r)) m).getReg r = if r ∈ l then r.held (f r) else m.getReg r := by
  induction l generalizing m with
  | nil => rfl
  | cons q l ih =>
    rw [List.foldl_cons, ih, getReg_set]
    by_cases hr : r ∈ l
    · simp [hr]
    · by_cases hq : q = r
      · simp [hq]
      · simp [hr, hq, Ne.symm hq]

theorem foldl_set_sameRest (f : Register → Value) (l : List Register) (m : Machine) :
    (l.foldl (fun m r => m.set r (f r)) m).SameRest m := by
  induction l generalizing m with
  | nil => exact .refl m
  | cons q l ih => exact (ih _).trans (set_sameRest m q (f q))

/-- Flags hold only bits that they have, and so does the privilege level. -/
def Normalised (m : Machine) : Prop := (∀ f, m.flags.get f ≤ f.mask) ∧ m.cpl ≤ 3

theorem land_mask_eq {v : UInt32} (f : Flag) (h : v ≤ f.mask) : v &&& f.mask = v := by
  have h1 : ∀ v : UInt32, v ≤ 1 → v &&& 1 = v := fun v hv => by
    have : v = 0 ∨ v = 1 := by
      rw [UInt32.le_iff_toNat_le] at hv
      rw [← UInt32.toNat_inj, ← UInt32.toNat_inj]
      simp at hv ⊢
      omega
    rcases this with rfl | rfl <;> rfl
  have h3 : ∀ v : UInt32, v ≤ 3 → v &&& 3 = v := fun v hv => by
    have : v = 0 ∨ v = 1 ∨ v = 2 ∨ v = 3 := by
      rw [UInt32.le_iff_toNat_le] at hv
      simp only [← UInt32.toNat_inj]
      simp at hv ⊢
      omega
    rcases this with rfl | rfl | rfl | rfl <;> rfl
  cases f <;> first | exact h1 v h | exact h3 v h

/-- Writing a normalised register back changes nothing. -/
theorem Normalised.held_getReg {m : Machine} (h : m.Normalised) (r : Register) :
    r.held (m.getReg r) = m.getReg r := by
  cases r with
  | flag f => simp [Register.held, getReg, land_mask_eq f (h.1 f)]
  | cpl => simp [Register.held, getReg, show m.cpl &&& 3 = m.cpl from land_mask_eq .iopl h.2]
  | gpr _ | eip | seg _ | table _ => simp [Register.held, getReg, Value.segment?]

end Machine
end MicroBlock
