import Mathlib
import MicroBlock.Proofs.Caches
import MicroBlock.Proofs.Sources

/-! What a block leaves alone.

A run changes a register only if an op of the block computes it, or if it is EIP and a fault is routed. No op computes
the registers of the system, so no block changes them. -/

namespace MicroBlock

/-- Whether a register belongs to the system: the code segment, the tables, the privilege level, and the flags that
    are not set by arithmetic or by the instructions for IF and DF. -/
def Register.isSystem : Register → Bool
  | seg .cs | table _ | cpl => true
  | flag .tf | flag .iopl | flag .nt | flag .rf | flag .vm | flag .ac | flag .vif | flag .vip | flag .id => true
  | _ => false

/-- Whether an op of the stream computes a register. -/
def Stream.targets (s : Stream) (mode : Mode) (r : Register) : Bool :=
  s.records.any fun rec => ((Lowering.table mode).targets? rec.op).any fun f => f.target = .reg r

theorem Lowering.isSystem_of_mem {mode : Mode} {op : Option Op} {f : Fragment}
    (hf : f ∈ (Lowering.table mode).targets? op) {r : Register} (hr : f.target = .reg r) : r.isSystem = false := by
  have h : f.target.register?.all (!·.isSystem) = true :=
    of_mem (P := fun _ f => f.target.register?.all (!·.isSystem) = true) (by decide +kernel) hf
  rw [hr] at h
  simpa [Element.register?] using h

theorem Stream.targets_isSystem (s : Stream) (mode : Mode) {r : Register} (hr : r.isSystem = true) :
    s.targets mode r = false := by
  refine Bool.eq_false_iff.mpr fun h => ?_
  obtain ⟨rec, -, h⟩ := List.any_eq_true.mp h
  obtain ⟨f, hf, htarget⟩ := List.any_eq_true.mp h
  have := Lowering.isSystem_of_mem hf (of_decide_eq_true htarget)
  rw [hr] at this
  cases this

/-- Whatever the fragments of a stream compute, no value of theirs is for a register that the stream does not
    target. -/
theorem Stream.respects_untargeted {s : Stream} {mode : Mode} {rec : Record} (hrec : rec ∈ s.records) {f : Fragment}
    (hf : f ∈ (Lowering.table mode).targets? rec.op) (values : Element → Value) :
    f.Respects (fun e v => ∀ r, e = .reg r → s.targets mode r = false → v = values e) fun _ => True := by
  intro _ _ _ _ _ _ _ _
  refine ⟨trivial, fun v _ r hr hs => ?_⟩
  have htargets : s.targets mode r = true :=
    List.any_eq_true.mpr ⟨rec, hrec, List.any_eq_true.mpr ⟨f, hf, decide_eq_true hr⟩⟩
  rw [hs] at htargets
  cases htargets

/-- A machine after a run of a stream: the registers of the system and those that the stream does not target hold
    what they held, EIP only if the run does not fault. -/
structure Machine.Untouched (m : Machine) (mode : Mode) (s : Stream) (c : Context) : Prop where
  system : ∀ r, r.isSystem = true → m.getReg r = c.machine.getReg r
  untargeted : ∀ r, r ≠ .eip → s.targets mode r = false → m.getReg r = c.machine.getReg r
  eip : s.targets mode .eip = false →
    (∀ before rec done f x, ¬Interpreter.Faults (Lowering.table mode) s c before rec done f x) →
    m.getReg .eip = c.machine.getReg .eip

theorem Interpreter.runMode_untouched (mode : Mode) (s : Stream) {c : Context} (hn : c.machine.Normalised) :
    (runMode mode .builtin s c).2.machine.Untouched mode s c := by
  have hrespects : ∀ rec ∈ s.records, ∀ f ∈ (Lowering.table mode).targets? rec.op, f.Respects _ _ :=
    fun rec hrec f hf => Stream.respects_untargeted hrec hf c.machine.get
  obtain ⟨-, hregs⟩ := runMode_respects_of_records hrespects (c := c) (fun _ _ _ _ => rfl) trivial
  have key : ∀ r, (r = .eip → ∀ before rec done f x, ¬Faults (Lowering.table mode) s c before rec done f x) →
      s.targets mode r = false → (runMode mode .builtin s c).2.machine.getReg r = c.machine.getReg r := by
    intro r heip hr
    rcases hregs r heip with h | ⟨v, hv, h⟩
    · exact h
    · -- The value of the start is written back, and a normalised register holds all of it.
      rw [h, hv r rfl hr]
      exact hn.held_getReg r
  refine ⟨fun r hr => key r ?_ (s.targets_isSystem mode hr), fun r hne => key r fun h => absurd h hne,
    fun hs hno => key .eip (fun _ => hno) hs⟩
  rintro rfl
  cases hr

end MicroBlock
