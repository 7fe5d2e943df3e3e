import Mathlib
import MicroBlock.Proofs.Caches
import MicroBlock.Proofs.Sources

/-! Blocks without I/O privilege.

Protected and virtual-8086 mode check privilege before every port access and before every change of IF, and the
check compares the CPL and the IOPL that the block started with: no op computes either. So a block whose CPL
exceeds its IOPL never comes to the ports or to IF. -/

namespace MicroBlock

namespace Builtin

/-- The place of the CPL among the arguments of a helper that checks privilege. The IOPL comes next. -/
def privilegeAt : Builtin → Option Nat
  | portIn _ true => some 2
  | portOut _ true => some 3
  | ifChecked => some 0
  | _ => none

def usesPorts : Builtin → Bool
  | portIn _ _ | portOut _ _ => true
  | _ => false

theorem le_of_privileged {cpl iopl : UInt32} {u : Unit} (h : privileged cpl iopl = .ok u) : cpl ≤ iopl := by
  unfold privileged at h
  split at h
  · cases h
  · next hle => exact UInt32.not_lt.mp hle

/-- A helper that checks privilege returns only if there is enough of it. -/
theorem le_of_body {b : Builtin} {k : Nat} (hb : b.privilegeAt = some k) {args : List Value} {m : Machine}
    {r : Value × Machine} (h : b.body args m = .ok r) :
    ∃ cpl iopl, args[k]? = some cpl ∧ args[k + 1]? = some iopl ∧ cpl.toUInt32 ≤ iopl.toUInt32 := by
  have key : ∃ i j, word args k = .ok i ∧ word args (k + 1) = .ok j ∧ i ≤ j := by
    cases b with
    | portIn w checked | portOut w checked =>
      cases checked with
      | false => cases hb
      | true =>
        cases hb
        obtain ⟨_, -, h⟩ := exists_of_bind h
        obtain ⟨i, hi, h⟩ := exists_of_bind h
        obtain ⟨j, hj, h⟩ := exists_of_bind h
        obtain ⟨_, hle, -⟩ := exists_of_bind h
        exact ⟨i, j, hi, hj, le_of_privileged hle⟩
    | ifChecked =>
      cases hb
      obtain ⟨i, hi, h⟩ := exists_of_bind h
      obtain ⟨j, hj, h⟩ := exists_of_bind h
      obtain ⟨_, hle, -⟩ := exists_of_bind h
      exact ⟨i, j, hi, hj, le_of_privileged hle⟩
    | _ => cases hb
  obtain ⟨i, j, hi, hj, hle⟩ := key
  obtain ⟨x, hx, rfl⟩ := exists_of_word hi
  obtain ⟨y, hy, rfl⟩ := exists_of_word hj
  exact ⟨x, y, hx, hy, hle⟩

end Builtin

/-- Whether a call that reaches the ports or gives a value for IF checks the CPL against the IOPL. -/
def Site.isGuarded (t : Site) : Bool :=
  match t.helper.privilegeAt with
  | some k => t.args[k]? == some (.input .cpl) && t.args[k + 1]? == some (.input (.flag .iopl))
  | none => !t.helper.usesPorts

/-- Whether all calls of a fragment are guarded, and what it computes leaves the guard as it is. -/
def Fragment.isGuarded (f : Fragment) : Bool :=
  f.tracked.any fun x => x.1.all Site.isGuarded && f.target != .cpl && f.target != .flag .iopl &&
    (f.target != .flag .if_ || x.2 == [.result .ifChecked])

theorem Lowering.isGuarded_of_mem {mode : Mode} (hmode : mode.checksPrivilege = true) {op : Option Op} {f : Fragment}
    (hf : f ∈ (Lowering.table mode).targets? op) : f.isGuarded = true :=
  of_mem (P := fun m f => m.checksPrivilege = true → f.isGuarded = true) (by decide +kernel) hf hmode

/-- The elements that decide on privilege, and the flag that needs it. -/
def Element.isGate (e : Element) : Bool := e == .cpl || e == .flag .iopl || e == .flag .if_

theorem Builtin.Touches.ports {b : Builtin} {m m' : Machine} (h : b.Touches m m') (hb : b.usesPorts = false) :
    m'.ports = m.ports := by
  cases h with
  | nothing | retired | memory | delivered => rfl
  | input | output => cases hb

section Unprivileged
variable {m₀ : Machine} (hlow : m₀.flags.get .iopl < m₀.cpl)
include hlow

/-- A guarded call that returns has come neither to the ports nor to a value for IF. -/
theorem Site.keeps_ports {values : Element → Value} (hv : ∀ e : Element, e.isGate = true → values e = m₀.get e) {t : Site}
    (ht : t.isGuarded = true) : t.Keeps values (fun b _ => b ≠ .ifChecked) fun m => m.ports = m₀.ports := by
  intro args m v m' _ hargs hm hbody
  unfold isGuarded at ht
  split at ht
  · next k hk =>
    -- The check finds the CPL and the IOPL of the start, and fails.
    obtain ⟨x, y, hx, hy, hle⟩ := Builtin.le_of_body hk hbody
    simp only [Bool.and_eq_true, beq_iff_eq] at ht
    have hcpl : x = .ofUInt32 m₀.cpl := (Source.gives_of_getElem? hargs ht.1 hx).trans (hv _ rfl)
    have hiopl : y = .ofUInt32 (m₀.flags.get .iopl) := (Source.gives_of_getElem? hargs ht.2 hy).trans (hv _ rfl)
    rw [hcpl, hiopl, Value.toUInt32_ofUInt32, Value.toUInt32_ofUInt32] at hle
    exact absurd hlow (UInt32.not_lt.mpr hle)
  · next hk =>
    have hports := (Builtin.body_touches _ _ m v m' hbody).ports (by simpa using ht)
    refine ⟨hports.trans hm, fun hb => ?_⟩
    rw [hb] at hk
    cases hk

theorem Fragment.respects_gate {f : Fragment} (hf : f.isGuarded = true) :
    f.Respects (fun e v => e.isGate = true → v = m₀.get e) fun m => m.ports = m₀.ports := by
  obtain ⟨⟨sites, sources⟩, htracked, hf⟩ := (Option.any_eq_true _ _).mp hf
  simp only [Bool.and_eq_true, List.all_eq_true, bne_iff_ne, Bool.or_eq_true, beq_iff_eq] at hf
  obtain ⟨⟨⟨hsites, hcpl⟩, hiopl⟩, hif⟩ := hf
  refine respects_of_tracked (fun b _ => b ≠ .ifChecked) htracked
    (fun values hv t ht => Site.keeps_ports hlow hv (hsites t ht)) fun values v _ hhead hgate => ?_
  simp only [Element.isGate, Bool.or_eq_true, beq_iff_eq, hcpl, hiopl, false_or] at hgate
  -- Only the privileged helper gives a value for IF, and it has not returned.
  cases hif.resolve_left (not_not_intro hgate)
  exact absurd rfl (hhead (.result .ifChecked) rfl)

end Unprivileged

/-- Two machines have the same ports, with their log, their count of reads and their latches, and the same IF. -/
structure Machine.SameGate (m m' : Machine) : Prop where
  ports : m.ports = m'.ports
  interrupt : m.flags.get .if_ = m'.flags.get .if_

theorem Interpreter.runMode_sameGate {mode : Mode} (hmode : mode.checksPrivilege = true) {c : Context}
    (hn : c.machine.Normalised) (hlow : c.machine.flags.get .iopl < c.machine.cpl) (s : Stream) :
    (runMode mode .builtin s c).2.machine.SameGate c.machine := by
  obtain ⟨⟨m, hports, hworld⟩, hregs⟩ := runMode_respects
    (fun _ f hf => Fragment.respects_gate hlow (Lowering.isGuarded_of_mem hmode hf)) (c := c) (fun _ _ => rfl) rfl s
  have hif : (runMode mode .builtin s c).2.machine.getReg (.flag .if_) = c.machine.getReg (.flag .if_) := by
    rcases hregs (.flag .if_) (by decide) with h | ⟨v, hv, h⟩
    · exact h
    · rw [h, hv rfl]
      exact hn.held_getReg _
  exact ⟨hworld.ports.trans hports, Value.ofUInt32_inj hif⟩

open Compiler in
/-- Without I/O privilege a block cannot touch the ports or IF. In the modes that check privilege, a run from a state
    whose CPL exceeds its IOPL leaves both as they were, whether it completes, faults or fails: interpreted, compiled,
    and loaded by a new compiler. -/
theorem unprivileged_confined {mode : Mode} (hmode : mode ≠ .real) {c : Context} (hn : c.machine.Normalised)
    (hlow : c.machine.flags.get .iopl < c.machine.cpl) :
    (∀ s, (Interpreter.runMode mode .builtin s c).2.machine.SameGate c.machine) ∧
    (∀ {b : Block} {s : Stream} {g : Graph} {units limit : Int} {slots : Slots} {name : String} {m : Module},
      Stream.ofBlock b = .ok s → Graph.build (Target.ofMode mode).table true s = .ok g →
      Slots.allocate g units = (.ok (), slots) → (Target.ofMode mode).unit name s g slots limit = .ok m →
      ∃ me code helpers, m.method? Module.executeMethod = some me ∧ Code.decode me.code = .ok code ∧
        Loader.resolve .builtin name m.links = .ok helpers ∧
        (Execution.run (CodeBlock.linkage m helpers) ⟨me.name, code, me.guards⟩ true c).2.machine.SameGate c.machine) ∧
    (∀ {limits : CompileLimits} {b : Block} {name : String} {u : CodeBlock}, (b.flatMap (·.words)).length < 2 ^ 30 →
      (Request.answer ⟨mode, b, name⟩ (after limits [])).result = .ok u →
      (u.execute c).2.machine.SameGate c.machine) := by
  have hchecks : mode.checksPrivilege = true := by
    cases mode with
    | real => exact absurd rfl hmode
    | protected_ | vm86 => rfl
  have hint := Interpreter.runMode_sameGate hchecks hn hlow
  refine ⟨hint, fun {b s g units limit slots name m} hs hg ha hm => ?_, fun {limits b name u} hwords hu => ?_⟩
  · obtain ⟨me, code, helpers, hme, hcode, hh, hrun⟩ := Target.unit_run_machine mode hs hg ha hm hn
    exact ⟨me, code, helpers, hme, hcode, hh, hrun ▸ hint s⟩
  · have hall : ∀ q ∈ [] ++ [(⟨mode, b, name⟩ : Request)], (q.block.flatMap (·.words)).length < 2 ^ 30 := by
      simpa using hwords
    obtain ⟨-, -, o, -, -, ho, -, -, -, hcompiled⟩ := exists_origin hall hu
    obtain ⟨b', hs, hlt⟩ := readable_of_mem hall ho
    have hmode : o.mode = mode := by
      obtain ⟨q, hq, horigin⟩ := List.mem_filterMap.mp ho
      cases List.mem_singleton.mp hq
      exact (origin?_eq_some horigin).2.1
    rw [hcompiled.execute_machine hs hlt hn, hmode]
    exact hint o.stream

open Compiler in
/-- With CPL 3 and IOPL 0 in virtual-8086 mode, a block that sends a byte to a port faults, interpreted or compiled. A
    block that only clears the carry flag completes. -/
theorem unprivileged_confined_out :
    ∃ (c : Context) (s : Stream) (g : Graph) (slots : Slots) (m : Module) (me : Method) (code : List Code.Placed)
      (helpers : List Helper) (u : CodeBlock),
      c.machine.Normalised ∧ c.machine.flags.get .iopl < c.machine.cpl ∧ Stream.ofBlock [⟨1, [154]⟩] = .ok s ∧
      Graph.build (Target.ofMode .vm86).table true s = .ok g ∧ Slots.allocate g 1024 = (.ok (), slots) ∧
      (Target.ofMode .vm86).unit "a" s g slots 65535 = .ok m ∧ m.method? Module.executeMethod = some me ∧
      Code.decode me.code = .ok code ∧ Loader.resolve .builtin "a" m.links = .ok helpers ∧
      (Request.answer ⟨.vm86, [⟨1, [136]⟩], "a"⟩ (after {} [])).result = .ok u ∧
      (Interpreter.runMode .vm86 .builtin s c).2.machine.delivered.length = 1 ∧
      (Interpreter.runMode .vm86 .builtin s c).2.machine.SameGate c.machine ∧
      (Execution.run (CodeBlock.linkage m helpers) ⟨me.name, code, me.guards⟩ true c).2.machine.SameGate c.machine ∧
      (u.execute c).2.machine.SameGate c.machine := by
  have hunit : (Stream.ofBlock [⟨1, [154]⟩]).toOption.any (fun s =>
      (Graph.build (Target.ofMode .vm86).table true s).toOption.any fun g =>
        (Slots.allocate g 1024).1.toOption.any fun _ =>
          ((Target.ofMode .vm86).unit "a" s g (Slots.allocate g 1024).2 65535).toOption.any fun _ => true) = true := by
    decide +kernel
  have hfault : (Stream.ofBlock [⟨1, [154]⟩]).toOption.any (fun s => (Interpreter.runMode .vm86 .builtin s
      ⟨{ Machine.reset (.ofSize 0) with cpl := 3 }, []⟩).2.machine.delivered.length = 1) = true := by decide
  have hloaded : (Request.answer ⟨.vm86, [⟨1, [136]⟩], "a"⟩ (after {} [])).result.toOption.any (fun _ => true) = true := by
    decide +kernel
  obtain ⟨s, hs, hunit⟩ := exists_ok_of_any hunit
  obtain ⟨g, hg, hunit⟩ := exists_ok_of_any hunit
  obtain ⟨_, hallocate, hunit⟩ := exists_ok_of_any hunit
  obtain ⟨m, hm, -⟩ := exists_ok_of_any hunit
  obtain ⟨_, hs', hfault⟩ := exists_ok_of_any hfault
  cases hs.symm.trans hs'
  obtain ⟨u, hu, -⟩ := exists_ok_of_any hloaded
  have hn : ({ Machine.reset (.ofSize 0) with cpl := 3 } : Machine).Normalised :=
    ⟨fun f => by cases f <;> decide, by decide⟩
  have hlow : ({ Machine.reset (.ofSize 0) with cpl := 3 } : Machine).flags.get .iopl < 3 := by decide
  have ha : Slots.allocate g 1024 = (.ok (), (Slots.allocate g 1024).2) := Prod.ext hallocate rfl
  have hmode : Mode.vm86 ≠ .real := by decide
  obtain ⟨hint, hcompiled, hexecute⟩ :=
    unprivileged_confined hmode (c := ⟨{ Machine.reset (.ofSize 0) with cpl := 3 }, []⟩) hn hlow
  obtain ⟨me, code, helpers, hme, hcode, hh, hrun⟩ := hcompiled hs hg ha hm
  exact ⟨_, s, g, _, m, me, code, helpers, u, hn, hlow, hs, hg, ha, hm, hme, hcode, hh, hu, of_decide_eq_true hfault,
    hint s, hrun, hexecute (by decide) hu⟩

end MicroBlock
