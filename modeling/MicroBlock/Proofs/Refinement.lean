import Mathlib
import MicroBlock.Proofs.Units

/-! Compiled code does what the interpreter does. -/

namespace MicroBlock

/-! ### Counts -/

theorem Stream.index_lt_of_recordsFrom {start : Int64} {index : Nat} {b : Block} {rs : List Record}
    (h : recordsFrom start index b = .ok rs) : ∀ r ∈ rs, r.index < index + b.length := by
  fun_induction recordsFrom start index b generalizing rs with
  | case1 => cases h; simp
  | case2 | case3 => cases h
  | case4 start index i is first hfirst rest hrest ih =>
    cases h
    intro r hr
    rw [List.length_cons]
    rcases List.mem_append.mp hr with hr | hr
    · rw [(mem_recordsOf hfirst r hr).2]
      omega
    · have := ih hrest r hr
      omega

theorem Stream.eq_of_ofBlock {b : Block} {s : Stream} (h : ofBlock b = .ok s) :
    recordsFrom 0 0 b = .ok s.records ∧ b ≠ [] ∧
      s = ⟨s.records, b.flatMap (·.words), positionsFrom 0 b, lengthOf b, b.length⟩ := by
  unfold ofBlock at h
  split at h
  · cases h
  next rs hrs =>
  split at h
  · cases h
  next hne =>
  cases h
  exact ⟨hrs, by simpa using hne, rfl⟩

namespace Interpreter

theorem rollback_index {r : Registry} {route : String} {snapshot : Values} {delta : Int64} {x : Fault} {index n : Nat}
    {c c' : Context} (h : rollback r route snapshot delta x index c = (.ok n, c')) : n = index := by
  unfold rollback at h
  simp only at h
  split at h
  · cases h
  · split at h <;> cases h
    rfl

theorem runRecords_le {t : Table} {r : Registry} {route : String} {count : Nat} {rs : List Record} {p : Progress}
    (hrs : ∀ rec ∈ rs, rec.index ≤ count) {n : Nat} {c : Context}
    (h : runRecords t r route count rs p = (.ok n, c)) : n ≤ count := by
  induction rs generalizing p with
  | nil =>
    cases h
    exact le_rfl
  | cons rec rs ih =>
    simp only [runRecords] at h
    split at h
    · cases h
    split at h
    · split at h
      · exact rollback_index h ▸ hrs rec List.mem_cons_self
      · cases h
    · cases h
    · exact ih (fun rec' h' => hrs rec' (List.mem_cons_of_mem rec h')) h

/-- A run completes no more instructions than the block has. -/
theorem runMode_le {mode : Mode} {r : Registry} {b : Block} {s : Stream} (hs : Stream.ofBlock b = .ok s) {n : Nat}
    {c c' : Context} (h : runMode mode r s c = (.ok n, c')) : n ≤ s.count := by
  obtain ⟨hrs, -, heq⟩ := Stream.eq_of_ofBlock hs
  refine runRecords_le (fun rec hrec => ?_) h
  have := Stream.index_lt_of_recordsFrom hrs rec hrec
  rw [heq]
  simp only at this ⊢
  omega

end Interpreter

/-! ### Refinement -/

theorem ofInt_natCast (n : Nat) : UInt32.ofInt n = UInt32.ofNat n := by
  apply UInt32.toNat_inj.mp
  simp only [UInt32.ofInt, UInt32.toNat_ofNat']
  omega

/-- A run that ends within the limit gives what it ends with. -/
theorem Execution.run_eq_ok {l : Linkage} {r : Routine} {cpu : Bool} {c c' : Context} {v : Value} {steps : Nat}
    (hle : steps ≤ stepLimit)
    (h : ∀ n, runFor l r cpu (steps + n)
      (start r (if r.name = ByteString.ofString Module.executeMethod then l.slots else 0) c) = .returned v c') :
    run l r cpu c = (.ok v, c') := by
  have hlimit := h (stepLimit - steps)
  rw [Nat.add_sub_cancel' hle] at hlimit
  simp only [run, hlimit]

theorem Execution.run_of_failed {l : Linkage} {r : Routine} {cpu : Bool} {c c' : Context} {e : Error} {steps : Nat}
    (hle : steps ≤ stepLimit)
    (h : ∀ n, runFor l r cpu (steps + n)
      (start r (if r.name = ByteString.ofString Module.executeMethod then l.slots else 0) c) = .failed e c') :
    run l r cpu c = (.error e, c') := by
  have hlimit := h (stepLimit - steps)
  rw [Nat.add_sub_cancel' hle] at hlimit
  simp only [run, hlimit]

/-- Two machines left by a run from a third agree, but that a register which the first has left alone may be cut
    to the bits it has in the second. -/
structure Machine.Alike (m₀ m m' : Machine) : Prop where
  rest : m.SameRest m'
  regs : ∀ r, m.getReg r = m'.getReg r ∨ r ≠ .eip ∧ m.getReg r = m₀.getReg r ∧ m'.getReg r = r.held (m₀.getReg r)

namespace Machine.Alike
variable {m₀ m m' : Machine}

theorem of_eq (h : m = m') : Alike m₀ m m' := h ▸ ⟨.refl m, fun _ => .inl rfl⟩

theorem eip (h : Alike m₀ m m') : m.eip = m'.eip := by
  rcases h.regs .eip with heip | ⟨hne, -⟩
  · exact Value.ofUInt32_inj heip
  · exact absurd rfl hne

theorem eq (h : Alike m₀ m m') (hn : m₀.Normalised) : m = m' := by
  refine Machine.eq_of_same (fun r => ?_) h.rest
  rcases h.regs r with hr | ⟨-, hr, hr'⟩
  · exact hr
  · rw [hr, hr', hn.held_getReg]

theorem of_reverted {nodes : Array Node} {rb : Rollback} {faulted : Machine} {start : Producers}
    (hs : rb.snapshot = Rollback.snapshotOf start) (h : Emission.Reverted nodes m₀ rb faulted m)
    (h' : Graph.Restored nodes m₀ rb faulted m') : Alike m₀ m m' := by
  refine ⟨h.rest.trans h'.rest.symm, fun r => ?_⟩
  have hr : (r, start.get (.reg r)) ∈ rb.snapshot := by rw [hs, Graph.mem_snapshotOf]
  by_cases he : r = .eip
  · subst he
    rw [h.eip _ hr, h'.eip _ hr]
    exact .inl rfl
  · rw [h'.regs r _ hr he]
    rcases h.regs r _ hr he with hm | ⟨hm, hv⟩
    · exact .inl hm
    · exact .inr ⟨he, hm, by rw [hv]⟩

/-- A fault is routed alike. -/
theorem route (h : Alike m₀ m m') {mode : Mode} {x : Fault} {n' : Machine}
    (hroute : (Builtin.route mode).body [.cpu, .fault (some x)] m' = .ok (.zero, n')) :
    ∃ n, (Builtin.route mode).body [.cpu, .fault (some x)] m = .ok (.zero, n) ∧ Alike m₀ n n' := by
  have hrouter := h.rest.router
  cases hm : m.router with
  | absent =>
    rw [hm] at hrouter
    have hbody : (Builtin.route mode).body [.cpu, .fault (some x)] m' = .ok (.zero, m') :=
      Interpreter.body_route_of_route (by simp [Machine.route, ← hrouter])
    cases hbody.symm.trans hroute
    exact ⟨m, Interpreter.body_route_of_route (by simp [Machine.route, hm]), h⟩
  | queue =>
    rw [hm] at hrouter
    have hbody : (Builtin.route mode).body [.cpu, .fault (some x)] m' =
        .ok (.zero, { m' with delivered := m'.delivered ++ [⟨mode, some x, m'.eip⟩] }) :=
      Interpreter.body_route_of_route (by simp [Machine.route, ← hrouter])
    cases hbody.symm.trans hroute
    refine ⟨{ m with delivered := m.delivered ++ [⟨mode, some x, m.eip⟩] },
      Interpreter.body_route_of_route (by simp [Machine.route, hm]), ?_, h.regs⟩
    obtain ⟨hmemory, hports, -, hdelivered, hretired⟩ := h.rest
    exact ⟨hmemory, hports, hm.trans hrouter, by simp only [hdelivered, h.eip], hretired⟩
  | reject =>
    rw [hm] at hrouter
    rw [Interpreter.body_route_reject mode hrouter.symm] at hroute
    cases hroute

theorem route_error (h : Alike m₀ m m') {mode : Mode} {x : Fault} {e : HelperError}
    (hroute : (Builtin.route mode).body [.cpu, .fault (some x)] m' = .error (.error e)) :
    (Builtin.route mode).body [.cpu, .fault (some x)] m = .error (.error e) := by
  by_cases hr : m'.router = .reject
  · rw [← hroute, Interpreter.body_route_reject mode hr, Interpreter.body_route_reject mode (h.rest.router.trans hr)]
  · obtain ⟨n', hn'⟩ := Interpreter.exists_body_route mode hr x
    rw [hn'] at hroute
    cases hroute

end Machine.Alike

namespace Target
open MicroBlock.Graph MicroBlock.Module

section Run
variable {mode : Mode} {name : String} {b : Block} {s : Stream} (hs : Stream.ofBlock b = .ok s) {g : Graph}
  (hg : Graph.build (Lowering.table mode) true s = .ok g) {units : Int} {slots : Slots}
  (ha : Slots.allocate g units = (.ok (), slots)) {m : Module} {fin : Emission} {guards : List Guard}
  (h : Contains mode name s g slots m fin guards) {helpers : List Helper}
  (hh : Loader.resolve .builtin name m.links = .ok helpers) (c : Context)
include hs hg ha h hh

/-- The code of a unit leaves the machine much as the interpreter leaves it. It returns the same count, or the router
    has turned a fault away and both fail for that. -/
theorem Contains.run_alike :
    (∃ n c₁ c₂, Interpreter.runMode mode .builtin s c = (.ok n, c₁) ∧
      Execution.run (CodeBlock.linkage m helpers)
        ⟨.ofString executeMethod, Emission.place 0 fin.instrs, guards⟩ true c = (.ok (.ofUInt32 (.ofNat n)), c₂) ∧
      c.machine.Alike c₂.machine c₁.machine) ∨
    (c.machine.router = .reject ∧ ∃ e c₁ c₂, Interpreter.runMode mode .builtin s c = (.error (.helper e), c₁) ∧
      Execution.run (CodeBlock.linkage m helpers) ⟨.ofString executeMethod, Emission.place 0 fin.instrs, guards⟩ true c =
        (.error (.helper (Builtin.route mode).name e), c₂) ∧
      c.machine.Alike c₂.machine c₁.machine) := by
  have hv := build_valid (Lowering.table_disciplined mode) hs hg
  obtain ⟨hsound, hkeep⟩ := Slots.allocate_sound hv ha
  obtain ⟨helpers', hh', hl⟩ := h.layout hv hsound
  rw [hh, Except.ok.injEq] at hh'
  subst hh'
  obtain ⟨hsize, hlen, -⟩ := h.bounds hv hsound
  have hslots : (CodeBlock.linkage m helpers).slots = slots.units := by
    rw [h.eq]
    rfl
  have hcode : (Emission.place 0 fin.instrs).length ≤ maxMethodBytes := by
    rwa [Emission.length_place, Emission.instrs, List.length_reverse]
  -- The main code and then a rollback: no more steps than twice the code.
  have hlimit : 2 * maxMethodBytes ≤ Execution.stepLimit := by decide
  have hstart : Execution.start ⟨.ofString executeMethod, Emission.place 0 fin.instrs, guards⟩
      (if ByteString.ofString executeMethod = ByteString.ofString executeMethod then (CodeBlock.linkage m helpers).slots
        else 0) c =
      ⟨Emission.rest fin (Emission.start g (described name slots.kinds s)), [], Array.replicate slots.units .zero, none, c⟩ := by
    rw [if_pos rfl, hslots]
    rfl
  rcases Interpreter.runMode_cases hs hg c with
    ⟨hfree, m₁, calls, hfin, hint⟩ | ⟨k, rb, x, faulted, m₁, calls, hf, hm, hroute⟩
  · -- No node faults, and both write back the final values.
    have hpre := (Emission.grows_main_execute hsound h.execute).precedes (.refl fin)
    obtain ⟨m₂, hfin', steps, calls₂, hle, hret⟩ := Emission.returns_main hl hv hsound hkeep hfree hpre c.calls
    refine .inl ⟨s.count, _, ⟨m₂, calls₂⟩, hint, ?_, .of_eq (hfin'.unique hfin)⟩
    rw [← ofInt_natCast]
    exact Execution.run_eq_ok ((hle.trans hcode).trans (by omega)) (hstart ▸ hret)
  -- A node faults, and both come to the router with the registers of the snapshot.
  obtain ⟨m₂, steps, s', kept, calls₁, ⟨start, hsnap⟩, hm₂, hpre, hle, hreach⟩ :=
    Emission.reaches_execute_route hv hsound hkeep hl h.execute (hsize.trans_lt (by decide)) hf c.calls
  have halike := Machine.Alike.of_reverted hsnap hm₂ hm
  have hle' : steps + (Emission.rest fin s').length ≤ 2 * maxMethodBytes := hle.trans (Nat.mul_le_mul_left 2 hcode)
  rcases hroute with ⟨m', hbody, hint⟩ | ⟨hr, e, hbody, hint⟩
  · obtain ⟨m₂', hbody₂, halike'⟩ := halike.route hbody
    obtain ⟨k₂, calls₂, hk₂, hret⟩ := Emission.returns_route (c := ⟨m₂, calls₁⟩) hl hpre kept hbody₂
    refine .inl ⟨rb.index, _, ⟨m₂', calls₂⟩, hint, ?_, halike'⟩
    rw [← ofInt_natCast]
    have hsteps : steps + k₂ ≤ Execution.stepLimit := (Nat.add_le_add_left hk₂ steps).trans (hle'.trans hlimit)
    refine Execution.run_eq_ok hsteps ?_
    intro n
    rw [hstart, Nat.add_assoc, hreach, hret]
  · have hsteps : steps + 1 ≤ Execution.stepLimit := by
      have : 2 * maxMethodBytes < Execution.stepLimit := by decide
      omega
    refine .inr ⟨hr, e, _, ⟨m₂, (Builtin.route mode).name :: calls₁⟩, hint, Execution.run_of_failed hsteps ?_, halike⟩
    intro n
    rw [hstart, Nat.add_assoc, hreach, Emission.fails_route (c := ⟨m₂, calls₁⟩) hl hpre kept (halike.route_error hbody)]

/-- From a normalised machine the two are left the same. -/
theorem Contains.run_cases (hn : c.machine.Normalised) :
    (∃ n c₁ c₂, Interpreter.runMode mode .builtin s c = (.ok n, c₁) ∧
      Execution.run (CodeBlock.linkage m helpers)
        ⟨.ofString executeMethod, Emission.place 0 fin.instrs, guards⟩ true c = (.ok (.ofUInt32 (.ofNat n)), c₂) ∧
      c₂.machine = c₁.machine) ∨
    (c.machine.router = .reject ∧ ∃ e c₁ c₂, Interpreter.runMode mode .builtin s c = (.error (.helper e), c₁) ∧
      Execution.run (CodeBlock.linkage m helpers) ⟨.ofString executeMethod, Emission.place 0 fin.instrs, guards⟩ true c =
        (.error (.helper (Builtin.route mode).name e), c₂) ∧
      c₂.machine = c₁.machine) := by
  rcases h.run_alike hs hg ha hh c with ⟨n, c₁, c₂, hint, hrun, halike⟩ | ⟨hr, e, c₁, c₂, hint, hrun, halike⟩
  · exact .inl ⟨n, c₁, c₂, hint, hrun, halike.eq hn⟩
  · exact .inr ⟨hr, e, c₁, c₂, hint, hrun, halike.eq hn⟩

theorem Contains.run (hr : c.machine.router ≠ .reject) (hn : c.machine.Normalised) :
    ∃ n c₁ c₂, Interpreter.runMode mode .builtin s c = (.ok n, c₁) ∧
      Execution.run (CodeBlock.linkage m helpers)
        ⟨.ofString executeMethod, Emission.place 0 fin.instrs, guards⟩ true c = (.ok (.ofUInt32 (.ofNat n)), c₂) ∧
      c₂.machine = c₁.machine := by
  rcases h.run_cases hs hg ha hh c hn with hrun | ⟨hreject, -⟩
  · exact hrun
  · exact absurd hreject hr

theorem Contains.run_machine (hn : c.machine.Normalised) :
    (Execution.run (CodeBlock.linkage m helpers)
      ⟨.ofString executeMethod, Emission.place 0 fin.instrs, guards⟩ true c).2.machine =
      (Interpreter.runMode mode .builtin s c).2.machine := by
  rcases h.run_cases hs hg ha hh c hn with ⟨n, c₁, c₂, hint, hrun, hmachine⟩ | ⟨-, e, c₁, c₂, hint, hrun, hmachine⟩ <;>
    rw [hint, hrun, hmachine]

end Run

theorem Filled.method?_execute {mode : Mode} {name : String} {s : Stream} {g : Graph} {slots : Slots} {m : Module}
    {fin : Emission} {guards : List Guard} (h : Filled mode name s g slots m fin guards) :
    m.method? executeMethod = some ⟨.ofString executeMethod, fin.bytes, guards⟩ := by
  have hne : ∀ me ∈ descriptions s, (me.name == ByteString.ofString executeMethod) = false := by
    intro me hme
    simp only [descriptions, List.mem_cons, List.not_mem_nil, or_false] at hme
    rcases hme with rfl | rfl | rfl | rfl <;>
      simp [accessorMethod, ByteString.ofString_eq_iff, countMethod, lengthMethod, microcodesMethod, positionsMethod,
        executeMethod]
  rw [h.eq, method?, List.find?_append, List.find?_eq_none.mpr fun me hme => by simp [hne me hme]]
  simp

/-- The execute method of a unit ends as the interpreter does, whatever the router does. -/
theorem unit_run_alike (mode : Mode) {b : Block} {s : Stream} (hs : Stream.ofBlock b = .ok s) {g : Graph}
    (hg : Graph.build (ofMode mode).table true s = .ok g) {units : Int} {slots : Slots}
    (ha : Slots.allocate g units = (.ok (), slots)) {name : String} {limit : Int} {m : Module}
    (hm : (ofMode mode).unit name s g slots limit = .ok m) (c : Context) :
    ∃ me code helpers, m.method? executeMethod = some me ∧ Code.decode me.code = .ok code ∧
      Loader.resolve .builtin name m.links = .ok helpers ∧
      c.machine.Alike (Execution.run (CodeBlock.linkage m helpers) ⟨me.name, code, me.guards⟩ true c).2.machine
        (Interpreter.runMode mode .builtin s c).2.machine := by
  have hv := build_valid (Lowering.table_disciplined mode) hs hg
  obtain ⟨hsound, -⟩ := Slots.allocate_sound hv ha
  obtain ⟨fin, guards, h⟩ := unit_contains hv hsound hm
  obtain ⟨helpers, hh, -⟩ := h.layout hv hsound
  refine ⟨_, _, helpers, h.method?_execute, h.decode hv hsound, hh, ?_⟩
  rcases h.run_alike hs hg ha hh c with ⟨n, c₁, c₂, hint, hrun, halike⟩ | ⟨-, e, c₁, c₂, hint, hrun, halike⟩ <;>
    rw [hint, hrun] <;> exact halike

/-- The execute method of a unit leaves the machine that the interpreter leaves, whatever the router does. -/
theorem unit_run_machine (mode : Mode) {b : Block} {s : Stream} (hs : Stream.ofBlock b = .ok s) {g : Graph}
    (hg : Graph.build (ofMode mode).table true s = .ok g) {units : Int} {slots : Slots}
    (ha : Slots.allocate g units = (.ok (), slots)) {name : String} {limit : Int} {m : Module}
    (hm : (ofMode mode).unit name s g slots limit = .ok m) {c : Context} (hn : c.machine.Normalised) :
    ∃ me code helpers, m.method? executeMethod = some me ∧ Code.decode me.code = .ok code ∧
      Loader.resolve .builtin name m.links = .ok helpers ∧
      (Execution.run (CodeBlock.linkage m helpers) ⟨me.name, code, me.guards⟩ true c).2.machine =
        (Interpreter.runMode mode .builtin s c).2.machine := by
  obtain ⟨me, code, helpers, hme, hcode, hh, halike⟩ := unit_run_alike mode hs hg ha hm c
  exact ⟨me, code, helpers, hme, hcode, hh, halike.eq hn⟩

/-- Compiled code refines the interpreter: the execute method of a unit, run against the helpers that its links
    stand for, returns the count that the interpreter returns and leaves the machine that it leaves, whether
    the block runs to its end or faults. The count is returned in 32 bits. -/
theorem unit_refines_interpreter (mode : Mode) {b : Block} {s : Stream} (hs : Stream.ofBlock b = .ok s) {g : Graph}
    (hg : Graph.build (ofMode mode).table true s = .ok g) {units : Int} {slots : Slots}
    (ha : Slots.allocate g units = (.ok (), slots)) {name : String} {limit : Int} {m : Module}
    (hm : (ofMode mode).unit name s g slots limit = .ok m) {c : Context} (hr : c.machine.router ≠ .reject)
    (hn : c.machine.Normalised) :
    ∃ me code helpers n v c₁ c₂, m.method? executeMethod = some me ∧ Code.decode me.code = .ok code ∧
      Loader.resolve .builtin name m.links = .ok helpers ∧
      Interpreter.runMode mode .builtin s c = (.ok n, c₁) ∧
      Execution.run (CodeBlock.linkage m helpers) ⟨me.name, code, me.guards⟩ true c = (.ok v, c₂) ∧
      v = .ofUInt32 (.ofNat n) ∧ (s.count < 2 ^ 32 → v.toUInt32.toNat = n) ∧ c₂.machine = c₁.machine := by
  have hv := build_valid (Lowering.table_disciplined mode) hs hg
  obtain ⟨hsound, -⟩ := Slots.allocate_sound hv ha
  obtain ⟨fin, guards, h⟩ := unit_contains hv hsound hm
  obtain ⟨helpers, hh, -⟩ := h.layout hv hsound
  obtain ⟨n, c₁, c₂, hint, hrun, hmachine⟩ := h.run hs hg ha hh c hr hn
  refine ⟨_, _, helpers, n, _, c₁, c₂, h.method?_execute, h.decode hv hsound, hh, hint, hrun, rfl, fun hlt => ?_, hmachine⟩
  rw [Value.toUInt32_ofUInt32, UInt32.toNat_ofNat', Nat.mod_eq_of_lt ((Interpreter.runMode_le hs hint).trans_lt hlt)]

/-- In protected mode the second of two instructions may not clear the interrupt flag, and its fault rolls back
    to where the first one ended. -/
theorem unit_refines_interpreter_fault :
    ∃ s g slots m me code helpers v c₁ c₂, Stream.ofBlock [⟨2, [156]⟩, ⟨1, [141]⟩] = .ok s ∧
      Graph.build (ofMode .protected_).table true s = .ok g ∧ Slots.allocate g 1024 = (.ok (), slots) ∧
      (ofMode .protected_).unit "a" s g slots 65535 = .ok m ∧
      m.method? executeMethod = some me ∧ Code.decode me.code = .ok code ∧
      Loader.resolve .builtin "a" m.links = .ok helpers ∧
      Interpreter.runMode .protected_ .builtin s ⟨{ Machine.reset (.ofSize 0) with cpl := 3 }, []⟩ = (.ok 1, c₁) ∧
      Execution.run (CodeBlock.linkage m helpers) ⟨me.name, code, me.guards⟩ true
        ⟨{ Machine.reset (.ofSize 0) with cpl := 3 }, []⟩ = (.ok v, c₂) ∧
      v.toUInt32.toNat = 1 ∧ c₂.machine = c₁.machine ∧ c₁.machine.delivered.length = 1 := by
  have hunit : (Stream.ofBlock [⟨2, [156]⟩, ⟨1, [141]⟩]).toOption.any (fun s =>
      (Graph.build (ofMode .protected_).table true s).toOption.any fun g =>
        (Slots.allocate g 1024).1.toOption.any fun _ =>
          ((ofMode .protected_).unit "a" s g (Slots.allocate g 1024).2 65535).toOption.any fun _ => true) = true := by
    decide +kernel
  have hint : (Stream.ofBlock [⟨2, [156]⟩, ⟨1, [141]⟩]).toOption.any (fun s =>
      let r := Interpreter.runMode .protected_ .builtin s ⟨{ Machine.reset (.ofSize 0) with cpl := 3 }, []⟩
      s.count = 2 ∧ r.1 = .ok 1 ∧ r.2.machine.delivered.length = 1) = true := by decide
  obtain ⟨s, hs, hunit⟩ := exists_ok_of_any hunit
  obtain ⟨g, hg, hunit⟩ := exists_ok_of_any hunit
  obtain ⟨_, hallocate, hunit⟩ := exists_ok_of_any hunit
  obtain ⟨m, hm, -⟩ := exists_ok_of_any hunit
  obtain ⟨_, hs', hint⟩ := exists_ok_of_any hint
  cases hs.symm.trans hs'
  obtain ⟨hcount, hresult, hdelivered⟩ := of_decide_eq_true hint
  have ha : Slots.allocate g 1024 = (.ok (), (Slots.allocate g 1024).2) := Prod.ext hallocate rfl
  obtain ⟨me, code, helpers, n, v, c₁, c₂, hme, hcode, hh, hi, hrun, -, hv, hmachine⟩ :=
    unit_refines_interpreter .protected_ hs hg ha hm (c := ⟨{ Machine.reset (.ofSize 0) with cpl := 3 }, []⟩) (by decide)
      ⟨fun f => by cases f <;> decide, by decide⟩
  rw [hi] at hresult hdelivered
  cases hresult
  exact ⟨s, g, _, m, me, code, helpers, v, c₁, c₂, hs, hg, ha, hm, hme, hcode, hh, hi, hrun, hv (by omega), hmachine,
    hdelivered⟩

end Target
end MicroBlock
