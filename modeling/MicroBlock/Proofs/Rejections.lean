import Mathlib
import MicroBlock.Engine
import MicroBlock.Proofs.Prefixes

/-! Blocks with an op that has no lowering.

The interpreter finds such an op when it comes to it, with the records before it done. Registers are written
back at the end of a block only, so they are as before, and so are the deliveries; but what the earlier
records stored, sent to a port or retired stays. -/

namespace MicroBlock

namespace Interpreter

/-- A run that meets an op without a lowering: the records before it, the one with the op, those after it, and
    what the run had come to. -/
structure Stops (t : Table) (s : Stream) (c : Context) (u : Unimplemented) (before : List Record) (p : Progress) :
    Prop where
  records : ∃ rec after, s.records = before ++ rec :: after ∧ t.targets? rec.op = [] ∧ u = ⟨rec.op, rec.index⟩
  advance : advance t (.start c) before = some p

theorem exists_stops {mode : Mode} {s : Stream} {c c' : Context} {u : Unimplemented}
    (h : runMode mode .builtin s c = (.error (.unimplemented u), c')) :
    ∃ before p, Stops (Lowering.table mode) s c u before p ∧ c' = p.context := by
  rcases runRecords_cases (Lowering.table_disciplined mode) (Progress.sound_start c) (mode : ModeNumber).routeHelper
    s.count s.records with ⟨q, -, hrun⟩ | ⟨before, rec, after, p, hrs, hp, hnil, hrun⟩ |
      ⟨before, rec, after, q, done, f, x, c₁, -, -, -, hrun⟩ <;> rw [← run, ← runMode, h] at hrun
  · cases hrun
  · cases hrun
    exact ⟨before, p, ⟨⟨rec, after, hrs, hnil, rfl⟩, hp⟩, rfl⟩
  · rw [rollback_eq] at hrun
    split at hrun
    · next e _ => cases e <;> cases hrun
    · cases hrun

theorem Stops.sameShell {mode : Mode} {s : Stream} {c : Context} {u : Unimplemented} {before : List Record} {p : Progress}
    (h : Stops (Lowering.table mode) s c u before p) : p.context.machine.SameShell c.machine :=
  ((Progress.sound_start c).advance (Lowering.table_disciplined mode) h.advance).machine

theorem Stops.machine_eq {mode : Mode} {s : Stream} {c : Context} {u : Unimplemented} {before : List Record} {p : Progress}
    (h : Stops (Lowering.table mode) s c u before p)
    (hpure : ∀ rec ∈ before, ∀ f ∈ (Lowering.table mode).targets? rec.op, f.hasEffect = false) :
    p.context.machine = c.machine :=
  machine_of_advance (Lowering.table_disciplined mode) (Progress.sound_start c) hpure h.advance

end Interpreter

namespace Engine
open Interpreter

/-- The engine's error for one of the interpreter. -/
def Error.ofInterpreter : Interpreter.Error → Error
  | .crash => .crash
  | x => .interpreter x

section Interpret
variable {m : ModeNumber} {mode : Mode} (hm : m.mode? = some mode) (e : Engine) (s : Stream) (c : Context)
include hm

theorem interpret_result :
    (e.interpret m s c).result = (runMode mode e.helpers s c).1.mapError Error.ofInterpreter := by
  simp only [interpret, hm]
  rcases (runMode mode e.helpers s c).1 with x | n
  · cases x <;> rfl
  · rfl

theorem interpret_context : (e.interpret m s c).context = (runMode mode e.helpers s c).2 := by
  simp only [interpret, hm]

end Interpret

theorem executeBlock_result_ne (e : Engine) (b : CodeBlock) (c : Context) (x : Interpreter.Error) :
    (e.executeBlock b c).result ≠ .error (.interpreter x) := by
  unfold executeBlock
  rcases b.execute c with ⟨y | n, c'⟩
  · cases y <;> nofun
  · nofun

theorem executeBlock_context (e : Engine) (b : CodeBlock) (c : Context) : (e.executeBlock b c).context = (b.execute c).2 := by
  unfold executeBlock
  rcases b.execute c with ⟨x | n, c'⟩
  · cases x <;> rfl
  · rfl

/-- An error of the interpreter comes from interpreting the stream, whatever the engine did before. -/
theorem exists_interpret {e : Engine} {m : ModeNumber} {s : Stream} {c : Context} {x : Interpreter.Error}
    (h : (e.runStream m s c).result = .error (.interpreter x)) :
    ∃ e' : Engine, e'.helpers = e.helpers ∧ (e'.interpret m s c).result = .error (.interpreter x) ∧
      (e.runStream m s c).context = (e'.interpret m s c).context := by
  revert h
  unfold runStream
  split
  · exact fun h => ⟨e, rfl, h, rfl⟩
  split
  · nofun
  next t ht =>
  split
  · next p hp =>
    unfold runBackground
    simp only
    split
    · exact fun h => absurd h (executeBlock_result_ne e _ c x)
    split
    · exact fun h => ⟨e, rfl, h, rfl⟩
    split
    · refine fun h => ⟨_, ?_, h, ?_⟩ <;> rfl
    · refine fun h => ⟨_, ?_, h, ?_⟩ <;> rfl
  · unfold runCompiling
    simp only
    split
    · exact fun h => absurd h (executeBlock_result_ne _ _ c x)
    · refine fun h => ⟨_, ?_, h, ?_⟩ <;> rfl
    · nofun
    · nofun

/-- A block with an op that has no lowering leaves the registers, EIP among them, and the deliveries as they
    were. The rest of the machine is as the records before the op left it, so that nothing has changed if
    none of these has an effect. -/
theorem unimplemented_keeps_registers {e : Engine} (he : e.helpers = .builtin) {m : ModeNumber} {s : Stream}
    {c : Context} {u : Unimplemented} (h : (e.runStream m s c).result = .error (.interpreter (.unimplemented u))) :
    ∃ mode before p, m.mode? = some mode ∧ Stops (Lowering.table mode) s c u before p ∧
      runMode mode .builtin s c = (.error (.unimplemented u), (e.runStream m s c).context) ∧
      (e.runStream m s c).context = p.context ∧ (e.runStream m s c).context.machine.SameShell c.machine ∧
      ((∀ rec ∈ before, ∀ f ∈ (Lowering.table mode).targets? rec.op, f.hasEffect = false) →
        (e.runStream m s c).context.machine = c.machine) := by
  obtain ⟨e', hhelpers, hresult, hcontext⟩ := exists_interpret h
  cases hm : m.mode? with
  | none => simp [interpret, hm] at hresult
  | some mode =>
    have hrun : runMode mode .builtin s c = (.error (.unimplemented u), (e.runStream m s c).context) := by
      rw [hcontext, interpret_context hm, hhelpers, he]
      rw [interpret_result hm, hhelpers, he] at hresult
      refine Prod.ext ?_ rfl
      generalize (runMode mode .builtin s c).1 = r at hresult
      rcases r with x | n
      · cases x <;> cases hresult
        rfl
      · cases hresult
    obtain ⟨before, p, hstops, hp⟩ := exists_stops hrun
    refine ⟨mode, before, p, rfl, hstops, hrun, hp, ?_, fun hpure => ?_⟩
    · rw [hp]
      exact hstops.sameShell
    · rw [hp]
      exact hstops.machine_eq hpure

/-- An interpreted block whose first instruction moves EIP and whose second is a return: EIP stays, and so does all
    else, since moving EIP is no effect. -/
theorem unimplemented_keeps_registers_ret :
    ∃ s u before p, Stream.ofBlock [⟨1, [156]⟩, ⟨1, [167]⟩] = .ok s ∧
      ((Engine.new .interpreter .builtin 0 {}).runStream Mode.real s ⟨Machine.reset (.ofSize 0), []⟩).result =
        .error (.interpreter (.unimplemented u)) ∧
      Stops (Lowering.table .real) s ⟨Machine.reset (.ofSize 0), []⟩ u before p ∧
      ((Engine.new .interpreter .builtin 0 {}).runStream Mode.real s ⟨Machine.reset (.ofSize 0), []⟩).context.machine =
        Machine.reset (.ofSize 0) := by
  have hrun : (Stream.ofBlock [⟨1, [156]⟩, ⟨1, [167]⟩]).toOption.any (fun s =>
      s.records = [⟨some .eipUpdate, none, 1, 0, 0⟩, ⟨some .ret32, none, 2, 1, 1⟩] ∧
        ((Engine.new .interpreter .builtin 0 {}).runStream Mode.real s ⟨Machine.reset (.ofSize 0), []⟩).result =
          .error (.interpreter (.unimplemented ⟨some .ret32, 1⟩))) = true := by
    decide
  obtain ⟨s, hs, hdecide⟩ := exists_ok_of_any hrun
  obtain ⟨hrs, hresult⟩ := of_decide_eq_true hdecide
  obtain ⟨mode, before, p, hmode, hstops, -, -, -, hpure⟩ := unimplemented_keeps_registers rfl hresult
  cases hmode
  refine ⟨s, _, before, p, hs, hresult, hstops, hpure ?_⟩
  obtain ⟨rec, after, hsplit, hnil, -⟩ := hstops.records
  rw [hrs] at hsplit
  rcases before with _ | ⟨r, _ | ⟨r', before⟩⟩
  · simp
  · cases hsplit
    simp only [List.mem_singleton, forall_eq]
    decide
  · have := congrArg List.length hsplit
    simp at this

/-- In either execution mode an instruction that retires stays retired when the next one is a return, which has no
    lowering: the machine is not as before the call. -/
theorem retired_before_unimplemented :
    ([ExecutionMode.compiled, .interpreter].map fun execution =>
      let r := (Engine.new execution .builtin 0 {}).run Mode.real [⟨1, [165, 156]⟩, ⟨1, [167]⟩]
        ⟨Machine.reset (.ofSize 0), []⟩
      (r.result, r.context.machine)) =
        List.replicate 2 (.error (.interpreter (.unimplemented ⟨some .ret32, 1⟩)),
          { Machine.reset (.ofSize 0) with retired := 1 }) ∧
    { Machine.reset (.ofSize 0) with retired := 1 } ≠ Machine.reset (.ofSize 0) := by
  decide

end Engine
end MicroBlock
