import Mathlib
import MicroBlock.Compile.Pool
import MicroBlock.Proofs.Accounting

/-! What comes of a block that is submitted to a pool and waited for.

A pool looks at the stream of a block and at its name before the compiler does. Both come to the same name, and a block
without a stream gets the same error from both; but only the compiler counts it. Since no call reads the counter, the two
ways stay together over any number of calls, a difference on that counter apart. -/

namespace MicroBlock

/-- The failures that come of a block before it reaches a target: one if it makes no stream. -/
def Block.faults (b : Block) : Nat :=
  match Stream.ofBlock b with
  | .ok _ => 0
  | .error _ => 1

theorem Block.faults_eq_zero_iff {b : Block} : b.faults = 0 ↔ ∃ s, Stream.ofBlock b = .ok s := by
  unfold faults
  cases Stream.ofBlock b <;> simp

namespace Compiler

/-! ### The counter of failures -/

/-- The compiler with more failures on its counter. -/
def addFailures (c : Compiler) (n : Nat) : Compiler := { c with failures := c.failures + n }

end Compiler

/-- A call that leaves a compiler with more failures on its counter. -/
def Compilation.addFailures (r : Compilation) (n : Nat) : Compilation :=
  { r with compiler := r.compiler.addFailures n }

namespace Compiler
variable (c : Compiler) (l : Loader) (n : Nat)

@[simp] theorem addFailures_zero : c.addFailures 0 = c := rfl

theorem addFailures_addFailures (n m : Nat) : (c.addFailures n).addFailures m = c.addFailures (n + m) := by
  simp only [addFailures, Nat.add_assoc]

theorem enterContent_addFailures (key : ContentKey) (b : CodeBlock) :
    (c.addFailures n).enterContent key b = (c.enterContent key b).addFailures n := by
  unfold enterContent addFailures
  split <;> rfl

theorem report_addFailures (target : String) (op : Option Op) :
    (c.addFailures n).report target op = ((c.report target op).1, (c.report target op).2.addFailures n) := by
  unfold report addFailures
  split <;> rfl

theorem noteBuildError_addFailures (t : Target) (name : String) (e : BuildError) :
    (c.addFailures n).noteBuildError t name e =
      ((c.noteBuildError t name e).1, (c.noteBuildError t name e).2.addFailures n) := by
  unfold noteBuildError
  split
  · exact c.report_addFailures n _ _
  all_goals rfl

theorem load_addFailures (t : Target) (s : Stream) (key : ContentKey) (name : String) :
    (c.addFailures n).load l t s key name = (c.load l t s key name).addFailures n := by
  have hlimits : (c.addFailures n).limits = c.limits := rfl
  unfold Compiler.load
  rw [hlimits]
  split
  · rw [noteBuildError_addFailures]
    rfl
  · split
    · rfl
    · rfl
    · next b _ _ =>
      have henter : (c.addFailures n).enter name b = (c.enter name b).addFailures n := rfl
      simp only [henter, enterContent_addFailures]
      rfl

/-- Looking for a stream does not look at the counter of failures. -/
theorem find_addFailures (t : Target) (s : Stream) (sum : Bytes) (name : String) :
    (c.addFailures n).find l t s sum name = (c.find l t s sum name).addFailures n := by
  have hlookup : (c.addFailures n).lookup name = c.lookup name := rfl
  have hcontent : (c.addFailures n).byContent = c.byContent := rfl
  unfold Compiler.find
  simp only [hlookup, hcontent]
  split
  · split <;> rfl
  split
  · next b _ =>
    split
    · have henter : (c.addFailures n).enter name b = (c.enter name b).addFailures n := rfl
      rw [henter, enterContent_addFailures]
      rfl
    · rfl
  split
  · split
    · rfl
    · exact c.load_addFailures l n t s _ name
  · exact c.load_addFailures l n t s _ name

theorem countFailure_addFailures (r : Compilation) (n : Nat) :
    countFailure (r.addFailures n) = (countFailure r).addFailures n := by
  obtain ⟨result, c, l, log, fresh⟩ := r
  rcases result with (e | e | _) | b
  · have hcomm : c.failures + n + 1 = c.failures + 1 + n := Nat.add_right_comm ..
    simp only [countFailure, Compilation.addFailures, addFailures, hcomm]
  all_goals rfl

theorem compile_addFailures (t : Option Target) (b : Block) (name : String) :
    (c.addFailures n).compile l t b name = (c.compile l t b name).addFailures n := by
  unfold compile
  split
  · next e _ =>
    exact countFailure_addFailures ⟨.error (.error (streamError name e)), c, l, [], none⟩ n
  · cases t with
    | none => rfl
    | some t =>
      simp only [compileStream, find_addFailures]
      exact countFailure_addFailures _ n

end Compiler

namespace Pool
open Compiler

/-! ### Waiting for a result -/

/-- What a caller sees who waits for a result, and the compiler and the loader that the work leaves. -/
structure Awaited where
  result : Except Failure CodeBlock
  compiler : Compiler
  loader : Loader
  log : List String
  /-- The name and the container of the unit that was loaded. -/
  fresh : Option (String × Bytes)

namespace Awaited

/-- A call of the compiler is waited for. -/
def ofCompilation (r : Compilation) : Awaited := ⟨r.result.mapError .compile, r.compiler, r.loader, r.log, r.fresh⟩

/-- A submission is waited for. One that the pool does not take on leaves the compiler and the loader alone. -/
def ofSubmission (c : Compiler) (l : Loader) : Submission → Awaited
  | .ok r => ofCompilation r
  | .error e => ⟨.error e, c, l, [], none⟩

/-- The same, but for more failures on the counter of the compiler. -/
def addFailures (a : Awaited) (n : Nat) : Awaited := { a with compiler := a.compiler.addFailures n }

theorem ofCompilation_addFailures (r : Compilation) (n : Nat) :
    ofCompilation (r.addFailures n) = (ofCompilation r).addFailures n :=
  rfl

theorem eq_addFailures_iff {a : Awaited} {n : Nat} : a = a.addFailures n ↔ n = 0 := by
  constructor
  · intro h
    have hfailures : a.compiler.failures = a.compiler.failures + n := congrArg (·.compiler.failures) h
    exact Nat.left_eq_add.mp hfailures
  · rintro rfl
    rfl

end Awaited

variable {p : Pool}

theorem submitStream_of_open (hopen : p.closed = false) (c : Compiler) (l : Loader) (t : Target) (s : Stream)
    (name : String) : p.submitStream c l t s name = .ok (c.compileStream l t s name) := by
  simp only [submitStream, hopen, Bool.false_eq_true, if_false, compileStream, nameFor_nameFor]

/-- One call: the compiler does what the pool does, and counts the block that the pool turns away. -/
theorem compile_eq_submit (hopen : p.closed = false) (c : Compiler) (l : Loader) (t : Option Target) (b : Block)
    (name : String) :
    Awaited.ofCompilation (c.compile l t b name) =
      (Awaited.ofSubmission c l (p.submit c l t b name)).addFailures b.faults := by
  unfold compile submit Block.faults
  cases hb : Stream.ofBlock b with
  | error e => rfl
  | ok s =>
    cases t with
    | none => rfl
    | some t =>
      simp only [submitStream_of_open hopen]
      rfl

/-! ### Sessions -/

/-- What is done with one call of a session: to compile its block, or to submit it. -/
abbrev Way := Compiler.Call → Compiler × Loader → Awaited

def compiling : Way := fun x cl => .ofCompilation (x.answer cl)

def submitting (p : Pool) : Way := fun x cl => .ofSubmission cl.1 cl.2 (p.submit cl.1 cl.2 x.target x.block x.name)

/-- The calls of a session one after the other, each with the compiler and the loader that the ones before it left: what
    was seen of each, and what is left at the end. -/
def session (way : Way) : List Compiler.Call → Compiler × Loader → List Awaited × Compiler × Loader
  | [], cl => ([], cl)
  | x :: xs, cl =>
    let a := way x cl
    let (as, cl') := session way xs (a.compiler, a.loader)
    (a :: as, cl')

/-- What a caller sees of one call. -/
def Awaited.seen (a : Awaited) : Except Failure CodeBlock × List String × Option (String × Bytes) :=
  (a.result, a.log, a.fresh)

/-- The number of calls whose blocks make no stream. -/
def faults (xs : List Compiler.Call) : Nat := (xs.map (·.block.faults)).sum

theorem compiling_eq_submitting (hopen : p.closed = false) (x : Compiler.Call) (c : Compiler) (l : Loader) (n : Nat) :
    compiling x (c.addFailures n, l) = (submitting p x (c, l)).addFailures (n + x.block.faults) := by
  simp only [compiling, Call.answer, compile_addFailures, Awaited.ofCompilation_addFailures, compile_eq_submit hopen,
    submitting, Awaited.addFailures, addFailures_addFailures, Nat.add_comm n]

/-- A session that starts with more failures on the counter of its compiler keeps them there, and adds those that a pool
    does not count. -/
theorem session_compiling (hopen : p.closed = false) (xs : List Compiler.Call) (c : Compiler) (l : Loader) (n : Nat) :
    (session compiling xs (c.addFailures n, l)).1.map Awaited.seen =
        (session (submitting p) xs (c, l)).1.map Awaited.seen ∧
      (session compiling xs (c.addFailures n, l)).2 =
        ((session (submitting p) xs (c, l)).2.1.addFailures (n + faults xs), (session (submitting p) xs (c, l)).2.2) := by
  induction xs generalizing c l n with
  | nil => exact ⟨rfl, rfl⟩
  | cons x xs ih =>
    have hstep := compiling_eq_submitting hopen x c l n
    obtain ⟨hseen, hleft⟩ := ih (submitting p x (c, l)).compiler (submitting p x (c, l)).loader (n + x.block.faults)
    have hfaults : n + faults (x :: xs) = n + x.block.faults + faults xs := by
      simp only [faults, List.map_cons, List.sum_cons, Nat.add_assoc]
    simp only [session, hstep, List.map_cons, hfaults]
    exact ⟨congrArg₂ _ rfl hseen, hleft⟩

/-- A submission to an open pool that is waited for gives the block or the error, the log and the fresh unit that a
    compile gives, and leaves the same compiler and loader, exactly if the block makes a stream. If it makes none, the
    compile has one more failure on its counter, and that is all. So over all calls of a session the results are the same,
    and so are the loaded units; the compilers differ by the number of these blocks on the counter of failures. -/
theorem awaited_submission_eq_compile (p : Pool) (hopen : p.closed = false) (c : Compiler) (l : Loader) :
    (∀ t b name,
      (Awaited.ofSubmission c l (p.submit c l t b name) = .ofCompilation (c.compile l t b name) ↔
        ∃ s, Stream.ofBlock b = .ok s) ∧
      Awaited.ofCompilation (c.compile l t b name) =
        (Awaited.ofSubmission c l (p.submit c l t b name)).addFailures b.faults) ∧
    ∀ xs, (session compiling xs (c, l)).1.map Awaited.seen = (session (submitting p) xs (c, l)).1.map Awaited.seen ∧
      (session compiling xs (c, l)).2.2 = (session (submitting p) xs (c, l)).2.2 ∧
      (session compiling xs (c, l)).2.1 = (session (submitting p) xs (c, l)).2.1.addFailures (faults xs) := by
  refine ⟨fun t b name => ⟨?_, compile_eq_submit hopen c l t b name⟩, fun xs => ?_⟩
  · rw [compile_eq_submit hopen, Awaited.eq_addFailures_iff, Block.faults_eq_zero_iff]
  · obtain ⟨hseen, hleft⟩ := session_compiling hopen xs c l 0
    rw [Nat.zero_add, addFailures_zero] at hleft
    exact ⟨hseen, by rw [hleft], by rw [hleft]⟩

/-- A unit that is compiled, a block that ends where an immediate should stand, and the unit once more. -/
def faultyBetween : List Compiler.Call :=
  let clc : Compiler.Call := ⟨some (.ofMode .real), [⟨2, [136]⟩], "x"⟩
  [clc, ⟨some (.ofMode .real), [⟨3, [65]⟩], "y"⟩, clc]

/-- The second call fails either way, and is counted only by the compiler. -/
theorem awaited_submission_eq_compile_faultyBetween :
    ({} : Pool).closed = false ∧
    (session compiling faultyBetween ({}, { helpers := .builtin })).1.map Awaited.seen =
      (session (submitting {}) faultyBetween ({}, { helpers := .builtin })).1.map Awaited.seen ∧
    (session (submitting {}) faultyBetween ({}, { helpers := .builtin })).2.1.tally = (1, 1, 0) ∧
    (session compiling faultyBetween ({}, { helpers := .builtin })).2.1.tally = (1, 1, 1) := by
  obtain ⟨hseen, -, hcompiler⟩ := (awaited_submission_eq_compile {} rfl {} { helpers := .builtin }).2 faultyBetween
  have htally : (session (submitting {}) faultyBetween ({}, { helpers := .builtin })).2.1.tally = (1, 1, 0) := by
    decide +kernel
  have hfaults : faults faultyBetween = 1 := by decide
  refine ⟨rfl, hseen, htally, ?_⟩
  simp only [tally, Prod.mk.injEq] at htally
  simp only [hcompiler, hfaults, tally, addFailures, htally]

/-- A submission and a compile of an empty block end with the same error and do not leave the same counters. -/
theorem submission_uncounted :
    let submitted := Awaited.ofSubmission {} { helpers := .builtin }
      (({} : Pool).submit {} { helpers := .builtin } (some (.ofMode .real)) [] "x")
    let compiled := Awaited.ofCompilation (Compiler.compile {} { helpers := .builtin } (some (.ofMode .real)) [] "x")
    submitted.result = compiled.result ∧ submitted.compiler.stats.failures = 0 ∧ compiled.compiler.stats.failures = 1 :=
  ⟨rfl, rfl, rfl⟩

end Pool
end MicroBlock
