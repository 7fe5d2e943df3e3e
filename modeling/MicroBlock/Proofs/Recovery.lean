import Mathlib
import MicroBlock.Proofs.Caches

/-! How a compile can fail.

Of all that is written into a unit only the two numbers that describe the block go into operands as they are; all other
numbers are pushed from the constant pool if they have no operand, or count things of the unit itself. So a compile fails
with an error to recover from, unless its block has a number of instructions or bytes that has no operand. -/

namespace MicroBlock

/-! ### Operands of the code -/

/-- All operands of the code of a block fit, unless there is more code than operands can count. -/
theorem Emission.execute_fits {g : Graph} (hg : g.Valid) {slots : Slots} (hs : slots.Sound g) {b : Builtin} {count : Nat}
    {m : Module} {guards : List Guard} {fin : Emission} (h : execute g slots b.name count m = (guards, fin))
    (hm : m.constants.length + m.links.length ≤ 2) (hlength : fin.code.length < 2 ^ 27) :
    ∀ i ∈ fin.instrs, Code.Fits i := by
  intro i hi
  obtain ⟨-, -, hentries⟩ := execute_bounds hg hs h
  have hunits := execute_units hs h hg
  simp only [Element.count] at hunits
  exact (execute_refers hg hs h hi).fits (by omega) (by omega) (by omega)

namespace Compiler

theorem load_eq_unwritable {c : Compiler} {l : Loader} {t : Target} {s : Stream} {key : ContentKey} {name : String}
    {e : EmitError} (h : (c.load l t s key name).result = .error (.unwritable e)) :
    build c.limits t s name = .error (.unit (.emit e)) := by
  unfold Compiler.load at h
  split at h
  · next hbuild =>
    rw [hbuild, failure_eq_unwritable (Except.error.inj h)]
  split at h <;> cases h

/-- Looking for a stream fails because its name stands for another, or because it is found nowhere and does not load. -/
theorem find_eq_error {c : Compiler} {l : Loader} {t : Target} {s : Stream} {sum : Bytes} {name : String}
    {e : CompileFailure} (h : (c.find l t s sum name).result = .error e) :
    (∃ which, e = collision name which) ∨
      l.find? name = none ∧ (c.load l t s ⟨t.name, sum⟩ name).result = .error e := by
  unfold Compiler.find at h
  simp only at h
  split at h
  · split at h <;> cases h
    exact .inl ⟨_, rfl⟩
  split at h
  · split at h <;> cases h
    exact .inl ⟨_, rfl⟩
  next hnone =>
  split at h
  · split at h
    · cases h
    · exact .inr ⟨hnone, h⟩
  · exact .inr ⟨hnone, h⟩

theorem find_eq_unwritable {c : Compiler} {l : Loader} {t : Target} {s : Stream} {sum : Bytes} {name : String}
    {e : EmitError} (h : (c.find l t s sum name).result = .error (.unwritable e)) :
    build c.limits t s name = .error (.unit (.emit e)) := by
  rcases find_eq_error h with ⟨which, hwhich⟩ | ⟨-, hload⟩
  · cases hwhich
  · exact load_eq_unwritable hload

/-- Only a number of its block keeps a request from an answer to recover from. -/
theorem answer_cases (limits : CompileLimits) {history : List Request} {r : Request}
    (hwords : ∀ q ∈ history ++ [r], (q.block.flatMap (·.words)).length < 2 ^ 30) :
    (∃ u, (r.answer (after limits history)).result = .ok u) ∨
      (∃ e, (r.answer (after limits history)).result = .error (.error e)) ∨
      ∃ s v, Stream.ofBlock r.block = .ok s ∧ Target.Unwritable s v ∧
        (r.answer (after limits history)).result = .error (.unwritable (.range ⟨Opcode.pushi.code⟩ v)) := by
  have hlog : ∀ q ∈ history ++ [r], ∀ o, q.origin? = some o → o ∈ (history ++ [r]).filterMap Request.origin? :=
    fun q hq o ho => List.mem_filterMap.mpr ⟨q, hq, ho⟩
  have htraced : Traced limits _ (after limits history).1 (after limits history).2 :=
    traced_after (fun o => readable_of_mem hwords) fun q hq => hlog q (List.mem_append_left [r] hq)
  obtain ⟨-, hanswers⟩ := htraced.answer (hlog r (by simp))
  cases hs : Stream.ofBlock r.block with
  | error e =>
    refine .inr (.inl ⟨streamError r.name e, ?_⟩)
    simp only [Request.answer, compile, hs, Compiler.countFailure]
  | ok s =>
    have horigin : r.origin? = some ⟨r.mode, s, nameFor (.ofMode r.mode) s r.name⟩ := by simp only [Request.origin?, hs]
    cases hr : (r.answer (after limits history)).result with
    | ok u => exact .inl ⟨u, rfl⟩
    | error e =>
      cases e with
      | error e => exact .inr (.inl ⟨e, rfl⟩)
      | crash => exact absurd hr (hanswers _ horigin).crash
      | unwritable e =>
        simp only [Request.answer, compile, hs, compileStream, result_countFailure] at hr
        obtain ⟨v, hv, rfl⟩ := build_eq_emit (find_eq_unwritable hr)
        exact .inr (.inr ⟨s, v, rfl, hv, rfl⟩)

end Compiler
end MicroBlock
