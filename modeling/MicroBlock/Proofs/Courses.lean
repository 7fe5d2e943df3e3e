import Mathlib
import MicroBlock.Proofs.Scripts
import MicroBlock.Proofs.Verification

/-! Which instructions a run executes.

Every instruction of a block's code was written by one act, and stands where the acts before it end. A run executes the
code from its beginning until a helper faults under a guard, and goes on with the code at the guard's target. So
what a run has executed is known by the acts that wrote it. -/

namespace MicroBlock

/-! ### The instructions of acts -/

namespace Emission

/-- The instruction that pushes a number. -/
def numberInstr (s : Emission) (v : Int) : Instr :=
  if Operand.fits (Int32.ofInt v).toInt then .push (Int32.ofInt v)
  else .const (Int32.ofNat (s.module.intern (.int (Int32.ofInt v))).1)

/-- The instruction that calls a helper. -/
def callInstr (s : Emission) (helper : String) : Instr := .call (Int32.ofNat (s.module.link helper).1)

end Emission

/-- The instruction of a step that pushes no input. -/
def Step.instr? (n : Node) (s : Emission) : Step → Option Instr
  | .input _ | .unknown _ => none
  | .literal l => some (s.numberInstr (l.resolve n.place))
  | .dup => some .dup
  | .pop => some .pop
  | .call h => some (s.callInstr h)

/-- The instruction that an act writes. -/
def Act.instr? (g : Graph) (slots : Slots) (s : Emission) : Act → Option Instr
  | .expand _ => none
  | .own id st => g.nodes[id]?.bind fun n => st.instr? n s
  | .load id => g.nodes[id]?.bind fun n => (slots.of? id).map fun u => .load (.ofKind n.element.kind) (Int32.ofNat u)
  | .get e => some (.get (Int32.ofNat e.number))
  | .copy => some .dup
  | .store id => g.nodes[id]?.bind fun n => (slots.of? id).map fun u => .store (.ofKind n.element.kind) (Int32.ofNat u)
  | .drop => some .pop
  | .set r => some (.set (Int32.ofNat r.number))
  | .number v => some (s.numberInstr v)
  | .call h => some (s.callInstr h)
  | .fault => some .fault
  | .ret => some .ret

namespace Emission
open MicroBlock.Graph

section Placed
variable {g : Graph} {slots : Slots}

/-- An instruction, or none, was added. -/
structure Adds? (i : Option Instr) (s s' : Emission) : Prop where
  code : s'.code = i.toList ++ s.code
  size : s'.size = s.size + sizeOf i.toList

theorem adds?_emit (s : Emission) (i : Instr) : Adds? (some i) s (s.emit i) := ⟨rfl, by simp [emit, sizeOf]⟩

theorem adds?_none (s : Emission) : Adds? none s s := ⟨rfl, rfl⟩

theorem adds?_pushInt (s : Emission) (v : Int) : Adds? (some (s.numberInstr v)) s (s.pushInt v) := by
  cases h : Operand.fits (Int32.ofInt v).toInt with
  | true =>
    rw [pushInt_of_fits h, numberInstr, if_pos h]
    exact adds?_emit s _
  | false =>
    rw [pushInt_of_not_fits h, numberInstr, if_neg (by rw [h]; exact Bool.false_ne_true)]
    exact ⟨rfl, by simp [emit, sizeOf]⟩

theorem adds?_call (s : Emission) (helper : String) : Adds? (some (s.callInstr helper)) s (s.call helper) :=
  ⟨rfl, by simp [call, emit, sizeOf, callInstr]⟩

theorem adds?_step (n : Node) (s : Emission) {st : Step} :
    Adds? (st.instr? n s) s (step n (fun _ s => s) s st) := by
  cases st with
  | input i =>
    simp only [step]
    split <;> exact adds?_none s
  | literal l => exact adds?_pushInt s _
  | call h =>
    obtain ⟨extents, hcall⟩ := exists_step_call n (fun _ s => s) s h
    rw [hcall]
    exact ⟨(adds?_call s h).code, (adds?_call s h).size⟩
  | dup | pop => exact adds?_emit s _
  | unknown => exact adds?_none s

/-- An act writes its instruction. -/
theorem adds?_write (a : Act) (s : Emission) : Adds? (a.instr? g slots s) s (a.write g slots s) := by
  cases a with
  | expand => exact adds?_none s
  | own id st =>
    cases hn : g.nodes[id]? with
    | none => simpa [Act.write, Act.instr?, hn] using adds?_none s
    | some n => simpa [Act.write, Act.instr?, hn] using adds?_step n s
  | load id =>
    cases hn : g.nodes[id]? with
    | none => simpa [Act.write, Act.instr?, hn] using adds?_none s
    | some n =>
      cases hu : slots.of? id with
      | none => simpa [Act.write, Act.instr?, hn, load, hu] using adds?_none s
      | some u => simpa [Act.write, Act.instr?, hn, load, hu] using adds?_emit s _
  | store id =>
    cases hn : g.nodes[id]? with
    | none => simpa [Act.write, Act.instr?, hn] using adds?_none s
    | some n =>
      cases hu : slots.of? id with
      | none => simpa [Act.write, Act.instr?, hn, store, hu] using adds?_none s
      | some u =>
        simp only [Act.write, Act.instr?, hn, Option.elim_some, Option.bind_some, store, hu, Option.map_some]
        exact ⟨rfl, by simp [emit, sizeOf]⟩
  | number v => exact adds?_pushInt s v
  | call h => exact adds?_call s h
  | get | copy | drop | set | fault | ret => exact adds?_emit s _

/-- The instructions that acts write, at their offsets. -/
def placed (g : Graph) (slots : Slots) : Emission → List Act → List Code.Placed
  | _, [] => []
  | s, a :: acts => (a.instr? g slots s).toList.map (fun i => ⟨s.size, i, i.size⟩) ++ placed g slots (a.write g slots s) acts

theorem placed_append (s : Emission) (acts acts' : List Act) :
    placed g slots s (acts ++ acts') = placed g slots s acts ++ placed g slots (s.perform g slots acts) acts' := by
  induction acts generalizing s with
  | nil => rfl
  | cons a acts ih => rw [List.cons_append, placed, placed, ih, perform_cons, List.append_assoc]

theorem placed_cons {a : Act} {s : Emission} {i : Instr} (h : a.instr? g slots s = some i) (acts : List Act) :
    placed g slots s (a :: acts) = ⟨s.size, i, i.size⟩ :: placed g slots (a.write g slots s) acts := by
  rw [placed, h]
  rfl

theorem size_write {s : Emission} (hs : s.size = sizeOf s.code) (a : Act) :
    (a.write g slots s).size = sizeOf (a.write g slots s).code := by
  rw [(adds?_write a s).size, (adds?_write a s).code, sizeOf_append, hs, Nat.add_comm]

variable (g slots) in
theorem size_le_perform (s : Emission) (acts : List Act) : s.size ≤ (s.perform g slots acts).size := by
  induction acts generalizing s with
  | nil => exact le_rfl
  | cons a acts ih => exact ((adds?_write a s).size ▸ Nat.le_add_right _ _).trans (ih _)

theorem place_write {s : Emission} (hs : s.size = sizeOf s.code) (a : Act) :
    place 0 (a.write g slots s).instrs =
      place 0 s.instrs ++ (a.instr? g slots s).toList.map fun i => ⟨s.size, i, i.size⟩ := by
  rw [instrs, (adds?_write a s).code]
  cases a.instr? g slots s with
  | none => simp [instrs]
  | some i =>
    rw [Option.toList_some, List.singleton_append, List.reverse_cons, place_append, sizeOf_reverse, Nat.zero_add, ← hs]
    rfl

/-- The code after some acts is the code before them with their instructions. -/
theorem place_perform {s : Emission} (hs : s.size = sizeOf s.code) (acts : List Act) :
    place 0 (s.perform g slots acts).instrs = place 0 s.instrs ++ placed g slots s acts := by
  induction acts generalizing s with
  | nil => exact (List.append_nil _).symm
  | cons a acts ih => rw [perform_cons, ih (size_write hs a), place_write hs, placed, List.append_assoc]

theorem place_start (m : Module) (acts : List Act) :
    place 0 ((start g m).perform g slots acts).instrs = placed g slots (start g m) acts :=
  place_perform rfl acts

/-- An instruction of the code stands where an act wrote it. -/
theorem exists_act {s : Emission} {acts : List Act} {ps rest : List Code.Placed} {p : Code.Placed}
    (h : placed g slots s acts = ps ++ p :: rest) :
    ∃ before a after, acts = before ++ a :: after ∧ placed g slots s before = ps ∧
      p.pc = (s.perform g slots before).size ∧ a.instr? g slots (s.perform g slots before) = some p.instr := by
  induction acts generalizing s ps with
  | nil => simp [placed] at h
  | cons a acts ih =>
    rw [placed] at h
    cases ha : a.instr? g slots s with
    | none =>
      rw [ha] at h
      obtain ⟨before, a', after, rfl, hps, hpc, hi⟩ := ih h
      exact ⟨a :: before, a', after, rfl, by rw [placed, ha, hps]; rfl, hpc, hi⟩
    | some i =>
      rw [ha, Option.toList_some, List.map_cons, List.map_nil, List.singleton_append] at h
      cases ps with
      | nil =>
        cases h
        exact ⟨[], a, acts, rfl, rfl, rfl, ha⟩
      | cons q ps =>
        rw [List.cons_append, List.cons.injEq] at h
        obtain ⟨rfl, h⟩ := h
        obtain ⟨before, a', after, rfl, hps, hpc, hi⟩ := ih h
        exact ⟨a :: before, a', after, rfl, by rw [placed, ha, hps]; rfl, hpc, hi⟩

theorem mem_placed {s : Emission} {acts : List Act} {p : Code.Placed} (h : p ∈ placed g slots s acts) :
    ∃ before a after, acts = before ++ a :: after ∧ p.pc = (s.perform g slots before).size ∧
      a.instr? g slots (s.perform g slots before) = some p.instr := by
  obtain ⟨ps, rest, heq⟩ := List.append_of_mem h
  obtain ⟨before, a, after, heq, -, hpc, hi⟩ := exists_act heq
  exact ⟨before, a, after, heq, hpc, hi⟩

/-! ### Telling an act by its instruction -/

theorem numberInstr_cases (s : Emission) (v : Int) : (∃ w, s.numberInstr v = .push w) ∨ ∃ i, s.numberInstr v = .const i := by
  unfold numberInstr
  split
  · exact .inl ⟨_, rfl⟩
  · exact .inr ⟨_, rfl⟩

/-- What kind of act an instruction was written by. -/
def Explains (slots : Slots) (a : Act) : Instr → Prop
  | .ret => a = .ret
  | .call _ => ∃ h, helperOf a = some h
  | .load _ i => ∃ id u, a = .load id ∧ slots.of? id = some u ∧ i = Int32.ofNat u
  | .store _ i => ∃ id u, a = .store id ∧ slots.of? id = some u ∧ i = Int32.ofNat u
  | _ => True

theorem explains_number (a : Act) (s : Emission) (v : Int) : Explains slots a (s.numberInstr v) := by
  rcases s.numberInstr_cases v with ⟨w, h⟩ | ⟨i, h⟩ <;> rw [h] <;> trivial

theorem explains_of_instr? {a : Act} {s : Emission} {i : Instr} (h : a.instr? g slots s = some i) : Explains slots a i := by
  cases a with
  | expand => cases h
  | own id st =>
    obtain ⟨n, -, hst⟩ := Option.bind_eq_some_iff.mp h
    cases st with
    | input | unknown => cases hst
    | literal l =>
      cases hst
      exact explains_number _ s _
    | dup | pop =>
      cases hst
      trivial
    | call helper =>
      cases hst
      exact ⟨helper, rfl⟩
  | load id =>
    obtain ⟨n, -, hu⟩ := Option.bind_eq_some_iff.mp h
    obtain ⟨u, hslot, rfl⟩ := Option.map_eq_some_iff.mp hu
    exact ⟨id, u, rfl, hslot, rfl⟩
  | store id =>
    obtain ⟨n, -, hu⟩ := Option.bind_eq_some_iff.mp h
    obtain ⟨u, hslot, rfl⟩ := Option.map_eq_some_iff.mp hu
    exact ⟨id, u, rfl, hslot, rfl⟩
  | number v =>
    cases h
    exact explains_number _ s v
  | call helper =>
    cases h
    exact ⟨helper, rfl⟩
  | ret =>
    cases h
    rfl
  | get | copy | drop | set | fault =>
    cases h
    trivial

/-- Acts other than a return write no return. -/
theorem ret_notMem_placed {s : Emission} {acts : List Act} (h : .ret ∉ acts) :
    ∀ p ∈ placed g slots s acts, p.instr ≠ .ret := by
  intro p hp hret
  obtain ⟨before, a, after, rfl, -, hi⟩ := mem_placed hp
  rw [hret] at hi
  have ha : a = .ret := explains_of_instr? hi
  exact h (by simp [ha])

/-- Where no return was written there was no act of returning. -/
theorem ret_notMem_of_placed {s : Emission} {acts : List Act} (h : ∀ p ∈ placed g slots s acts, p.instr ≠ .ret) :
    .ret ∉ acts := by
  intro hret
  obtain ⟨before, after, rfl⟩ := List.append_of_mem hret
  rw [placed_append] at h
  exact h _ (List.mem_append_right _ List.mem_cons_self) rfl

variable (g slots) in
/-- The instructions of acts lie one behind the other. -/
theorem placed_eq_place (s : Emission) (acts : List Act) :
    ∃ is, placed g slots s acts = place s.size is ∧ (s.perform g slots acts).size = s.size + sizeOf is := by
  induction acts generalizing s with
  | nil => exact ⟨[], rfl, rfl⟩
  | cons a acts ih =>
    obtain ⟨is, hplaced, hsize⟩ := ih (a.write g slots s)
    have hadds : (a.write g slots s).size = s.size + sizeOf (a.instr? g slots s).toList := (adds?_write a s).size
    rw [placed, perform_cons, hplaced, hsize]
    cases ha : a.instr? g slots s with
    | none =>
      rw [ha, Option.toList_none] at hadds
      exact ⟨is, by rw [hadds]; rfl, by rw [hadds]; rfl⟩
    | some i =>
      rw [ha, Option.toList_some, sizeOf_cons] at hadds
      exact ⟨i :: is, by rw [hadds]; rfl, by rw [hadds, sizeOf_cons, Nat.add_assoc]; rfl⟩

/-- The code from where some acts end on is that of the acts after them. -/
theorem codeFrom_placed {m : Module} {r : Routine} {acts acts' : List Act}
    (hr : r.code = placed g slots (start g m) (acts ++ acts')) {target : Int32}
    (ht : target.toInt = ((start g m).perform g slots acts).size) :
    r.codeFrom target = placed g slots ((start g m).perform g slots acts) acts' := by
  obtain ⟨is, hplaced, hsize⟩ := placed_eq_place g slots (start g m) acts
  obtain ⟨is', hplaced', -⟩ := placed_eq_place g slots ((start g m).perform g slots acts) acts'
  rw [Routine.codeFrom, hr, placed_append, hplaced, hplaced', ht, hsize, ← place_append]
  exact dropWhile_place _ is is'

end Placed

end Emission

/-! ### The course of a run -/

namespace Execution
open Routine (nth?)

/-- The state of a run that goes on. -/
def Outcome.state? : Outcome → Option State
  | .running s => some s
  | _ => none

/-- What a run returned. -/
def Outcome.result? : Outcome → Option (Value × Context)
  | .returned v c => some (v, c)
  | _ => none

theorem eq_running_of_state? {o : Outcome} {s : State} (h : o.state? = some s) : o = .running s := by
  cases o with
  | running t =>
    cases h
    rfl
  | returned | failed => cases h

theorem eq_returned_of_result? {o : Outcome} {v : Value} {c : Context} (h : o.result? = some (v, c)) :
    o = .returned v c := by
  cases o with
  | returned =>
    cases h
    rfl
  | running | failed => cases h

/-- The name of the helper that an instruction calls. -/
def calledBy (l : Linkage) : Instr → Option String
  | .call i => (nth? l.helpers i).map (·.name)
  | _ => none

theorem calledBy_doing (l : Linkage) (act : Helper → Body) (i : Instr) : calledBy (l.doing act) i = calledBy l i := by
  cases i with
  | call i =>
    simp only [calledBy, nth?, Linkage.doing, List.getElem?_map]
    split
    · rfl
    · cases l.helpers[i.toInt.toNat]? <;> rfl
  | _ => rfl

/-- Where an instruction leads. A run that goes on has called what the instruction calls, and goes on behind it or, with the
    fault of a call, at the target of a guard. A run returns at a return. -/
def Outcome.Leads (l : Linkage) (r : Routine) (s : State) (p : Code.Placed) (rest : List Code.Placed) : Outcome → Prop
  | .running t => p.instr ≠ .ret ∧ t.context.calls = (calledBy l p.instr).toList ++ s.context.calls ∧
      ((t.rest = rest ∧ t.pending = s.pending) ∨
        ∃ i target f, p.instr = .call i ∧ r.target? p.pc = some target ∧ t.rest = r.codeFrom target ∧ t.pending = some f)
  | .returned _ c => p.instr = .ret ∧ c = s.context
  | .failed _ _ => True

theorem call_leads {l : Linkage} (r : Routine) {s : State} {p : Code.Placed} (rest : List Code.Placed) {i : Int32}
    (hi : p.instr = .call i) {h : Helper} (hh : nth? l.helpers i = some h) : (call r s p.pc rest h).Leads l r s p rest := by
  have hcalled : calledBy l p.instr = some h.name := by rw [hi, calledBy, hh, Option.map_some]
  have hret : p.instr ≠ .ret := by
    rw [hi]
    exact Instr.noConfusion
  unfold call
  split
  · trivial
  next args below hargs =>
  unfold Helper.call
  cases h.body args s.context.machine with
  | ok v => exact ⟨hret, by rw [hcalled]; rfl, .inl ⟨rfl, rfl⟩⟩
  | error f =>
    cases f with
    | fault f =>
      dsimp only
      cases htarget : r.target? p.pc with
      | none => trivial
      | some target => exact ⟨hret, by rw [hcalled]; rfl, .inr ⟨i, target, f, hi, htarget, rfl, rfl⟩⟩
    | error | crash => trivial

theorem step_leads (l : Linkage) (r : Routine) {s : State} {p : Code.Placed} {rest : List Code.Placed}
    (hrest : s.rest = p :: rest) : (step l r true s).Leads l r s p rest := by
  -- All but calls and returns go on to the next instruction.
  have leads_next {t : State} (hret : p.instr ≠ .ret) (hcall : calledBy l p.instr = none)
      (hcalls : t.context.calls = s.context.calls) (ht : t.rest = rest) (hp : t.pending = s.pending) :
      (Outcome.running t).Leads l r s p rest := ⟨hret, by rw [hcall, hcalls]; rfl, .inl ⟨ht, hp⟩⟩
  cases hi : p.instr with
  | nop | push | fault =>
    simp only [step, hrest, hi]
    exact leads_next (by simp [hi]) (by rw [hi]; rfl) rfl rfl rfl
  | const i =>
    simp only [step, hrest, hi]
    split
    · exact leads_next (by simp [hi]) (by rw [hi]; rfl) rfl rfl rfl
    · trivial
  | dup | pop =>
    cases hstack : s.stack with
    | nil => simp [step, hrest, hi, hstack, Outcome.Leads]
    | cons v stack =>
      simp only [step, hrest, hi, hstack]
      exact leads_next (by simp [hi]) (by rw [hi]; rfl) rfl rfl rfl
  | load c i =>
    simp only [step, hrest, hi]
    split
    · trivial
    split
    · exact leads_next (by simp [hi]) (by rw [hi]; rfl) rfl rfl rfl
    · trivial
  | store c i =>
    cases hstack : s.stack with
    | nil => simp [step, hrest, hi, hstack, Outcome.Leads]
    | cons v stack =>
      simp only [step, hrest, hi, hstack]
      split
      · trivial
      · exact leads_next (by simp [hi]) (by rw [hi]; rfl) rfl rfl rfl
  | get e | set e =>
    simp only [step, hrest, hi, Bool.not_true, Bool.false_eq_true, if_false]
    split
    · exact leads_next (by simp [hi]) (by rw [hi]; rfl) rfl rfl rfl
    · trivial
  | call i =>
    simp only [step, hrest, hi]
    split
    · next h hh => exact call_leads r rest hi hh
    · trivial
  | ret =>
    cases hstack : s.stack with
    | nil => simp [step, hrest, hi, hstack, Outcome.Leads]
    | cons v stack =>
      simp only [step, hrest, hi, hstack]
      exact ⟨hi, rfl⟩

theorem step_running {l : Linkage} {r : Routine} {s t : State} {p : Code.Placed} {rest : List Code.Placed}
    (hrest : s.rest = p :: rest) (h : step l r true s = .running t) : (Outcome.running t).Leads l r s p rest :=
  h ▸ step_leads l r hrest

/-- A run returns at a return. -/
theorem instr_of_returned {l : Linkage} {r : Routine} {s : State} {v : Value} {c : Context}
    (h : step l r true s = .returned v c) : ∃ p rest, s.rest = p :: rest ∧ p.instr = .ret ∧ c = s.context := by
  cases hrest : s.rest with
  | nil => simp [step, hrest] at h
  | cons p rest =>
    have hleads := step_leads l r hrest
    rw [h] at hleads
    exact ⟨p, rest, rfl, hleads⟩

/-- The instructions that a run has executed, whatever the helpers did at each call. -/
inductive Course (l : Linkage) (r : Routine) (s₀ : State) : List Code.Placed → State → Prop
  | refl : Course l r s₀ [] s₀
  | tail {ps rest : List Code.Placed} {s t : State} {p : Code.Placed} (act : Helper → Body) :
    Course l r s₀ ps s → s.rest = p :: rest → step (l.doing act) r true s = .running t → Course l r s₀ (ps ++ [p]) t

/-- What comes before the first of something is a beginning of all that comes before any of it. -/
theorem exists_of_first {α : Type} {R : α → Prop} {xs rest before after : List α} {q : α}
    (h : xs ++ rest = before ++ q :: after) (hxs : ∀ x ∈ xs, ¬ R x) (hq : R q) :
    ∃ ys, before = xs ++ ys ∧ rest = ys ++ q :: after := by
  rcases List.append_eq_append_iff.mp h with ⟨ys, hbefore, hrest⟩ | ⟨ys, rfl, hq'⟩
  · exact ⟨ys, hbefore, hrest⟩
  · cases ys with
    | nil => exact ⟨[], by simp, hq'.symm⟩
    | cons y ys =>
      cases hq'
      exact absurd hq (hxs q (by simp))

section Course
variable {l : Linkage} {r : Routine} {s₀ s : State} {ps : List Code.Placed}

theorem Reached.exists_course {n : Nat} (h : Reached l r s₀ n s) : ∃ ps, ps.length = n ∧ Course l r s₀ ps s := by
  induction h with
  | refl => exact ⟨[], rfl, .refl⟩
  | @tail n s t act _ hstep ih =>
    obtain ⟨ps, hlen, hc⟩ := ih
    cases hrest : s.rest with
    | nil => simp [step, hrest] at hstep
    | cons p rest => exact ⟨ps ++ [p], by rw [List.length_append, hlen]; rfl, hc.tail act hrest hstep⟩

theorem Course.ret_notMem (h : Course l r s₀ ps s) : ∀ p ∈ ps, p.instr ≠ .ret := by
  induction h with
  | refl => exact fun p hp => absurd hp List.not_mem_nil
  | tail act _ hrest hstep ih =>
    intro p hp
    rcases List.mem_append.mp hp with hp | hp
    · exact ih p hp
    · rw [List.mem_singleton.mp hp]
      exact (step_running hrest hstep).1

/-- Every call that was executed is in the log. -/
theorem Course.calls (h : Course l r s₀ ps s) :
    s.context.calls = (ps.filterMap fun p => calledBy l p.instr).reverse ++ s₀.context.calls := by
  induction h with
  | refl => rfl
  | @tail ps rest s t p act _ hrest hstep ih =>
    rw [(step_running hrest hstep).2.1, ih, calledBy_doing, List.filterMap_append, List.reverse_append, List.append_assoc]
    cases hc : calledBy l p.instr <;> simp [hc]

/-- Without a fault the code is executed from its beginning. -/
theorem Course.straight (h : Course l r s₀ ps s) (hs : s.pending = none) : s₀.pending = none ∧ s₀.rest = ps ++ s.rest := by
  induction h with
  | refl => exact ⟨hs, rfl⟩
  | tail act _ hrest hstep ih =>
    rcases (step_running hrest hstep).2.2 with ⟨ht, hp⟩ | ⟨i, target, f, -, -, -, hp⟩
    · obtain ⟨h₀, heq⟩ := ih (hp ▸ hs)
      exact ⟨h₀, by rw [heq, hrest, ht, List.append_assoc]; rfl⟩
    · rw [hs] at hp
      cases hp

/-- With a fault the code is executed up to a call under a guard, and then from the guard's target on, if no call that
    is reached there is under a guard. -/
theorem Course.jumped (h : Course l r s₀ ps s) (h₀ : s₀.pending = none)
    (hfree : ∀ {pc : Nat} {target : Int32} {qs rest : List Code.Placed} {p : Code.Placed}, r.target? pc = some target →
      r.codeFrom target = qs ++ p :: rest → (∀ q ∈ qs, q.instr ≠ .ret) → r.target? p.pc = none)
    (hs : s.pending ≠ none) :
    ∃ before i p rest target qs, ps = before ++ p :: qs ∧ s₀.rest = before ++ p :: rest ∧ p.instr = .call i ∧
      r.target? p.pc = some target ∧ r.codeFrom target = qs ++ s.rest := by
  induction h with
  | refl => exact absurd h₀ hs
  | @tail ps rest s t p act hc hrest hstep ih =>
    rcases (step_running hrest hstep).2.2 with ⟨ht, hp⟩ | ⟨i, target, f, hi, htarget, ht, -⟩
    · obtain ⟨before, i, q, rest', target, qs, rfl, heq, hi, htarget, hcode⟩ := ih (hp ▸ hs)
      exact ⟨before, i, q, rest', target, qs ++ [p], by simp, heq, hi, htarget, by rw [hcode, hrest, ht]; simp⟩
    · by_cases hpend : s.pending = none
      · exact ⟨ps, i, p, rest, target, [], rfl, by rw [(hc.straight hpend).2, hrest], hi, htarget, by rw [ht]; rfl⟩
      · obtain ⟨before, i', q, rest', target', qs, rfl, -, -, htarget', hcode⟩ := ih hpend
        rw [hrest] at hcode
        have hret : ∀ x ∈ qs, x.instr ≠ .ret := fun x hx => hc.ret_notMem x (by simp [hx])
        rw [hfree htarget' hcode hret] at htarget
        cases htarget

end Course
end Execution

namespace Emission
open MicroBlock.Graph MicroBlock.Execution

/-! ### The calls of acts -/

section Calls
variable {g : Graph} {slots : Slots}

theorem prefix_links_call (s : Emission) (helper : String) : s.module.links <+: (s.call helper).module.links := by
  obtain ⟨ls, hls, -⟩ := s.module.link_eq helper
  rw [show (s.call helper).module.links = s.module.links ++ ls from congrArg Module.links hls]
  exact List.prefix_append _ _

/-- Links are only added. -/
theorem prefix_links_write (a : Act) (s : Emission) : s.module.links <+: (a.write g slots s).module.links := by
  rcases links_write_cases a s with heq | ⟨h, -, heq⟩
  · exact heq ▸ List.prefix_rfl
  · exact heq ▸ prefix_links_call s h

theorem prefix_links_perform (s : Emission) (acts : List Act) :
    s.module.links <+: (s.perform g slots acts).module.links := by
  induction acts generalizing s with
  | nil => exact List.prefix_rfl
  | cons a acts ih => exact (prefix_links_write a s).trans (ih _)

/-- Helpers that bear the names of some links. -/
structure Named (l : Linkage) (links : List ByteString) : Prop where
  names : l.helpers.map (fun h => ByteString.ofString h.name) = links
  length : links.length < 2 ^ 29

theorem calledBy_callInstr {l : Linkage} {links : List ByteString} (hl : Named l links) (s : Emission) {helper : String}
    (h : (s.call helper).module.links <+: links) : calledBy l (s.callInstr helper) = some helper := by
  obtain ⟨ls, hls, -, -, hget⟩ := s.module.link_eq helper
  rw [show (s.call helper).module.links = s.module.links ++ ls from congrArg Module.links hls] at h
  obtain ⟨tail, rfl⟩ := h
  have hlt : (s.module.link helper).1 < (s.module.links ++ ls).length := (List.getElem?_eq_some_iff.mp hget).1
  have hentry : (s.module.links ++ ls ++ tail)[(s.module.link helper).1]? = some (.ofString helper) := by
    rw [List.getElem?_append_left hlt, hget]
  rw [← hl.names, List.getElem?_map] at hentry
  obtain ⟨b, hb, hname⟩ := Option.map_eq_some_iff.mp hentry
  have hlen := hl.length
  rw [List.length_append] at hlen
  rw [callInstr, calledBy, nth?_ofNat l.helpers (by omega), hb, Option.map_some, ByteString.ofString_inj hname]

/-- An act calls the helper that its instruction calls. -/
theorem calledBy_write {l : Linkage} {links : List ByteString} (hl : Named l links) {a : Act} {s : Emission}
    (h : (a.write g slots s).module.links <+: links)
    (ha : ∀ id st, a = .own id st → g.nodes[id]?.isSome = true) :
    (a.instr? g slots s).bind (calledBy l) = helperOf a := by
  have hnumber : ∀ v, calledBy l (s.numberInstr v) = none := by
    intro v
    rcases s.numberInstr_cases v with ⟨w, h⟩ | ⟨i, h⟩ <;> rw [h] <;> rfl
  cases a with
  | own id st =>
    obtain ⟨n, hn⟩ := Option.isSome_iff_exists.mp (ha id st rfl)
    simp only [Act.write, hn, Option.elim_some] at h
    simp only [Act.instr?, hn, Option.bind_some]
    cases st with
    | call helper =>
      rw [module_step_call] at h
      exact calledBy_callInstr hl s h
    | literal v => exact hnumber _
    | input | dup | pop | unknown => rfl
  | load id | store id =>
    simp only [Act.instr?, helperOf]
    cases g.nodes[id]? with
    | none => rfl
    | some n => cases slots.of? id <;> rfl
  | number v => exact hnumber v
  | call helper => exact calledBy_callInstr hl s h
  | expand | get | copy | drop | set | fault | ret => rfl

theorem calledBy_placed {l : Linkage} {links : List ByteString} (hl : Named l links) {s : Emission} {acts : List Act}
    (h : (s.perform g slots acts).module.links <+: links)
    (ha : ∀ id st, .own id st ∈ acts → g.nodes[id]?.isSome = true) :
    (placed g slots s acts).filterMap (fun p => calledBy l p.instr) = acts.filterMap helperOf := by
  induction acts generalizing s with
  | nil => rfl
  | cons a acts ih =>
    have hwrite := calledBy_write hl ((prefix_links_perform (a.write g slots s) acts).trans h)
      fun id st hid => ha id st (hid ▸ List.mem_cons_self)
    rw [placed, List.filterMap_append, ih h fun id st hid => ha id st (List.mem_cons_of_mem a hid), List.filterMap_cons,
      ← hwrite]
    cases a.instr? g slots s with
    | none => rfl
    | some i =>
      rw [Option.toList_some, List.map_cons, List.map_nil, List.filterMap_cons, Option.bind_some]
      cases calledBy l i <;> rfl

end Calls

end Emission
end MicroBlock
