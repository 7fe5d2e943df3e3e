import Mathlib
import MicroBlock.Loader.Execution
import MicroBlock.Proofs.Statements
import MicroBlock.Proofs.Traces

/-! Running code as it was written.

A routine whose code was written by an emission is followed piece by piece: at every point of the writing
there is the code that comes after, and one lemma for each way to write an instruction says what running
it does. From these come what the steps of a fragment do: they follow the evaluation of the fragment. -/

namespace MicroBlock

namespace Execution

/-- A run goes from one state to another, and each of its steps takes an instruction. -/
def Reaches (l : Linkage) (r : Routine) (s t : State) : Prop :=
  ∃ k, k + t.rest.length ≤ s.rest.length ∧ ∀ n, runFor l r true (k + n) s = runFor l r true n t

/-- A run raises a fault at an offset and leaves slots and a machine to whatever guards the offset. -/
def Jumps (l : Linkage) (r : Routine) (s : State) (pc : Nat) (slots : Array Value) (x : Fault) (m : Machine) : Prop :=
  ∃ k calls, k ≤ s.rest.length ∧ ∀ t, r.target? pc = some t → ∀ n,
    runFor l r true (k + n) s = runFor l r true n ⟨r.codeFrom t, [], slots, some x, ⟨m, calls⟩⟩

/-- A run returns. -/
def Returns (l : Linkage) (r : Routine) (s : State) (v : Value) (m : Machine) : Prop :=
  ∃ k calls, k ≤ s.rest.length ∧ ∀ n, runFor l r true (k + n) s = .returned v ⟨m, calls⟩

section
variable {l : Linkage} {r : Routine} {s t u : State}

theorem Reaches.refl (s : State) : Reaches l r s s := ⟨0, by omega, fun n => by rw [Nat.zero_add]⟩

theorem Reaches.trans (h : Reaches l r s t) (h' : Reaches l r t u) : Reaches l r s u := by
  obtain ⟨k, hk, hrun⟩ := h
  obtain ⟨k', hk', hrun'⟩ := h'
  exact ⟨k + k', by omega, fun n => by rw [Nat.add_assoc, hrun, hrun']⟩

theorem Reaches.jumps (h : Reaches l r s t) {pc : Nat} {slots : Array Value} {x : Fault} {m : Machine}
    (h' : Jumps l r t pc slots x m) : Jumps l r s pc slots x m := by
  obtain ⟨k, hk, hrun⟩ := h
  obtain ⟨k', calls, hk', hrun'⟩ := h'
  exact ⟨k + k', calls, by omega, fun t ht n => by rw [Nat.add_assoc, hrun, hrun' t ht]⟩

theorem Reaches.returns (h : Reaches l r s t) {v : Value} {m : Machine} (h' : Returns l r t v m) :
    Returns l r s v m := by
  obtain ⟨k, hk, hrun⟩ := h
  obtain ⟨k', calls, hk', hrun'⟩ := h'
  exact ⟨k + k', calls, by omega, fun n => by rw [Nat.add_assoc, hrun, hrun']⟩

theorem reaches_of_step {p : Code.Placed} (hs : s.rest = p :: t.rest) (h : step l r true s = .running t) :
    Reaches l r s t :=
  ⟨1, by simp only [hs, List.length_cons]; omega, fun n => by rw [Nat.add_comm, runFor, h]⟩

end
end Execution

namespace Emission
open MicroBlock.Graph MicroBlock.Execution

/-! ### Code after a point of the writing -/

/-- Instructions at their offsets. -/
def place : Nat → List Instr → List Code.Placed
  | _, [] => []
  | pc, i :: is => ⟨pc, i, i.size⟩ :: place (pc + i.size) is

theorem length_place (pc : Nat) (is : List Instr) : (place pc is).length = is.length := by
  induction is generalizing pc with
  | nil => rfl
  | cons i is ih => rw [place, List.length_cons, List.length_cons, ih]

/-- The part of the code that is written after a point. -/
def rest (fin s : Emission) : List Code.Placed := place s.size (fin.instrs.drop s.code.length)

/-- The code and the tables at a point of the writing are the beginning of what was written in the end. -/
structure Precedes (s fin : Emission) : Prop where
  code : ∃ is, fin.code = is ++ s.code
  constants : s.module.constants <+: fin.module.constants
  links : s.module.links <+: fin.module.links

theorem Precedes.refl (s : Emission) : Precedes s s := ⟨⟨[], rfl⟩, List.prefix_rfl, List.prefix_rfl⟩

theorem Grows.precedes {units bound : Nat} {s s' fin : Emission} (h : Grows units bound s s') (h' : Precedes s' fin) :
    Precedes s fin := by
  obtain ⟨is, hcode, -⟩ := h.code
  obtain ⟨is', hcode'⟩ := h'.code
  exact ⟨⟨is' ++ is, by rw [hcode', hcode, List.append_assoc]⟩, h.constants.trans h'.constants,
    h.links.trans h'.links⟩

theorem Precedes.of_emit {s fin : Emission} {i : Instr} (h : Precedes (s.emit i) fin) : Precedes s fin := by
  obtain ⟨is, hcode⟩ := h.code
  exact ⟨⟨is ++ [i], by rw [hcode]; simp [emit]⟩, h.constants, h.links⟩

theorem rest_emit {fin s : Emission} {i : Instr} (h : Precedes (s.emit i) fin) :
    rest fin s = ⟨s.size, i, i.size⟩ :: rest fin (s.emit i) := by
  obtain ⟨is, hcode⟩ := h.code
  have hinstrs : fin.instrs = s.code.reverse ++ i :: is.reverse := by
    rw [instrs, hcode]
    simp [emit]
  have hdrop : fin.instrs.drop s.code.length = i :: is.reverse := by
    rw [hinstrs, List.drop_left' (by simp)]
  have hdrop' : fin.instrs.drop (s.emit i).code.length = is.reverse := by
    rw [show (s.emit i).code.length = s.code.length + 1 from rfl, ← List.drop_drop, hdrop]
    rfl
  rw [rest, rest, hdrop, hdrop']
  rfl

/-- A routine and its linkage as the end of an emission left them. -/
structure Layout (units : Nat) (fin : Emission) (l : Linkage) (r : Routine) : Prop where
  code : r.code = place 0 fin.instrs
  constants : l.constants = fin.module.constants
  helpers : ∀ {i : Nat} {b : Builtin}, fin.module.links[i]? = some (.ofString b.name) → l.helpers[i]? = some b.helper
  constants_lt : fin.module.constants.length < 2 ^ 29
  links_lt : fin.module.links.length < 2 ^ 29
  units_lt : units < 2 ^ 29

theorem toInt_ofNat {k : Nat} (h : k < 2 ^ 29) : (Int32.ofNat k).toInt = k :=
  Int32.toInt_ofNat_of_lt (by omega)

theorem not_ofNat_neg {k : Nat} (h : k < 2 ^ 29) : ¬ Int32.ofNat k < 0 := by
  rw [Int32.lt_iff_toInt_lt, toInt_ofNat h, Int32.toInt_zero]
  omega

theorem nth?_ofNat {α : Type} (xs : List α) {k : Nat} (h : k < 2 ^ 29) : Routine.nth? xs (Int32.ofNat k) = xs[k]? := by
  rw [Routine.nth?, if_neg (not_ofNat_neg h), toInt_ofNat h, Int.toNat_natCast]

theorem element?_ofNat (e : Element) : Routine.element? (Int32.ofNat e.number) = some e := by
  have h : e.number < 2 ^ 29 := e.number_lt.trans (by decide)
  rw [Routine.element?, if_neg (not_ofNat_neg h), toInt_ofNat h, Int.toNat_natCast, Element.ofNumber?_number]

theorem toUInt32_ofInt (v : Int) : (Int32.ofInt v).toUInt32 = UInt32.ofInt v := by
  apply UInt32.toBitVec_inj.mp
  apply BitVec.eq_of_toNat_eq
  simp only [Int32.ofInt, UInt32.ofInt, UInt32.toBitVec_ofNat', BitVec.toNat_ofInt, BitVec.toNat_ofNat]
  omega

/-! ### Running single instructions -/

section Primitives
variable {units : Nat} {fin : Emission} {l : Linkage} {r : Routine} (hl : Layout units fin l r)
  {s : Emission} {stack : List Value} {slots : Array Value} {pending : Option Fault} {c : Context}
include hl

omit hl in
theorem reaches_emit {i : Instr} (hfin : Precedes (s.emit i) fin) {stack' : List Value}
    {slots' : Array Value} {c' : Context}
    (h : Execution.step l r true ⟨⟨s.size, i, i.size⟩ :: rest fin (s.emit i), stack, slots, pending, c⟩ =
      .running ⟨rest fin (s.emit i), stack', slots', pending, c'⟩) :
    Reaches l r ⟨rest fin s, stack, slots, pending, c⟩ ⟨rest fin (s.emit i), stack', slots', pending, c'⟩ := by
  rw [rest_emit hfin]
  exact reaches_of_step rfl h

theorem constant_of_intern {w : Int32} {i : Instr}
    (hfin : Precedes ({ s with module := (s.module.intern (.int w)).2 }.emit i) fin) :
    (s.module.intern (.int w)).1 < 2 ^ 29 ∧ l.constants[(s.module.intern (.int w)).1]? = some (.int w) := by
  obtain ⟨cs, hm, -, -, hget⟩ := s.module.intern_int w
  have hconst : fin.module.constants[(s.module.intern (.int w)).1]? = some (.int w) := by
    obtain ⟨more, hmore⟩ := hfin.constants
    rw [← hmore]
    simp only [emit, hm] at hget ⊢
    rw [List.getElem?_append_left (List.getElem?_eq_some_iff.mp hget).1]
    exact hget
  exact ⟨(List.getElem?_eq_some_iff.mp hconst).1.trans hl.constants_lt, hl.constants ▸ hconst⟩

theorem reaches_pushInt {v : Int} (hfin : Precedes (s.pushInt v) fin) :
    Reaches l r ⟨rest fin s, stack, slots, pending, c⟩
      ⟨rest fin (s.pushInt v), .ofUInt32 (UInt32.ofInt v) :: stack, slots, pending, c⟩ := by
  cases h : Operand.fits (Int32.ofInt v).toInt with
  | true =>
    rw [pushInt_of_fits h] at hfin ⊢
    refine reaches_emit hfin ?_
    rw [← toUInt32_ofInt]
    rfl
  | false =>
    rw [pushInt_of_not_fits h] at hfin ⊢
    refine reaches_emit hfin ?_
    obtain ⟨hlt, hconst⟩ := constant_of_intern hl hfin
    simp only [Execution.step, nth?_ofNat _ hlt, hconst, State.next, constantValue, toUInt32_ofInt]

theorem helper_of_link {b : Builtin} (hfin : Precedes (s.call b.name) fin) :
    (s.module.link b.name).1 < 2 ^ 29 ∧ l.helpers[(s.module.link b.name).1]? = some b.helper := by
  obtain ⟨ls, hm, -, -, hget⟩ := s.module.link_eq b.name
  have hlink : fin.module.links[(s.module.link b.name).1]? = some (.ofString b.name) := by
    obtain ⟨more, hmore⟩ := hfin.links
    rw [← hmore]
    simp only [call_eq, emit, hm] at hget ⊢
    rw [List.getElem?_append_left (List.getElem?_eq_some_iff.mp hget).1]
    exact hget
  exact ⟨(List.getElem?_eq_some_iff.mp hlink).1.trans hl.links_lt, hl.helpers hlink⟩

/-- A call that gives a value. -/
theorem reaches_call {b : Builtin} (hfin : Precedes (s.call b.name) fin) {args below : List Value}
    (hargs : b.helper.arguments? stack = some (args, below)) {v : Value} {m : Machine}
    (hbody : b.body args c.machine = .ok (v, m)) :
    Reaches l r ⟨rest fin s, stack, slots, pending, c⟩
      ⟨rest fin (s.call b.name), if b.result = .void then below else v :: below, slots, pending,
        ⟨m, b.name :: c.calls⟩⟩ := by
  obtain ⟨hlt, hhelper⟩ := helper_of_link hl hfin
  rw [call_eq] at hfin ⊢
  refine reaches_emit hfin ?_
  have hcall : b.helper.call args c = (.ok v, ⟨m, b.name :: c.calls⟩) := by
    have : b.helper.body args c.machine = .ok (v, m) := hbody
    simp only [Helper.call, this]
    rfl
  simp only [Execution.step, nth?_ofNat _ hlt, hhelper, Execution.call, hargs, hcall]
  rfl

/-- A call that faults. -/
theorem jumps_call {b : Builtin} (hfin : Precedes (s.call b.name) fin) {args below : List Value}
    (hargs : b.helper.arguments? stack = some (args, below)) {x : Fault}
    (hbody : b.body args c.machine = .error (.fault x)) :
    Jumps l r ⟨rest fin s, stack, slots, pending, c⟩ s.size slots x c.machine := by
  obtain ⟨hlt, hhelper⟩ := helper_of_link hl hfin
  rw [call_eq] at hfin
  have hcall : b.helper.call args c = (.error (.fault x), ⟨c.machine, b.name :: c.calls⟩) := by
    have : b.helper.body args c.machine = .error (.fault x) := hbody
    simp only [Helper.call, this]
    rfl
  have hrest := rest_emit (s := { s with module := (s.module.link b.name).2 }) hfin
  refine ⟨1, b.name :: c.calls, ?_, fun t ht n => ?_⟩
  · change 1 ≤ (rest fin { s with module := (s.module.link b.name).2 }).length
    rw [hrest]
    simp
  · change runFor l r true (1 + n)
      ⟨rest fin { s with module := (s.module.link b.name).2 }, stack, slots, pending, c⟩ = _
    rw [hrest, Nat.add_comm, runFor]
    simp only [Execution.step, nth?_ofNat _ hlt, hhelper, Execution.call, hargs, hcall, ht]

/-- A call that fails in another way ends the run. -/
theorem runFor_call_error {b : Builtin} (hfin : Precedes (s.call b.name) fin) {args below : List Value}
    (hargs : b.helper.arguments? stack = some (args, below)) {e : HelperError}
    (hbody : b.body args c.machine = .error (.error e)) (n : Nat) :
    runFor l r true (1 + n) ⟨rest fin s, stack, slots, pending, c⟩ =
      .failed (.helper b.name e) ⟨c.machine, b.name :: c.calls⟩ := by
  obtain ⟨hlt, hhelper⟩ := helper_of_link hl hfin
  rw [call_eq] at hfin
  have hcall : b.helper.call args c = (.error (.error e), ⟨c.machine, b.name :: c.calls⟩) := by
    have : b.helper.body args c.machine = .error (.error e) := hbody
    simp only [Helper.call, this]
    rfl
  change runFor l r true (1 + n) ⟨rest fin { s with module := (s.module.link b.name).2 }, stack, slots, pending, c⟩ = _
  rw [rest_emit (s := { s with module := (s.module.link b.name).2 }) hfin, Nat.add_comm, runFor]
  simp only [Execution.step, nth?_ofNat _ hlt, hhelper, Execution.call, hargs, hcall]
  rfl

omit hl in
theorem reaches_dup {v : Value} (hfin : Precedes (s.emit .dup) fin) :
    Reaches l r ⟨rest fin s, v :: stack, slots, pending, c⟩ ⟨rest fin (s.emit .dup), v :: v :: stack, slots, pending, c⟩ :=
  reaches_emit hfin rfl

omit hl in
theorem reaches_pop {v : Value} (hfin : Precedes (s.emit .pop) fin) :
    Reaches l r ⟨rest fin s, v :: stack, slots, pending, c⟩ ⟨rest fin (s.emit .pop), stack, slots, pending, c⟩ :=
  reaches_emit hfin rfl

omit hl in
theorem reaches_getElement {e : Element} (hfin : Precedes (s.getElement e) fin) :
    Reaches l r ⟨rest fin s, stack, slots, pending, c⟩
      ⟨rest fin (s.getElement e), c.machine.get e :: stack, slots, pending, c⟩ := by
  refine reaches_emit hfin ?_
  simp only [Execution.step, element?_ofNat]
  rfl

omit hl in
theorem reaches_setRegister {reg : Register} {v : Value} (hfin : Precedes (s.setRegister reg) fin) :
    Reaches l r ⟨rest fin s, v :: stack, slots, pending, c⟩
      ⟨rest fin (s.setRegister reg), stack, slots, pending, ⟨c.machine.set reg v, c.calls⟩⟩ := by
  refine reaches_emit hfin ?_
  have helem : Routine.element? (Int32.ofNat reg.number) = some (.reg reg) := element?_ofNat (.reg reg)
  simp only [Execution.step, helem]
  rfl

theorem reaches_load {a : Slots} {id u : Nat} {n : Node} (hu : a.of? id = some u) (hlt : u < units) {v : Value}
    (hv : slots[u]? = some v) (hfin : Precedes (s.load a id n) fin) :
    Reaches l r ⟨rest fin s, stack, slots, pending, c⟩ ⟨rest fin (s.load a id n), v :: stack, slots, pending, c⟩ := by
  simp only [load, hu] at hfin ⊢
  refine reaches_emit hfin ?_
  have hlt' := hlt.trans hl.units_lt
  simp only [Execution.step, not_ofNat_neg hlt', toInt_ofNat hlt', Int.toNat_natCast, hv]
  rfl

theorem reaches_store {u : Nat} (hlt : u < units) (hsize : slots.size = units) {k : SlotClass} {v : Value}
    (hfin : Precedes (s.emit (.store k (.ofNat u))) fin) :
    Reaches l r ⟨rest fin s, v :: stack, slots, pending, c⟩
      ⟨rest fin (s.emit (.store k (.ofNat u))), stack, slots.setIfInBounds u v, pending, c⟩ := by
  refine reaches_emit hfin ?_
  have hlt' := hlt.trans hl.units_lt
  have hle : ¬ slots.size ≤ u := by omega
  simp [Execution.step, not_ofNat_neg hlt', toInt_ofNat hlt', hle]

end Primitives

/-! ### Running the steps of a fragment -/

theorem arguments?_append {h : Helper} {stack args below : List Value} (ha : h.arguments? stack = some (args, below))
    (more : List Value) : h.arguments? (stack ++ more) = some (args, below ++ more) := by
  unfold Helper.arguments? at ha ⊢
  split at ha
  · next hle =>
    cases ha
    have hlen : h.arity.toNat ≤ stack.length := by omega
    rw [if_pos ⟨hle.1, by simp only [List.length_append]; omega⟩, List.take_append_of_le_length hlen,
      List.drop_append_of_le_length hlen]
  · cases ha

theorem precedes_call {n : Node} {input : Nat → Emission → Emission} {s fin : Emission} {helper : String}
    (h : Precedes (step n input s (.call helper)) fin) : Precedes (s.call helper) fin := by
  obtain ⟨extents, hcall⟩ := exists_step_call n input s helper
  rw [hcall] at h
  exact ⟨h.code, h.constants, h.links⟩

theorem rest_step_call (n : Node) (input : Nat → Emission → Emission) (fin s : Emission) (helper : String) :
    rest fin (step n input s (.call helper)) = rest fin (s.call helper) := by
  obtain ⟨extents, hcall⟩ := exists_step_call n input s helper
  rw [hcall]
  rfl

/-- Code that pushes a value and does nothing else to a machine with the registers of `m₀`; what `R` says of
    the slots before it says of them after. -/
def Pushes (fin : Emission) (l : Linkage) (r : Routine) (m₀ : Machine) (R : Emission → Array Value → Prop)
    (s s' : Emission) (v : Value) : Prop :=
  ∀ stack slots pending c, R s slots → c.machine.SameFront m₀ →
    ∃ slots' calls, Reaches l r ⟨rest fin s, stack, slots, pending, c⟩
      ⟨rest fin s', v :: stack, slots', pending, ⟨c.machine, calls⟩⟩ ∧ R s' slots'

section Steps
variable {units bound : Nat} {fin : Emission} {l : Linkage} {r : Routine} (hl : Layout units fin l r) {m₀ : Machine}
  {R : Emission → Array Value → Prop} (hR : ∀ s s' slots, s'.stored = s.stored → R s slots → R s' slots)
  {n : Node} {f : Fragment} (hf : f.Disciplined) {values : Nat → Value}
  {input : Nat → Emission → Emission} (hgrow : ∀ i ∈ n.inputs, ∀ s, Grows units bound s (input i s))
  (hpush : ∀ i ∈ n.inputs, ∀ s, Precedes (input i s) fin → Pushes fin l r m₀ R s (input i s) (values i))
include hl hR hf hpush

/-- One step that goes through. -/
theorem reaches_step {st : Step} (hst : st ∈ f.steps) {s : Emission} (hfin : Precedes (step n input s st) fin)
    {fs fs' : List Value} {c c' : Context}
    (h : Fragment.evalStep .builtin f.name (n.inputs.map values) n.place st fs c = (.ok fs', c'))
    (hc : c.machine.SameFront m₀) {slots : Array Value} (hslots : R s slots) (stack : List Value)
    (pending : Option Fault) (calls : List String) :
    ∃ slots' calls', Reaches l r ⟨rest fin s, fs ++ stack, slots, pending, ⟨c.machine, calls⟩⟩
        ⟨rest fin (step n input s st), fs' ++ stack, slots', pending, ⟨c'.machine, calls'⟩⟩ ∧
      R (step n input s st) slots' ∧ c'.machine.SameFront m₀ := by
  cases st with
  | input i =>
    simp only [Fragment.evalStep, Fragment.input?] at h
    simp only [step] at hfin ⊢
    split at h
    · next v hv =>
      cases h
      split at hv
      · cases hv
      next hi =>
      rw [List.getElem?_map] at hv
      obtain ⟨id, hid, rfl⟩ := Option.map_eq_some_iff.mp hv
      simp only [hi, if_false, hid] at hfin ⊢
      obtain ⟨slots', calls', hr, hR'⟩ :=
        hpush id (List.mem_of_getElem? hid) s hfin (fs ++ stack) slots pending ⟨c.machine, calls⟩ hslots hc
      exact ⟨slots', calls', hr, hR', hc⟩
    · cases h
  | literal lit =>
    cases h
    exact ⟨slots, calls, reaches_pushInt hl hfin, hR s _ _ (stored_pushInt s _) hslots, hc⟩
  | dup =>
    cases fs with
    | nil => cases h
    | cons v fs =>
      cases h
      exact ⟨slots, calls, reaches_dup hfin, hR s _ _ rfl hslots, hc⟩
  | pop =>
    cases fs with
    | nil => cases h
    | cons v fs =>
      cases h
      exact ⟨slots, calls, reaches_pop hfin, hR s _ _ rfl hslots, hc⟩
  | call helper =>
    obtain ⟨b, rfl, -⟩ := Fragment.exists_builtin_of_call_mem hf hst
    obtain ⟨hx, -⟩ | ⟨args, below, ha, ⟨e, -, hx, -⟩ | ⟨v, hb, hx⟩⟩ := Fragment.evalStep_call_cases h
    · cases hx
    · cases hx
    cases hx
    have hcall := precedes_call hfin
    refine ⟨slots, b.name :: calls, ?_, hR s _ _ (stored_step_call n input s b.name) hslots,
      (Builtin.body_leaves b args c.machine v _ hb).trans hc⟩
    rw [rest_step_call]
    have hstack : (if b.result = .void then below else v :: below) ++ stack =
        if b.result = .void then below ++ stack else v :: (below ++ stack) := by split <;> rfl
    rw [hstack]
    exact reaches_call hl hcall (arguments?_append ha stack) hb
  | unknown k =>
    cases h
    exact ⟨slots, calls, .refl _, hslots, hc⟩

omit hR hpush in
/-- One step that faults: the fault is raised by a call, and the rollback of the node guards the call. -/
theorem jumps_step {st : Step} (hst : st ∈ f.steps) {s : Emission} (hfin : Precedes (step n input s st) fin)
    {fs : List Value} {c c' : Context} {x : Fault}
    (h : Fragment.evalStep .builtin f.name (n.inputs.map values) n.place st fs c = (.error (.helper (.fault x)), c'))
    (slots : Array Value) (stack : List Value) (pending : Option Fault) (calls : List String) :
    Jumps l r ⟨rest fin s, fs ++ stack, slots, pending, ⟨c.machine, calls⟩⟩ s.size slots x c'.machine ∧
      ∀ ρ < s.extents.size, n.canFault = true → n.rollback = some ρ → (step n input s st).Covers ρ s.size := by
  cases st with
  | input i =>
    simp only [Fragment.evalStep] at h
    split at h <;> cases h
  | dup | pop => cases fs <;> cases h
  | literal lit => cases h
  | unknown k => cases h
  | call helper =>
    obtain ⟨b, rfl, -⟩ := Fragment.exists_builtin_of_call_mem hf hst
    obtain ⟨hx, -⟩ | ⟨args, below, ha, ⟨e, hb, hx, hm⟩ | ⟨v, -, hx⟩⟩ := Fragment.evalStep_call_cases h
    · cases hx
    · cases hx
      rw [hm]
      refine ⟨jumps_call hl (precedes_call hfin) (arguments?_append ha stack) hb, fun ρ hlt hcan hρ => ?_⟩
      have hget : (s.call b.name).extents[ρ]? = some s.extents[ρ] := Array.getElem?_eq_getElem hlt
      refine ⟨s.extents[ρ].cover s.size (s.call b.name).size, ?_, Extent.contains_cover _ (size_lt_size_call s b.name)⟩
      simp only [step, hcan, hρ, cover, Array.getElem?_modify, if_true, hget]
      rfl
    · cases hx

include hgrow

/-- Running the steps of a fragment follows their evaluation: it leaves what they leave, or it faults with
    them at an offset that the rollback of the node guards. -/
theorem runs_steps {ss : List Step} (hss : ∀ st ∈ ss, st ∈ f.steps) {s : Emission}
    (hfin : Precedes (ss.foldl (step n input) s) fin) (fs : List Value) {c : Context}
    (hc : c.machine.SameFront m₀) {slots : Array Value} (hslots : R s slots) (stack : List Value)
    (pending : Option Fault) (calls : List String) :
    (∀ fs' c', Fragment.evalSteps .builtin f.name (n.inputs.map values) n.place ss fs c = (.ok fs', c') →
      ∃ slots' calls', Reaches l r ⟨rest fin s, fs ++ stack, slots, pending, ⟨c.machine, calls⟩⟩
          ⟨rest fin (ss.foldl (step n input) s), fs' ++ stack, slots', pending, ⟨c'.machine, calls'⟩⟩ ∧
        R (ss.foldl (step n input) s) slots') ∧
    (∀ x c', Fragment.evalSteps .builtin f.name (n.inputs.map values) n.place ss fs c =
        (.error (.helper (.fault x)), c') →
      ∃ s₁ slots', Jumps l r ⟨rest fin s, fs ++ stack, slots, pending, ⟨c.machine, calls⟩⟩ s₁.size slots' x c'.machine ∧
        R s₁ slots' ∧ Grows units bound s s₁ ∧ Grows units bound s₁ (ss.foldl (step n input) s) ∧
        ∀ ρ < s.extents.size, n.canFault = true → n.rollback = some ρ → (ss.foldl (step n input) s).Covers ρ s₁.size) := by
  induction ss generalizing s fs c slots calls with
  | nil =>
    refine ⟨fun fs' c' h => ?_, fun x c' h => by cases h⟩
    cases h
    exact ⟨slots, calls, .refl _, hslots⟩
  | cons st ss ih =>
    have hst := hss st List.mem_cons_self
    have hss' := fun st' h => hss st' (List.mem_cons_of_mem st h)
    have hstep := grows_step hgrow st s
    have htail : Grows units bound (step n input s st) (ss.foldl (step n input) (step n input s st)) :=
      Grows.foldl (fun st' h => grows_step hgrow st') _
    have hhead := htail.precedes hfin
    simp only [List.foldl_cons] at hfin ⊢
    rcases hev : Fragment.evalStep .builtin f.name (n.inputs.map values) n.place st fs c with ⟨e | fs₁, c₁⟩
    · refine ⟨fun fs' c' h => ?_, fun x c' h => ?_⟩
      · rw [Fragment.evalSteps_cons_error hev] at h
        cases h
      · rw [Fragment.evalSteps_cons_error hev] at h
        cases h
        obtain ⟨hjump, hcover⟩ := jumps_step hl hf hst hhead hev slots stack pending calls
        exact ⟨s, slots, hjump, hslots, .refl _ _ s, hstep.trans htail,
          fun ρ hlt hcan hρ => htail.covers (hcover ρ hlt hcan hρ)⟩
    · obtain ⟨slots₁, calls₁, hreach, hslots₁, hc₁⟩ :=
        reaches_step hl hR hf hpush hst hhead hev hc hslots stack pending calls
      obtain ⟨hok, hfault⟩ := ih hss' hfin fs₁ hc₁ hslots₁ calls₁
      refine ⟨fun fs' c' h => ?_, fun x c' h => ?_⟩
      · rw [Fragment.evalSteps_cons_ok hev] at h
        obtain ⟨slots', calls', hreach', hslots'⟩ := hok fs' c' h
        exact ⟨slots', calls', hreach.trans hreach', hslots'⟩
      · rw [Fragment.evalSteps_cons_ok hev] at h
        obtain ⟨s₁, slots', hjump, hslots', hg₁, hg₂, hcover⟩ := hfault x c' h
        exact ⟨s₁, slots', hreach.jumps hjump, hslots', hstep.trans hg₁, hg₂,
          fun ρ hlt => hcover ρ (hstep.extentsSize.symm ▸ hlt)⟩

end Steps

end Emission
end MicroBlock
