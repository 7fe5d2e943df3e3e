import Mathlib
import MicroBlock.Proofs.Termination

/-! What loading a container can do to a loader.

A container is turned down or registered as a whole. On the way the accessors of the unit run, as verified code but
without a processor and without slots. As long as such a run comes to no instruction on a slot it is a run of the same
code with slots, so it can only come to an end, fail as a helper does, or go round for ever. The verifier lets accessors
use the slots of the unit; a run that gets there crashes. -/

namespace MicroBlock

/-- The instruction reads or writes a slot. -/
def Instr.isOnSlot : Instr → Bool
  | .load _ _ | .store _ _ => true
  | _ => false

namespace Execution
variable {l : Linkage} {r : Routine} {s t : State} {n : Nat} {c : Context}

/-! ### Runs without slots -/

/-- The outcome with other slots, if the run goes on. -/
def Outcome.withSlots (kept : Array Value) : Outcome → Outcome
  | .running s => .running { s with slots := kept }
  | .returned v c => .returned v c
  | .failed e c => .failed e c

/-- The instructions that a run without a processor and slots cannot carry out. -/
def isDenied : Instr → Bool
  | .load _ _ | .store _ _ | .get _ | .set _ => true
  | _ => false

theorem call_withSlots (kept : Array Value) (pc : Nat) (rest : List Code.Placed) (h : Helper) :
    call r { s with slots := kept } pc rest h = (call r s pc rest h).withSlots kept := by
  simp only [call]
  cases h.arguments? s.stack with
  | none => rfl
  | some p =>
    obtain ⟨args, below⟩ := p
    dsimp only
    rcases h.call args s.context with ⟨v | f, c⟩
    · cases v with
      | fault f =>
        dsimp only
        cases r.target? pc <;> rfl
      | error | crash => rfl
    · rfl

/-- An instruction that needs neither processor nor slots does the same with and without them. -/
theorem step_withSlots {p : Code.Placed} {rest : List Code.Placed} (hrest : s.rest = p :: rest)
    (hp : isDenied p.instr = false) (cpu cpu' : Bool) (kept : Array Value) :
    step l r cpu' { s with slots := kept } = (step l r cpu s).withSlots kept := by
  cases hi : p.instr with
  | load | store | get | set =>
    rw [hi] at hp
    cases hp
  | nop | push | fault => simp only [step, hrest, hi, State.next, Outcome.withSlots]
  | const i =>
    simp only [step, hrest, hi]
    cases Routine.nth? l.constants i <;> rfl
  | dup | pop | ret =>
    cases hstack : s.stack <;> simp only [step, hrest, hi, hstack] <;> rfl
  | call i =>
    simp only [step, hrest, hi]
    cases Routine.nth? l.helpers i with
    | none => rfl
    | some h => exact call_withSlots kept p.pc rest h

/-- Without a processor and slots the run fails where it needs them; for want of a slot it crashes. -/
theorem step_denied {p : Code.Placed} {rest : List Code.Placed} (hrest : s.rest = p :: rest)
    (hp : isDenied p.instr = true) (hslots : s.slots = #[]) :
    ∃ e, step l r false s = .failed e s.context ∧ e ≠ .unfinished ∧ (e = .crash ↔ p.instr.isOnSlot = true) := by
  cases hi : p.instr with
  | get e =>
    refine ⟨.noCpu .gete, ?_, by simp, by simp [Instr.isOnSlot]⟩
    simp [step, hrest, hi]
  | set e =>
    refine ⟨.noCpu .sete, ?_, by simp, by simp [Instr.isOnSlot]⟩
    simp [step, hrest, hi]
  | load _ i =>
    refine ⟨.crash, ?_, by simp, by simp [Instr.isOnSlot]⟩
    simp [step, hrest, hi, hslots]
  | store _ i =>
    refine ⟨.crash, ?_, by simp, by simp [Instr.isOnSlot]⟩
    cases hstack : s.stack <;> simp [step, hrest, hi, hstack, hslots]
  | _ =>
    rw [hi] at hp
    cases hp

/-- A run without a processor and slots, as far as it goes, is a run with them. -/
theorem runFor_withSlots (units : Nat) (h : runFor l r false n (start r 0 c) = .running s) :
    runFor l r true n (start r units c) = .running { s with slots := Array.replicate units .zero } ∧ s.slots = #[] := by
  induction n generalizing s with
  | zero =>
    cases h
    exact ⟨rfl, rfl⟩
  | succ n ih =>
    rw [runFor_succ] at h
    split at h
    · next t ht =>
      obtain ⟨hrun, hslots⟩ := ih ht
      cases hrest : t.rest with
      | nil => simp [step, hrest] at h
      | cons p rest =>
        cases hp : isDenied p.instr with
        | true =>
          obtain ⟨e, he, -⟩ := step_denied (l := l) (r := r) hrest hp hslots
          rw [he] at h
          cases h
        | false =>
          have hsame := step_withSlots (l := l) (r := r) hrest hp false
          have hkept : Outcome.running s = .running { s with slots := t.slots } :=
            (h.symm.trans (hsame false t.slots)).trans (congrArg _ h)
          constructor
          · rw [runFor_succ, hrun]
            exact (hsame true _).trans (congrArg _ h)
          · rw [Outcome.running.injEq] at hkept
            rw [hkept]
            exact hslots
    · next hdone => exact absurd h (hdone s)

/-- What becomes of a run without a processor and slots that fails at an instruction. -/
theorem step_failed {m : Module} {helpers : List Helper} (hr : r.Verified m helpers)
    (hbuiltin : ∀ h ∈ helpers, ∃ x : Builtin, h = x.helper) (hrouter : s.context.machine.router ≠ .reject)
    {kept : Array Value} (hwatched : Watched m helpers r { s with slots := kept }) (hslots : s.slots = #[]) {e : Error}
    {c : Context} (h : step (CodeBlock.linkage m helpers) r false s = .failed e c) :
    e ≠ .unfinished ∧ (e = .crash ↔ ∃ p rest, s.rest = p :: rest ∧ p.instr.isOnSlot = true) := by
  have harity := Builtin.arity_nonneg hbuiltin
  obtain ⟨p, rest, hrest, -⟩ := hwatched.next harity
  have hrest : s.rest = p :: rest := hrest
  have hslot : (∃ p rest, s.rest = p :: rest ∧ p.instr.isOnSlot = true) ↔ p.instr.isOnSlot = true := by
    rw [hrest]
    simp
  rw [hslot]
  cases hp : isDenied p.instr with
  | true =>
    obtain ⟨e', he', hne, hiff⟩ := step_denied (l := CodeBlock.linkage m helpers) (r := r) hrest hp hslots
    rw [h] at he'
    cases he'
    exact ⟨hne, hiff⟩
  | false =>
    -- The instruction fails with slots too, and all that fails there is a helper.
    have hsafe := hwatched.step_safe hr harity Helper.body
    rw [Linkage.doing_body, step_withSlots hrest hp false true, h] at hsafe
    obtain ⟨helper, hmem, args, f, hlen, hbody, rfl⟩ := hsafe
    have hnot : ¬ p.instr.isOnSlot = true := by
      cases hi : p.instr <;> simp [hi, isDenied, Instr.isOnSlot] at hp ⊢
    obtain ⟨x, rfl⟩ := hbuiltin helper hmem
    cases f with
    | fault | error => exact ⟨(fun h => by cases h), (fun h => by cases h), fun h => absurd h hnot⟩
    | crash =>
      refine absurd (Builtin.router_of_crash ?_ hbody) hrouter
      rw [← show x.helper.arity = x.arity from rfl, ← hlen, Int.toNat_natCast]

/-- The run of a routine without a processor and slots comes to an instruction on a slot. -/
def ComesToSlot (l : Linkage) (r : Routine) (c : Context) : Prop :=
  ∃ k < stepLimit, ∃ s p rest, runFor l r false k (start r 0 c) = .running s ∧ s.rest = p :: rest ∧
    p.instr.isOnSlot = true

theorem runFor_of_le {cpu : Bool} {k : Nat} {o : Outcome} (ho : ∀ t, o ≠ .running t) (h : runFor l r cpu k s = o)
    (hk : k ≤ n) : runFor l r cpu n s = o := by
  induction hk with
  | refl => exact h
  | step _ ih =>
    rw [runFor_succ, ih]
    cases o with
    | running t => exact absurd rfl (ho t)
    | returned | failed => rfl

theorem ComesToSlot.runFor_eq (h : ComesToSlot l r c) : ∃ c', runFor l r false stepLimit (start r 0 c) = .failed .crash c' := by
  obtain ⟨k, hk, s, p, rest, hs, hrest, hslot⟩ := h
  obtain ⟨-, hslots⟩ := runFor_withSlots 0 hs
  have hdenied : isDenied p.instr = true := by
    cases hi : p.instr <;> simp [hi, isDenied, Instr.isOnSlot] at hslot ⊢
  obtain ⟨e, he, -, hiff⟩ := step_denied (l := l) (r := r) hrest hdenied hslots
  rw [hiff.mpr hslot] at he
  refine ⟨s.context, runFor_of_le (fun _ h => by cases h) ?_ (Nat.succ_le_of_lt hk)⟩
  rw [runFor_succ, hs]
  exact he

/-- A run of verified code without a processor and slots crashes exactly if it comes to an instruction on a slot, and
    ends unless the flow of the code comes round. -/
theorem run_eq_error {m : Module} {helpers : List Helper} (hr : r.Verified m helpers)
    (hbuiltin : ∀ h ∈ helpers, ∃ x : Builtin, h = x.helper) (hlength : r.code.length + 1 < stepLimit)
    (hname : r.name ≠ ByteString.ofString Module.executeMethod) (hrouter : c.machine.router ≠ .reject) {e : Error}
    (h : (run (CodeBlock.linkage m helpers) r false c).1 = .error e) :
    (e = .crash ↔ ComesToSlot (CodeBlock.linkage m helpers) r c) ∧ (e = .unfinished → r.LoopsFrom r.code) := by
  have harity := Builtin.arity_nonneg hbuiltin
  simp only [run, if_neg hname] at h
  split at h
  · cases h
  · next e' c' hrun =>
    cases h
    obtain ⟨k, hk, s, hs, hstep⟩ := exists_last hrun (fun t ht => by cases ht)
    obtain ⟨hsame, hslots⟩ := runFor_withSlots m.slots.length hs
    have hkept := router_of_runFor hr harity hbuiltin hsame
    obtain ⟨hne, hiff⟩ := step_failed (s := s) hr hbuiltin (fun h => hrouter (hkept.symm.trans h))
      ((reached_of_runFor hsame).watched hr harity) hslots hstep
    refine ⟨⟨fun he => ?_, fun hslot => ?_⟩, fun he => absurd he hne⟩
    · obtain ⟨p, rest, hrest, hp⟩ := hiff.mp he
      exact ⟨k, hk, s, p, rest, hs, hrest, hp⟩
    · obtain ⟨c'', hcrash⟩ := hslot.runFor_eq
      rw [hrun] at hcrash
      cases hcrash
      rfl
  · next s hrun =>
    cases h
    refine ⟨⟨(fun h => by cases h), fun hslot => ?_⟩, fun _ => ?_⟩
    · obtain ⟨c', hcrash⟩ := hslot.runFor_eq
      rw [hrun] at hcrash
      cases hcrash
    · by_contra hloops
      have h₁ := ((reached_of_runFor (runFor_withSlots m.slots.length hrun).1).ahead_le hr harity hloops).2
      have h₂ := r.ahead_le
      omega

end Execution

/-! ### Loading -/

namespace Loader
open MicroBlock.Execution

/-- Loading turns a container down, or registers one block under the name, which was free. Either way what is loaded
    stays. -/
theorem load_spec (l : Loader) (name : String) (data : Bytes) :
    (∃ e calls, l.load name data = (.error e, { l with calls })) ∨
      ∃ b calls, l.load name data = (.ok b, { l with blocks := l.blocks ++ [b], calls }) ∧ b.name = name ∧
        b.bytes = data ∧ l.closed = none ∧ l.find? name = none := by
  generalize hr : l.load name data = r
  unfold load at hr
  split at hr
  · exact .inl ⟨_, l.calls, hr.symm⟩
  next hclosed =>
  split at hr
  · exact .inl ⟨_, l.calls, hr.symm⟩
  next hnone =>
  split at hr
  · exact .inl ⟨_, l.calls, hr.symm⟩
  split at hr
  · next calls _ => exact .inl ⟨_, calls, hr.symm⟩
  · next calls _ => exact .inr ⟨_, calls, hr.symm, rfl, rfl, hclosed, by simpa using hnone⟩

theorem find?_append {l : Loader} {b : CodeBlock} {calls : List String} (hclosed : l.closed = none)
    (hnone : l.find? b.name = none) (name : String) :
    ({ l with blocks := l.blocks ++ [b], calls } : Loader).find? name =
      if name = b.name then some b else l.find? name := by
  simp only [find?, hclosed, Option.isSome_none, Bool.false_eq_true, if_false] at hnone ⊢
  rw [List.find?_append]
  by_cases h : name = b.name
  · subst h
    simp [hnone]
  · have h' : ¬ b.name = name := fun h' => h h'.symm
    simp [h, h']

section Accessors
variable {link : Linkage} {routines : List Routine} {name method n me : String} {calls calls' : List String}
  {e : Execution.Error}

theorem runAccessor_error (h : runAccessor link routines name method calls = (.error (.accessor n me e), calls')) :
    n = name ∧ me = method ∧ ∃ r, CodeBlock.routine? routines method = some r ∧
      (run link r false ⟨.reset (.ofSize 0), calls⟩).1 = .error e := by
  unfold runAccessor at h
  split at h
  · cases h
  next r hr =>
  split at h
  · cases h
  next hrun =>
  cases h
  exact ⟨rfl, rfl, r, hr, by rw [hrun]⟩

theorem runArrayAccessor_error (h : runArrayAccessor link routines name method calls = (.error (.accessor n me e), calls')) :
    runAccessor link routines name method calls = (.error (.accessor n me e), calls') := by
  unfold runArrayAccessor at h
  split at h
  · cases h
  · cases h
  next hrun =>
  cases h
  exact hrun

/-- The summary of a unit fails in a run only as one of its accessors does. -/
theorem summary_error (h : summary link routines name calls = (.error (.accessor n me e), calls')) :
    n = name ∧ me ≠ Module.executeMethod ∧ ∃ r calls, CodeBlock.routine? routines me = some r ∧
      (run link r false ⟨.reset (.ofSize 0), calls⟩).1 = .error e := by
  have hone {method : String} (hmethod : method ≠ Module.executeMethod) {calls calls' : List String}
      (h : runAccessor link routines name method calls = (.error (.accessor n me e), calls')) :
      n = name ∧ me ≠ Module.executeMethod ∧ ∃ r calls, CodeBlock.routine? routines me = some r ∧
        (run link r false ⟨.reset (.ofSize 0), calls⟩).1 = .error e := by
    obtain ⟨hn, rfl, r, hr, hrun⟩ := runAccessor_error h
    exact ⟨hn, hmethod, r, calls, hr, hrun⟩
  unfold summary at h
  split at h
  · next hcount =>
    cases h
    exact hone (by decide) hcount
  split at h
  · next hlength =>
    cases h
    exact hone (by decide) hlength
  split at h
  · next hmicro =>
    cases h
    exact hone (by decide) (runArrayAccessor_error hmicro)
  split at h
  · next hpos =>
    cases h
    exact hone (by decide) (runArrayAccessor_error hpos)
  · cases h

end Accessors

theorem resolve_ne_accessor {r : Registry} {name : String} {links : List ByteString} (n me : String) (e : Execution.Error) :
    resolve r name links ≠ .error (.accessor n me e) := by
  fun_induction resolve r name links with
  | case1 | case2 | case4 => simp
  | case3 s rest h hh e' he' ih =>
    intro heq
    exact ih (he'.trans heq)

theorem verify_ne_accessor {m : Module} {helpers : List Helper} {name : String} {mes : List Method} (n me : String)
    (e : Execution.Error) : verify m helpers name mes ≠ .error (.accessor n me e) := by
  fun_induction verify m helpers name mes with
  | case1 | case2 | case4 => simp
  | case3 me' rest r hr e' he' ih =>
    intro heq
    exact ih (he'.trans heq)

theorem link_ne_accessor {r : Registry} {name : String} {data : Bytes} (n me : String) (e : Execution.Error) :
    link r name data ≠ .error (.accessor n me e) := by
  intro h
  unfold link at h
  split at h
  · cases h
  split at h
  · cases h
  split at h
  · next hresolve =>
    cases h
    exact resolve_ne_accessor n me e hresolve
  split at h
  · next hverify =>
    cases h
    exact verify_ne_accessor n me e hverify
  split at h <;> cases h

/-- The routine of a unit that was linked is one of its methods, verified, and no longer than a method can be. -/
theorem link_routine? {r : Registry} {name : String} {data : Bytes} {m : Module} {helpers : List Helper}
    {routines : List Routine} (h : link r name data = .ok (m, helpers, routines)) {me : String} {x : Routine}
    (hx : CodeBlock.routine? routines me = some x) :
    x.name = ByteString.ofString me ∧ x.Verified m helpers ∧ x.code.length + 1 < stepLimit := by
  obtain ⟨hdecode, -, hverify, -⟩ := link_eq_ok h
  obtain ⟨me', hme, hof⟩ := verify_mem hverify (List.mem_reverse.mp (List.mem_of_find?_eq_some hx))
  obtain ⟨code, hcode, rfl, hverified⟩ := Routine.ofMethod_eq_ok hof
  refine ⟨by simpa using List.find?_some hx, hverified, ?_⟩
  obtain ⟨⟨-, hsize, -⟩, -⟩ := Module.steady_module _ _ _ (Module.decode_eq_ok.mp hdecode)
  have h₁ := hsize me' hme
  have h₂ := (Code.length_decodeFrom hcode).1
  simp only [Module.maxMethodBytes, stepLimit, List.length_nil] at *
  omega

/-- An accessor that fails while its unit is loaded. -/
theorem load_accessor_error {l : Loader} (hl : l.helpers = .builtin) {name : String} {data : Bytes} {n me : String}
    {e : Execution.Error} (h : (l.load name data).1 = .error (.accessor n me e)) :
    n = name ∧ ∃ m helpers routines r calls, link .builtin name data = .ok (m, helpers, routines) ∧
      CodeBlock.routine? routines me = some r ∧
      (e = .crash ↔ ComesToSlot (CodeBlock.linkage m helpers) r ⟨.reset (.ofSize 0), calls⟩) ∧
      (e = .unfinished → r.LoopsFrom r.code) := by
  unfold load at h
  split at h
  · cases h
  split at h
  · cases h
  rw [hl] at h
  split at h
  · next hlink =>
    cases h
    exact absurd hlink (link_ne_accessor n me e)
  next m helpers routines hlink =>
  split at h
  · next hsummary =>
    cases h
    obtain ⟨hn, hme, r, calls, hr, hrun⟩ := summary_error hsummary
    obtain ⟨hname, hverified, hlength⟩ := link_routine? hlink hr
    have hbuiltin : ∀ h ∈ helpers, ∃ x : Builtin, h = x.helper := by
      intro h hh
      obtain ⟨x, -, hx⟩ := List.mem_map.mp (resolve_mem (link_eq_ok hlink).2.1 h hh)
      exact ⟨x, hx.symm⟩
    have hname' : r.name ≠ ByteString.ofString Module.executeMethod := by
      rw [hname]
      exact fun h => hme (ByteString.ofString_inj h)
    exact ⟨hn, m, helpers, routines, r, calls, hlink, hr,
      run_eq_error hverified hbuiltin hlength hname' (show Router.queue ≠ .reject by decide) hrun⟩
  · cases h

/-- Loading is atomic. A container that is turned down leaves what is loaded as it was; one that is accepted is
    registered under its name, which was free, and leaves all other names alone. Loading runs the accessors of the unit:
    it crashes exactly if one of them comes to an instruction on a slot, and it ends unless the flow of one of them comes
    round. -/
theorem load_atomic {l : Loader} (hl : l.helpers = .builtin) (name : String) (data : Bytes) :
    (∀ e, (l.load name data).1 = .error e → ∃ calls, (l.load name data).2 = { l with calls }) ∧
      (∀ b, (l.load name data).1 = .ok b → b.name = name ∧ l.find? name = none ∧
        (∃ calls, (l.load name data).2 = { l with blocks := l.blocks ++ [b], calls }) ∧
        ∀ n, (l.load name data).2.find? n = if n = name then some b else l.find? n) ∧
      ∀ n me e, (l.load name data).1 = .error (.accessor n me e) →
        n = name ∧ ∃ m helpers routines r calls, link .builtin name data = .ok (m, helpers, routines) ∧
          CodeBlock.routine? routines me = some r ∧
          (e = .crash ↔ ComesToSlot (CodeBlock.linkage m helpers) r ⟨.reset (.ofSize 0), calls⟩) ∧
          (e = .unfinished → r.LoopsFrom r.code) := by
  refine ⟨fun e he => ?_, fun b hb => ?_, fun n me e he => load_accessor_error hl he⟩
  · rcases l.load_spec name data with ⟨e', calls, heq⟩ | ⟨b, calls, heq, -⟩
    · exact ⟨calls, congrArg Prod.snd heq⟩
    · rw [heq] at he
      cases he
  · rcases l.load_spec name data with ⟨e', calls, heq⟩ | ⟨b', calls, heq, hname, -, hclosed, hnone⟩
    · rw [heq] at hb
      cases hb
    · rw [heq] at hb
      cases hb
      refine ⟨hname, hnone, ⟨calls, congrArg Prod.snd heq⟩, fun n => ?_⟩
      rw [heq, ← hname]
      exact find?_append hclosed (hname ▸ hnone) n

/-- A unit that is accepted, and turned down the second time. -/
theorem load_atomic_dividing : ∃ data b, CodeBlock.dividing.encode = .ok data ∧
    ∃ l : Loader, l = (load { helpers := .builtin } "u" data).2 ∧ l.helpers = .builtin ∧ l.blocks = [b] ∧
      l.find? "u" = some b ∧ l.find? "v" = none ∧ ∃ calls, (l.load "u" data).2 = { l with calls } := by
  have hok : CodeBlock.dividing.encode.toOption.any (fun data =>
      (load { helpers := .builtin } "u" data).1.toOption.any fun _ => true) = true := by decide +kernel
  obtain ⟨data, hdata, hload⟩ := exists_ok_of_any hok
  obtain ⟨b, hb, -⟩ := exists_ok_of_any hload
  obtain ⟨-, -, ⟨calls, hl⟩, hfind⟩ := (load_atomic (l := { helpers := .builtin }) rfl "u" data).2.1 b hb
  have hu := hfind "u"
  have hv := hfind "v"
  rw [hl] at hu hv
  refine ⟨data, b, hdata, _, rfl, ?_⟩
  rw [hl]
  refine ⟨rfl, rfl, hu, hv, ?_⟩
  refine (load_atomic rfl "u" data).1 (.duplicate "u") ?_
  simp only [load, hu, Option.isSome_some, if_true]

/-- A unit whose count is read from a slot. -/
def counting : Module :=
  let m := Module.ofExecute [.int] [] [.push 0, .ret] []
  { m with
    methods := ⟨.ofString Module.countMethod, [Instr.load .int 0, .ret].flatMap Instr.encode, []⟩ :: m.methods.tail }

/-- The verifier accepts an accessor that reads a slot of its unit, and loading crashes in it. -/
theorem crash_on_slot : ∃ data, counting.encode = .ok data ∧
    (load { helpers := .builtin } "u" data).1 = .error (.accessor "u" Module.countMethod .crash) := by
  have hok : counting.encode.toOption.any (fun data => decide ((load { helpers := .builtin } "u" data).1.map (fun _ => ()) =
      .error (.accessor "u" Module.countMethod .crash))) = true := by decide +kernel
  obtain ⟨data, hdata, hload⟩ := exists_ok_of_any hok
  exact ⟨data, hdata, eq_error_of_map (of_decide_eq_true hload)⟩

end Loader
end MicroBlock
