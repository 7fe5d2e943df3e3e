import Mathlib
import MicroBlock.Proofs.Builtins
import MicroBlock.Proofs.Graphs
import MicroBlock.Proofs.Verification

/-! Loaded blocks are safe to run.

Loading turns down a unit that does not verify, so the execute method of a loaded block is verified code, and all that
can go wrong in a run of it is a helper. -/

namespace MicroBlock

/-! ### What loading says of a block -/

namespace Loader

theorem verify_cons {m : Module} {helpers : List Helper} {name : String} {me : Method} {mes : List Method}
    {rs : List Routine} (h : verify m helpers name (me :: mes) = .ok rs) :
    ∃ r rs', Routine.ofMethod m helpers me = .ok r ∧ verify m helpers name mes = .ok rs' ∧ rs = r :: rs' := by
  unfold verify at h
  split at h
  · cases h
  next r hr =>
  split at h
  · cases h
  next rs' hrs =>
  cases h
  exact ⟨r, rs', hr, hrs, rfl⟩

theorem verify_mem {m : Module} {helpers : List Helper} {name : String} {mes : List Method} {rs : List Routine}
    (h : verify m helpers name mes = .ok rs) {r : Routine} (hr : r ∈ rs) :
    ∃ me ∈ mes, Routine.ofMethod m helpers me = .ok r := by
  induction mes generalizing rs with
  | nil =>
    cases h
    cases hr
  | cons me mes ih =>
    obtain ⟨r', rs', hr', hrs', rfl⟩ := verify_cons h
    rcases List.mem_cons.mp hr with rfl | hr
    · exact ⟨me, List.mem_cons_self, hr'⟩
    · obtain ⟨me', hme', h'⟩ := ih hrs' hr
      exact ⟨me', List.mem_cons_of_mem _ hme', h'⟩

theorem resolve_mem {r : Registry} {name : String} {links : List ByteString} {helpers : List Helper}
    (h : resolve r name links = .ok helpers) : ∀ x ∈ helpers, x ∈ r.helpers := by
  fun_induction resolve r name links generalizing helpers with
  | case1 =>
    cases h
    exact fun _ hx => absurd hx List.not_mem_nil
  | case2 | case3 => cases h
  | case4 s rest helper hfind hs hrest ih =>
    cases h
    intro x hx
    rcases List.mem_cons.mp hx with rfl | hx
    · exact List.mem_of_find?_eq_some hfind
    · exact ih hrest x hx

/-- A block that was loaded against a registry: its container, with its links resolved and its methods verified. -/
structure Loaded (r : Registry) (b : CodeBlock) : Prop where
  decoded : Module.decode b.bytes = .ok b.module
  resolved : resolve r b.name b.module.links = .ok b.helpers
  verified : verify b.module b.helpers b.name b.module.methods = .ok b.routines
  complete : ∀ me ∈ Module.blockMethods, (CodeBlock.routine? b.routines me).isSome = true

theorem link_eq_ok {r : Registry} {name : String} {data : Bytes} {m : Module} {helpers : List Helper}
    {routines : List Routine} (h : link r name data = .ok (m, helpers, routines)) :
    Module.decode data = .ok m ∧ resolve r name m.links = .ok helpers ∧
      verify m helpers name m.methods = .ok routines ∧
      ∀ me ∈ Module.blockMethods, (CodeBlock.routine? routines me).isSome = true := by
  unfold link at h
  split at h
  · cases h
  next m' hm =>
  split at h
  · cases h
  split at h
  · cases h
  next helpers' hhelpers =>
  split at h
  · cases h
  next routines' hroutines =>
  split at h
  · cases h
  next hfind =>
  cases h
  refine ⟨hm, hhelpers, hroutines, fun me hme => ?_⟩
  exact Option.isSome_iff_ne_none.mpr (by simpa using List.find?_eq_none.mp hfind me hme)

theorem load_eq_ok {l : Loader} {name : String} {data : Bytes} {b : CodeBlock} (h : (l.load name data).1 = .ok b) :
    Loaded l.helpers b := by
  unfold load at h
  split at h
  · cases h
  split at h
  · cases h
  split at h
  · cases h
  next m helpers routines hlink =>
  obtain ⟨hdecode, hresolve, hverify, hcomplete⟩ := link_eq_ok hlink
  split at h
  · cases h
  cases h
  exact ⟨hdecode, hresolve, hverify, hcomplete⟩

theorem Loaded.exists_routine {r : Registry} {b : CodeBlock} (h : Loaded r b) :
    ∃ x, CodeBlock.routine? b.routines Module.executeMethod = some x :=
  Option.isSome_iff_exists.mp (h.complete Module.executeMethod (by decide))

/-- The routines of a loaded block are its methods, verified. -/
theorem Loaded.of_routine? {r : Registry} {b : CodeBlock} (h : Loaded r b) {name : String} {x : Routine}
    (hx : CodeBlock.routine? b.routines name = some x) :
    x.name = ByteString.ofString name ∧ x.Verified b.module b.helpers ∧
      ∃ me ∈ b.module.methods, Code.decode me.code = .ok x.code := by
  obtain ⟨me, hme, hof⟩ := verify_mem h.verified (List.mem_reverse.mp (List.mem_of_find?_eq_some hx))
  obtain ⟨code, hcode, rfl, hverified⟩ := Routine.ofMethod_eq_ok hof
  exact ⟨by simpa using List.find?_some hx, hverified, me, hme, hcode⟩

end Loader

/-! ### Runs of a loaded block -/

namespace CodeBlock
open MicroBlock.Execution

/-- A run of a block is a run of its execute routine. -/
theorem execute_eq {b : CodeBlock} {r : Routine} (hr : routine? b.routines Module.executeMethod = some r)
    (hname : r.name = ByteString.ofString Module.executeMethod) (c : Context) : b.execute c =
      match runFor (linkage b.module b.helpers) r true stepLimit (start r b.module.slots.length c) with
      | .returned v c => (.ok v.toUInt32.toNat, c)
      | .failed e c => (.error e, c)
      | .running s => (.error .unfinished, s.context) := by
  have hslots : (linkage b.module b.helpers).slots = b.module.slots.length := rfl
  simp only [execute, hr, run, hname, if_true, hslots]
  cases runFor (linkage b.module b.helpers) r true stepLimit (start r b.module.slots.length c) <;> rfl

/-- No run of the execute method of a loaded block goes wrong by its own doing, whatever the helpers do: there is
    always a next instruction, with its operand in range and its values on the stack, a return finds one value, and
    a failure is the failure of a helper. -/
theorem execute_safe {l : Loader} {name : String} {data : Bytes} {b : CodeBlock}
    (harity : ∀ h ∈ l.helpers.helpers, 0 ≤ h.arity) (hload : (l.load name data).1 = .ok b) :
    ∃ r, routine? b.routines Module.executeMethod = some r ∧
      (∀ c n s, Reached (linkage b.module b.helpers) r (start r b.module.slots.length c) n s →
        s.Ready (linkage b.module b.helpers) ∧
        ∀ act, (∀ v c', step ((linkage b.module b.helpers).doing act) r true s = .returned v c' → s.stack = [v]) ∧
          ∀ e c', step ((linkage b.module b.helpers).doing act) r true s = .failed e c' →
            Fails (linkage b.module b.helpers) act s.context.machine e) ∧
      ∀ c e, (b.execute c).1 = .error e →
        e = .unfinished ∨ ∃ m, Fails (linkage b.module b.helpers) Helper.body m e := by
  have hloaded := Loader.load_eq_ok hload
  obtain ⟨r, hr⟩ := hloaded.exists_routine
  obtain ⟨hname, hverified, -⟩ := hloaded.of_routine? hr
  have harity' : ∀ h ∈ b.helpers, 0 ≤ h.arity := fun h hh => harity h (Loader.resolve_mem hloaded.resolved h hh)
  have hsafe {c n s} (hs : Reached (linkage b.module b.helpers) r (start r b.module.slots.length c) n s) (act) :=
    (hs.watched hverified harity').step_safe hverified harity' act
  have hready {c n s} (hs : Reached (linkage b.module b.helpers) r (start r b.module.slots.length c) n s) :
      s.Ready (linkage b.module b.helpers) := by
    obtain ⟨p, rest, hrest, hallows, -⟩ := (hs.watched hverified harity').next harity'
    exact ⟨p, rest, hrest, hallows⟩
  refine ⟨r, hr, fun c n s hs => ⟨hready hs, fun act => ⟨?_, ?_⟩⟩, fun c e he => ?_⟩
  · intro v c' hv
    have := hsafe hs act
    rwa [hv] at this
  · intro e c' he
    have := hsafe hs act
    rwa [he] at this
  · rw [execute_eq hr hname] at he
    split at he
    · cases he
    · next e' c' hrun =>
      cases he
      obtain ⟨k, -, s, hk, hstep⟩ := exists_last hrun (fun t ht => by cases ht)
      have := hsafe (reached_of_runFor hk) Helper.body
      rw [(linkage b.module b.helpers).doing_body, hstep] at this
      exact .inr ⟨_, this⟩
    · cases he
      exact .inl rfl

end CodeBlock

theorem Registry.builtin_arity : ∀ h ∈ Registry.builtin.helpers, 0 ≤ h.arity := by
  intro h hh
  obtain ⟨b, -, rfl⟩ := List.mem_map.mp hh
  exact b.arity_pos.le

/-- The unit of a code block without instructions whose execute method is given. -/
def Module.ofExecute (slots : List Kind) (links : List String) (code : List Instr) (guards : List Guard) : Module :=
  let accessor (name : String) (i : Instr) : Method := ⟨.ofString name, [i, .ret].flatMap Instr.encode, []⟩
  { name := .ofString "u"
    magic := standardMagic
    slots
    constants := [.ints []]
    links := links.map ByteString.ofString
    methods := [accessor countMethod (.push 0), accessor lengthMethod (.push 0), accessor microcodesMethod (.const 0),
      accessor positionsMethod (.const 0), ⟨.ofString executeMethod, code.flatMap Instr.encode, guards⟩] }

namespace CodeBlock
open MicroBlock.Execution

/-- Writes a quotient of seven to EAX, or routes the fault of the division and returns the seven. -/
def dividing : Module := .ofExecute [.int] ["divq32", "route_real_fault"]
  [.push 7, .store .int 0, .load .int 0, .get 1, .call 0, .set 0, .push 1, .ret,
    .get 42, .fault, .call 1, .load .int 0, .ret] [⟨0, 14, 15⟩]

theorem execute_safe_dividing : ∃ data b, dividing.encode = .ok data ∧
    (∀ h ∈ Registry.builtin.helpers, 0 ≤ h.arity) ∧ (Loader.load { helpers := .builtin } "u" data).1 = .ok b ∧
    ∃ r, routine? b.routines Module.executeMethod = some r ∧
      ∀ c n s, Reached (linkage b.module b.helpers) r (start r b.module.slots.length c) n s →
        s.Ready (linkage b.module b.helpers) := by
  have hok : dividing.encode.toOption.any (fun data =>
      (Loader.load { helpers := .builtin } "u" data).1.toOption.any fun _ => true) = true := by decide +kernel
  obtain ⟨data, hdata, hload⟩ := exists_ok_of_any hok
  obtain ⟨b, hb, -⟩ := exists_ok_of_any hload
  obtain ⟨r, hr, hsafe, -⟩ := execute_safe Registry.builtin_arity hb
  exact ⟨data, b, hdata, Registry.builtin_arity, hb, r, hr, fun c n s hs => (hsafe c n s hs).1⟩

end CodeBlock
end MicroBlock
