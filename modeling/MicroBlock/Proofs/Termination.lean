import Mathlib
import MicroBlock.Proofs.Readers
import MicroBlock.Proofs.Safety

/-! When runs end.

A run goes from an instruction to the next, or from a call to the target of the guard over it. Verification lets a
guard lead anywhere, also back to the code that it guards, so there are blocks that run for ever. Runs have a bound,
whatever the helpers do, exactly if the flow of the code does not come round; it never does where guards lead
forward. -/

namespace MicroBlock
open Relation

/-! ### Flow that comes round -/

namespace Routine
variable {r : Routine} {pt pt' : List Code.Placed}

/-- From a place in the code the flow leads to a place that it comes back to. -/
def LoopsFrom (r : Routine) (pt : List Code.Placed) : Prop :=
  ∃ q, ReflTransGen r.Flow pt q ∧ TransGen r.Flow q q

theorem LoopsFrom.flow (h : r.LoopsFrom pt) : ∃ pt', r.Flow pt pt' ∧ r.LoopsFrom pt' := by
  obtain ⟨q, hq, hloop⟩ := h
  rcases hq.cases_head with rfl | ⟨pt', hflow, hrest⟩
  · obtain ⟨pt', hflow, hback⟩ := TransGen.head'_iff.mp hloop
    exact ⟨pt', hflow, pt, hback, hloop⟩
  · exact ⟨pt', hflow, q, hrest, hloop⟩

theorem Flow.suffix (h : r.Flow pt pt') (hpt : pt <:+ r.code) : pt' <:+ r.code := by
  cases h with
  | next _ => exact (List.suffix_cons _ _).trans hpt
  | fault _ _ => exact List.dropWhile_suffix _

/-- The number of places that the flow leads to. -/
noncomputable def ahead (r : Routine) (pt : List Code.Placed) : Nat := {q | TransGen r.Flow pt q}.ncard

theorem suffix_of_reflTransGen (h : ReflTransGen r.Flow r.code pt) : pt <:+ r.code := by
  induction h with
  | refl => exact List.suffix_refl _
  | tail _ hflow ih => exact hflow.suffix ih

theorem places_subset (hpt : ReflTransGen r.Flow r.code pt) : {q | TransGen r.Flow pt q} ⊆ {q | q ∈ r.code.tails} := by
  intro q hq
  exact (List.mem_tails _ _).mpr (suffix_of_reflTransGen (hpt.trans hq.to_reflTransGen))

theorem ahead_le : r.ahead r.code ≤ r.code.length + 1 := by
  classical
  calc r.ahead r.code ≤ {q | q ∈ r.code.tails}.ncard := Set.ncard_le_ncard (places_subset .refl) (List.finite_toSet _)
    _ = r.code.tails.toFinset.card := by rw [← Set.ncard_coe_finset, List.coe_toFinset]
    _ ≤ r.code.tails.length := List.toFinset_card_le _
    _ = r.code.length + 1 := List.length_tails _

/-- Without a way round, each step of the flow leaves one place behind. -/
theorem Flow.ahead_lt (hloops : ¬ r.LoopsFrom r.code) (hpt : ReflTransGen r.Flow r.code pt) (h : r.Flow pt pt') :
    r.ahead pt' < r.ahead pt := by
  refine Set.ncard_lt_ncard ⟨fun q hq => .head h hq, fun hsub => ?_⟩ ((List.finite_toSet _).subset (places_subset hpt))
  exact hloops ⟨pt', hpt.tail h, hsub (.single h)⟩

/-- Where every guard leads behind the code it guards, all flow is forward. -/
theorem Flow.length_lt {m : Module} {helpers : List Helper} (hr : r.Verified m helpers)
    (hforward : ∀ g ∈ r.guards, g.last.toInt ≤ g.target.toInt) (hpt : pt <:+ r.code) (h : r.Flow pt pt') :
    pt'.length < pt.length := by
  cases h with
  | next _ => exact Nat.lt_succ_self _
  | @fault p rest i t _ htarget =>
    obtain ⟨g, hg, rfl⟩ := Option.map_eq_some_iff.mp htarget
    have hlast := hforward g (List.mem_of_find?_eq_some hg)
    have hrange := List.find?_some hg
    simp only [Bool.and_eq_true, decide_eq_true_eq] at hrange
    obtain ⟨before, hbefore⟩ := hpt
    have hcode : r.code = (before ++ [p]) ++ rest := by rw [← hbefore, List.append_assoc, List.singleton_append]
    have hsorted := hr.sorted
    rw [hcode, List.pairwise_append, List.pairwise_append] at hsorted
    -- Up to the call all offsets lie before the target.
    have hdrop : ∀ q ∈ before ++ [p], (g.target.toInt != q.pc) = true := by
      intro q hq
      have hle : q.pc ≤ p.pc := by
        rcases List.mem_append.mp hq with hq | hq
        · exact (hsorted.1.2.2 q hq p List.mem_cons_self).le
        · rw [List.mem_singleton.mp hq]
      rw [bne_iff_ne]
      omega
    have hfrom : r.codeFrom g.target = rest.dropWhile fun q => g.target.toInt != q.pc := by
      rw [codeFrom, hcode, List.dropWhile_append_of_pos hdrop]
    rw [hfrom]
    exact Nat.lt_succ_of_le (List.dropWhile_suffix _).length_le

theorem not_loopsFrom_of_forward {m : Module} {helpers : List Helper} (hr : r.Verified m helpers)
    (hforward : ∀ g ∈ r.guards, g.last.toInt ≤ g.target.toInt) : ¬ r.LoopsFrom r.code := by
  rintro ⟨q, hq, hloop⟩
  have hlt {q'} (h : TransGen r.Flow q q') : q'.length < q.length := by
    induction h with
    | single h => exact h.length_lt hr hforward (suffix_of_reflTransGen hq)
    | tail h hflow ih =>
      exact (hflow.length_lt hr hforward (suffix_of_reflTransGen (hq.trans h.to_reflTransGen))).trans ih
  exact Nat.lt_irrefl _ (hlt hloop)

end Routine

/-! ### Runs follow the flow -/

namespace Execution
variable {m : Module} {helpers : List Helper} {r : Routine} {s : State} {n : Nat} {c : Context}

theorem Reached.ahead_le (hr : r.Verified m helpers) (harity : ∀ h ∈ helpers, 0 ≤ h.arity)
    (hloops : ¬ r.LoopsFrom r.code) (h : Reached (CodeBlock.linkage m helpers) r (start r m.slots.length c) n s) :
    ReflTransGen r.Flow r.code s.rest ∧ n + r.ahead s.rest ≤ r.ahead r.code := by
  induction h with
  | refl => exact ⟨.refl, by simp [start]⟩
  | tail act hs hstep ih =>
    obtain ⟨-, hflow, -⟩ := (hs.watched hr harity).of_step hr harity hstep
    have := hflow.ahead_lt hloops ih.1
    exact ⟨ih.1.tail hflow, by omega⟩

/-- Helpers can lead a run wherever the flow goes: a call that is to go on gets a value, and one that is to jump
    gets a fault. -/
theorem Watched.exists_step (harity : ∀ h ∈ helpers, 0 ≤ h.arity) (h : Watched m helpers r s) {pt : List Code.Placed}
    (hflow : r.Flow s.rest pt) :
    ∃ act t, step ((CodeBlock.linkage m helpers).doing act) r true s = .running t ∧ t.rest = pt := by
  obtain ⟨p, rest, hrest, hallows, -⟩ := h.next harity
  rw [hrest] at hflow
  cases hflow with
  | next hret =>
    have hfollows := step_follows (fun _ _ m => .ok (.zero, m)) r hrest hret hallows
    cases hstep : step ((CodeBlock.linkage m helpers).doing fun _ _ m => .ok (.zero, m)) r true s with
    | returned v c =>
      rw [hstep] at hfollows
      cases hfollows
    | failed e c =>
      rw [hstep] at hfollows
      obtain ⟨h, -, args, f, -, hbody, -⟩ := hfollows
      cases hbody
    | running t =>
      rw [hstep] at hfollows
      obtain ⟨-, -, ⟨hnext, -⟩ | ⟨i, target, -, -, -, -, h, args, f, hbody⟩⟩ := hfollows
      · exact ⟨_, t, hstep, hnext⟩
      · cases hbody
  | @fault _ _ i target hcall htarget =>
    rw [hcall] at hallows
    obtain ⟨h, hget, h₀, harity₀, hle⟩ := hallows
    have hargs : Helper.arguments? { h with body := Body.faulting .divideError } s.stack =
        some ((s.stack.take h.arity.toNat).reverse, s.stack.drop h.arity.toNat) := if_pos ⟨harity₀, hle⟩
    refine ⟨fun _ => Body.faulting .divideError, { s with
      rest := r.codeFrom target
      stack := []
      pending := some .divideError
      context.calls := h.name :: s.context.calls }, ?_, rfl⟩
    rw [step_call _ r hrest hcall h₀ hget]
    simp only [call, hargs, Helper.call, Body.faulting, htarget]

/-- Where the flow comes round, helpers can keep a run going. -/
theorem exists_reached (hr : r.Verified m helpers) (harity : ∀ h ∈ helpers, 0 ≤ h.arity) (hloops : r.LoopsFrom r.code)
    (c : Context) (n : Nat) :
    ∃ s, Reached (CodeBlock.linkage m helpers) r (start r m.slots.length c) n s ∧ r.LoopsFrom s.rest := by
  induction n with
  | zero => exact ⟨_, .refl, hloops⟩
  | succ n ih =>
    obtain ⟨s, hs, hs_loops⟩ := ih
    obtain ⟨pt, hflow, hpt⟩ := hs_loops.flow
    obtain ⟨act, t, hstep, rfl⟩ := (hs.watched hr harity).exists_step harity hflow
    exact ⟨t, .tail act hs hstep, hpt⟩

/-- The built-in helpers and the writing of registers leave the router alone. -/
theorem Moves.router (hbuiltin : ∀ h ∈ helpers, ∃ x : Builtin, h = x.helper) {x y : Machine}
    (h : Moves (CodeBlock.linkage m helpers) Helper.body x y) : y.router = x.router := by
  cases h with
  | none => rfl
  | set reg v => exact (x.set_sameRest reg v).router
  | call hmem hbody =>
    obtain ⟨b, rfl⟩ := hbuiltin _ hmem
    exact (b.body_leaves _ x _ y hbody).router

theorem router_of_runFor (hr : r.Verified m helpers) (harity : ∀ h ∈ helpers, 0 ≤ h.arity)
    (hbuiltin : ∀ h ∈ helpers, ∃ x : Builtin, h = x.helper)
    (h : runFor (CodeBlock.linkage m helpers) r true n (start r m.slots.length c) = .running s) :
    s.context.machine.router = c.machine.router := by
  induction n generalizing s with
  | zero =>
    cases h
    rfl
  | succ n ih =>
    rw [runFor_succ] at h
    split at h
    · next u hu =>
      rw [← (CodeBlock.linkage m helpers).doing_body] at h
      obtain ⟨-, -, hmoves⟩ := ((reached_of_runFor hu).watched hr harity).of_step hr harity h
      rw [hmoves.router hbuiltin, ih hu]
    · next hdone => exact absurd h (hdone s)

end Execution

/-! ### Blocks that end -/

namespace CodeBlock
open MicroBlock.Execution

/-- A loaded block ends on every machine, whatever the helpers do, exactly if the flow of its code does not come
    round. It then returns or fails within the limit, and crashes only where the router rejects faults. -/
theorem execute_ends_iff {l : Loader} {name : String} {data : Bytes} {b : CodeBlock} (hl : l.helpers = .builtin)
    (hload : (l.load name data).1 = .ok b) :
    ∃ r, routine? b.routines Module.executeMethod = some r ∧
      (∀ c, (∃ k, ∀ n s, Reached (linkage b.module b.helpers) r (start r b.module.slots.length c) n s → n ≤ k) ↔
        ¬ r.LoopsFrom r.code) ∧
      (¬ r.LoopsFrom r.code → ∀ c, (∃ n, (b.execute c).1 = .ok n) ∨
        ∃ e, (b.execute c).1 = .error e ∧ e ≠ .unfinished ∧ (e = .crash → c.machine.router = .reject)) := by
  have hloaded := Loader.load_eq_ok hload
  obtain ⟨r, hr⟩ := hloaded.exists_routine
  obtain ⟨hname, hverified, me, hme, hcode⟩ := hloaded.of_routine? hr
  have hbuiltin : ∀ h ∈ b.helpers, ∃ x : Builtin, h = x.helper := by
    intro h hh
    have := Loader.resolve_mem hloaded.resolved h hh
    rw [hl] at this
    obtain ⟨x, -, hx⟩ := List.mem_map.mp this
    exact ⟨x, hx.symm⟩
  have harity := Builtin.arity_nonneg hbuiltin
  -- An instruction takes a byte at least, so the limit is past the whole code.
  have hlength : r.code.length + 1 < stepLimit := by
    obtain ⟨⟨-, hsize, -⟩, -⟩ := Module.steady_module _ _ _ (Module.decode_eq_ok.mp hloaded.decoded)
    have h₁ := hsize me hme
    have h₂ := (Code.length_decodeFrom hcode).1
    simp only [Module.maxMethodBytes, stepLimit, List.length_nil] at *
    omega
  -- Where the flow does not come round, each step leaves one place behind.
  have hbound (hloops : ¬ r.LoopsFrom r.code) {c n s}
      (hs : Reached (linkage b.module b.helpers) r (start r b.module.slots.length c) n s) : n ≤ r.code.length + 1 := by
    have := (hs.ahead_le hverified harity hloops).2
    have := r.ahead_le
    omega
  refine ⟨r, hr, fun c => ⟨?_, fun hloops => ⟨_, fun n s => hbound hloops⟩⟩, fun hloops c => ?_⟩
  · rintro ⟨k, hk⟩ hloops
    obtain ⟨s, hs, -⟩ := exists_reached hverified harity hloops c (k + 1)
    exact absurd (hk _ s hs) (by omega)
  · rw [execute_eq hr hname]
    split
    · exact .inl ⟨_, rfl⟩
    · next e c' hrun =>
      obtain ⟨k, -, s, hk, hstep⟩ := exists_last hrun (fun t ht => by cases ht)
      have hsafe := ((reached_of_runFor hk).watched hverified harity).step_safe hverified harity Helper.body
      rw [(linkage b.module b.helpers).doing_body, hstep] at hsafe
      obtain ⟨h, hh, args, f, hargs, hbody, rfl⟩ := hsafe
      refine .inr ⟨_, rfl, ?_, fun hcrash => ?_⟩
      · cases f <;> simp [Error.ofFailure]
      · obtain ⟨x, rfl⟩ := hbuiltin h hh
        cases f with
        | crash =>
          have hlen : args.length = x.arity.toNat := by
            rw [← show x.helper.arity = x.arity from rfl, ← hargs, Int.toNat_natCast]
          rw [← router_of_runFor hverified harity hbuiltin hk]
          exact Builtin.router_of_crash hlen hbody
        | fault | error => cases hcrash
    · next s hrun =>
      have := hbound hloops (reached_of_runFor hrun)
      omega

theorem execute_ends_iff_dividing : ∃ data b r, dividing.encode = .ok data ∧
    (Loader.load { helpers := .builtin } "u" data).1 = .ok b ∧ routine? b.routines Module.executeMethod = some r ∧
    ¬ r.LoopsFrom r.code ∧
    (∀ c, ∃ k, ∀ n s, Reached (linkage b.module b.helpers) r (start r b.module.slots.length c) n s → n ≤ k) ∧
    ∀ c, (∃ n, (b.execute c).1 = .ok n) ∨
      ∃ e, (b.execute c).1 = .error e ∧ e ≠ .unfinished ∧ (e = .crash → c.machine.router = .reject) := by
  have hok : dividing.encode.toOption.any (fun data =>
      (Loader.load { helpers := .builtin } "u" data).1.toOption.any fun b =>
        (routine? b.routines Module.executeMethod).any fun r =>
          r.guards.all fun g => g.last.toInt ≤ g.target.toInt) = true := by decide +kernel
  obtain ⟨data, hdata, hload⟩ := exists_ok_of_any hok
  obtain ⟨b, hb, hguards⟩ := exists_ok_of_any hload
  obtain ⟨r, hr, hiff, hends⟩ := execute_ends_iff rfl hb
  have hforward : ∀ g ∈ r.guards, g.last.toInt ≤ g.target.toInt := by
    rw [hr] at hguards
    simpa using hguards
  have hloops := Routine.not_loopsFrom_of_forward ((Loader.load_eq_ok hb).of_routine? hr).2.1 hforward
  exact ⟨data, b, r, hdata, hb, hr, hloops, fun c => (hiff c).mpr hloops, hends hloops⟩

/-! ### A block that does not end -/

theorem runFor_of_invariant {l : Linkage} {r : Routine} {P : State → Prop}
    (hstep : ∀ s, P s → ∃ t, step l r true s = .running t ∧ P t) {s : State} (hs : P s) (n : Nat) :
    ∃ t, runFor l r true n s = .running t ∧ P t := by
  induction n generalizing s with
  | zero => exact ⟨s, rfl, hs⟩
  | succ n ih =>
    obtain ⟨t, ht, hP⟩ := hstep s hs
    obtain ⟨u, hu, hPu⟩ := ih hP
    exact ⟨u, by rw [runFor, ht]; exact hu, hPu⟩

/-- Divides zero by zero, and starts again at the fault. -/
def spinning : Module := .ofExecute [] ["divq32"] [.push 0, .push 0, .call 0, .ret] [⟨4, 6, 0⟩]

/-- The execute routine of `spinning`, under any name. -/
def spin (name : ByteString) : Routine :=
  ⟨name, [⟨0, .push 0, 2⟩, ⟨2, .push 0, 2⟩, ⟨4, .call 0, 2⟩, ⟨6, .ret, 1⟩], [⟨4, 6, 0⟩]⟩

/-- A run of `spinning` is on the way to its division. -/
inductive Spins (name : ByteString) : State → Prop
  | mk (k : Fin 3) (slots : Array Value) (pending : Option Fault) (c : Context) :
    Spins name ⟨(spin name).code.drop k, List.replicate k (.ofUInt32 0), slots, pending, c⟩

theorem Spins.next {l : Linkage} (hl : l.helpers = [Builtin.divq32.helper]) {name : ByteString} {s : State}
    (h : Spins name s) : ∃ t, step l (spin name) true s = .running t ∧ Spins name t := by
  obtain ⟨constants, units, helpers⟩ := l
  cases hl
  obtain ⟨k, slots, pending, c⟩ := h
  fin_cases k
  · exact ⟨_, rfl, .mk 1 slots pending c⟩
  · exact ⟨_, rfl, .mk 2 slots pending c⟩
  · exact ⟨_, rfl, .mk 0 slots (some .divideError) ⟨c.machine, "divq32" :: c.calls⟩⟩

/-- A loaded block with a guard that leads back to the code it guards runs for ever on every machine. -/
theorem execute_endless : ∃ data b r, spinning.encode = .ok data ∧
    (Loader.load { helpers := .builtin } "u" data).1 = .ok b ∧ routine? b.routines Module.executeMethod = some r ∧
    ∀ c, (∀ n, ∃ s, runFor (linkage b.module b.helpers) r true n (start r b.module.slots.length c) = .running s) ∧
      (b.execute c).1 = .error .unfinished := by
  have hok : spinning.encode.toOption.any (fun data =>
      (Loader.load { helpers := .builtin } "u" data).1.toOption.any fun b =>
        (b.helpers.map (·.name) == ["divq32"]) && (routine? b.routines Module.executeMethod).any fun r =>
          (r.code == (spin r.name).code) && (r.guards == (spin r.name).guards)) = true := by decide +kernel
  obtain ⟨data, hdata, hload⟩ := exists_ok_of_any hok
  obtain ⟨b, hb, hmade⟩ := exists_ok_of_any hload
  have hloaded := Loader.load_eq_ok hb
  obtain ⟨r, hr⟩ := hloaded.exists_routine
  obtain ⟨hname, -⟩ := hloaded.of_routine? hr
  simp only [hr, Option.any_some, Bool.and_eq_true, beq_iff_eq] at hmade
  obtain ⟨hnames, hcode, hguards⟩ := hmade
  obtain ⟨name, rfl⟩ : ∃ name, r = spin name := by
    obtain ⟨name, code, guards⟩ := r
    cases hcode
    cases hguards
    exact ⟨name, rfl⟩
  have hhelpers : b.helpers = [Builtin.divq32.helper] := by
    obtain ⟨h, hh, hdiv⟩ := List.map_eq_singleton_iff.mp hnames
    have hmem := Loader.resolve_mem hloaded.resolved h (by rw [hh]; exact List.mem_cons_self)
    obtain ⟨x, -, rfl⟩ := List.mem_map.mp hmem
    rw [hh, show x = .divq32 from Builtin.name_inj hdiv]
  have hendless (c : Context) (n : Nat) :
      ∃ s, runFor (linkage b.module b.helpers) (spin name) true n (start (spin name) b.module.slots.length c) =
        .running s := by
    have hstart : Spins name (start (spin name) b.module.slots.length c) := .mk 0 _ none c
    have hstep : ∀ s, Spins name s → ∃ t, step (linkage b.module b.helpers) (spin name) true s = .running t ∧
        Spins name t := fun s => Spins.next hhelpers
    obtain ⟨s, hs, -⟩ := runFor_of_invariant hstep hstart n
    exact ⟨s, hs⟩
  refine ⟨data, b, spin name, hdata, hb, hr, fun c => ⟨hendless c, ?_⟩⟩
  obtain ⟨s, hs⟩ := hendless c stepLimit
  rw [execute_eq hr hname, hs]

end CodeBlock
end MicroBlock
