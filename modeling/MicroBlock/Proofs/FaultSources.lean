import Mathlib
import MicroBlock.Proofs.Courses
import MicroBlock.Proofs.Safety

/-! Where the faults come from that handlers ask for.

Verification lets a stretch of code ask for the pending fault if a guard leads to it. Runs come to the beginning of a
stretch only by catching a fault, or at their own beginning. So an instruction that asks for the pending fault finds the
fault that was caught last, except before the first return: there a guard may lead as well, and then the run has not
caught anything yet. -/

namespace MicroBlock

theorem Code.exists_decodeFrom {pc : Nat} {done l : List Placed} {code : Bytes} (h : decodeFrom pc done code = .ok l) :
    ∃ l', l = done.reverse ++ l' ∧ ∀ p ∈ l'.head?, p.pc = pc := by
  fun_induction decodeFrom pc done code with
  | case1 =>
    cases h
    exact ⟨[], (List.append_nil _).symm, fun _ hp => absurd hp (by simp)⟩
  | case2 => cases h
  | case3 pc done b rest p rest' hone ih =>
    obtain ⟨l', rfl, -⟩ := ih h
    refine ⟨p :: l', by simp, fun q hq => ?_⟩
    cases hq
    exact (decodeOne_placed hone).1

/-! ### Stretches -/

namespace Routine
variable {m : Module} {helpers : List Helper} {targets : List Int32} {p : Code.Placed} {pt : List Code.Placed}

/-- A stretch begins where the code begins and behind every return. -/
def Begins (r : Routine) (pt : List Code.Placed) : Prop :=
  ∃ before, r.code = before ++ pt ∧ ∀ p ∈ before.getLast?, p.instr = .ret

/-- The instructions up to the next return. -/
def stretch (pt : List Code.Placed) : List Code.Placed := pt.takeWhile (·.instr != .ret)

theorem stretch_cons (h : p.instr ≠ .ret) : stretch (p :: pt) = p :: stretch pt :=
  List.takeWhile_cons_of_pos (by simpa using h)

theorem stretch_ret (h : p.instr = .ret) : stretch (p :: pt) = [] :=
  List.takeWhile_cons_of_neg (by simpa using h)

theorem mem_stretch {n : Nat} {rest : List Code.Placed} (hdrop : pt.drop n = p :: rest)
    (htake : ∀ q ∈ pt.take n, q.instr ≠ .ret) (hp : p.instr ≠ .ret) : p ∈ stretch pt := by
  have hpos : ∀ q ∈ pt.take n, (q.instr != .ret) = true := fun q hq => bne_iff_ne.mpr (htake q hq)
  have hstretch : stretch pt = pt.take n ++ stretch (p :: rest) := by
    rw [stretch, stretch, ← List.takeWhile_append_of_pos hpos, ← hdrop, List.take_append_drop]
  rw [hstretch, stretch_cons hp]
  exact List.mem_append_right _ List.mem_cons_self

/-- Outside of handlers the verifier lets no instruction ask for the fault. -/
theorem instr_ne_fault {pos : Position} (h : checkCode m helpers targets pos pt = .ok ())
    (hpos : ∀ p ∈ pt.head?, ∀ depth inHandler, enter targets p.pc pos = .ok (depth, inHandler) → inHandler = false) :
    ∀ p ∈ stretch pt, p.instr ≠ .fault := by
  induction pt generalizing pos with
  | nil => exact fun _ hp => absurd hp List.not_mem_nil
  | cons q pt ih =>
    obtain ⟨pos', hinstr, hrest⟩ := checkCode_cons.mp h
    obtain ⟨depth, inHandler, henter, hcases⟩ := checkInstr_eq_ok hinstr
    obtain rfl := hpos q rfl depth inHandler henter
    rcases hcases with ⟨hret, -, -⟩ | ⟨hret, pops, pushes, huse, -, rfl⟩
    · rw [stretch_ret hret]
      exact fun _ hp => absurd hp List.not_mem_nil
    · rw [stretch_cons hret, List.forall_mem_cons]
      constructor
      · intro hfault
        rw [hfault] at huse
        cases huse
      · exact ih hrest fun p _ depth' inHandler' henter' => (enter_inside henter').2.2

/-- The verifier comes to the beginning of a stretch between two stretches. -/
theorem checkCode_begins {before : List Code.Placed} {pos : Position}
    (h : checkCode m helpers targets pos (before ++ pt) = .ok ()) (hpos : before = [] → pos = .between)
    (hlast : ∀ p ∈ before.getLast?, p.instr = .ret) : checkCode m helpers targets .between pt = .ok () := by
  induction before generalizing pos with
  | nil => exact hpos rfl ▸ h
  | cons q before ih =>
    obtain ⟨pos', hinstr, hrest⟩ := checkCode_cons.mp h
    obtain ⟨depth, inHandler, -, hcases⟩ := checkInstr_eq_ok hinstr
    refine ih hrest (fun hnil => ?_) (fun p hp => hlast p ?_)
    · subst hnil
      rcases hcases with ⟨-, -, hbetween⟩ | ⟨hret, -⟩
      · exact hbetween
      · exact absurd (hlast q rfl) hret
    · cases before with
      | nil => cases hp
      | cons q' before => rwa [List.getLast?_cons_cons]

/-- Where an instruction asks for the fault, a guard leads to the beginning of its stretch. -/
theorem Verified.exists_guard {r : Routine} (hr : r.Verified m helpers) (hpt : r.Begins pt) (hp : p ∈ stretch pt)
    (hfault : p.instr = .fault) : ∃ g ∈ r.guards, (∀ q ∈ pt.head?, g.target.toInt = q.pc) ∧ r.codeFrom g.target = pt := by
  obtain ⟨before, hcode, hlast⟩ := hpt
  cases pt with
  | nil => exact absurd hp List.not_mem_nil
  | cons q pt =>
    have hchecked := checkCode_begins (hcode ▸ hr.checked) (fun _ => rfl) hlast
    obtain ⟨g, hg, htarget⟩ : ∃ g ∈ r.guards, g.target.toInt = q.pc := by
      by_contra hnone
      refine instr_ne_fault hchecked (fun p' hp' depth inHandler henter => ?_) p hp hfault
      cases hp'
      have hany : (r.guards.map (·.target)).any (·.toInt == (q.pc : Int)) = false := by
        simpa using fun g hg => not_exists.mp hnone g ∘ (⟨hg, ·⟩)
      simp only [enter, hany] at henter
      split at henter <;> cases henter
      rfl
    refine ⟨g, hg, fun q' hq' => by cases hq'; exact htarget, ?_⟩
    have hsorted := hr.sorted
    rw [hcode, List.pairwise_append] at hsorted
    have hdrop : ∀ x ∈ before, (g.target.toInt != x.pc) = true := by
      intro x hx
      have := hsorted.2.2 x hx q List.mem_cons_self
      rw [bne_iff_ne]
      omega
    rw [codeFrom, hcode, List.dropWhile_append_of_pos hdrop]
    exact List.dropWhile_cons_of_neg (by simpa using htarget)

/-- Where an instruction asks for the fault before the first return, a guard leads to the beginning of the code. -/
theorem Verified.exists_guard_zero {r : Routine} (hr : r.Verified m helpers) (hfirst : ∀ q ∈ r.code.head?, q.pc = 0)
    (hp : p ∈ stretch r.code) (hfault : p.instr = .fault) : ∃ g ∈ r.guards, g.target = 0 := by
  have hbegins : r.Begins r.code := ⟨[], rfl, fun _ h => absurd h (by simp)⟩
  obtain ⟨g, hg, htarget, -⟩ := hr.exists_guard hbegins hp hfault
  obtain ⟨q, code, hcode⟩ := List.exists_cons_of_ne_nil hr.nonempty
  have hhead : q ∈ r.code.head? := by rw [hcode, List.head?_cons, Option.mem_some_iff]
  refine ⟨g, hg, Int32.toInt_inj.mp ?_⟩
  rw [htarget q hhead, hfirst q hhead]
  rfl

end Routine

/-! ### Faults that are caught -/

namespace Execution
variable {l : Linkage} {r : Routine} {s t : State} {n : Nat}

/-- The next instruction is a call that faults under a guard. -/
def Catches (l : Linkage) (r : Routine) (s : State) (f : Fault) : Prop :=
  ∃ p rest i h args below c target, s.rest = p :: rest ∧ p.instr = .call i ∧ Routine.nth? l.helpers i = some h ∧
    h.arguments? s.stack = some (args, below) ∧ h.call args s.context = (.error (.fault f), c) ∧
    r.target? p.pc = some target

/-- What a call makes of the pending fault. -/
theorem call_running {pc : Nat} {rest : List Code.Placed} {h : Helper} (hcall : call r s pc rest h = .running t) :
    (∃ args below v c, h.arguments? s.stack = some (args, below) ∧ h.call args s.context = (.ok v, c) ∧
        t.pending = s.pending ∧ t.rest = rest) ∨
      ∃ args below f c target, h.arguments? s.stack = some (args, below) ∧
        h.call args s.context = (.error (.fault f), c) ∧ r.target? pc = some target ∧ t.pending = some f ∧
        t.rest = r.codeFrom target := by
  unfold call at hcall
  split at hcall
  · cases hcall
  next args below hargs =>
  split at hcall
  · next v c hok =>
    cases hcall
    exact .inl ⟨args, below, v, c, hargs, hok, rfl, rfl⟩
  · next f c hfault =>
    split at hcall
    · cases hcall
    · next target htarget =>
      cases hcall
      exact .inr ⟨args, below, f, c, target, hargs, hfault, htarget, rfl, rfl⟩
  · cases hcall
  · cases hcall

/-- A run goes on at a target with the fault that it caught, or behind the instruction with the fault it had. -/
theorem running_cases (h : step l r true s = .running t) :
    (∃ f target, Catches l r s f ∧ t.pending = some f ∧ t.rest = r.codeFrom target) ∨
      ((∀ f, ¬Catches l r s f) ∧ t.pending = s.pending ∧ ∃ p, s.rest = p :: t.rest ∧ p.instr ≠ .ret) := by
  cases hrest : s.rest with
  | nil =>
    simp only [step, hrest] at h
    cases h
  | cons p rest =>
    obtain ⟨hret, -, hleads⟩ := step_running hrest h
    by_cases hcall : ∃ i, p.instr = .call i
    · obtain ⟨i, hi⟩ := hcall
      cases hh : Routine.nth? l.helpers i with
      | none =>
        simp only [step, hrest, hi, hh] at h
        cases h
      | some helper =>
        simp only [step, hrest, hi, hh] at h
        rcases call_running h with ⟨args, below, v, c, hargs, hok, hpending, hnext⟩ |
          ⟨args, below, f, c, target, hargs, hfault, htarget, hpending, hnext⟩
        · refine .inr ⟨?_, hpending, p, by rw [hnext], hret⟩
          rintro f ⟨p', rest', i', h', args', below', c', target', hrest', hi', hh', hargs', hfault, -⟩
          obtain ⟨rfl, rfl⟩ := List.cons.inj (hrest.symm.trans hrest')
          obtain rfl := Instr.call.inj (hi.symm.trans hi')
          obtain rfl := Option.some.inj (hh.symm.trans hh')
          obtain ⟨rfl, rfl⟩ := Prod.mk.inj (Option.some.inj (hargs.symm.trans hargs'))
          cases (Prod.mk.inj (hok.symm.trans hfault)).1
        · exact .inl ⟨f, target, ⟨p, rest, i, helper, args, below, c, target, hrest, hi, hh, hargs, hfault, htarget⟩,
            hpending, hnext⟩
    · rcases hleads with ⟨hnext, hpending⟩ | ⟨i, -, -, hi, -⟩
      · refine .inr ⟨?_, hpending, p, by rw [hnext], hret⟩
        rintro f ⟨p', rest', i, -, -, -, -, -, hrest', hi, -⟩
        obtain ⟨rfl, -⟩ := List.cons.inj (hrest.symm.trans hrest')
        exact hcall ⟨i, hi⟩
      · exact absurd ⟨i, hi⟩ hcall

/-! ### Runs -/

/-- Until the first fault is caught a run is in the first stretch of the code. -/
theorem Reached.straight {units : Nat} {c : Context} (h : Reached l r (start r units c) n s) (hnone : s.pending = none) :
    s.rest = r.code.drop n ∧ ∀ p ∈ r.code.take n, p.instr ≠ .ret := by
  obtain ⟨ps, rfl, hcourse⟩ := h.exists_course
  have hcode : r.code = ps ++ s.rest := (hcourse.straight hnone).2
  rw [hcode, List.drop_left, List.take_left]
  exact ⟨rfl, hcourse.ret_notMem⟩

theorem Reached.suffix {units : Nat} {c : Context} (h : Reached l r (start r units c) n s) : s.rest <:+ r.code := by
  induction h with
  | refl => exact List.suffix_refl _
  | tail act _ hstep ih =>
    rcases running_cases hstep with ⟨-, target, -, -, hrest⟩ | ⟨-, -, p, hrest, -⟩
    · rw [hrest]
      exact List.dropWhile_suffix _
    · exact (hrest ▸ List.suffix_cons p _).trans ih

/-- Runs come to the beginning of a stretch by catching a fault. -/
theorem catches_of_begins (hs : s.rest <:+ r.code) (h : step l r true s = .running t) (ht : r.Begins t.rest) :
    ∃ f, Catches l r s f ∧ t.pending = some f := by
  rcases running_cases h with ⟨f, -, hcatch, hpending, -⟩ | ⟨-, -, p, hrest, hret⟩
  · exact ⟨f, hcatch, hpending⟩
  · obtain ⟨a, ha⟩ := hs
    obtain ⟨before, hbefore, hlast⟩ := ht
    have hcode : a ++ [p] ++ t.rest = before ++ t.rest := by
      rw [← hbefore, ← ha, hrest, List.append_assoc, List.singleton_append]
    have heq := List.append_cancel_right hcode
    exact absurd (hlast p (by simp [← heq])) hret

/-- No fault was caught in the first `n` instructions of a run. -/
def NoneCaught (l : Linkage) (r : Routine) (s₀ : State) (n : Nat) : Prop :=
  ∀ k u f, k < n → runFor l r true k s₀ = .running u → ¬Catches l r u f

/-- A fault was caught in the first `n` instructions of a run, and no other after it. -/
def LastCaught (l : Linkage) (r : Routine) (s₀ : State) (n : Nat) (f : Fault) : Prop :=
  ∃ k u, k < n ∧ runFor l r true k s₀ = .running u ∧ Catches l r u f ∧
    ∀ j v g, k < j → j < n → runFor l r true j s₀ = .running v → ¬Catches l r v g

/-- The pending fault is the one that was caught last. -/
theorem pending_eq {s₀ : State} (hs₀ : s₀.pending = none) (h : runFor l r true n s₀ = .running s) :
    (s.pending = none → NoneCaught l r s₀ n) ∧ ∀ f, s.pending = some f → LastCaught l r s₀ n f := by
  induction n generalizing s with
  | zero =>
    cases h
    refine ⟨fun _ k _ _ hk => absurd hk k.not_lt_zero, fun f hf => ?_⟩
    rw [hs₀] at hf
    cases hf
  | succ n ih =>
    rw [runFor_succ] at h
    split at h
    · next u hu =>
      obtain ⟨hnone, hsome⟩ := ih hu
      -- What holds of the instructions before the last holds of all, unless the last one catches a fault.
      have hlast {k : Nat} {v : State} {g : Fault} (hcatch : ¬Catches l r u g) (hk : k < n + 1)
          (hearlier : k < n → ¬Catches l r v g) (hv : runFor l r true k s₀ = .running v) : ¬Catches l r v g := by
        rcases Nat.lt_succ_iff_lt_or_eq.mp hk with hlt | rfl
        · exact hearlier hlt
        · cases hu.symm.trans hv
          exact hcatch
      rcases running_cases h with ⟨f, -, hcatch, hpending, -⟩ | ⟨hcatch, hpending, -⟩
      · refine ⟨fun h => ?_, fun g hg => ?_⟩
        · rw [hpending] at h
          cases h
        · obtain rfl := Option.some.inj (hpending.symm.trans hg)
          exact ⟨n, u, n.lt_succ_self, hu, hcatch, fun j _ _ hj hj' => absurd hj' (by omega)⟩
      · rw [hpending]
        refine ⟨fun h k v f hk hv => hlast (hcatch f) hk (fun hlt => hnone h k v f hlt hv) hv, fun f hf => ?_⟩
        obtain ⟨k, v, hk, hv, hcaught, hafter⟩ := hsome f hf
        exact ⟨k, v, hk.trans n.lt_succ_self, hv, hcaught, fun j w g hj hj' hw =>
          hlast (hcatch g) hj' (fun hlt => hafter j w g hj hlt hw) hw⟩
    · next hdone => exact absurd h (hdone s)

/-- The next instruction asks for the pending fault. -/
def State.AsksFault (s : State) : Prop := ∃ p rest, s.rest = p :: rest ∧ p.instr = .fault

theorem State.AsksFault.step_eq (h : s.AsksFault) :
    ∃ rest, step l r true s = .running { s with rest, stack := .fault s.pending :: s.stack } := by
  obtain ⟨p, rest, hrest, hfault⟩ := h
  exact ⟨rest, by simp only [step, hrest, hfault, State.next]⟩

/-- A run that asks for a fault without having caught one does so in the first stretch. -/
theorem Reached.exists_fault {units : Nat} {c : Context} (h : Reached l r (start r units c) n s) (hasks : s.AsksFault)
    (hnone : s.pending = none) : ∃ p ∈ Routine.stretch r.code, p.instr = .fault := by
  obtain ⟨p, rest, hrest, hfault⟩ := hasks
  obtain ⟨hdrop, htake⟩ := h.straight hnone
  have hret : p.instr ≠ .ret := by
    rw [hfault]
    exact Instr.noConfusion
  exact ⟨p, Routine.mem_stretch (hdrop ▸ hrest) htake hret, hfault⟩

/-! ### Runs without a fault -/

section Straight
variable {m : Module} {helpers : List Helper}

/-- Where helpers give a value, a run goes on behind every instruction but a return. -/
theorem Watched.goes_on (harity : ∀ h ∈ helpers, 0 ≤ h.arity) (h : Watched m helpers r s) {p : Code.Placed}
    {rest : List Code.Placed} (hrest : s.rest = p :: rest) (hret : p.instr ≠ .ret) :
    ∃ act t, step ((CodeBlock.linkage m helpers).doing act) r true s = .running t ∧ t.rest = rest ∧
      t.pending = s.pending := by
  obtain ⟨p', rest', hrest', hallows, -⟩ := h.next harity
  obtain ⟨rfl, rfl⟩ := List.cons.inj (hrest.symm.trans hrest')
  have hfollows := step_follows (fun _ _ m => .ok (.zero, m)) r hrest hret hallows
  cases hstep : step ((CodeBlock.linkage m helpers).doing fun _ _ m => .ok (.zero, m)) r true s with
  | returned v c =>
    rw [hstep] at hfollows
    cases hfollows
  | failed e c =>
    rw [hstep] at hfollows
    obtain ⟨h, -, args, f, -, hbody, -⟩ := hfollows
    cases hbody
  | running t =>
    refine ⟨_, t, hstep, ?_⟩
    rcases running_cases hstep with ⟨f, -, hcatch, -⟩ | ⟨-, hpending, p', hnext, -⟩
    · obtain ⟨-, -, i, h, args, -, c, -, -, -, hh, -, hcall, -⟩ := hcatch
      obtain ⟨-, -, hget⟩ := Routine.nth?_eq_some hh
      obtain ⟨h', -, rfl⟩ := List.mem_map.mp (List.mem_of_getElem? hget)
      cases (Prod.mk.inj hcall).1
    · obtain ⟨-, rfl⟩ := List.cons.inj (hrest.symm.trans hnext)
      exact ⟨rfl, hpending⟩

/-- Helpers can lead a run through the first stretch without a fault. -/
theorem exists_reached_straight (hr : r.Verified m helpers) (harity : ∀ h ∈ helpers, 0 ≤ h.arity) (c : Context) {n : Nat}
    (hn : n < (Routine.stretch r.code).length) :
    ∃ s, Reached (CodeBlock.linkage m helpers) r (start r m.slots.length c) n s ∧ s.rest = r.code.drop n ∧
      s.pending = none := by
  induction n with
  | zero => exact ⟨_, .refl, rfl, rfl⟩
  | succ n ih =>
    obtain ⟨s, hs, hrest, hpending⟩ := ih (by omega)
    have hfirstPart : Routine.stretch r.code <+: r.code := List.takeWhile_prefix _
    have hlt : n < (Routine.stretch r.code).length := by omega
    have hlt' : n < r.code.length := hlt.trans_le hfirstPart.length_le
    have hret : r.code[n].instr ≠ .ret := by
      have hmem : r.code[n] ∈ Routine.stretch r.code := by
        rw [← hfirstPart.getElem hlt]
        exact List.getElem_mem hlt
      simpa using List.mem_takeWhile_imp hmem
    rw [List.drop_eq_getElem_cons hlt'] at hrest
    obtain ⟨act, t, hstep, hnext, hsame⟩ := (hs.watched hr harity).goes_on harity hrest hret
    exact ⟨t, .tail act hs hstep, hnext, hsame.trans hpending⟩

end Straight
end Execution

/-! ### Loaded blocks -/

namespace CodeBlock
open MicroBlock.Execution

/-- In every run of a loaded block an instruction that asks for the pending fault gets the fault that was caught last,
    unless the run caught none: then it is still in the first stretch, and a guard leads to the beginning of the code.
    Where an instruction asks for the fault, a guard leads to its stretch, and a run comes to the beginning of a
    stretch only by catching a fault. So no run, whatever the helpers do, asks for a fault that is not there, exactly
    if no instruction of the first stretch asks for one. -/
theorem pending_fault_caught {l : Loader} {name : String} {data : Bytes} {b : CodeBlock}
    (hload : (l.load name data).1 = .ok b) :
    ∃ r, routine? b.routines Module.executeMethod = some r ∧
      (∀ c n s, runFor (linkage b.module b.helpers) r true n (start r b.module.slots.length c) = .running s →
        s.AsksFault →
        (∃ f rest, LastCaught (linkage b.module b.helpers) r (start r b.module.slots.length c) n f ∧
          step (linkage b.module b.helpers) r true s = .running { s with rest, stack := .fault (some f) :: s.stack }) ∨
        (NoneCaught (linkage b.module b.helpers) r (start r b.module.slots.length c) n ∧
          s.rest = r.code.drop n ∧ (∀ p ∈ r.code.take n, p.instr ≠ .ret) ∧ ∃ g ∈ r.guards, g.target = 0)) ∧
      (∀ pt p, r.Begins pt → p ∈ Routine.stretch pt → p.instr = .fault → ∃ g ∈ r.guards, r.codeFrom g.target = pt) ∧
      (∀ c n s t, runFor (linkage b.module b.helpers) r true n (start r b.module.slots.length c) = .running s →
        step (linkage b.module b.helpers) r true s = .running t → r.Begins t.rest →
        ∃ f, Catches (linkage b.module b.helpers) r s f ∧ t.pending = some f) ∧
      ((∀ h ∈ b.helpers, 0 ≤ h.arity) →
        ((∀ c n s, Reached (linkage b.module b.helpers) r (start r b.module.slots.length c) n s → s.AsksFault →
            ∃ f, s.pending = some f) ↔
          ∀ p ∈ Routine.stretch r.code, p.instr ≠ .fault)) := by
  have hloaded := Loader.load_eq_ok hload
  obtain ⟨r, hr⟩ := hloaded.exists_routine
  obtain ⟨-, hverified, me, -, hdecode⟩ := hloaded.of_routine? hr
  -- Decoding begins at the offset zero.
  have hfirst : ∀ p ∈ r.code.head?, p.pc = 0 := by
    obtain ⟨code, hcode, hpc⟩ := Code.exists_decodeFrom hdecode
    rw [List.reverse_nil, List.nil_append] at hcode
    rwa [hcode]
  refine ⟨r, hr, ?_, ?_, ?_, fun harity => ⟨?_, ?_⟩⟩
  · intro c n s hrun hasks
    obtain ⟨hnone, hsome⟩ := pending_eq rfl hrun
    obtain ⟨rest, hstep⟩ := hasks.step_eq
    cases hpending : s.pending with
    | some f =>
      rw [hpending] at hstep
      exact .inl ⟨f, rest, hsome f hpending, hstep⟩
    | none =>
      have hreached := reached_of_runFor hrun
      obtain ⟨hdrop, htake⟩ := hreached.straight hpending
      obtain ⟨p, hp, hfault⟩ := hreached.exists_fault hasks hpending
      exact .inr ⟨hnone hpending, hdrop, htake, hverified.exists_guard_zero hfirst hp hfault⟩
  · intro pt p hpt hp hfault
    obtain ⟨g, hg, -, hfrom⟩ := hverified.exists_guard hpt hp hfault
    exact ⟨g, hg, hfrom⟩
  · intro c n s t hrun hstep ht
    exact catches_of_begins (reached_of_runFor hrun).suffix hstep ht
  · intro h p hp hfault
    obtain ⟨n, hn, rfl⟩ := List.mem_iff_getElem.mp hp
    have hfirstPart : Routine.stretch r.code <+: r.code := List.takeWhile_prefix _
    -- Helpers that do not fault lead a run straight to the instruction, with no fault caught.
    obtain ⟨s, hs, hrest, hnone⟩ :=
      exists_reached_straight hverified harity ⟨.reset (.ofSize 0), []⟩ hn
    rw [List.drop_eq_getElem_cons (hn.trans_le hfirstPart.length_le)] at hrest
    rw [hfirstPart.getElem hn] at hfault
    obtain ⟨f, hf⟩ := h _ n s hs ⟨_, _, hrest, hfault⟩
    rw [hnone] at hf
    cases hf
  · intro h c n s hs hasks
    cases hpending : s.pending with
    | some f => exact ⟨f, rfl⟩
    | none =>
      obtain ⟨p, hp, hfault⟩ := hs.exists_fault hasks hpending
      exact absurd hfault (h p hp)

theorem pending_fault_caught_dividing : ∃ data b r, dividing.encode = .ok data ∧
    (Loader.load { helpers := .builtin } "u" data).1 = .ok b ∧ routine? b.routines Module.executeMethod = some r ∧
    (∃ p ∈ r.code, p.instr = .fault) ∧
    ∀ c n s, runFor (linkage b.module b.helpers) r true n (start r b.module.slots.length c) = .running s → s.AsksFault →
      ∃ f, LastCaught (linkage b.module b.helpers) r (start r b.module.slots.length c) n f := by
  have hok : dividing.encode.toOption.any (fun data =>
      (Loader.load { helpers := .builtin } "u" data).1.toOption.any fun b =>
        (routine? b.routines Module.executeMethod).any fun r =>
          r.code.any (·.instr == .fault) && r.guards.all (·.target != 0)) = true := by decide +kernel
  obtain ⟨data, hdata, hload⟩ := exists_ok_of_any hok
  obtain ⟨b, hb, hmade⟩ := exists_ok_of_any hload
  obtain ⟨r, hr, hruns, -⟩ := pending_fault_caught hb
  simp only [hr, Option.any_some, Bool.and_eq_true, List.any_eq_true, List.all_eq_true, beq_iff_eq, bne_iff_ne] at hmade
  refine ⟨data, b, r, hdata, hb, hr, hmade.1, fun c n s hrun hasks => ?_⟩
  rcases hruns c n s hrun hasks with ⟨f, -, hcaught, -⟩ | ⟨-, -, -, g, hg, hzero⟩
  · exact ⟨f, hcaught⟩
  · exact absurd hzero (hmade.2 g hg)

/-- Asks for the pending fault at once; a guard over that leads back to it. -/
def faultless : Module := .ofExecute [] [] [.fault, .ret] [⟨0, 1, 0⟩]

/-- A block is loaded that asks for a fault at the beginning of every run. -/
theorem asks_without_fault : ∃ data b r, faultless.encode = .ok data ∧
    (Loader.load { helpers := .builtin } "u" data).1 = .ok b ∧ routine? b.routines Module.executeMethod = some r ∧
    ∀ c, (start r b.module.slots.length c).AsksFault ∧
      ∃ s, step (linkage b.module b.helpers) r true (start r b.module.slots.length c) = .running s ∧
        s.stack = [.fault none] := by
  have hok : faultless.encode.toOption.any (fun data =>
      (Loader.load { helpers := .builtin } "u" data).1.toOption.any fun b =>
        (routine? b.routines Module.executeMethod).any fun r => r.code.head?.any (·.instr == .fault)) = true := by
    decide +kernel
  obtain ⟨data, hdata, hload⟩ := exists_ok_of_any hok
  obtain ⟨b, hb, hmade⟩ := exists_ok_of_any hload
  obtain ⟨r, hr⟩ := (Loader.load_eq_ok hb).exists_routine
  simp only [hr, Option.any_some, Option.any_eq_true, beq_iff_eq] at hmade
  obtain ⟨p, hp, hfault⟩ := hmade
  obtain ⟨rest, hrest⟩ := List.head?_eq_some_iff.mp hp
  refine ⟨data, b, r, hdata, hb, hr, fun c => ?_⟩
  have hasks : (start r b.module.slots.length c).AsksFault := ⟨p, rest, hrest, hfault⟩
  obtain ⟨rest', hstep⟩ := hasks.step_eq
  exact ⟨hasks, _, hstep, rfl⟩

end CodeBlock
end MicroBlock
