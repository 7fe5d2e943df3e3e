import Mathlib
import MicroBlock.Loader.Basic
import MicroBlock.Proofs.Registers

/-! Verified code is safe to run.

The verifier walks the code once and knows the depth of the stack before every instruction. A run jumps, from any
call to the target of a guard, but there the verifier starts anew with an empty stack, as the run does. So its
depth is that of the stack at every moment of every run, whatever the helpers do. -/

namespace MicroBlock

/-! ### What verification says -/

theorem Code.length_decodeFrom {pc : Nat} {done l : List Placed} {code : Bytes} (h : decodeFrom pc done code = .ok l) :
    l.length ≤ done.length + code.length ∧ done.length ≤ l.length ∧ (code ≠ [] → done.length < l.length) := by
  fun_induction decodeFrom pc done code with
  | case1 =>
    cases h
    simp
  | case2 => cases h
  | case3 pc done b rest p rest' hone ih =>
    obtain ⟨hle, hge, -⟩ := ih h
    have := decodeOne_length hone
    simp only [List.length_cons] at hle hge ⊢
    omega

theorem Code.decodeOne_placed {pc : Nat} {b : UInt8} {rest rest' : Bytes} {p : Placed}
    (h : decodeOne pc b rest = .ok (p, rest')) : p.pc = pc ∧ 0 < p.size := by
  unfold decodeOne at h
  split at h
  · cases h
  split at h
  · split at h
    · cases h
    · cases h
      exact ⟨rfl, Nat.add_pos_left Nat.one_pos _⟩
  · cases h
    exact ⟨rfl, Nat.one_pos⟩

theorem Code.sorted_decodeFrom {pc : Nat} {done l : List Placed} {code : Bytes} (h : decodeFrom pc done code = .ok l)
    (hdone : done.reverse.Pairwise (·.pc < ·.pc)) (hlt : ∀ p ∈ done, p.pc < pc) : l.Pairwise (·.pc < ·.pc) := by
  fun_induction decodeFrom pc done code with
  | case1 =>
    cases h
    exact hdone
  | case2 => cases h
  | case3 pc done b rest p rest' hone ih =>
    obtain ⟨hpc, hsize⟩ := decodeOne_placed hone
    refine ih h ?_ ?_
    · rw [List.reverse_cons, List.pairwise_append]
      refine ⟨hdone, List.pairwise_singleton _ _, fun q hq p' hp' => ?_⟩
      rw [List.mem_singleton.mp hp', hpc]
      exact hlt q (List.mem_reverse.mp hq)
    · intro q hq
      rcases List.mem_cons.mp hq with rfl | hq
      · omega
      · have := hlt q hq
        omega

namespace Routine

/-- The routine of a method that passed verification: it has code in order, its guards lead to instructions, and
    the verifier gets through its code. -/
structure Verified (m : Module) (helpers : List Helper) (r : Routine) : Prop where
  nonempty : r.code ≠ []
  sorted : r.code.Pairwise (·.pc < ·.pc)
  targets : ∀ g ∈ r.guards, ∃ p ∈ r.code, g.target.toInt = p.pc
  checked : checkCode m helpers (r.guards.map (·.target)) .between r.code = .ok ()

theorem forM_eq_ok {α ε : Type} {f : α → Except ε Unit} {l : List α} (h : l.forM f = .ok ()) : ∀ a ∈ l, f a = .ok () := by
  induction l with
  | nil => exact fun _ h => absurd h List.not_mem_nil
  | cons b l ih =>
    rw [List.forM_eq_forM, List.forM_cons] at h
    simp only [bind, Except.bind] at h
    split at h
    · cases h
    next hb =>
    rintro a (_ | ⟨_, ha⟩)
    · exact hb
    · exact ih h a ha

theorem checkGuard_eq_ok {code : List Code.Placed} {size : Nat} {g : Guard} (h : checkGuard code size g = .ok ()) :
    ∃ p ∈ code, g.target.toInt = p.pc := by
  simp only [checkGuard] at h
  split at h
  · cases h
  split at h
  · cases h
  next htarget => simpa using htarget

theorem ofMethod_eq_ok {m : Module} {helpers : List Helper} {me : Method} {r : Routine} (h : ofMethod m helpers me = .ok r) :
    ∃ code, Code.decode me.code = .ok code ∧ r = ⟨me.name, code, me.guards⟩ ∧ r.Verified m helpers := by
  unfold ofMethod at h
  split at h
  · cases h
  next hcode =>
  split at h
  · cases h
  next code hdecode =>
  split at h
  · cases h
  next hguards =>
  split at h
  · cases h
  next hchecked =>
  cases h
  have hne : me.code ≠ [] := by simpa [Method.isPlaceholder] using hcode
  exact ⟨code, hdecode, rfl, List.ne_nil_of_length_pos ((Code.length_decodeFrom hdecode).2.2 hne),
    Code.sorted_decodeFrom hdecode .nil (fun _ h => absurd h List.not_mem_nil),
    fun g hg => checkGuard_eq_ok (forM_eq_ok hguards g hg), hchecked⟩

/-! ### The verifier at work -/

section Check
variable {m : Module} {helpers : List Helper} {targets : List Int32} {p : Code.Placed} {rest : List Code.Placed}

theorem checkCode_cons {pos : Position} : checkCode m helpers targets pos (p :: rest) = .ok () ↔
    ∃ pos', checkInstr m helpers targets pos p = .ok pos' ∧ checkCode m helpers targets pos' rest = .ok () := by
  cases hinstr : checkInstr m helpers targets pos p with
  | error e => cases pos <;> simp [checkCode, hinstr]
  | ok pos' => cases pos <;> simp [checkCode, hinstr]

/-- All that the verifier does with one instruction. -/
theorem checkInstr_eq_ok {pos pos' : Position} (h : checkInstr m helpers targets pos p = .ok pos') :
    ∃ depth inHandler, enter targets p.pc pos = .ok (depth, inHandler) ∧
      ((p.instr = .ret ∧ depth = 1 ∧ pos' = .between) ∨
        (p.instr ≠ .ret ∧ ∃ pops pushes, stackUse m helpers inHandler p.instr = .ok (pops, pushes) ∧ pops ≤ depth ∧
          pos' = .inside (depth + (pushes - pops)) inHandler)) := by
  unfold checkInstr at h
  split at h
  · cases h
  next depth inHandler henter =>
  refine ⟨depth, inHandler, henter, ?_⟩
  split at h
  · next hret =>
    split at h
    · next hdepth =>
      cases h
      exact .inl ⟨hret, hdepth, rfl⟩
    · cases h
  next hret =>
  split at h
  · cases h
  next pops pushes huse =>
  split at h
  · cases h
  next hpops =>
  cases h
  exact .inr ⟨hret, pops, pushes, huse, Int.not_lt.mp hpops, rfl⟩

theorem enter_between {pc : Nat} {depth : Int} {inHandler : Bool} (h : enter targets pc .between = .ok (depth, inHandler)) :
    depth = 0 := by
  simp only [enter] at h
  split at h
  · cases h
    rfl
  · cases h

theorem enter_inside {pc : Nat} {depth depth' : Int} {inHandler inHandler' : Bool}
    (h : enter targets pc (.inside depth inHandler) = .ok (depth', inHandler')) :
    (∀ t ∈ targets, t.toInt ≠ pc) ∧ depth' = depth ∧ inHandler' = inHandler := by
  simp only [enter] at h
  split at h
  · cases h
  next hnone =>
  cases h
  exact ⟨by simpa using hnone, rfl, rfl⟩

/-- The verifier comes to a target between two stretches, never inside one. -/
theorem checkCode_dropWhile {code : List Code.Placed} {pos : Position} (h : checkCode m helpers targets pos code = .ok ())
    {t : Int32} (ht : t ∈ targets) (hcode : code.dropWhile (fun p => t.toInt != p.pc) ≠ []) :
    checkCode m helpers targets .between (code.dropWhile fun p => t.toInt != p.pc) = .ok () := by
  induction code generalizing pos with
  | nil => exact absurd rfl hcode
  | cons q code ih =>
    obtain ⟨pos', hinstr, hrest⟩ := checkCode_cons.mp h
    by_cases hq : t.toInt = q.pc
    · rw [List.dropWhile_cons_of_neg (by simpa using hq)]
      cases pos with
      | between => exact h
      | inside depth inHandler =>
        obtain ⟨depth', inHandler', henter, -⟩ := checkInstr_eq_ok hinstr
        exact absurd hq ((enter_inside henter).1 t ht)
    · rw [List.dropWhile_cons_of_pos (by simpa using hq)] at hcode ⊢
      exact ih hrest hcode

end Check

theorem Verified.codeFrom_ne_nil {m : Module} {helpers : List Helper} {r : Routine} (h : r.Verified m helpers) {t : Int32}
    (ht : t ∈ r.guards.map (·.target)) : r.codeFrom t ≠ [] := by
  obtain ⟨g, hg, rfl⟩ := List.mem_map.mp ht
  obtain ⟨p, hp, hpc⟩ := h.targets g hg
  intro hnil
  have := List.dropWhile_eq_nil_iff.mp hnil p hp
  simp [hpc] at this

theorem target?_mem {r : Routine} {pc : Nat} {t : Int32} (h : r.target? pc = some t) : t ∈ r.guards.map (·.target) := by
  obtain ⟨g, hg, rfl⟩ := Option.map_eq_some_iff.mp h
  exact List.mem_map_of_mem (List.mem_of_find?_eq_some hg)

end Routine

/-- Where a run can go from the code that is left: behind the first instruction, or from a call to the target of
    the guard over it. -/
inductive Routine.Flow (r : Routine) : List Code.Placed → List Code.Placed → Prop
  | next {p : Code.Placed} {rest : List Code.Placed} : p.instr ≠ .ret → Flow r (p :: rest) rest
  | fault {p : Code.Placed} {rest : List Code.Placed} {i : Int32} {t : Int32} :
    p.instr = .call i → r.target? p.pc = some t → Flow r (p :: rest) (r.codeFrom t)

/-! ### Operands in range -/

namespace Routine

theorem not_neg_iff {i : Int32} : ¬ i < 0 ↔ 0 ≤ i.toInt := by simp [Int32.lt_iff_toInt_lt]

theorem nth?_eq_some {α : Type} {l : List α} {i : Int32} {a : α} (h : nth? l i = some a) :
    0 ≤ i.toInt ∧ i.toInt < l.length ∧ l[i.toInt.toNat]? = some a := by
  unfold nth? at h
  split at h
  · cases h
  next hi =>
  have hlt := (List.getElem?_eq_some_iff.mp h).1
  have h₀ := not_neg_iff.mp hi
  exact ⟨h₀, by omega, h⟩

theorem element?_eq_some {i : Int32} {e : Element} (h : element? i = some e) : i.toInt = e.number := by
  unfold element? at h
  split at h
  · cases h
  next hi =>
  have h₀ := not_neg_iff.mp hi
  have hlt : i.toInt.toNat < Element.count := by
    rw [← Element.length_all]
    exact (List.getElem?_eq_some_iff.mp h).1
  obtain ⟨e', he', hnumber⟩ := Element.ofNumber?_eq_some hlt
  rw [he'] at h
  cases h
  omega

theorem exists_nth? {α : Type} {l : List α} {i : Int32} (h₀ : 0 ≤ i.toInt) (h : i.toInt < l.length) :
    ∃ a, nth? l i = some a := by
  rw [nth?, if_neg (not_neg_iff.mpr h₀)]
  exact ⟨_, List.getElem?_eq_getElem (by omega)⟩

theorem element?_of_number {i : Int32} {e : Element} (h : i.toInt = e.number) : element? i = some e := by
  rw [element?, if_neg (not_neg_iff.mpr (by omega)), h, Int.toNat_natCast, Element.ofNumber?_number]

theorem element?_any_isRegister {i : Int32} (h : (element? i).any Element.isRegister = true) :
    ∃ reg, i.toInt = (Element.reg reg).number := by
  cases he : element? i with
  | none =>
    rw [he] at h
    cases h
  | some e =>
    rw [he] at h
    cases e with
    | reg reg => exact ⟨reg, element?_eq_some he⟩
    | temp | cpu | zero | marker => cases h

end Routine

/-! ### Helpers that do as they like -/

/-- The linkage with other bodies behind its helpers. -/
def Linkage.doing (l : Linkage) (act : Helper → Body) : Linkage :=
  { l with helpers := l.helpers.map fun h => { h with body := act h } }

theorem Linkage.doing_body (l : Linkage) : l.doing Helper.body = l := by simp [doing]

namespace Execution
open Routine (stackUse nth? element? nth?_eq_some exists_nth? element?_eq_some element?_of_number not_neg_iff)

/-- What a run ends with when the helper of a name fails. -/
def Error.ofFailure (name : String) : Failure → Error
  | .fault f => .fault f
  | .error e => .helper name e
  | .crash => .crash

/-- A helper was given as many values as it takes and failed, and `e` says how. -/
def Fails (l : Linkage) (act : Helper → Body) (m : Machine) (e : Error) : Prop :=
  ∃ h ∈ l.helpers, ∃ args f, (args.length : Int) = h.arity ∧ act h args m = .error f ∧ e = .ofFailure h.name f

/-- The states of a run after `n` instructions, whatever the helpers do at each call. -/
inductive Reached (l : Linkage) (r : Routine) (s₀ : State) : Nat → State → Prop
  | refl : Reached l r s₀ 0 s₀
  | tail {n : Nat} {s t : State} (act : Helper → Body) :
    Reached l r s₀ n s → step (l.doing act) r true s = .running t → Reached l r s₀ (n + 1) t

/-- The operand of an instruction is in range and the stack holds what the instruction takes. -/
def State.Allows (l : Linkage) (s : State) : Instr → Prop
  | .nop | .push _ | .fault => True
  | .const i => 0 ≤ i.toInt ∧ i.toInt < l.constants.length
  | .dup | .pop => s.stack ≠ []
  | .load _ i => 0 ≤ i.toInt ∧ i.toInt < s.slots.size
  | .store _ i => s.stack ≠ [] ∧ 0 ≤ i.toInt ∧ i.toInt < s.slots.size
  | .get e => 0 ≤ e.toInt ∧ e.toInt < Element.count
  | .set e => s.stack ≠ [] ∧ ∃ reg : Register, e.toInt = (Element.reg reg).number
  | .call i => ∃ h, l.helpers[i.toInt.toNat]? = some h ∧ 0 ≤ i.toInt ∧ 0 ≤ h.arity ∧ h.arity ≤ s.stack.length
  | .ret => s.stack.length = 1

/-- There is a next instruction, and the state is fit for it. -/
def State.Ready (l : Linkage) (s : State) : Prop := ∃ p rest, s.rest = p :: rest ∧ s.Allows l p.instr

/-- How much an instruction adds to the stack. -/
def gain (l : Linkage) : Instr → Int
  | .nop => 0
  | .push _ | .const _ | .dup | .load _ _ | .get _ | .fault => 1
  | .pop | .store _ _ | .set _ | .ret => -1
  | .call i => (nth? l.helpers i).elim 0 fun h => (if h.result = .void then 0 else 1) - h.arity

/-- What an instruction can make of the machine: nothing, a register with a new value, or what a helper makes of it. -/
inductive Moves (l : Linkage) (act : Helper → Body) (m : Machine) : Machine → Prop
  | none : Moves l act m m
  | set (reg : Register) (v : Value) : Moves l act m (m.set reg v)
  | call {h : Helper} {args : List Value} {v : Value} {m' : Machine} :
    h ∈ l.helpers → act h args m = .ok (v, m') → Moves l act m m'

/-- How an instruction other than a return ends: the run goes on behind it with the gain on the stack, or a fault
    leads it to a target with an empty stack, or a helper failed for good. -/
def Outcome.Follows (l : Linkage) (act : Helper → Body) (r : Routine) (s : State) (p : Code.Placed)
    (rest : List Code.Placed) : Outcome → Prop
  | .running t => t.slots.size = s.slots.size ∧ Moves l act s.context.machine t.context.machine ∧
      ((t.rest = rest ∧ (t.stack.length : Int) = s.stack.length + gain l p.instr) ∨
        ∃ i target, p.instr = .call i ∧ r.target? p.pc = some target ∧ t.rest = r.codeFrom target ∧ t.stack = [] ∧
          ∃ h args f, act h args s.context.machine = .error (.fault f))
  | .returned _ _ => False
  | .failed e _ => Fails l act s.context.machine e

section Step
variable {l : Linkage} {r : Routine} {s : State} {p : Code.Placed} {rest : List Code.Placed}

theorem stack_ne_nil (h : 1 ≤ (s.stack.length : Int)) : s.stack ≠ [] :=
  List.ne_nil_of_length_pos (by omega)

/-- What the verifier asks of an instruction is what a run asks of it, and it counts the stack as a run does. -/
theorem allows_of_stackUse {m : Module} {helpers : List Helper} {inHandler : Bool} {pops pushes : Int} {i : Instr}
    (hslots : s.slots.size = m.slots.length) (harity : ∀ h ∈ helpers, 0 ≤ h.arity) (hret : i ≠ .ret)
    (huse : stackUse m helpers inHandler i = .ok (pops, pushes)) (hpops : pops ≤ s.stack.length) :
    s.Allows (CodeBlock.linkage m helpers) i ∧ pushes - pops = gain (CodeBlock.linkage m helpers) i := by
  cases i with
  | nop | push =>
    cases huse
    exact ⟨trivial, rfl⟩
  | dup | pop =>
    cases huse
    exact ⟨stack_ne_nil hpops, rfl⟩
  | ret => exact absurd rfl hret
  | fault =>
    simp only [stackUse] at huse
    split at huse
    · cases huse
      exact ⟨trivial, rfl⟩
    · cases huse
  | const i =>
    simp only [stackUse] at huse
    split at huse
    · next hsome =>
      cases huse
      obtain ⟨c, hc⟩ := Option.isSome_iff_exists.mp hsome
      obtain ⟨h₀, hlt, -⟩ := nth?_eq_some hc
      exact ⟨⟨h₀, hlt⟩, rfl⟩
    · cases huse
  | load c i =>
    simp only [stackUse] at huse
    split at huse
    · cases huse
    next k hk =>
    obtain ⟨h₀, hlt, -⟩ := nth?_eq_some hk
    split at huse
    · cases huse
      exact ⟨⟨h₀, hslots ▸ hlt⟩, rfl⟩
    · cases huse
  | store c i =>
    simp only [stackUse] at huse
    split at huse
    · cases huse
    next k hk =>
    obtain ⟨h₀, hlt, -⟩ := nth?_eq_some hk
    split at huse
    · cases huse
      exact ⟨⟨stack_ne_nil hpops, h₀, hslots ▸ hlt⟩, rfl⟩
    · cases huse
  | get e =>
    simp only [stackUse] at huse
    split at huse
    · next hsome =>
      cases huse
      obtain ⟨x, hx⟩ := Option.isSome_iff_exists.mp hsome
      have := x.number_lt
      have := element?_eq_some hx
      exact ⟨⟨by omega, by omega⟩, rfl⟩
    · cases huse
  | set e =>
    simp only [stackUse] at huse
    split at huse
    · next hany =>
      cases huse
      exact ⟨⟨stack_ne_nil hpops, Routine.element?_any_isRegister hany⟩, rfl⟩
    · cases huse
  | call i =>
    simp only [stackUse] at huse
    split at huse
    · cases huse
    next h hh =>
    cases huse
    obtain ⟨h₀, -, hget⟩ := nth?_eq_some hh
    refine ⟨⟨h, hget, h₀, harity h (List.mem_of_getElem? hget), hpops⟩, ?_⟩
    simp only [gain, CodeBlock.linkage, hh, Option.elim_some]

theorem step_call (act : Helper → Body) (r : Routine) (hrest : s.rest = p :: rest) {i : Int32}
    (hi : p.instr = .call i) (h₀ : 0 ≤ i.toInt) {h : Helper} (hget : l.helpers[i.toInt.toNat]? = some h) :
    step (l.doing act) r true s = call r s p.pc rest { h with body := act h } := by
  have hnth : nth? (l.doing act).helpers i = some { h with body := act h } := by
    simp only [nth?, if_neg (not_neg_iff.mpr h₀), Linkage.doing, List.getElem?_map, hget, Option.map_some]
  simp only [step, hrest, hi, hnth]

/-- A call with the values it takes goes on, or jumps to a target, or fails as the helper does. -/
theorem call_follows (act : Helper → Body) (r : Routine) {i : Int32} (hi : p.instr = .call i) (hi₀ : 0 ≤ i.toInt)
    {h : Helper} (hget : l.helpers[i.toInt.toNat]? = some h) (h₀ : 0 ≤ h.arity) (harity : h.arity ≤ s.stack.length) :
    (call r s p.pc rest { h with body := act h }).Follows l act r s p rest := by
  have hmem := List.mem_of_getElem? hget
  have hargs : Helper.arguments? { h with body := act h } s.stack =
      some ((s.stack.take h.arity.toNat).reverse, s.stack.drop h.arity.toNat) := if_pos ⟨h₀, harity⟩
  have hlength : (((s.stack.take h.arity.toNat).reverse).length : Int) = h.arity := by
    rw [List.length_reverse, List.length_take]
    omega
  have hnth : nth? l.helpers i = some h := (if_neg (not_neg_iff.mpr hi₀)).trans hget
  have hgain : gain l p.instr = (if h.result = .void then 0 else 1) - h.arity := by
    rw [hi, gain, hnth, Option.elim_some]
  have hdrop := List.length_drop (i := h.arity.toNat) (l := s.stack)
  simp only [call, hargs, Helper.call]
  cases hbody : act h (s.stack.take h.arity.toNat).reverse s.context.machine with
  | ok v =>
    refine ⟨rfl, .call hmem hbody, .inl ⟨rfl, ?_⟩⟩
    rw [hgain]
    dsimp only
    split
    · omega
    · rw [List.length_cons]
      omega
  | error f =>
    cases f with
    | fault f =>
      dsimp only
      cases htarget : r.target? p.pc with
      | none => exact ⟨h, hmem, _, _, hlength, hbody, rfl⟩
      | some target => exact ⟨rfl, .none, .inr ⟨i, target, hi, htarget, rfl, rfl, h, _, f, hbody⟩⟩
    | error e => exact ⟨h, hmem, _, _, hlength, hbody, rfl⟩
    | crash => exact ⟨h, hmem, _, _, hlength, hbody, rfl⟩

/-- An instruction that the state is fit for does what it is for. -/
theorem step_follows (act : Helper → Body) (r : Routine) (hrest : s.rest = p :: rest) (hret : p.instr ≠ .ret)
    (hallows : s.Allows l p.instr) : (step (l.doing act) r true s).Follows l act r s p rest := by
  -- All but stores, sets and calls touch the stack only.
  have follows_next {stack : List Value} (h : (stack.length : Int) = s.stack.length + gain l p.instr) :
      (s.next rest stack).Follows l act r s p rest := ⟨rfl, .none, .inl ⟨rfl, h⟩⟩
  cases hi : p.instr with
  | nop | push | fault =>
    simp only [step, hrest, hi]
    exact follows_next (by simp [hi, gain])
  | ret => exact absurd hi hret
  | const i =>
    rw [hi] at hallows
    obtain ⟨c, hc⟩ := exists_nth? hallows.1 hallows.2
    simp only [step, hrest, hi, Linkage.doing, hc]
    exact follows_next (by simp [hi, gain])
  | dup | pop =>
    rw [hi] at hallows
    obtain ⟨v, stack, hstack⟩ := List.exists_cons_of_ne_nil hallows
    simp only [step, hrest, hi, hstack]
    exact follows_next (by simp [hi, hstack, gain])
  | load c i =>
    rw [hi] at hallows
    obtain ⟨h₀, hlt⟩ := hallows
    have hin : i.toInt.toNat < s.slots.size := by omega
    simp only [step, hrest, hi, if_neg (not_neg_iff.mpr h₀), Array.getElem?_eq_getElem hin]
    exact follows_next (by simp [hi, gain])
  | store c i =>
    rw [hi] at hallows
    obtain ⟨hne, h₀, hlt⟩ := hallows
    obtain ⟨v, stack, hstack⟩ := List.exists_cons_of_ne_nil hne
    have hin : ¬ (i < 0 || s.slots.size ≤ i.toInt.toNat) = true := by
      simp only [Bool.or_eq_true, decide_eq_true_eq]
      exact not_or.mpr ⟨not_neg_iff.mpr h₀, by omega⟩
    simp only [step, hrest, hi, hstack, if_neg hin]
    exact ⟨Array.size_setIfInBounds .., .none, .inl ⟨rfl, by simp [hi, hstack, gain]⟩⟩
  | get e =>
    rw [hi] at hallows
    obtain ⟨h₀, hlt⟩ := hallows
    obtain ⟨x, -, hx⟩ := Element.ofNumber?_eq_some (n := e.toInt.toNat) (by omega)
    have hx : element? e = some x := element?_of_number (by omega)
    simp only [step, hrest, hi, Bool.not_true, Bool.false_eq_true, if_false, hx]
    exact follows_next (by simp [hi, gain])
  | set e =>
    rw [hi] at hallows
    obtain ⟨hne, reg, hreg⟩ := hallows
    obtain ⟨v, stack, hstack⟩ := List.exists_cons_of_ne_nil hne
    simp only [step, hrest, hi, hstack, Bool.not_true, Bool.false_eq_true, if_false, element?_of_number hreg]
    exact ⟨rfl, .set reg v, .inl ⟨rfl, by simp [hi, hstack, gain]⟩⟩
  | call i =>
    rw [hi] at hallows
    obtain ⟨h, hget, h₀, harity₀, harity⟩ := hallows
    rw [step_call act r hrest hi h₀ hget]
    exact call_follows act r hi h₀ hget harity₀ harity

end Step

/-! ### The verifier's depth is the stack's -/

/-- What the verifier takes for granted at a position. -/
def Holds (s : State) : Routine.Position → Prop
  | .between => s.rest ≠ [] ∧ s.stack = []
  | .inside depth _ => (s.stack.length : Int) = depth

/-- The verifier got through what is left of the code from a position that fits the state. -/
structure Watched (m : Module) (helpers : List Helper) (r : Routine) (s : State) : Prop where
  slots : s.slots.size = m.slots.length
  checked : ∃ pos, Holds s pos ∧ Routine.checkCode m helpers (r.guards.map (·.target)) pos s.rest = .ok ()

section Watched
variable {m : Module} {helpers : List Helper} {r : Routine} {s t : State}

theorem watched_start (hr : r.Verified m helpers) (c : Context) : Watched m helpers r (start r m.slots.length c) :=
  ⟨Array.size_replicate, .between, ⟨hr.nonempty, rfl⟩, hr.checked⟩

/-- What the verifier made of the next instruction. -/
theorem Watched.next (harity : ∀ h ∈ helpers, 0 ≤ h.arity) (h : Watched m helpers r s) :
    ∃ p rest, s.rest = p :: rest ∧ s.Allows (CodeBlock.linkage m helpers) p.instr ∧
      (p.instr ≠ .ret → ∃ inHandler, Routine.checkCode m helpers (r.guards.map (·.target))
        (.inside (s.stack.length + gain (CodeBlock.linkage m helpers) p.instr) inHandler) rest = .ok ()) := by
  obtain ⟨pos, hpos, hcode⟩ := h.checked
  obtain ⟨p, rest, hrest⟩ : ∃ p rest, s.rest = p :: rest := by
    cases hrest : s.rest with
    | cons p rest => exact ⟨p, rest, rfl⟩
    | nil =>
      rw [hrest] at hcode
      cases pos with
      | between => exact absurd hrest hpos.1
      | inside => cases hcode
  rw [hrest] at hcode
  obtain ⟨pos', hinstr, htail⟩ := Routine.checkCode_cons.mp hcode
  obtain ⟨depth, inHandler, henter, hcases⟩ := Routine.checkInstr_eq_ok hinstr
  have hdepth : depth = s.stack.length := by
    cases pos with
    | between =>
      rw [Routine.enter_between henter, hpos.2]
      rfl
    | inside d b => rw [(Routine.enter_inside henter).2.1, hpos]
  subst hdepth
  refine ⟨p, rest, hrest, ?_⟩
  rcases hcases with ⟨hret, hone, -⟩ | ⟨hret, pops, pushes, huse, hpops, rfl⟩
  · rw [hret]
    exact ⟨by exact_mod_cast hone, fun hne => absurd rfl hne⟩
  · obtain ⟨hallows, hgain⟩ := allows_of_stackUse h.slots harity hret huse hpops
    rw [hgain] at htail
    exact ⟨hallows, fun _ => ⟨inHandler, htail⟩⟩

/-- What may come of an instruction: the run goes on in a fitting state, returns the one value on the stack, or
    fails as a helper does. -/
def Outcome.Safe (m : Module) (helpers : List Helper) (r : Routine) (act : Helper → Body) (s : State) : Outcome → Prop
  | .running t => Watched m helpers r t ∧ r.Flow s.rest t.rest ∧
      Moves (CodeBlock.linkage m helpers) act s.context.machine t.context.machine
  | .returned v _ => s.stack = [v]
  | .failed e _ => Fails (CodeBlock.linkage m helpers) act s.context.machine e

theorem Watched.step_safe (hr : r.Verified m helpers) (harity : ∀ h ∈ helpers, 0 ≤ h.arity) (h : Watched m helpers r s)
    (act : Helper → Body) : (step ((CodeBlock.linkage m helpers).doing act) r true s).Safe m helpers r act s := by
  obtain ⟨p, rest, hrest, hallows, htail⟩ := h.next harity
  by_cases hret : p.instr = .ret
  · rw [hret] at hallows
    obtain ⟨v, hv⟩ := List.length_eq_one_iff.mp hallows
    simp only [step, hrest, hret, hv]
    exact hv
  obtain ⟨inHandler, htail⟩ := htail hret
  have hfollows := step_follows act r hrest hret hallows
  cases hstep : step ((CodeBlock.linkage m helpers).doing act) r true s with
  | returned v c =>
    rw [hstep] at hfollows
    cases hfollows
  | failed e c =>
    rw [hstep] at hfollows
    exact hfollows
  | running t =>
    rw [hstep] at hfollows
    obtain ⟨hslots, hmoves, ⟨hnext, hlength⟩ | ⟨i, target, hcall, htarget, hfrom, hnil, -⟩⟩ := hfollows
    · rw [Outcome.Safe, hrest, hnext]
      exact ⟨⟨hslots.trans h.slots, .inside _ inHandler, hlength, hnext ▸ htail⟩, .next hret, hmoves⟩
    · -- The verifier starts anew at a target, with the empty stack that the fault leaves.
      have hmem := Routine.target?_mem htarget
      have hne := hr.codeFrom_ne_nil hmem
      have hcode := Routine.checkCode_dropWhile hr.checked hmem hne
      rw [Outcome.Safe, hrest, hfrom]
      exact ⟨⟨hslots.trans h.slots, .between, ⟨hfrom ▸ hne, hnil⟩, hfrom ▸ hcode⟩, .fault hcall htarget, hmoves⟩

theorem Watched.of_step (hr : r.Verified m helpers) (harity : ∀ h ∈ helpers, 0 ≤ h.arity) (h : Watched m helpers r s)
    {act : Helper → Body} (hstep : step ((CodeBlock.linkage m helpers).doing act) r true s = .running t) :
    Watched m helpers r t ∧ r.Flow s.rest t.rest ∧
      Moves (CodeBlock.linkage m helpers) act s.context.machine t.context.machine := by
  have hsafe := h.step_safe hr harity act
  rwa [hstep] at hsafe

theorem Reached.watched (hr : r.Verified m helpers) (harity : ∀ h ∈ helpers, 0 ≤ h.arity) {c : Context} {n : Nat}
    (h : Reached (CodeBlock.linkage m helpers) r (start r m.slots.length c) n s) : Watched m helpers r s := by
  induction h with
  | refl => exact watched_start hr c
  | tail act _ hstep ih => exact (ih.of_step hr harity hstep).1

end Watched

/-! ### Runs in full -/

section Runs
variable {l : Linkage} {r : Routine} {cpu : Bool} {s t : State} {n : Nat}

theorem runFor_succ : runFor l r cpu (n + 1) s =
    match runFor l r cpu n s with
    | .running t => step l r cpu t
    | done => done := by
  induction n generalizing s with
  | zero =>
    simp only [runFor]
    cases step l r cpu s <;> rfl
  | succ n ih =>
    rw [runFor]
    conv_rhs => rw [runFor]
    cases step l r cpu s with
    | running t => exact ih
    | returned v c => rfl
    | failed e c => rfl

/-- A run with the helpers as they are is a run with helpers that do as they like. -/
theorem reached_of_runFor (h : runFor l r true n s = .running t) : Reached l r s n t := by
  induction n generalizing t with
  | zero =>
    cases h
    exact .refl
  | succ n ih =>
    rw [runFor_succ] at h
    split at h
    · next u hu => exact .tail Helper.body (ih hu) (by rw [l.doing_body]; exact h)
    · next hdone => exact absurd h (hdone t)

/-- A run that does not go on stops with some instruction. -/
theorem exists_last {o : Outcome} (h : runFor l r cpu n s = o) (ho : ∀ t, o ≠ .running t) :
    ∃ k < n, ∃ t, runFor l r cpu k s = .running t ∧ step l r cpu t = o := by
  induction n with
  | zero => exact absurd h.symm (ho s)
  | succ n ih =>
    rw [runFor_succ] at h
    split at h
    · next u hu => exact ⟨n, n.lt_succ_self, u, hu, h⟩
    · obtain ⟨k, hk, t, ht⟩ := ih h
      exact ⟨k, hk.trans n.lt_succ_self, t, ht⟩

end Runs
end Execution
end MicroBlock
