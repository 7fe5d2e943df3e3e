import Mathlib
import MicroBlock.Proofs.Fragments

/-! What fragments leave alone.

A helper gets the registers it needs as arguments. It neither reads nor writes the working registers, the
router and the deliveries of the machine, routing apart, so a fragment does the same on two machines that
differ in nothing else. -/

namespace MicroBlock

/-! ### What helpers neither read nor write -/

/-- The machine with the working registers, the router and the deliveries of another. -/
def Machine.withFront (m n : Machine) : Machine :=
  { m with gpr := n.gpr, eip := n.eip, flags := n.flags, segs := n.segs, router := n.router, delivered := n.delivered }

namespace Builtin

/-- Two results that are the same but for what `withFront` replaces. -/
def Carries (n : Machine) (x y : Except Failure (Value × Machine)) : Prop :=
  y = x.map fun r => (r.1, r.2.withFront n)

theorem Carries.bind {α : Type} {n : Machine} {x : Except Failure α} {f f' : α → Except Failure (Value × Machine)}
    (h : ∀ a, Carries n (f a) (f' a)) : Carries n (x >>= f) (x >>= f') := by
  cases x with
  | error e => rfl
  | ok a => exact h a

theorem Carries.ok {n m : Machine} {v : Value} : Carries n (.ok (v, m)) (.ok (v, m.withFront n)) := rfl

/-- A helper other than routing neither reads nor writes the working registers, the router and the
    deliveries: with others in their place it does the same. -/
theorem body_withFront {b : Builtin} (hb : ∀ mode, b ≠ .route mode) {args : List Value}
    (hlen : args.length = b.arity.toNat) (m n : Machine) :
    Carries n (b.body args m) (b.body args (m.withFront n)) := by
  by_cases hp : b.isPure = true
  · obtain ⟨v, hv⟩ := exists_body_of_isPure hp hlen
    rw [hv, hv]
    exact .ok
  cases b with
  | divq32 | divr32 => exact .bind fun _ => .bind fun _ => .bind fun _ => .ok
  | protectedSegment _ => exact .bind fun _ => .bind fun _ => .bind fun _ => .ok
  | ifChecked => exact .bind fun _ => .bind fun _ => .bind fun _ => .bind fun _ => .ok
  | retire => exact .bind fun _ => .ok
  | read w => exact .bind fun _ => .bind fun _ => .bind fun _ => .bind fun _ => .bind fun _ => .ok
  | write w =>
    exact .bind fun _ => .bind fun _ => .bind fun _ => .bind fun _ => .bind fun _ => .bind fun _ => .ok
  | portIn w checked =>
    refine .bind fun _ => ?_
    simp only [show (m.withFront n).ports = m.ports from rfl]
    cases m.ports with
    | none =>
      cases checked
      · exact .ok
      · exact .bind fun _ => .bind fun _ => .bind fun _ => .ok
    | some p =>
      cases checked
      · exact .bind fun _ => .ok
      · exact .bind fun _ => .bind fun _ => .bind fun _ => .bind fun _ => .ok
  | portOut w checked =>
    refine .bind fun _ => ?_
    simp only [show (m.withFront n).ports = m.ports from rfl]
    cases m.ports with
    | none =>
      cases checked
      · exact .ok
      · exact .bind fun _ => .bind fun _ => .bind fun _ => .ok
    | some p =>
      cases checked
      · exact .bind fun _ => .bind fun _ => .ok
      · exact .bind fun _ => .bind fun _ => .bind fun _ => .bind fun _ => .bind fun _ => .ok
  | route mode => exact absurd rfl (hb mode)
  | _ => exact absurd rfl hp

end Builtin

/-- Two machines have the same registers, the same router and the same deliveries. -/
structure Machine.SameShell (m m' : Machine) : Prop extends m.SameFront m' where
  delivered : m.delivered = m'.delivered

theorem Machine.SameShell.refl (m : Machine) : m.SameShell m := ⟨.refl m, rfl⟩

theorem Machine.SameShell.trans {m m' m'' : Machine} (h : m.SameShell m') (h' : m'.SameShell m'') :
    m.SameShell m'' :=
  ⟨h.toSameFront.trans h'.toSameFront, h.delivered.trans h'.delivered⟩

namespace Fragment

/-! ### Evaluation -/

section Steps
variable (name : String) (vs : List Value) {p p' : Place} (n : Machine)

/-- A step does the same on a machine with another front, at a place where it resolves to the same. -/
theorem evalStep_withFront {s : Step} (hs : ∀ h, s = .call h → ∃ b : Builtin, b.name = h ∧ ∀ mode, b ≠ .route mode)
    (hl : ∀ l, s = .literal l → l.resolve p = l.resolve p') (stack : List Value) {c c' : Context}
    (hc : c'.machine = c.machine.withFront n) :
    (evalStep .builtin name vs p' s stack c').1 = (evalStep .builtin name vs p s stack c).1 ∧
      (evalStep .builtin name vs p' s stack c').2.machine =
        (evalStep .builtin name vs p s stack c).2.machine.withFront n := by
  cases s with
  | input i => cases hi : input? vs i <;> simp [evalStep, hi, hc]
  | literal l => simp [evalStep, hc, hl l rfl]
  | dup | pop => cases stack <;> exact ⟨rfl, hc⟩
  | unknown k => exact ⟨rfl, hc⟩
  | call h =>
    obtain ⟨b, rfl, hb⟩ := hs h rfl
    have hbody : b.helper.body = b.body := rfl
    simp only [evalStep, Builtin.lookup_name]
    cases ha : b.helper.arguments? stack with
    | none => exact ⟨rfl, hc⟩
    | some a =>
      obtain ⟨hle, hargs, -⟩ := Builtin.arguments?_eq_some ha
      have hlen : a.1.length = b.arity.toNat := by rw [hargs, List.length_reverse, List.length_take_of_le hle]
      have hcarries := Builtin.body_withFront hb hlen c.machine n
      simp only [Helper.call, hbody, hc]
      rw [hcarries]
      cases b.body a.1 c.machine <;> exact ⟨rfl, by simp [Except.map]⟩

theorem evalSteps_withFront {ss : List Step}
    (hs : ∀ h, .call h ∈ ss → ∃ b : Builtin, b.name = h ∧ ∀ mode, b ≠ .route mode)
    (hl : ∀ l, .literal l ∈ ss → l.resolve p = l.resolve p') (stack : List Value) {c c' : Context}
    (hc : c'.machine = c.machine.withFront n) :
    (evalSteps .builtin name vs p' ss stack c').1 = (evalSteps .builtin name vs p ss stack c).1 ∧
      (evalSteps .builtin name vs p' ss stack c').2.machine =
        (evalSteps .builtin name vs p ss stack c).2.machine.withFront n := by
  induction ss generalizing stack c c' with
  | nil => exact ⟨rfl, hc⟩
  | cons s ss ih =>
    have hstep := evalStep_withFront name vs n (s := s) (fun h e => hs h (by simp [e]))
      (fun l e => hl l (by simp [e])) stack hc
    simp only [evalSteps]
    revert hstep
    rcases evalStep .builtin name vs p' s stack c' with ⟨_ | stack₁, c₁⟩ <;>
      rcases evalStep .builtin name vs p s stack c with ⟨_ | stack₂, c₂⟩ <;> rintro ⟨⟨⟩, h₂⟩
    · exact ⟨rfl, h₂⟩
    · exact ih (fun h hh => hs h (List.mem_cons_of_mem s hh)) (fun l hh => hl l (List.mem_cons_of_mem s hh)) stack₁ h₂

end Steps

/-- A disciplined fragment does the same on a machine with another front, at a place where its literals
    resolve to the same. -/
theorem outcome_withFront {f : Fragment} (hf : f.isDisciplined = true) {p p' : Place}
    (hl : ∀ l, .literal l ∈ f.steps → l.resolve p = l.resolve p') (vs : List Value) (m n : Machine) :
    f.outcome vs p' (m.withFront n) = ((f.outcome vs p m).1, (f.outcome vs p m).2.withFront n) := by
  have hcalls : ∀ h, .call h ∈ f.steps → ∃ b : Builtin, b.name = h ∧ ∀ mode, b ≠ .route mode := by
    intro h hh
    obtain ⟨b, hb, hadm⟩ := exists_builtin_of_call_mem hf hh
    exact ⟨b, hb, EffectClass.not_route_of_admits hadm⟩
  have hc : (Context.mk (m.withFront n) []).machine = (Context.mk m []).machine.withFront n := rfl
  obtain ⟨h₁, h₂⟩ := evalSteps_withFront f.name vs n hcalls hl [] hc
  simp only [outcome, eval]
  revert h₁ h₂
  rcases evalSteps .builtin f.name vs p' f.steps [] ⟨m.withFront n, []⟩ with ⟨_ | _, c₁⟩ <;>
    rcases evalSteps .builtin f.name vs p f.steps [] ⟨m, []⟩ with ⟨_ | _, c₂⟩ <;> rintro ⟨⟩ h₂ <;>
    exact Prod.ext rfl h₂

/-- A disciplined fragment leaves the registers, the router and the deliveries alone. -/
theorem outcome_sameShell {f : Fragment} (hf : f.isDisciplined = true) {vs : List Value}
    (hs : Supplies f.inputs vs) (p : Place) (m : Machine) : (f.outcome vs p m).2.SameShell m := by
  have hfront : (f.outcome vs p m).2.SameFront m := by
    rcases outcome_cases hf hs p m with ⟨v, m', h, hr, -⟩ | ⟨x, m', h, hr, -⟩ <;>
      rw [h] <;> exact hr
  -- A machine with its own front is itself, so what the fragment leaves has the deliveries of the machine.
  have hself : (f.outcome vs p m).2 = (f.outcome vs p m).2.withFront m :=
    congrArg Prod.snd (outcome_withFront hf (fun l _ => rfl) vs m m)
  exact ⟨hfront, by rw [hself]; rfl⟩

end Fragment
end MicroBlock
