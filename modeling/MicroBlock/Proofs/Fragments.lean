import Mathlib
import MicroBlock.Fragment.Eval
import MicroBlock.Lowering
import MicroBlock.Proofs.Builtins

/-! What evaluating a fragment of the built-in tables can do.

A fragment is disciplined if every helper it calls is a built-in one that its effect class admits, finds
its arguments on the stack, and is handed the processor where it needs it. Evaluating a disciplined
fragment never goes wrong: a pure one gives a value that depends on its inputs and its place only, one
with effects always gives a value, and one that can fault gives a value or raises a fault. -/

namespace MicroBlock

/-- The helpers that a fragment of the class may call. -/
def EffectClass.admits : EffectClass → Builtin → Bool
  | .pure, b => b.isPure
  | .effect, b => b.faultless
  | .fault, .route _ => false
  | .fault, _ => true

theorem EffectClass.not_route_of_admits {cls : EffectClass} {b : Builtin} (h : cls.admits b = true)
    (mode : Mode) : b ≠ .route mode := by
  rintro rfl
  cases cls <;> cases h

def Builtin.ofName? (s : String) : Option Builtin := Builtin.all.find? (·.name == s)

theorem Builtin.name_of_ofName? {s : String} {b : Builtin} (h : Builtin.ofName? s = some b) : b.name = s := by
  simpa using List.find?_some h

theorem Context.ext {c c' : Context} (hm : c.machine = c'.machine) (hc : c.calls = c'.calls) : c = c' := by
  cases c
  cases c'
  simp_all

namespace Fragment

/-! ### Marks

The checks run over the stack with one mark for every value, which tells whether the value is the
processor. -/

/-- The marks after a step, if the step finds what it needs. -/
def mark (cls : EffectClass) (inputs : List Element) (s : Step) (marks : List Bool) : Option (List Bool) :=
  match s, marks with
  | .input i, marks =>
    if i < 0 then none else inputs[i.toNat]?.map fun e => (e == .cpu) :: marks
  | .literal _, marks => some (false :: marks)
  | .dup, b :: marks => some (b :: b :: marks)
  | .pop, _ :: marks => some marks
  | .call h, marks =>
    match Builtin.ofName? h with
    | none => none
    | some b =>
      if marks.length < b.arity.toNat then none
      else if b.needsCpu && (marks.take b.arity.toNat).getLast? != some true then none
      else if cls.admits b then
        some ((if b.result = .void then [] else [false]) ++ marks.drop b.arity.toNat)
      else none
  | _, _ => none

def markAll (cls : EffectClass) (inputs : List Element) : List Step → List Bool → Option (List Bool)
  | [], marks => some marks
  | s :: ss, marks => (mark cls inputs s marks).bind (markAll cls inputs ss)

/-- Whether a fragment computes its target as its class and its signature say. -/
def isDisciplined (f : Fragment) : Bool :=
  (match markAll f.cls f.inputs f.steps [] with
    | some [] => f.target.kind == .void && f.hasEffect
    | some [_] => f.target.kind != .void && f.target.materializable
    | _ => false) &&
  (List.range f.inputs.length).all fun j => f.steps.contains (.input j)

abbrev Disciplined (f : Fragment) : Prop := f.isDisciplined = true

/-- A family of fragments that code can be written for: a value that they leave can be kept in a slot. -/
class Writable (P : Fragment → Prop) : Prop where
  materializable : ∀ {f : Fragment}, P f → f.target.kind ≠ .void → f.target.materializable = true

/-- A family of fragments whose code can be linked: they call built-in helpers only. -/
class Linkable (P : Fragment → Prop) : Prop extends Writable P where
  exists_builtin : ∀ {f : Fragment}, P f → ∀ {h : String}, .call h ∈ f.steps → ∃ b : Builtin, b.name = h

/-- Marked values: where there is a mark there is the processor. -/
def Marked (stack : List Value) (marks : List Bool) : Prop :=
  List.Forall₂ (fun v b => b = true → v = .cpu) stack marks

theorem Marked.getLast? {stack : List Value} {marks : List Bool} (h : Marked stack marks)
    (hl : marks.getLast? = some true) : stack.getLast? = some .cpu := by
  have hr : Marked stack.reverse marks.reverse := List.forall₂_reverse_iff.mpr h
  rw [← List.head?_reverse] at hl ⊢
  generalize stack.reverse = l, marks.reverse = k at hr hl ⊢
  cases hr with
  | nil => cases hl
  | cons hv _ =>
    cases hl
    rw [List.head?_cons, hv rfl]

/-- The values of the inputs: as many as there are elements, and the processor where it is one. -/
structure Supplies (inputs : List Element) (vs : List Value) : Prop where
  length : vs.length = inputs.length
  cpu : ∀ j : Nat, inputs[j]? = some Element.cpu → vs[j]? = some Value.cpu

theorem Supplies.map {inputs : List Element} {f : Element → Value} (h : f .cpu = .cpu) :
    Supplies inputs (inputs.map f) where
  length := List.length_map f
  cpu j hj := by rw [List.getElem?_map, hj, Option.map_some, h]

section Steps
variable {cls : EffectClass} {inputs : List Element} {vs : List Value} {name : String} {p : Place}

theorem input?_of_mark {i : Int} {marks marks' : List Bool} (hs : Supplies inputs vs)
    (h : mark cls inputs (.input i) marks = some marks') :
    ∃ v b, input? vs i = some v ∧ marks' = b :: marks ∧ (b = true → v = .cpu) := by
  simp only [mark] at h
  split at h
  · cases h
  · next hi =>
    obtain ⟨e, he, rfl⟩ := Option.map_eq_some_iff.mp h
    have hlt : i.toNat < vs.length := by
      rw [hs.length]
      exact (List.getElem?_eq_some_iff.mp he).1
    refine ⟨vs[i.toNat], e == .cpu, by simp [input?, hi, hlt], rfl, fun hb => ?_⟩
    have := hs.cpu _ (by rw [he, beq_iff_eq.mp hb])
    rwa [List.getElem?_eq_getElem hlt, Option.some.injEq] at this

/-- What a call that passes the check finds on the stack. -/
theorem arguments?_of_mark {h : String} {stack : List Value} {marks marks' : List Bool}
    (hm : Marked stack marks) (hk : mark cls inputs (.call h) marks = some marks') :
    ∃ b : Builtin, ∃ args rest, b.name = h ∧ cls.admits b = true ∧ b.helper.arguments? stack = some (args, rest) ∧
      args.length = b.arity.toNat ∧ (b.needsCpu = true → args.head? = some .cpu) ∧
      ∃ marks₀, Marked rest marks₀ ∧ marks' = (if b.result = .void then [] else [false]) ++ marks₀ := by
  simp only [mark] at hk
  split at hk
  · cases hk
  · next b hb =>
    split at hk
    · cases hk
    · next hlen =>
      split at hk
      · cases hk
      · next hcpu =>
        split at hk
        · next hadm =>
          cases hk
          have hlen' : b.arity.toNat ≤ stack.length := by
            rw [hm.length_eq]
            exact Nat.le_of_not_lt hlen
          have harity : 0 ≤ b.arity := by cases b <;> simp [Builtin.arity] <;> split <;> simp
          refine ⟨b, (stack.take b.arity.toNat).reverse, stack.drop b.arity.toNat,
            Builtin.name_of_ofName? hb, hadm, ?_, ?_, fun hn => ?_, marks.drop b.arity.toNat, ?_, rfl⟩
          · have : b.arity ≤ stack.length := by omega
            simp [Helper.arguments?, Builtin.helper, harity, this]
          · simp [hlen']
          · rw [List.head?_reverse]
            simp only [hn, Bool.true_and, bne_iff_ne, ne_eq, Decidable.not_not] at hcpu
            exact Marked.getLast? (List.forall₂_take _ hm) hcpu
          · exact List.forall₂_drop _ hm
        · cases hk

/-- How a call of a built-in helper ends: it misses arguments, the helper fails, or what the helper returns is on the
    stack. -/
theorem evalStep_call_cases {b : Builtin} {stack : List Value} {x : Except EvalError (List Value)} {c c' : Context}
    (h : evalStep .builtin name vs p (.call b.name) stack c = (x, c')) :
    (x = .error .crash ∧ c' = c) ∨
    ∃ args below, b.helper.arguments? stack = some (args, below) ∧
      ((∃ e, b.body args c.machine = .error e ∧ x = .error (.helper e) ∧ c'.machine = c.machine) ∨
        ∃ v, b.body args c.machine = .ok (v, c'.machine) ∧ x = .ok (if b.result = .void then below else v :: below)) := by
  simp only [evalStep, Builtin.lookup_name] at h
  split at h
  · cases h
    exact .inl ⟨rfl, rfl⟩
  next args below ha =>
  refine .inr ⟨args, below, ha, ?_⟩
  have hbody : b.helper.body = b.body := rfl
  simp only [Helper.call, hbody] at h
  cases hb : b.body args c.machine with
  | error e =>
    rw [hb] at h
    cases h
    exact .inl ⟨e, rfl, rfl, rfl⟩
  | ok r =>
    rw [hb] at h
    cases h
    exact .inr ⟨r.1, rfl, rfl⟩

variable (name p)

/-- One step of a disciplined fragment: it leaves marked values and the registers as they were, or it
    raises a fault, which only a fault fragment can. -/
theorem evalStep_marked {s : Step} {stack : List Value} {marks marks' : List Bool} (hs : Supplies inputs vs)
    (hm : Marked stack marks) (hk : mark cls inputs s marks = some marks') (c : Context) :
    (∃ stack' c', evalStep .builtin name vs p s stack c = (.ok stack', c') ∧ Marked stack' marks' ∧
      c'.machine.SameFront c.machine) ∨
    (∃ f c', evalStep .builtin name vs p s stack c = (.error (.helper (.fault f)), c') ∧ cls = .fault ∧
      c'.machine = c.machine) := by
  cases s with
  | input i =>
    obtain ⟨v, b, hv, rfl, hb⟩ := input?_of_mark hs hk
    exact .inl ⟨v :: stack, c, by simp [evalStep, hv], .cons hb hm, .refl _⟩
  | literal l =>
    cases hk
    exact .inl ⟨_, c, rfl, .cons nofun hm, .refl _⟩
  | dup =>
    cases hm with
    | nil => cases hk
    | cons hv hm =>
      cases hk
      exact .inl ⟨_, c, rfl, .cons hv (.cons hv hm), .refl _⟩
  | pop =>
    cases hm with
    | nil => cases hk
    | cons hv hm =>
      cases hk
      exact .inl ⟨_, c, rfl, hm, .refl _⟩
  | call h =>
    obtain ⟨b, args, rest, rfl, hadm, hargs, hlen, hcpu, marks₀, hrest, rfl⟩ := arguments?_of_mark hm hk
    simp only [evalStep, Builtin.lookup_name, hargs, Helper.call]
    have hbody : b.helper.body = b.body := rfl
    cases hx : b.body args c.machine with
    | ok r =>
      obtain ⟨v, m⟩ := r
      refine .inl ⟨_, ⟨m, _⟩, by simp only [hbody, hx]; rfl, ?_, Builtin.body_leaves b args c.machine v m hx⟩
      have hresult : b.helper.result = b.result := rfl
      rw [hresult]
      split
      · exact hrest
      · exact .cons nofun hrest
    | error e =>
      obtain ⟨f, rfl⟩ :=
        Builtin.body_faultsOnly (EffectClass.not_route_of_admits hadm) hlen hcpu c.machine e hx
      refine .inr ⟨f, ⟨c.machine, b.name :: c.calls⟩, by simp only [hbody, hx]; rfl, ?_, rfl⟩
      cases cls with
      | fault => rfl
      | pure =>
        obtain ⟨v, hv⟩ := Builtin.exists_body_of_isPure hadm hlen
        rw [hv] at hx
        cases hx
      | effect =>
        obtain ⟨r, hr⟩ := Builtin.body_gives hadm hlen hcpu c.machine
        rw [hr] at hx
        cases hx
  | unknown k => cases hk

/-- One step of a disciplined pure fragment: it depends on the stack only and does nothing else. -/
theorem evalStep_pure {s : Step} {stack : List Value} {marks marks' : List Bool} (hs : Supplies inputs vs)
    (hm : Marked stack marks) (hk : mark .pure inputs s marks = some marks') :
    ∃ stack', Marked stack' marks' ∧
      ∀ c, ∃ calls, evalStep .builtin name vs p s stack c = (.ok stack', ⟨c.machine, calls⟩) := by
  cases s with
  | input i =>
    obtain ⟨v, b, hv, rfl, hb⟩ := input?_of_mark hs hk
    exact ⟨v :: stack, .cons hb hm, fun c => ⟨c.calls, by simp [evalStep, hv]⟩⟩
  | literal l =>
    cases hk
    exact ⟨_, .cons nofun hm, fun c => ⟨c.calls, rfl⟩⟩
  | dup =>
    cases hm with
    | nil => cases hk
    | cons hv hm =>
      cases hk
      exact ⟨_, .cons hv (.cons hv hm), fun c => ⟨c.calls, rfl⟩⟩
  | pop =>
    cases hm with
    | nil => cases hk
    | cons hv hm =>
      cases hk
      exact ⟨_, hm, fun c => ⟨c.calls, rfl⟩⟩
  | call h =>
    obtain ⟨b, args, rest, rfl, hadm, hargs, hlen, hcpu, marks₀, hrest, rfl⟩ := arguments?_of_mark hm hk
    obtain ⟨v, hv⟩ := Builtin.exists_body_of_isPure hadm hlen
    refine ⟨if b.result = .void then rest else v :: rest, ?_, fun c => ⟨b.name :: c.calls, ?_⟩⟩
    · split
      · exact hrest
      · exact .cons nofun hrest
    · have hbody : b.helper.body args c.machine = .ok (v, c.machine) := hv c.machine
      simp only [evalStep, Builtin.lookup_name, hargs, Helper.call, hbody]
      rfl
  | unknown k => cases hk

variable {name p} in
theorem evalSteps_cons_ok {s : Step} {ss : List Step} {stack stack' : List Value} {c c' : Context}
    (h : evalStep .builtin name vs p s stack c = (.ok stack', c')) :
    evalSteps .builtin name vs p (s :: ss) stack c = evalSteps .builtin name vs p ss stack' c' := by
  simp only [evalSteps, h]

variable {name p} in
theorem evalSteps_cons_error {s : Step} {ss : List Step} {stack : List Value} {e : EvalError} {c c' : Context}
    (h : evalStep .builtin name vs p s stack c = (.error e, c')) :
    evalSteps .builtin name vs p (s :: ss) stack c = (.error e, c') := by
  simp only [evalSteps, h]

theorem evalSteps_marked {ss : List Step} {stack : List Value} {marks marks' : List Bool}
    (hs : Supplies inputs vs) (hm : Marked stack marks) (hk : markAll cls inputs ss marks = some marks')
    (c : Context) :
    (∃ stack' c', evalSteps .builtin name vs p ss stack c = (.ok stack', c') ∧ Marked stack' marks' ∧
      c'.machine.SameFront c.machine) ∨
    (∃ f c', evalSteps .builtin name vs p ss stack c = (.error (.helper (.fault f)), c') ∧ cls = .fault ∧
      c'.machine.SameFront c.machine) := by
  induction ss generalizing stack marks c with
  | nil =>
    cases hk
    exact .inl ⟨stack, c, rfl, hm, .refl _⟩
  | cons s ss ih =>
    obtain ⟨marks₁, hk₁, hk₂⟩ := Option.bind_eq_some_iff.mp hk
    rcases evalStep_marked name p hs hm hk₁ c with
      ⟨stack₁, c₁, h₁, hm₁, hr₁⟩ | ⟨f, c₁, h₁, hf, hr₁⟩
    · rw [evalSteps_cons_ok h₁]
      rcases ih hm₁ hk₂ c₁ with ⟨stack₂, c₂, h₂, hm₂, hr₂⟩ | ⟨f, c₂, h₂, hf, hr₂⟩
      · exact .inl ⟨stack₂, c₂, h₂, hm₂, hr₂.trans hr₁⟩
      · exact .inr ⟨f, c₂, h₂, hf, hr₂.trans hr₁⟩
    · exact .inr ⟨f, c₁, evalSteps_cons_error h₁, hf, by rw [hr₁]; exact .refl _⟩

theorem evalSteps_pure {ss : List Step} {stack : List Value} {marks marks' : List Bool}
    (hs : Supplies inputs vs) (hm : Marked stack marks) (hk : markAll .pure inputs ss marks = some marks') :
    ∃ stack', Marked stack' marks' ∧
      ∀ c, ∃ calls, evalSteps .builtin name vs p ss stack c = (.ok stack', ⟨c.machine, calls⟩) := by
  induction ss generalizing stack marks with
  | nil =>
    cases hk
    exact ⟨stack, hm, fun c => ⟨c.calls, rfl⟩⟩
  | cons s ss ih =>
    obtain ⟨marks₁, hk₁, hk₂⟩ := Option.bind_eq_some_iff.mp hk
    obtain ⟨stack₁, hm₁, h₁⟩ := evalStep_pure name p hs hm hk₁
    obtain ⟨stack₂, hm₂, h₂⟩ := ih hm₁ hk₂
    refine ⟨stack₂, hm₂, fun c => ?_⟩
    obtain ⟨calls₁, hc₁⟩ := h₁ c
    obtain ⟨calls₂, hc₂⟩ := h₂ ⟨c.machine, calls₁⟩
    exact ⟨calls₂, by rw [evalSteps_cons_ok hc₁, hc₂]⟩

theorem evalStep_calls (vs : List Value) (s : Step) (stack : List Value) (c c' : Context)
    (h : c.machine = c'.machine) :
    (evalStep .builtin name vs p s stack c).1 = (evalStep .builtin name vs p s stack c').1 ∧
      (evalStep .builtin name vs p s stack c).2.machine = (evalStep .builtin name vs p s stack c').2.machine := by
  cases s with
  | input i => cases hi : input? vs i <;> simp [evalStep, hi, h]
  | literal l => exact ⟨rfl, h⟩
  | dup | pop => cases stack <;> exact ⟨rfl, h⟩
  | unknown k => exact ⟨rfl, h⟩
  | call n =>
    cases hl : Registry.builtin.lookup n with
    | none => simp [evalStep, hl, h]
    | some b =>
      cases ha : b.arguments? stack with
      | none => simp [evalStep, hl, ha, h]
      | some a =>
        cases hb : b.body a.1 c'.machine <;> simp [evalStep, hl, ha, Helper.call, h, hb]

theorem evalSteps_calls (vs : List Value) (ss : List Step) (stack : List Value) (c c' : Context)
    (h : c.machine = c'.machine) :
    (evalSteps .builtin name vs p ss stack c).1 = (evalSteps .builtin name vs p ss stack c').1 ∧
      (evalSteps .builtin name vs p ss stack c).2.machine = (evalSteps .builtin name vs p ss stack c').2.machine := by
  induction ss generalizing stack c c' with
  | nil => exact ⟨rfl, h⟩
  | cons s ss ih =>
    obtain ⟨h₁, h₂⟩ := evalStep_calls name p vs s stack c c' h
    simp only [evalSteps]
    revert h₁ h₂
    rcases evalStep .builtin name vs p s stack c with ⟨_ | stack₁, c₁⟩ <;>
      rcases evalStep .builtin name vs p s stack c' with ⟨_ | stack₂, c₂⟩ <;> rintro ⟨⟩ h₂
    · exact ⟨rfl, h₂⟩
    · exact ih stack₁ c₁ c₂ h₂

end Steps

/-! ### Disciplined fragments -/

/-- What the steps of a fragment leave on the stack for a value: nothing if the target holds none. -/
def left (f : Fragment) (v : Value) : List Value := if f.target.kind = .void then [] else [v]

theorem eq_of_isDisciplined {f : Fragment} (hf : f.isDisciplined = true) :
    ∃ marks, markAll f.cls f.inputs f.steps [] = some marks ∧
      (f.target.kind = .void ∧ f.hasEffect = true ∧ marks = [] ∨
        f.target.kind ≠ .void ∧ f.target.materializable = true ∧ ∃ b, marks = [b]) := by
  simp only [isDisciplined, Bool.and_eq_true] at hf
  obtain ⟨hf, -⟩ := hf
  split at hf
  · next h =>
    simp only [Bool.and_eq_true, beq_iff_eq] at hf
    exact ⟨[], h, .inl ⟨hf.1, hf.2, rfl⟩⟩
  · next b h =>
    simp only [Bool.and_eq_true, bne_iff_ne] at hf
    exact ⟨[b], h, .inr ⟨hf.1, hf.2, b, rfl⟩⟩
  · cases hf

theorem input_mem_steps {f : Fragment} (hf : f.isDisciplined = true) {j : Nat} (hj : j < f.inputs.length) :
    .input j ∈ f.steps := by
  simp only [isDisciplined, Bool.and_eq_true, List.all_eq_true, List.mem_range] at hf
  simpa using hf.2 j hj

theorem exists_builtin_of_markAll {cls : EffectClass} {inputs : List Element} {ss : List Step} {marks marks' : List Bool}
    (hk : markAll cls inputs ss marks = some marks') {h : String} (hh : .call h ∈ ss) :
    ∃ b : Builtin, b.name = h ∧ cls.admits b = true := by
  induction ss generalizing marks with
  | nil => cases hh
  | cons s ss ih =>
    obtain ⟨marks₁, hk₁, hk₂⟩ := Option.bind_eq_some_iff.mp hk
    rcases List.mem_cons.mp hh with rfl | hh
    · simp only [mark] at hk₁
      split at hk₁
      · cases hk₁
      · next b hb =>
        have hadm : cls.admits b = true := by
          by_contra hne
          simp [hne] at hk₁
        exact ⟨b, Builtin.name_of_ofName? hb, hadm⟩
    · exact ih hk₂ hh

/-- A disciplined fragment calls built-in helpers only, and those that its class admits. -/
theorem exists_builtin_of_call_mem {f : Fragment} (hf : f.isDisciplined = true) {h : String}
    (hh : .call h ∈ f.steps) : ∃ b : Builtin, b.name = h ∧ f.cls.admits b = true := by
  obtain ⟨marks, hk, -⟩ := eq_of_isDisciplined hf
  exact exists_builtin_of_markAll hk hh

theorem materializable_of_isDisciplined {f : Fragment} (hf : f.isDisciplined = true)
    (hk : f.target.kind ≠ .void) : f.target.materializable = true := by
  obtain ⟨marks, -, ⟨h, -⟩ | ⟨-, h, -⟩⟩ := eq_of_isDisciplined hf
  · exact absurd h hk
  · exact h

instance : Linkable Disciplined where
  exists_builtin hf _ hh := by
    obtain ⟨b, hb, -⟩ := exists_builtin_of_call_mem hf hh
    exact ⟨b, hb⟩
  materializable := materializable_of_isDisciplined

theorem Marked.eq_left {f : Fragment} {stack : List Value} {marks : List Bool} (hm : Marked stack marks)
    (hk : f.target.kind = .void ∧ f.hasEffect = true ∧ marks = [] ∨
      f.target.kind ≠ .void ∧ f.target.materializable = true ∧ ∃ b, marks = [b]) :
    stack = f.left (stack.headD .zero) := by
  unfold left
  rcases hk with ⟨h, -, rfl⟩ | ⟨h, -, b, rfl⟩
  · cases hm
    rw [if_pos h]
  · cases hm with
    | cons _ hm =>
      cases hm
      rw [if_neg h]
      rfl

/-- What evaluating a fragment on a machine gives and leaves, without the log of helper calls. -/
def outcome (f : Fragment) (vs : List Value) (p : Place) (m : Machine) : Except EvalError Value × Machine :=
  let r := f.eval .builtin vs p ⟨m, []⟩
  (r.1, r.2.machine)

/-- Evaluating a fragment does not depend on the calls logged before. -/
theorem eval_eq_outcome (f : Fragment) (vs : List Value) (p : Place) (c : Context) :
    ∃ calls, f.eval .builtin vs p c = ((f.outcome vs p c.machine).1, ⟨(f.outcome vs p c.machine).2, calls⟩) := by
  obtain ⟨h₁, h₂⟩ := evalSteps_calls f.name p vs f.steps [] c ⟨c.machine, []⟩ rfl
  refine ⟨(f.eval .builtin vs p c).2.calls, ?_⟩
  simp only [outcome, eval]
  revert h₁ h₂
  rcases evalSteps .builtin f.name vs p f.steps [] c with ⟨_ | _, m₁, calls₁⟩ <;>
    rcases evalSteps .builtin f.name vs p f.steps [] ⟨c.machine, []⟩ with ⟨_ | _, m₂, calls₂⟩ <;>
    rintro ⟨⟩ ⟨⟩ <;> rfl

theorem outcome_of_evalSteps {f : Fragment} {vs : List Value} {p : Place} {m : Machine}
    {r : Except EvalError (List Value)} {c : Context}
    (h : evalSteps .builtin f.name vs p f.steps [] ⟨m, []⟩ = (r, c)) :
    f.outcome vs p m = (r.map (·.headD .zero), c.machine) := by
  simp only [outcome, eval, h]
  cases r <;> rfl

theorem evalSteps_of_outcome {f : Fragment} {vs : List Value} {p : Place} {m : Machine}
    {r : Except EvalError (List Value)} {c : Context}
    (h : evalSteps .builtin f.name vs p f.steps [] ⟨m, []⟩ = (r, c)) (calls : List String) :
    ∃ calls', evalSteps .builtin f.name vs p f.steps [] ⟨m, calls⟩ = (r, ⟨c.machine, calls'⟩) := by
  obtain ⟨h₁, h₂⟩ := evalSteps_calls f.name p vs f.steps [] ⟨m, calls⟩ ⟨m, []⟩ rfl
  rw [h] at h₁ h₂
  exact ⟨(evalSteps .builtin f.name vs p f.steps [] ⟨m, calls⟩).2.calls, Prod.ext h₁ (Context.ext h₂ rfl)⟩

/-- Evaluating a disciplined fragment gives a value or, if it can fault, a fault. -/
theorem outcome_cases {f : Fragment} (hf : f.isDisciplined = true) {vs : List Value}
    (hs : Supplies f.inputs vs) (p : Place) (m : Machine) :
    (∃ v m', f.outcome vs p m = (.ok v, m') ∧ m'.SameFront m ∧
      ∀ calls, ∃ calls', evalSteps .builtin f.name vs p f.steps [] ⟨m, calls⟩ = (.ok (f.left v), ⟨m', calls'⟩)) ∨
    (∃ x m', f.outcome vs p m = (.error (.helper (.fault x)), m') ∧ m'.SameFront m ∧ f.canFault = true ∧
      ∀ calls, ∃ calls',
        evalSteps .builtin f.name vs p f.steps [] ⟨m, calls⟩ = (.error (.helper (.fault x)), ⟨m', calls'⟩)) := by
  obtain ⟨marks, hk, htarget⟩ := eq_of_isDisciplined hf
  rcases evalSteps_marked f.name p hs .nil hk ⟨m, []⟩ with ⟨stack, c', h, hm, hr⟩ | ⟨x, c', h, hx, hr⟩
  · refine .inl ⟨_, _, outcome_of_evalSteps h, hr, ?_⟩
    rw [← hm.eq_left htarget]
    exact evalSteps_of_outcome h
  · exact .inr ⟨x, _, outcome_of_evalSteps h, hr, by simp [canFault, hx], evalSteps_of_outcome h⟩

/-- A disciplined pure fragment gives a value that its inputs and its place decide, and does nothing. -/
theorem outcome_of_pure {f : Fragment} (hf : f.isDisciplined = true) (hp : f.hasEffect = false)
    {vs : List Value} (hs : Supplies f.inputs vs) (p : Place) :
    ∃ v, ∀ m, f.outcome vs p m = (.ok v, m) := by
  have hcls : f.cls = .pure := by simpa [hasEffect] using hp
  obtain ⟨marks, hk, -⟩ := eq_of_isDisciplined hf
  rw [hcls] at hk
  obtain ⟨stack, -, h⟩ := evalSteps_pure f.name p hs .nil hk
  refine ⟨stack.headD .zero, fun m => ?_⟩
  obtain ⟨calls, hc⟩ := h ⟨m, []⟩
  exact outcome_of_evalSteps hc

end Fragment

/-! ### The built-in tables -/

theorem Mode.mem_all (m : Mode) : m ∈ Mode.all := by
  cases m <;> decide

theorem Op.ofNumber?_number (op : Op) : Op.ofNumber? op.number = some op := by
  cases op <;> first | rfl | (rename_i r; cases r <;> rfl)

theorem Op.mem_all (op : Op) : op ∈ Op.all := List.mem_of_getElem? (ofNumber?_number op)

/-- What holds of the fragments of every op, in every mode, holds of those that a table gives. -/
theorem Lowering.of_mem {P : Mode → Fragment → Prop}
    (h : ∀ m ∈ Mode.all, ∀ op ∈ Op.all, ∀ f ∈ Lowering.targets m op, P m f) {mode : Mode} {op : Option Op} {f : Fragment}
    (hf : f ∈ (Lowering.table mode).targets? op) : P mode f := by
  cases op with
  | none => cases hf
  | some op => exact h mode mode.mem_all op op.mem_all f hf

theorem Lowering.isDisciplined_of_mem {mode : Mode} {op : Option Op} {f : Fragment}
    (hf : f ∈ (Lowering.table mode).targets? op) : f.isDisciplined = true :=
  of_mem (P := fun _ f => f.isDisciplined = true) (by decide +kernel) hf

end MicroBlock
