import Mathlib
import MicroBlock.Proofs.Fragments

/-! The values that fragments compute.

Every element takes values of one shape, and a fragment gives a value of the shape of its target if its
inputs have theirs. So a register that holds what was computed for it holds just that: writing it back
and reading it again changes nothing. -/

namespace MicroBlock

/-- A set of values: a scalar up to a bound, a segment, or anything. -/
inductive Shape where
  | any
  | upTo (n : UInt32)
  | segment
  deriving DecidableEq

namespace Shape

def word : Shape := upTo 0xffffffff

def Holds : Shape → Value → Prop
  | any, _ => True
  | upTo n, v => ∃ k ≤ n, v = .ofUInt32 k
  | segment, v => ∃ s, v = .segment s

/-- Whether all values of the first shape are of the second. -/
def fits : Shape → Shape → Bool
  | _, any => true
  | upTo n, upTo k => decide (n ≤ k)
  | segment, segment => true
  | _, _ => false

theorem Holds.mono {a b : Shape} {v : Value} (h : a.Holds v) (hab : a.fits b = true) : b.Holds v := by
  cases b with
  | any => trivial
  | upTo k =>
    cases a with
    | upTo n =>
      obtain ⟨i, hi, rfl⟩ := h
      exact ⟨i, UInt32.le_trans hi (of_decide_eq_true (by exact hab)), rfl⟩
    | any | segment => cases hab
  | segment =>
    cases a with
    | segment => exact h
    | any | upTo n => cases hab

theorem holds_word (n : UInt32) : word.Holds (.ofUInt32 n) := by
  refine ⟨n, ?_, rfl⟩
  rw [UInt32.le_iff_toNat_le]
  have := n.toNat_lt
  simp
  omega

theorem holds_ofBool (b : Bool) : (upTo 1).Holds (.ofBool b) := by
  cases b
  · exact ⟨0, by decide, rfl⟩
  · exact ⟨1, by decide, rfl⟩

end Shape

/-- The values of an element. -/
def Element.shape : Element → Shape
  | .reg (.flag f) => .upTo f.mask
  | .reg .cpl => .upTo 3
  | .reg (.seg _) | .reg (.table _) => .segment
  | .reg _ => .word
  | .temp .seg0 | .temp .long0 => .any
  | .temp _ => .word
  | _ => .any

/-- A register gives back a value of its shape. -/
theorem Register.held_of_holds {r : Register} {v : Value} (h : (Element.reg r).shape.Holds v) : r.held v = v := by
  cases r with
  | gpr _ | eip =>
    obtain ⟨k, -, rfl⟩ := h
    simp [held]
  | flag f =>
    obtain ⟨k, hk, rfl⟩ := h
    simp [held, Machine.land_mask_eq f hk]
  | cpl =>
    obtain ⟨k, hk, rfl⟩ := h
    simp [held, show k &&& 3 = k from Machine.land_mask_eq .iopl hk]
  | seg _ | table _ =>
    obtain ⟨s, rfl⟩ := h
    rfl

theorem Machine.Normalised.holds_get {m : Machine} (h : m.Normalised) (e : Element) : e.shape.Holds (m.get e) := by
  cases e with
  | reg r =>
    cases r with
    | gpr _ | eip => exact Shape.holds_word _
    | flag f => exact ⟨_, h.1 f, rfl⟩
    | cpl => exact ⟨_, h.2, rfl⟩
    | seg _ | table _ => exact ⟨_, rfl⟩
  | temp t => cases t <;> first | trivial | exact Shape.holds_word 0
  | cpu | zero | marker _ => trivial

/-! ### Helpers -/

namespace Builtin

/-- The shape of a helper's result. A branch hands on one of its arguments, and some helpers have no result. -/
def shape : Builtin → Shape
  | cfAdd | cfSub | ofAdd | ofSub | afAdd | afSub | zf | sf | pf | ofInc | ofDec | afInc | afDec | not1 | nonzero
  | ifChecked => .upTo 1
  | realSegment _ | protectedSegment _ => .segment
  | mul64u | concat64 | branch | retire | write _ | portOut _ _ | route _ => .any
  | _ => .word

/-- A result whose value has a shape. -/
def Yields (s : Shape) (x : Except Failure (Value × Machine)) : Prop := ∀ v m, x = .ok (v, m) → s.Holds v

theorem Yields.bind {α : Type} {s : Shape} {x : Except Failure α} {f : α → Except Failure (Value × Machine)}
    (h : ∀ a, Yields s (f a)) : Yields s (x >>= f) := by
  cases x with
  | error e => intro v m hx; cases hx
  | ok a => exact h a

theorem Yields.ok {s : Shape} {v : Value} {m : Machine} (h : s.Holds v) : Yields s (.ok (v, m)) := by
  rintro _ _ ⟨⟩
  exact h

theorem body_yields (b : Builtin) (args : List Value) (m : Machine) : Yields b.shape (b.body args m) := by
  cases b with
  | not32 | neg32 | inc32 | dec32 | sext8 | sext16 | mask8 | mask16 | hi8 | lo32 | hi32 =>
    exact .bind fun _ => .ok (Shape.holds_word _)
  | pf | ofInc | ofDec | afInc | afDec | not1 | nonzero => exact .bind fun _ => .ok (Shape.holds_ofBool _)
  | realSegment _ => exact .bind fun _ => .ok ⟨_, rfl⟩
  | add32 | sub32 | and32 | or32 | xor32 | shl32 | shr32 | sar32 | merge16 | merge8lo | merge8hi =>
    exact .bind fun _ => .bind fun _ => .ok (Shape.holds_word _)
  | zf | sf => exact .bind fun _ => .bind fun _ => .ok (Shape.holds_ofBool _)
  | cfAdd | cfSub | ofAdd | ofSub | afAdd | afSub =>
    exact .bind fun _ => .bind fun _ => .bind fun _ => .ok (Shape.holds_ofBool _)
  | divq32 | divr32 => exact .bind fun _ => .bind fun _ => .bind fun _ => .ok (Shape.holds_word _)
  | protectedSegment _ => exact .bind fun _ => .bind fun _ => .bind fun _ => .ok ⟨_, rfl⟩
  | ifChecked =>
    refine .bind fun _ => .bind fun _ => .bind fun _ => .bind fun w => .ok ⟨w &&& 1, ?_, rfl⟩
    exact UInt32.le_iff_toNat_le.mpr Nat.and_le_right
  | selector =>
    refine .bind fun x => ?_
    cases x.segment?
    · exact .ok (Shape.holds_word 0)
    · exact .ok (Shape.holds_word _)
  | mul64u | concat64 | branch | retire | write _ | portOut _ _ | route _ => exact fun _ _ _ => trivial
  | read w =>
    exact .bind fun _ => .bind fun _ => .bind fun _ => .bind fun _ => .bind fun _ => .ok (Shape.holds_word _)
  | portIn w checked =>
    refine .bind fun _ => ?_
    cases m.ports with
    | none =>
      cases checked
      · exact .ok (Shape.holds_word _)
      · exact .bind fun _ => .bind fun _ => .bind fun _ => .ok (Shape.holds_word _)
    | some p =>
      cases checked
      · exact .bind fun _ => .ok (Shape.holds_word _)
      · exact .bind fun _ => .bind fun _ => .bind fun _ => .bind fun _ => .ok (Shape.holds_word _)

/-- The shape of the result of a call whose arguments lie on the stack with the given shapes, top first. -/
def shapeOf (b : Builtin) (shapes : List Shape) : Shape :=
  match b, shapes with
  | branch, s :: s' :: _ => if s = s' then s else .any
  | b, _ => b.shape

theorem mem_of_branch {x y z v : Value} {m m' : Machine} (h : branch.body [z, y, x] m = .ok (v, m')) :
    v = x ∨ v = y := by
  change branchBody [z, y, x] m = _ at h
  simp only [branchBody, word, arg, List.getElem?_cons_zero, List.getElem?_cons_succ, Except.map, bind, Except.bind] at h
  split at h <;> cases h
  · exact .inl rfl
  · exact .inr rfl

theorem holds_shapeOf {b : Builtin} {stack : List Value} {shapes : List Shape}
    (hs : List.Forall₂ (fun v s => s.Holds v) stack shapes) (hlen : stack.length = b.arity.toNat) {m m' : Machine}
    {v : Value} (h : b.body stack.reverse m = .ok (v, m')) : (b.shapeOf shapes).Holds v := by
  by_cases hb : b = branch
  · subst hb
    obtain ⟨x, y, z, rfl⟩ := List.length_eq_three.mp hlen
    obtain ⟨s, _, hx, htail, rfl⟩ := List.forall₂_cons_left_iff.mp hs
    obtain ⟨s', _, hy, -, rfl⟩ := List.forall₂_cons_left_iff.mp htail
    simp only [shapeOf]
    split
    · next heq =>
      rcases mem_of_branch h with rfl | rfl
      · exact hx
      · exact heq ▸ hy
    · trivial
  · have heq : b.shapeOf shapes = b.shape := by
      cases b <;> first | rfl | exact absurd rfl hb
    rw [heq]
    exact body_yields b _ m v m' h

end Builtin
/-! ### Fragments -/

namespace Fragment

/-- The shapes on the stack after a step, if the step finds what it needs. -/
def shapeStep (inputs : List Element) (s : Step) (shapes : List Shape) : Option (List Shape) :=
  match s, shapes with
  | .input i, shapes => if i < 0 then none else inputs[i.toNat]?.map fun e => e.shape :: shapes
  | .literal (.const v), shapes => some (.upTo (UInt32.ofInt v) :: shapes)
  | .literal _, shapes => some (.word :: shapes)
  | .dup, s :: shapes => some (s :: s :: shapes)
  | .pop, _ :: shapes => some shapes
  | .call h, shapes =>
    (Builtin.ofName? h).map fun b =>
      (if b.result = .void then [] else [b.shapeOf (shapes.take b.arity.toNat)]) ++ shapes.drop b.arity.toNat
  | _, _ => none

def shapeAll (inputs : List Element) : List Step → List Shape → Option (List Shape)
  | [], shapes => some shapes
  | s :: ss, shapes => (shapeStep inputs s shapes).bind (shapeAll inputs ss)

/-- Whether a fragment gives a value of the shape of its target. -/
def isShapely (f : Fragment) : Bool :=
  f.target.kind == .void ||
    match shapeAll f.inputs f.steps [] with
    | some [s] => s.fits f.target.shape
    | _ => false

section Steps
variable {inputs : List Element} {values : Element → Value} {name : String} {p : Place}

theorem evalStep_shaped (hv : ∀ e : Element, e.shape.Holds (values e)) {s : Step} {stack stack' : List Value}
    {shapes shapes' : List Shape} (hs : List.Forall₂ (fun v s => s.Holds v) stack shapes)
    (hk : shapeStep inputs s shapes = some shapes') {c c' : Context}
    (h : evalStep .builtin name (inputs.map values) p s stack c = (.ok stack', c')) :
    List.Forall₂ (fun v s => s.Holds v) stack' shapes' := by
  cases s with
  | input i =>
    simp only [shapeStep] at hk
    split at hk
    · cases hk
    next hi =>
    obtain ⟨e, he, rfl⟩ := Option.map_eq_some_iff.mp hk
    have hinput : input? (inputs.map values) i = some (values e) := by simp [input?, hi, he]
    simp only [evalStep, hinput] at h
    cases h
    exact .cons (hv e) hs
  | literal l =>
    cases h
    cases l with
    | const v =>
      cases hk
      exact .cons ⟨_, UInt32.le_refl _, rfl⟩ hs
    | immediate | x86Length | x86Position =>
      cases hk
      exact .cons (Shape.holds_word _) hs
  | dup =>
    cases hs with
    | nil => cases hk
    | cons hx hs =>
      cases hk
      cases h
      exact .cons hx (.cons hx hs)
  | pop =>
    cases hs with
    | nil => cases hk
    | cons hx hs =>
      cases hk
      cases h
      exact hs
  | call n =>
    obtain ⟨b, hb, rfl⟩ := Option.map_eq_some_iff.mp hk
    obtain rfl := Builtin.name_of_ofName? hb
    obtain ⟨hx, -⟩ | ⟨args, rest, hargs, ⟨e, -, hx, -⟩ | ⟨v, hx, hstack⟩⟩ := evalStep_call_cases h
    · cases hx
    · cases hx
    · cases hstack
      obtain ⟨hlen, rfl, rfl⟩ := Builtin.arguments?_eq_some hargs
      have hdrop := List.forall₂_drop b.arity.toNat hs
      by_cases hvoid : b.result = .void
      · simpa [hvoid] using hdrop
      · have hholds := Builtin.holds_shapeOf (List.forall₂_take b.arity.toNat hs) (List.length_take_of_le hlen) hx
        simpa [hvoid] using ⟨hholds, hdrop⟩
  | unknown k => cases hk

theorem evalSteps_shaped (hv : ∀ e : Element, e.shape.Holds (values e)) {ss : List Step} {stack stack' : List Value}
    {shapes shapes' : List Shape} (hs : List.Forall₂ (fun v s => s.Holds v) stack shapes)
    (hk : shapeAll inputs ss shapes = some shapes') {c c' : Context}
    (h : evalSteps .builtin name (inputs.map values) p ss stack c = (.ok stack', c')) :
    List.Forall₂ (fun v s => s.Holds v) stack' shapes' := by
  induction ss generalizing stack shapes c with
  | nil =>
    cases hk
    cases h
    exact hs
  | cons s ss ih =>
    obtain ⟨shapes₁, hk₁, hk₂⟩ := Option.bind_eq_some_iff.mp hk
    simp only [evalSteps] at h
    split at h
    · cases h
    next stack₁ c₁ h₁ => exact ih (evalStep_shaped hv hs hk₁ h₁) hk₂ h

end Steps

/-- A fragment gives a value of the shape of its target, if it gives one and its target holds one. -/
theorem holds_of_eval {f : Fragment} (hf : f.isShapely = true) (hk : f.target.kind ≠ .void) {values : Element → Value}
    (hv : ∀ e : Element, e.shape.Holds (values e)) {p : Place} {c c' : Context} {v : Value}
    (h : f.eval .builtin (f.inputs.map values) p c = (.ok v, c')) : f.target.shape.Holds v := by
  simp only [isShapely, Bool.or_eq_true, beq_iff_eq, hk, false_or] at hf
  split at hf
  · next s hs =>
    unfold eval at h
    split at h
    · cases h
    next stack c₁ hsteps =>
    cases h
    cases evalSteps_shaped hv .nil hs hsteps with
    | cons hx _ => exact hx.mono hf
  · cases hf

end Fragment

theorem Lowering.isShapely_of_mem {mode : Mode} {op : Option Op} {f : Fragment}
    (hf : f ∈ (Lowering.table mode).targets? op) : f.isShapely = true :=
  of_mem (P := fun _ f => f.isShapely = true) (by decide +kernel) hf

end MicroBlock
