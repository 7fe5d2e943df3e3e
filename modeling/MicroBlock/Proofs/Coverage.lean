import Mathlib
import MicroBlock.Proofs.Allocation
import MicroBlock.Proofs.Courses
import MicroBlock.Proofs.Expansions
import MicroBlock.Proofs.Refinement

/-! Every value is computed once on the main path.

Whatever the roots lead to is written out in the main code: all that is asked for is at hand, in a slot or by being written
out. A node that is written out is written out in full, and the effects stand in program order. So a run that meets
no fault calls what these nodes call and nothing else. -/

namespace MicroBlock
namespace Emission
open MicroBlock.Graph

/-! ### At least once -/

/-- A node whose value is at hand: it is initial, it was stored before, or it is written out. -/
def Given (g : Graph) (s : Emission) (written : List Nat) (j : Nat) : Prop :=
  g.nodes[j]?.any Node.isInitial = true ∨ (s.storedAt? j).isSome = true ∨ j ∈ written

/-- All that was asked for is at hand, and so is all that was written out asks for. What is stored was written out. -/
structure Answers (g : Graph) (asked written : List Nat) (s s' : Emission) : Prop where
  asked : ∀ j ∈ asked, Given g s written j
  picked : ∀ id ∈ written, ∀ j ∈ g.picks id, Given g s written j
  stored : ∀ j, (s'.storedAt? j).isSome = true → (s.storedAt? j).isSome = true ∨ j ∈ written

section Answers
variable {g : Graph} {slots : Slots} {s s' s'' : Emission}

theorem Given.left {written : List Nat} {j : Nat} (h : Given g s written j) (written' : List Nat) :
    Given g s (written ++ written') j :=
  h.imp id (Or.imp id (List.mem_append_left _))

theorem Answers.trans {asked asked' written written' : List Nat} (h : Answers g asked written s s')
    (h' : Answers g asked' written' s' s'') : Answers g (asked ++ asked') (written ++ written') s s'' := by
  have hright : ∀ {j : Nat}, Given g s' written' j → Given g s (written ++ written') j := by
    rintro j (hj | hj | hj)
    · exact .inl hj
    · exact .inr ((h.stored j hj).imp id (List.mem_append_left _))
    · exact .inr (.inr (List.mem_append_right _ hj))
  refine ⟨fun j hj => ?_, fun id hid j hj => ?_, fun j hj => ?_⟩
  · rcases List.mem_append.mp hj with hj | hj
    · exact (h.asked j hj).left _
    · exact hright (h'.asked j hj)
  · rcases List.mem_append.mp hid with hid | hid
    · exact (h.picked id hid j hj).left _
    · exact hright (h'.picked id hid j hj)
  · rcases h'.stored j hj with hj | hj
    · exact (h.stored j hj).imp id (List.mem_append_left _)
    · exact .inr (List.mem_append_right _ hj)

/-- Nothing was stored or written out, and all that was asked for was at hand. -/
theorem answers_of_stored {asked : List Nat} (hst : s'.stored = s.stored) (h : ∀ j ∈ asked, Given g s [] j) :
    Answers g asked [] s s' where
  asked := h
  picked _ h := absurd h List.not_mem_nil
  stored j hj := .inl (by rwa [storedAt?, hst] at hj)

section Steps
variable {id : Nat} {n : Node} (hn : g.nodes[id]? = some n) {acts : Nat → Emission → List Act}
  {input : Nat → Emission → Emission} (hperform : ∀ i s, s.perform g slots (acts i s) = input i s)
  (hin : ∀ i ∈ n.inputs, ∀ s, Answers g [i] (expansions (acts i s)) s (input i s))
include hin

variable (id) in
theorem answers_step (st : Step) (s : Emission) :
    Answers g (st.pick? n.inputs).toList (expansions (stepActs id n acts st s)) s (step n input s st) := by
  unfold stepActs
  cases hp : st.pick? n.inputs with
  | some i =>
    rw [step_of_pick hp]
    exact hin i (Step.mem_of_pick? hp) s
  | none =>
    rw [step_of_no_pick hp input fun _ s => s]
    exact answers_of_stored (stored_step n s st) fun j hj => absurd hj List.not_mem_nil

include hn hperform

theorem answers_steps (o : Origin) (ho : n.origin = some o) (s : Emission) :
    Answers g n.picks (expansions (thread g slots (stepActs id n acts) o.fragment.steps s)) s (steps n o input s) := by
  simp only [Node.picks, ho, Option.elim_some, Fragment.picks, steps]
  generalize o.fragment.steps = sts
  induction sts generalizing s with
  | nil => exact answers_of_stored rfl fun j hj => absurd hj List.not_mem_nil
  | cons st sts ih =>
    have h := (answers_step id hin st s).trans (ih _)
    rw [thread, expansions_append, perform_stepActs hn hperform, List.foldl_cons]
    cases hp : st.pick? n.inputs <;> rw [hp] at h
    · rwa [List.filterMap_cons_none hp]
    · rwa [List.filterMap_cons_some hp]

end Steps

/-- The steps of a node, and what follows them, bring the node to hand. -/
theorem Answers.node {id : Nat} {n : Node} (hn : g.nodes[id]? = some n) {w : List Nat} (h : Answers g n.picks w s s')
    (statement : Bool) : Answers g [id] (id :: w) s (keep slots id n statement s') := by
  have hcons : ∀ {j : Nat}, Given g s w j → Given g s (id :: w) j :=
    fun h => h.imp (fun h => h) (Or.imp (fun h => h) (List.mem_cons_of_mem id))
  refine ⟨fun j hj => ?_, fun i hi j hj => ?_, fun j hj => ?_⟩
  · rw [List.mem_singleton.mp hj]
    exact .inr (.inr List.mem_cons_self)
  · rcases List.mem_cons.mp hi with rfl | hi
    · rw [Graph.picks, hn, Option.elim_some] at hj
      exact hcons (h.asked j hj)
    · exact hcons (h.picked i hi j hj)
  · by_cases hji : j = id
    · exact .inr (hji ▸ List.mem_cons_self)
    · refine (h.stored j ?_).imp (fun h => h) (List.mem_cons_of_mem id)
      unfold keep at hj
      split at hj
      · rw [storedAt?_set, if_neg fun h => hji h.1.symm] at hj
        cases statement <;> exact hj
      · split at hj <;> exact hj

variable {P : Fragment → Prop} (hw : WellFormed g.nodes P)
include hw

variable (slots) in
theorem answers_value {depth id : Nat} (hd : id < depth) (hlt : id < g.nodes.size) (s : Emission) :
    Answers g [id] (expansions (valueActs g slots depth id s)) s (value g slots depth id s) := by
  induction depth generalizing id s with
  | zero => exact absurd hd (Nat.not_lt_zero id)
  | succ depth ih =>
    have hn := Array.getElem?_eq_getElem hlt
    generalize g.nodes[id] = n at hn
    have hone : ∀ {R : Nat → Prop}, R id → ∀ j ∈ [id], R j := fun h j hj => List.mem_singleton.mp hj ▸ h
    simp only [valueActs, value, hn]
    split
    · next hstored => exact answers_of_stored (stored_load s id n) (hone (.inr (.inl hstored)))
    cases ho : n.origin with
    | none => exact answers_of_stored rfl (hone (.inl (by simp [hn, Node.isInitial, ho])))
    | some o =>
      have hin : ∀ i ∈ n.inputs, ∀ s, Answers g [i] (expansions (valueActs g slots depth i s)) s
          (value g slots depth i s) := by
        intro i hi s
        have hlti := (hw.input_lt hn i hi).1
        exact ih (by omega) (hlti.trans hlt) s
      dsimp only
      rw [expansions_node]
      exact (answers_steps hn (perform_valueActs depth) hin o ho s).node hn false

theorem answers_effect {id : Nat} (he : isEffect g.nodes id = true) (s : Emission) :
    Answers g [id] (expansions (effectActs g slots id s)) s (effect g slots s id) := by
  obtain ⟨n, hn, heffect⟩ := (Option.any_eq_true _ _).mp he
  obtain ⟨o, ho, -⟩ := (Option.any_eq_true _ _).mp heffect
  have hlt := (Array.getElem?_eq_some_iff.mp hn).1
  have hin : ∀ i ∈ n.inputs, ∀ s, Answers g [i] (expansions (valueActs g slots id i s)) s (value g slots id i s) :=
    fun i hi s => answers_value slots hw (hw.input_lt hn i hi).1 ((hw.input_lt hn i hi).1.trans hlt) s
  simp only [effectActs, effect, hn, ho]
  rw [expansions_node]
  exact (answers_steps hn (perform_valueActs id) hin o ho s).node hn true

variable (slots) in
theorem answers_actsBelow (m : Module) (id : Nat) :
    Answers g ((List.range id).filter (isEffect g.nodes)) (expansions (actsBelow g slots m id)) (start g m)
      (afterEffects g slots m id) := by
  induction id with
  | zero => exact answers_of_stored rfl fun j hj => absurd hj List.not_mem_nil
  | succ id ih =>
    rw [afterEffects_succ, actsBelow_succ, List.range_succ, List.filter_append, List.filter_singleton, expansions_append]
    cases he : isEffect g.nodes id with
    | true => exact ih.trans (answers_effect hw he _)
    | false =>
      rw [cond_false, List.append_nil]
      simpa [expansions] using ih

variable (slots) in
theorem answers_values (rs : List Register) {final : Producers} (hrs : ∀ r ∈ rs, final.get (.reg r) < g.nodes.size)
    (s : Emission) :
    Answers g (rs.map fun r => final.get (.reg r))
      (expansions (thread g slots (fun r => valueActs g slots (final.get (.reg r) + 1) (final.get (.reg r))) rs s)) s
      (rs.foldl (fun s r => value g slots (final.get (.reg r) + 1) (final.get (.reg r)) s) s) := by
  induction rs generalizing s with
  | nil => exact answers_of_stored rfl fun j hj => absurd hj List.not_mem_nil
  | cons r rs ih =>
    have h := answers_value slots hw (Nat.lt_succ_self _) (hrs r List.mem_cons_self) s
    rw [thread, expansions_append, perform_valueActs]
    exact h.trans (ih (fun r' hr' => hrs r' (List.mem_cons_of_mem r hr')) _)

omit hw in
variable (slots) in
theorem answers_roots (hg : g.Valid P) (m : Module) :
    Answers g g.roots (expansions (statementActs g slots m ++ finalActs g slots m)) (start g m)
      (afterValues g slots m g.changed) := by
  have h₁ := answers_actsBelow slots hg.wellFormed m g.nodes.size
  have h₂ := answers_values slots hg.wellFormed g.changed (fun r _ => (hg.final (.reg r)).lt)
    (afterEffects g slots m g.nodes.size)
  rw [← hg.effects, ← statementActs_eq hg] at h₁
  rw [expansions_append, finalActs, perform_statements hg]
  exact h₁.trans h₂

end Answers

/-- Disciplined nodes push all of their inputs. -/
theorem inputs_subset_picks {g : Graph} (hw : WellFormed g.nodes) {id : Nat} {n : Node} {o : Origin}
    (hn : g.nodes[id]? = some n) (ho : n.origin = some o) : g.inputs id ⊆ g.picks id := by
  intro i hi
  obtain ⟨n', hn', hin⟩ := mem_inputs.mp hi
  cases hn.symm.trans hn'
  obtain ⟨j, hj, rfl⟩ := List.mem_iff_getElem.mp hin
  have hstep : .input (j : Nat) ∈ o.fragment.steps :=
    Fragment.input_mem_steps (hw.fragment hn ho) ((hw.inputs hn ho).length_eq ▸ hj)
  rw [Graph.picks, hn, Option.elim_some, Node.picks, ho, Option.elim_some, Fragment.picks, List.mem_filterMap]
  exact ⟨_, hstep, by simp [Step.pick?, hj]⟩

/-- The main code writes out exactly what the roots lead to, initial values apart. -/
theorem mem_expansions_iff {g : Graph} {slots : Slots} (hg : g.Valid) (hs : slots.Sound g) (m : Module) {id : Nat} :
    id ∈ expansions (statementActs g slots m ++ finalActs g slots m) ↔
      Reachable g id ∧ ∃ n o, g.nodes[id]? = some n ∧ n.origin = some o := by
  have hwrites := writes_roots hg hs m
  have hanswers := answers_roots slots hg m
  have hgiven : ∀ {j : Nat} {n : Node} {o : Origin}, g.nodes[j]? = some n → n.origin = some o →
      Given g (start g m) (expansions (statementActs g slots m ++ finalActs g slots m)) j →
        j ∈ expansions (statementActs g slots m ++ finalActs g slots m) := by
    rintro j n o hn ho (h | h | h)
    · simp [hn, Node.isInitial, ho] at h
    · simp [storedAt?_start] at h
    · exact h
  refine ⟨fun h => ⟨(mem_order_iff hg.closed).mp (hwrites.mem_order hg h), hwrites.origin id h⟩, ?_⟩
  rintro ⟨h, n, o, hn, ho⟩
  induction h generalizing n o with
  | root h => exact hgiven hn ho (hanswers.asked _ h)
  | @input id i _ hi ih =>
    obtain ⟨n', hn', hin⟩ := mem_inputs.mp hi
    cases ho' : n'.origin with
    | none =>
      obtain ⟨e, -, rfl⟩ := hg.wellFormed.leaf hn' ho'
      exact absurd hin List.not_mem_nil
    | some o' =>
      exact hgiven hn ho (hanswers.picked id (ih n' o' hn' ho') i (inputs_subset_picks hg.wellFormed hn' ho' hi))

/-! ### In full -/

end Emission

/-- The helper that a step calls. -/
def Step.helper? : Step → Option String
  | .call h => some h
  | _ => none

namespace Graph

/-- The steps of a node that push none of its inputs. -/
def ownSteps (g : Graph) (id : Nat) : List Step :=
  g.nodes[id]?.elim [] fun n => n.origin.elim [] fun o => o.fragment.steps.filter fun st => (st.pick? n.inputs).isNone

/-- The helpers that the steps of a node call, in order. -/
def helpersOf (g : Graph) (id : Nat) : List String :=
  g.nodes[id]?.elim [] fun n => n.origin.elim [] fun o => o.fragment.steps.filterMap Step.helper?

end Graph

/-- The step that is written for a node. -/
def Act.stepOf? (id : Nat) : Act → Option Step
  | .own i st => if i = id then some st else none
  | _ => none

namespace Emission
open MicroBlock.Graph

/-- Every node that is written out is written out in full: all of its own steps are written, in order, and no helper is
    called besides. -/
structure Unfolds (g : Graph) (acts : List Act) : Prop where
  steps : ∀ j, acts.filterMap (Act.stepOf? j) = (List.replicate ((expansions acts).count j) (g.ownSteps j)).flatten
  calls : (acts.filterMap helperOf).Perm ((expansions acts).flatMap g.helpersOf)

section Unfolds
variable {g : Graph} {slots : Slots}

theorem Unfolds.append {acts acts' : List Act} (h : Unfolds g acts) (h' : Unfolds g acts') : Unfolds g (acts ++ acts') where
  steps j := by
    rw [List.filterMap_append, h.steps, h'.steps, expansions_append, List.count_append, List.replicate_add,
      List.flatten_append]
  calls := by
    rw [List.filterMap_append, expansions_append, List.flatMap_append]
    exact h.calls.append h'.calls

theorem unfolds_of_silent {acts : List Act}
    (h : ∀ a ∈ acts, a.expanded? = none ∧ (∀ j, a.stepOf? j = none) ∧ helperOf a = none) : Unfolds g acts := by
  have hexp : expansions acts = [] := List.filterMap_eq_nil_iff.mpr fun a ha => (h a ha).1
  have hcalls : acts.filterMap helperOf = [] := List.filterMap_eq_nil_iff.mpr fun a ha => (h a ha).2.2
  refine ⟨fun j => ?_, by rw [hexp, hcalls]; exact .nil⟩
  rw [hexp, List.filterMap_eq_nil_iff.mpr fun a ha => (h a ha).2.1 j]
  rfl

theorem unfolds_keepActs (id : Nat) (n : Node) (statement : Bool) : Unfolds g (keepActs slots id n statement) := by
  refine unfolds_of_silent ?_
  unfold keepActs
  split
  · cases statement <;> simp [Act.expanded?, Act.stepOf?, helperOf]
  · split <;> simp [Act.expanded?, Act.stepOf?, helperOf]

/-- A step that picks an input calls nothing. -/
theorem helper?_of_pick {st : Step} {inputs : List Nat} {i : Nat} (h : st.pick? inputs = some i) : st.helper? = none := by
  cases st with
  | input => rfl
  | literal | dup | pop | call | unknown => cases h

section Steps
variable {id : Nat} {n : Node} {input : Nat → Emission → List Act}
  (hin : ∀ i ∈ n.inputs, ∀ s, Unfolds g (input i s) ∧ id ∉ expansions (input i s))
include hin

variable (slots) in
/-- Between the steps of a node its inputs are written in full. -/
theorem unfolds_thread (sts : List Step) (s : Emission) :
    id ∉ expansions (thread g slots (stepActs id n input) sts s) ∧
      (∀ j ≠ id, (thread g slots (stepActs id n input) sts s).filterMap (Act.stepOf? j) =
        (List.replicate ((expansions (thread g slots (stepActs id n input) sts s)).count j) (g.ownSteps j)).flatten) ∧
      (thread g slots (stepActs id n input) sts s).filterMap (Act.stepOf? id) =
        sts.filter (fun st => (st.pick? n.inputs).isNone) ∧
      ((thread g slots (stepActs id n input) sts s).filterMap helperOf).Perm
        (sts.filterMap Step.helper? ++ (expansions (thread g slots (stepActs id n input) sts s)).flatMap g.helpersOf) := by
  induction sts generalizing s with
  | nil => exact ⟨List.not_mem_nil, fun _ _ => rfl, rfl, .nil⟩
  | cons st sts ih =>
    obtain ⟨hnot, hothers, hown, hcalls⟩ := ih (s.perform g slots (stepActs id n input st s))
    rw [thread, expansions_append]
    cases hp : st.pick? n.inputs with
    | some i =>
      obtain ⟨hunf, hid⟩ := hin i (Step.mem_of_pick? hp) s
      have hacts : stepActs id n input st s = input i s := by simp only [stepActs, hp]
      rw [hacts] at hnot hothers hown hcalls ⊢
      refine ⟨fun h => (List.mem_append.mp h).elim hid hnot, fun j hj => ?_, ?_, ?_⟩
      · rw [List.filterMap_append, hunf.steps j, hothers j hj, List.count_append, List.replicate_add, List.flatten_append]
      · rw [List.filterMap_append, hunf.steps id, List.count_eq_zero_of_not_mem hid, hown,
          List.filter_cons_of_neg (by simp [hp])]
        rfl
      · rw [List.filterMap_append, List.filterMap_cons_none (helper?_of_pick hp), List.flatMap_append]
        exact (hunf.calls.append hcalls).trans (List.perm_append_comm_assoc _ _ _)
    | none =>
      have hacts : stepActs id n input st s = [.own id st] := by simp only [stepActs, hp]
      rw [hacts] at hnot hothers hown hcalls ⊢
      refine ⟨hnot, fun j hj => ?_, ?_, ?_⟩
      · have hstep : Act.stepOf? j (.own id st) = none := if_neg hj.symm
        rw [List.singleton_append, List.filterMap_cons_none hstep, hothers j hj]
        rfl
      · have hstep : Act.stepOf? id (.own id st) = some st := if_pos rfl
        rw [List.singleton_append, List.filterMap_cons_some hstep, hown, List.filter_cons_of_pos (by simp [hp])]
      · have hhelper : helperOf (.own id st) = st.helper? := by cases st <;> rfl
        rw [List.singleton_append, List.filterMap_cons, List.filterMap_cons, hhelper]
        cases st.helper? with
        | none => exact hcalls
        | some h => exact hcalls.cons h

theorem unfolds_stepsActs (hn : g.nodes[id]? = some n) {o : Origin} (ho : n.origin = some o) (s : Emission) :
    Unfolds g (stepsActs g slots id n o input s) := by
  obtain ⟨hnot, hothers, hown, hcalls⟩ := unfolds_thread slots hin o.fragment.steps s
  have hexp : expansions (stepsActs g slots id n o input s) =
      id :: expansions (thread g slots (stepActs id n input) o.fragment.steps s) := rfl
  refine ⟨fun j => ?_, ?_⟩
  · rw [stepsActs, List.filterMap_cons_none rfl, ← stepsActs, hexp]
    by_cases hj : j = id
    · subst hj
      rw [hown, List.count_cons_self, List.count_eq_zero_of_not_mem hnot]
      simp [ownSteps, hn, ho]
    · rw [hothers j hj, List.count_cons_of_ne (Ne.symm hj)]
  · rw [stepsActs, List.filterMap_cons_none rfl, ← stepsActs, hexp, List.flatMap_cons]
    simpa [helpersOf, hn, ho] using hcalls

end Steps

variable {P : Fragment → Prop} (hw : WellFormed g.nodes P)
include hw

theorem le_of_mem_expansions {depth id : Nat} {s : Emission} :
    ∀ j ∈ expansions (valueActs g slots depth id s), j ≤ id := by
  suffices h : ∀ a ∈ valueActs g slots depth id s, ∀ j, a.expanded? = some j → j ≤ id by
    intro j hj
    obtain ⟨a, ha, haj⟩ := List.mem_filterMap.mp hj
    exact h a ha j haj
  induction depth generalizing id s with
  | zero => exact fun a ha => absurd ha List.not_mem_nil
  | succ depth ih =>
    unfold valueActs
    split
    · exact fun a ha => absurd ha List.not_mem_nil
    next n hn =>
    split
    · simp [Act.expanded?]
    split
    · simp [Act.expanded?]
    next o ho =>
    intro a ha j haj
    rcases List.mem_append.mp ha with ha | ha
    · rcases List.mem_cons.mp ha with rfl | ha
      · exact (Option.some.inj haj).ge
      have hall : Along g slots (fun _ a => ∀ j, a.expanded? = some j → j ≤ id) s
          (thread g slots (stepActs id n (valueActs g slots depth)) o.fragment.steps s) := by
        refine along_thread (I := fun _ => True) (fun st _ s' _ => ⟨?_, trivial⟩) trivial
        unfold stepActs
        split
        · next i hi =>
          have hlt := (hw.input_lt hn i (Step.mem_of_pick? hi)).1
          exact along_forall.mpr fun a ha j haj => (ih a ha j haj).trans hlt.le
        · exact ⟨fun j haj => (by cases haj), trivial⟩
      exact along_forall.mp hall a ha j haj
    · have hkeep := List.filterMap_eq_nil_iff.mp (expansions_keepActs slots id n false) a ha
      rw [hkeep] at haj
      cases haj

theorem unfolds_valueActs (depth id : Nat) (s : Emission) : Unfolds g (valueActs g slots depth id s) := by
  induction depth generalizing id s with
  | zero => exact unfolds_of_silent fun a ha => absurd ha List.not_mem_nil
  | succ depth ih =>
    unfold valueActs
    split
    · exact unfolds_of_silent fun a ha => absurd ha List.not_mem_nil
    next n hn =>
    split
    · exact unfolds_of_silent (by simp [Act.expanded?, Act.stepOf?, helperOf])
    split
    · exact unfolds_of_silent (by simp [Act.expanded?, Act.stepOf?, helperOf])
    next o ho =>
    refine (unfolds_stepsActs (fun i hi s => ⟨ih i s, fun hid => ?_⟩) hn ho s).append (unfolds_keepActs id n false)
    exact absurd ((le_of_mem_expansions hw id hid).trans_lt (hw.input_lt hn i hi).1) (lt_irrefl id)

theorem unfolds_effectActs (id : Nat) (s : Emission) : Unfolds g (effectActs g slots id s) := by
  unfold effectActs
  split
  · next n hn =>
    split
    · next o ho =>
      refine (unfolds_stepsActs (fun i hi s => ⟨unfolds_valueActs hw id i s, fun hid => ?_⟩) hn ho s).append
        (unfolds_keepActs id n true)
      exact absurd ((le_of_mem_expansions hw id hid).trans_lt (hw.input_lt hn i hi).1) (lt_irrefl id)
    · exact unfolds_of_silent fun a ha => absurd ha List.not_mem_nil
  · exact unfolds_of_silent fun a ha => absurd ha List.not_mem_nil

omit hw in
theorem unfolds_pieces {α : Type} {f : α → Emission → List Act} (h : ∀ a s, Unfolds g (f a s)) (l : List α) (s : Emission) :
    Unfolds g (thread g slots f l s) := by
  induction l generalizing s with
  | nil => exact unfolds_of_silent fun a ha => absurd ha List.not_mem_nil
  | cons a l ih => exact (h a s).append (ih _)

theorem unfolds_mainActs (count : Nat) (m : Module) : Unfolds g (mainActs g slots count m) := by
  have hset : Unfolds g (g.changed.reverse.map Act.set ++ [Act.number count, Act.ret]) := by
    refine unfolds_of_silent fun a ha => ?_
    simp only [List.mem_append, List.mem_map, List.mem_cons, List.not_mem_nil, or_false] at ha
    rcases ha with ⟨r, -, rfl⟩ | rfl | rfl <;> exact ⟨rfl, fun _ => rfl, rfl⟩
  exact (unfolds_pieces (unfolds_effectActs hw) _ _).append
    ((unfolds_pieces (fun _ => unfolds_valueActs hw _ _) _ _).append hset)

end Unfolds

/-! ### In order -/

section Order
variable {g : Graph} {slots : Slots} {P : Fragment → Prop} (hs : slots.Sound g)
include hs

theorem expansions_effectActs (hw : WellFormed g.nodes P) {id : Nat} (he : isEffect g.nodes id = true) {s : Emission}
    (hready : Ready g id s) : (expansions (effectActs g slots id s)).filter (isEffect g.nodes) = [id] := by
  obtain ⟨n, hn, heffect⟩ := (Option.any_eq_true _ _).mp he
  obtain ⟨o, ho, -⟩ := (Option.any_eq_true _ _).mp heffect
  have hpure := pure_effectActs hw hs hready
  have hlt : ∀ j ∈ expansions (thread g slots (stepActs id n (valueActs g slots id)) o.fragment.steps s), j ≠ id := by
    rintro j hj rfl
    exact (unfolds_thread slots (fun i hi s => ⟨unfolds_valueActs hw j i s, fun hid => absurd
      ((le_of_mem_expansions hw j hid).trans_lt (hw.input_lt hn i hi).1) (lt_irrefl j)⟩) o.fragment.steps s).1 hj
  simp only [effectActs, hn, ho] at hpure ⊢
  rw [expansions_node, List.filter_cons_of_pos he, List.filter_eq_nil_iff.mpr fun j hj => ?_]
  obtain ⟨a, ha, haj⟩ := List.mem_filterMap.mp hj
  cases a with
  | expand i =>
    cases haj
    rcases hpure (.expand j) (List.mem_append_left _ (List.mem_cons_of_mem _ ha)) with h | h | ⟨st, h⟩
    · exact Bool.eq_false_iff.mp h
    · cases h
      exact absurd rfl (hlt id hj)
    · cases h
  | _ => cases haj

variable [Fragment.Writable P] (hkeep : slots.KeepsEffects g)
include hkeep

/-- The effects are written out in program order. -/
theorem filter_expansions_main (hg : g.Valid P) (m : Module) :
    (expansions (statementActs g slots m ++ finalActs g slots m)).filter (isEffect g.nodes) = g.effects.toList := by
  have hbelow : ∀ id, (expansions (actsBelow g slots m id)).filter (isEffect g.nodes) =
      (List.range id).filter (isEffect g.nodes) := by
    intro id
    induction id with
    | zero => rfl
    | succ id ih =>
      rw [actsBelow_succ, expansions_append, List.filter_append, ih, List.range_succ, List.filter_append,
        List.filter_singleton]
      cases he : isEffect g.nodes id with
      | true =>
        rw [if_pos rfl, expansions_effectActs hs hg.wellFormed he (ready_afterEffects hg.wellFormed hs hkeep m id)]
        rfl
      | false => rfl
  have hfinal : (expansions (finalActs g slots m)).filter (isEffect g.nodes) = [] := by
    refine List.filter_eq_nil_iff.mpr fun j hj => ?_
    obtain ⟨a, ha, haj⟩ := List.mem_filterMap.mp hj
    have hpure := pure_finalActs hs hkeep hg m a ha
    cases a with
    | expand i =>
      cases haj
      exact Bool.eq_false_iff.mp hpure
    | _ => cases haj
  rw [expansions_append, List.filter_append, hfinal, List.append_nil, statementActs_eq hg, hbelow, hg.effects]

end Order

/-! ### Once -/

/-- The nodes that the roots lead to, and no others, are written out once each, in full and with the effects in order. -/
structure ExpandsOnce (g : Graph) (acts : List Act) : Prop where
  once : (expansions acts).Nodup
  mem_iff : ∀ id, id ∈ expansions acts ↔ Reachable g id ∧ g.nodes[id]?.any Node.isInitial = false
  effects : (expansions acts).filter (isEffect g.nodes) = g.effects.toList
  steps : ∀ id ∈ expansions acts, acts.filterMap (Act.stepOf? id) = g.ownSteps id
  calls : (acts.filterMap helperOf).Perm (g.reachable.toList.flatMap g.helpersOf)

theorem flatMap_filter_of_nil {α β : Type} {p : α → Bool} {f : α → List β} {l : List α}
    (h : ∀ a ∈ l, p a = false → f a = []) : (l.filter p).flatMap f = l.flatMap f := by
  induction l with
  | nil => rfl
  | cons a l ih =>
    have ih := ih fun b hb => h b (List.mem_cons_of_mem a hb)
    cases ha : p a with
    | true => rw [List.filter_cons_of_pos ha, List.flatMap_cons, List.flatMap_cons, ih]
    | false =>
      rw [List.filter_cons_of_neg (by simp [ha]), List.flatMap_cons, h a List.mem_cons_self ha, ih]
      rfl

section Once
variable {g : Graph} {slots : Slots}

theorem expansions_mainActs (count : Nat) (m : Module) :
    expansions (mainActs g slots count m) = expansions (statementActs g slots m ++ finalActs g slots m) := by
  have hset : expansions (g.changed.reverse.map Act.set ++ [Act.number count, Act.ret]) = [] := by
    refine List.filterMap_eq_nil_iff.mpr fun a ha => ?_
    simp only [List.mem_append, List.mem_map, List.mem_cons, List.not_mem_nil, or_false] at ha
    rcases ha with ⟨r, -, rfl⟩ | rfl | rfl <;> rfl
  rw [mainActs, writeBackActs, ← List.append_assoc, expansions_append, hset, List.append_nil]

end Once

theorem expandsOnce_mainActs {mode : Mode} {b : Block} {s : Stream} (hb : Stream.ofBlock b = .ok s) {g : Graph}
    (hg : Graph.build (Lowering.table mode) true s = .ok g) {units : Int} {slots : Slots}
    (ha : Slots.allocate g units = (.ok (), slots)) (count : Nat) (m : Module) :
    ExpandsOnce g (mainActs g slots count m) := by
  have hv := Graph.build_valid (Lowering.table_disciplined mode) hb hg
  have hmated := Graph.build_mated (Lowering.table_disciplined mode) hb hg
  obtain ⟨hs, hkeeps⟩ := Slots.allocate_keeps hv.closed ha
  obtain ⟨-, hkeep⟩ := Slots.allocate_sound hv ha
  have hunfolds : Unfolds g (mainActs g slots count m) := unfolds_mainActs hv.wellFormed count m
  have hexp : expansions (mainActs g slots count m) = _ := expansions_mainActs count m
  have hnodup : (expansions (mainActs g slots count m)).Nodup := by
    rw [hexp]
    exact (writes_roots hv hs m).nodup hv hmated (fun _ _ => Lowering.isThrifty_of_mem) hkeeps
  have hmem : ∀ id, id ∈ expansions (mainActs g slots count m) ↔
      Reachable g id ∧ g.nodes[id]?.any Node.isInitial = false := by
    intro id
    rw [hexp, mem_expansions_iff hv hs m]
    refine and_congr_right fun hr => ?_
    have hn := Array.getElem?_eq_getElem (hr.lt hv.closed)
    simp only [hn, Option.some.injEq, Option.any_some, Node.isInitial, Option.isNone_eq_false_iff]
    exact ⟨by rintro ⟨n, o, rfl, ho⟩; rw [ho]; rfl, fun h => ⟨_, _, rfl, Option.eq_some_of_isSome h⟩⟩
  refine ⟨hnodup, hmem, by rw [hexp]; exact filter_expansions_main hs hkeep hv m, fun id hid => ?_, ?_⟩
  · rw [hunfolds.steps id, List.count_eq_one_of_mem hnodup hid, List.replicate_one, List.flatten_singleton]
  · refine hunfolds.calls.trans ?_
    -- Initial values call nothing, so it does not matter that only the others are written out.
    have hperm : (expansions (mainActs g slots count m)).Perm
        (g.reachable.toList.filter fun id => !g.nodes[id]?.any Node.isInitial) := by
      refine (List.perm_ext_iff_of_nodup hnodup (g.reachable.nodup_toList.filter _)).mpr fun id => ?_
      rw [hmem, List.mem_filter, Finset.mem_toList, mem_reachable hv.closed, Bool.not_eq_true']
    refine (hperm.flatMap_right _).trans (.of_eq ?_)
    refine flatMap_filter_of_nil fun id _ h => ?_
    obtain ⟨n, hn, ho⟩ := (Option.any_eq_true _ _).mp ((Bool.not_eq_eq_eq_not).mp h)
    rw [helpersOf, hn, Option.elim_some, Option.isNone_iff_eq_none.mp ho]
    rfl

/-! ### Runs without faults -/

/-- The main code stands at the beginning of all code, before the code of the rollbacks. -/
theorem execute_eq_main {g : Graph} {slots : Slots} {route : String} {count : Nat} {m : Module} {guards : List Guard}
    {fin : Emission} (h : execute g slots route count m = (guards, fin)) :
    ∃ handlers, fin = (start g m).perform g slots (mainActs g slots count m ++ handlers) ∧
      ∀ x ∈ guards.head?, x.target = Int32.ofNat ((start g m).perform g slots (mainActs g slots count m)).size := by
  rw [execute_eq_perform, Prod.mk.injEq] at h
  obtain ⟨rfl, rfl⟩ := h
  refine ⟨_, rfl, fun x hx => ?_⟩
  cases hlive : live g (main_ g slots count (start g m)) with
  | nil => simp [hlive, guardsOf] at hx
  | cons e l =>
    rw [hlive, guardsOf, List.head?_cons, Option.mem_some_iff] at hx
    rw [← hx, perform_mainActs]

end Emission

namespace Target
open MicroBlock.Module MicroBlock.Emission

/-- A run of a unit that returns without having met a fault has made the calls of the main code. -/
theorem Contains.calls_of_returned {mode : Mode} {name : String} {s : Stream} {g : Graph} {P : Fragment → Prop}
    (hg : g.Valid P) {slots : Slots} (hs : slots.Sound g) {m : Module} {fin : Emission} {guards : List Guard}
    (h : Contains mode name s g slots m fin guards) {helpers : List Helper}
    (hh : helpers.map (fun x => ByteString.ofString x.name) = m.links) {r : Routine} (hr : r.code = place 0 fin.instrs)
    {c c' : Context} {n : Nat} {st : Execution.State}
    (hreach : Execution.Reached (CodeBlock.linkage m helpers) r (Execution.start r m.slots.length c) n st)
    (hpending : st.pending = none) {act : Helper → Body} {v : Value}
    (hret : Execution.step ((CodeBlock.linkage m helpers).doing act) r true st = .returned v c') :
    c'.calls = ((mainActs g slots s.count (described name slots.kinds s)).filterMap helperOf).reverse ++ c.calls := by
  obtain ⟨ps, -, hcourse⟩ := hreach.exists_course
  obtain ⟨p, rest, hrest, hp, rfl⟩ := Execution.instr_of_returned hret
  obtain ⟨handlers, hfin, -⟩ := execute_eq_main h.execute
  obtain ⟨body, hbody, hnoret, hnodes⟩ := exists_mainActs_eq hs hg s.count (described name slots.kinds s)
  rw [hbody, List.append_assoc, List.singleton_append] at hfin
  have hcode : ps ++ p :: rest = placed g slots (start g (described name slots.kinds s)) body ++
      ⟨((start g (described name slots.kinds s)).perform g slots body).size, .ret, Instr.ret.size⟩ ::
        placed g slots (((start g (described name slots.kinds s)).perform g slots body).emit .ret) handlers := by
    have hstraight : r.code = ps ++ st.rest := (hcourse.straight hpending).2
    rw [← hrest, ← hstraight, hr, hfin, place_start, placed_append]
    rfl
  -- Neither the run so far nor the main code before its end has a return, so both are the same.
  obtain ⟨ys, heq, hys⟩ := Execution.exists_of_first (R := fun p => p.instr = .ret) hcode
    (fun q hq => hcourse.ret_notMem q hq) rfl
  have hps : placed g slots (start g (described name slots.kinds s)) body = ps := by
    cases ys with
    | nil => rw [heq, List.append_nil]
    | cons y ys =>
      rw [List.cons_append, List.cons.injEq] at hys
      have hy : y ∈ placed g slots (start g (described name slots.kinds s)) body := by simp [heq]
      exact absurd (hys.1 ▸ hp) (ret_notMem_placed hnoret y hy)
  have hlinks : m.links = fin.module.links := by rw [h.eq]
  have hnamed : Named (CodeBlock.linkage m helpers) m.links := ⟨hh, (h.bounds hg hs).2.2.2.1⟩
  have hlinked : ((start g (described name slots.kinds s)).perform g slots body).module.links <+: m.links := by
    rw [hlinks, hfin, perform_append]
    exact prefix_links_perform _ _
  rw [hcourse.calls, ← hps, calledBy_placed hnamed hlinked hnodes, hbody, List.filterMap_append,
    List.filterMap_cons_none rfl, List.filterMap_nil, List.append_nil]
  rfl

/-- Every value is computed once on the main path. The code before the first rollback writes out every effect once and in
    program order, every other node that the roots lead to once, and nothing else. So a run of a unit that meets no fault,
    whatever the helpers do, calls exactly the helpers of these nodes. Initial values are read and never written out. -/
theorem main_expands_once (mode : Mode) {b : Block} {s : Stream} (hb : Stream.ofBlock b = .ok s) {g : Graph}
    (hg : Graph.build (ofMode mode).table true s = .ok g) {units : Int} {slots : Slots}
    (ha : Slots.allocate g units = (.ok (), slots)) :
    (∀ route count m guards fin, Emission.execute g slots route count m = (guards, fin) →
      ExpandsOnce g (mainActs g slots count m) ∧
        (∃ handlers, fin = ((start g m).perform g slots (mainActs g slots count m)).perform g slots handlers) ∧
        ∀ x ∈ guards.head?, x.target = Int32.ofNat ((start g m).perform g slots (mainActs g slots count m)).size) ∧
      ∀ name limit m, (ofMode mode).unit name s g slots limit = .ok m →
        ∃ me code, m.method? executeMethod = some me ∧ Code.decode me.code = .ok code ∧
          ∀ helpers, helpers.map (fun x => ByteString.ofString x.name) = m.links → ∀ c n st act v c',
            Execution.Reached (CodeBlock.linkage m helpers) ⟨me.name, code, me.guards⟩
              (Execution.start ⟨me.name, code, me.guards⟩ m.slots.length c) n st → st.pending = none →
            Execution.step ((CodeBlock.linkage m helpers).doing act) ⟨me.name, code, me.guards⟩ true st = .returned v c' →
            ∃ log, c'.calls = log ++ c.calls ∧ log.Perm (g.reachable.toList.flatMap g.helpersOf) := by
  have hv := Graph.build_valid (Lowering.table_disciplined mode) hb hg
  obtain ⟨hs, -⟩ := Slots.allocate_sound hv ha
  refine ⟨fun route count m guards fin h => ?_, fun name limit m hm => ?_⟩
  · obtain ⟨handlers, hfin, htarget⟩ := execute_eq_main h
    exact ⟨expandsOnce_mainActs hb hg ha count m, ⟨handlers, by rw [hfin, perform_append]⟩, htarget⟩
  · obtain ⟨fin, guards, h⟩ := unit_contains hv hs hm
    refine ⟨_, _, h.method?_execute, h.decode hv hs, fun helpers hh c n st act v c' hreach hpending hret => ?_⟩
    have hcalls := (expandsOnce_mainActs hb hg ha s.count (described name slots.kinds s)).calls
    exact ⟨_, h.calls_of_returned hv hs hh rfl hreach hpending hret, (List.reverse_perm _).trans hcalls⟩

/-- In protected mode a register is loaded and added to, and then the interrupt flag is cleared. After a reset the processor
    may do so, and the run calls the two helpers once each. -/
theorem main_expands_once_reset :
    ∃ s g slots m me code helpers st v c', Stream.ofBlock [⟨1, [1, 16, 8, 111, 16]⟩, ⟨1, [141]⟩] = .ok s ∧
      Graph.build (ofMode .protected_).table true s = .ok g ∧ Slots.allocate g 1024 = (.ok (), slots) ∧
      expansions (mainActs g slots s.count (ofMode .protected_).skeleton) = [52, 51, 50, 47, 49, 48] ∧
      ExpandsOnce g (mainActs g slots s.count (ofMode .protected_).skeleton) ∧
      (ofMode .protected_).unit "x" s g slots 65535 = .ok m ∧ m.method? executeMethod = some me ∧
      Code.decode me.code = .ok code ∧ Execution.Reached (CodeBlock.linkage m helpers) ⟨me.name, code, me.guards⟩
        (Execution.start ⟨me.name, code, me.guards⟩ m.slots.length ⟨.reset ⟨.empty⟩, []⟩) 14 st ∧ st.pending = none ∧
      Execution.step (CodeBlock.linkage m helpers) ⟨me.name, code, me.guards⟩ true st = .returned v c' ∧
      c'.calls.Perm (g.reachable.toList.flatMap g.helpersOf) := by
  have hok : (Stream.ofBlock [⟨1, [1, 16, 8, 111, 16]⟩, ⟨1, [141]⟩]).toOption.any (fun s =>
      (Graph.build (ofMode .protected_).table true s).toOption.any fun g =>
        (Slots.allocate g 1024).1.toOption.any fun _ =>
        decide (expansions (mainActs g (Slots.allocate g 1024).2 s.count (ofMode .protected_).skeleton) =
          [52, 51, 50, 47, 49, 48]) &&
        ((ofMode .protected_).unit "x" s g (Slots.allocate g 1024).2 65535).toOption.any fun m =>
          (m.method? executeMethod).any fun me => (Code.decode me.code).toOption.any fun code =>
          (Loader.resolve .builtin "x" m.links).toOption.any fun helpers =>
            decide (helpers.map (fun x => ByteString.ofString x.name) = m.links) &&
            (Execution.runFor (CodeBlock.linkage m helpers) ⟨me.name, code, me.guards⟩ true 14
              (Execution.start ⟨me.name, code, me.guards⟩ m.slots.length ⟨.reset ⟨.empty⟩, []⟩)).state?.any fun st =>
              st.pending.isNone && (Execution.step (CodeBlock.linkage m helpers) ⟨me.name, code, me.guards⟩ true
                st).result?.isSome) = true := by
    decide +kernel
  obtain ⟨s, hs, hok⟩ := exists_ok_of_any hok
  obtain ⟨g, hg, hok⟩ := exists_ok_of_any hok
  obtain ⟨_, hallocate, hok⟩ := exists_ok_of_any hok
  obtain ⟨hexp, hok⟩ := Bool.and_eq_true_iff.mp hok
  obtain ⟨m, hm, hok⟩ := exists_ok_of_any hok
  obtain ⟨me, hme, hok⟩ := (Option.any_eq_true _ _).mp hok
  obtain ⟨code, hcode, hok⟩ := exists_ok_of_any hok
  obtain ⟨helpers, -, hok⟩ := exists_ok_of_any hok
  obtain ⟨hnames, hok⟩ := Bool.and_eq_true_iff.mp hok
  obtain ⟨st, hst, hok⟩ := (Option.any_eq_true _ _).mp hok
  obtain ⟨hpending, hresult⟩ := Bool.and_eq_true_iff.mp hok
  obtain ⟨⟨v, c'⟩, hresult⟩ := Option.isSome_iff_exists.mp hresult
  have ha : Slots.allocate g 1024 = (.ok (), (Slots.allocate g 1024).2) := Prod.ext hallocate rfl
  have hreach := Execution.reached_of_runFor (Execution.eq_running_of_state? hst)
  have hret := Execution.eq_returned_of_result? hresult
  obtain ⟨honce, hruns⟩ := main_expands_once .protected_ hs hg ha
  obtain ⟨me', code', hme', hcode', hlog⟩ := hruns "x" 65535 m hm
  cases hme.symm.trans hme'
  cases hcode.symm.trans hcode'
  have hret' := hret
  rw [← (CodeBlock.linkage m helpers).doing_body] at hret'
  obtain ⟨log, hcalls, hperm⟩ := hlog helpers (of_decide_eq_true hnames) _ _ st _ v c' hreach
    (Option.isNone_iff_eq_none.mp hpending) hret'
  refine ⟨s, g, _, m, me, code, helpers, st, v, c', hs, hg, ha, of_decide_eq_true hexp,
    (honce (ofMode .protected_).route s.count (ofMode .protected_).skeleton _ _ rfl).1, hm, hme, hcode, hreach,
    Option.isNone_iff_eq_none.mp hpending, hret, ?_⟩
  rwa [hcalls, List.append_nil]

end Target
end MicroBlock
