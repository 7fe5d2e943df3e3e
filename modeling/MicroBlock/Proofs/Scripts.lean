import Mathlib
import MicroBlock.Proofs.Demand
import MicroBlock.Proofs.Endings

/-! What the parts of the code of a block are for.

Code is written act by act: the fragment of a node begins, one of its own steps is written, a node is loaded from its slot
or stored to it, a register is set. The acts of a piece of writing are read off beside the writing itself, and to perform
them one after the other writes the same code. -/

namespace MicroBlock

/-- One act of the writing of a block's code. An act writes one instruction, or none where only something begins. -/
inductive Act where
  /-- The steps of a node begin. -/
  | expand (id : Nat)
  /-- A step of a node that pushes none of its inputs. -/
  | own (id : Nat) (st : Step)
  /-- A node is pushed from its slot. -/
  | load (id : Nat)
  | get (e : Element)
  /-- A value stays on the stack while it is stored. -/
  | copy
  /-- A node is stored to its slot. -/
  | store (id : Nat)
  /-- The value of a statement is dropped. -/
  | drop
  | set (r : Register)
  | number (v : Int)
  /-- A call that is no step of a node. -/
  | call (helper : String)
  | fault
  | ret
  deriving DecidableEq

namespace Emission

/-- Stores a node that has a slot. -/
def store (s : Emission) (slots : Slots) (id : Nat) (n : Node) : Emission :=
  match slots.of? id with
  | some slot =>
    let s := s.emit (.store (.ofKind n.element.kind) (Int32.ofNat slot))
    { s with stored := s.stored.setIfInBounds id (some s.size) }
  | none => s

end Emission

/-- Writes what an act is for. -/
def Act.write (g : Graph) (slots : Slots) (s : Emission) : Act → Emission
  | expand _ => s
  | own id st => g.nodes[id]?.elim s fun n => Emission.step n (fun _ s => s) s st
  | load id => g.nodes[id]?.elim s (s.load slots id)
  | get e => s.getElement e
  | copy => s.emit .dup
  | store id => g.nodes[id]?.elim s (s.store slots id)
  | drop => s.emit .pop
  | set r => s.setRegister r
  | number v => s.pushInt v
  | call helper => s.call helper
  | fault => s.emit .fault
  | ret => s.emit .ret

namespace Emission
open MicroBlock.Graph

/-! ### The acts of a piece of writing -/

section Acts
variable (g : Graph) (slots : Slots)

/-- The emission after some acts. -/
def perform (s : Emission) (acts : List Act) : Emission := acts.foldl (Act.write g slots) s

/-- The acts of things that are written one after the other. -/
def thread {α : Type} (f : α → Emission → List Act) : List α → Emission → List Act
  | [], _ => []
  | a :: l, s => f a s ++ thread f l (s.perform g slots (f a s))

/-- The acts of a step. -/
def stepActs (id : Nat) (n : Node) (input : Nat → Emission → List Act) (st : Step) (s : Emission) : List Act :=
  match st.pick? n.inputs with
  | some i => input i s
  | none => [.own id st]

/-- The acts of the steps of a node. -/
def stepsActs (id : Nat) (n : Node) (o : Origin) (input : Nat → Emission → List Act) (s : Emission) : List Act :=
  .expand id :: thread g slots (stepActs id n input) o.fragment.steps s

/-- The acts that follow the steps of a node. -/
def keepActs (id : Nat) (n : Node) (statement : Bool) : List Act :=
  match slots.of? id with
  | some _ => if statement then [.store id] else [.copy, .store id]
  | none => if statement && n.element.kind != .void then [.drop] else []

/-- The acts of a value. -/
def valueActs : Nat → Nat → Emission → List Act
  | 0, _, _ => []
  | depth + 1, id, s =>
    match g.nodes[id]? with
    | none => []
    | some n =>
      if (s.storedAt? id).isSome then [.load id]
      else match n.origin with
        | none => [.get n.element]
        | some o => stepsActs g slots id n o (valueActs depth) s ++ keepActs slots id n false

/-- The acts of a statement. -/
def effectActs (id : Nat) (s : Emission) : List Act :=
  match g.nodes[id]? with
  | some n =>
    match n.origin with
    | some o => stepsActs g slots id n o (valueActs g slots id) s ++ keepActs slots id n true
    | none => []
  | none => []

/-- The acts of the statements of a block. -/
def statementActs (m : Module) : List Act := thread g slots (effectActs g slots) g.effects.toList (start g m)

/-- The acts of the values that the changed registers end with. -/
def finalActs (m : Module) : List Act :=
  thread g slots (fun r => valueActs g slots (g.final.get (.reg r) + 1) (g.final.get (.reg r))) g.changed
    ((start g m).perform g slots (statementActs g slots m))

/-- The acts that end the main code: the registers are written back, and the instruction count is returned. -/
def writeBackActs (count : Nat) (m : Module) : List Act :=
  finalActs g slots m ++ (g.changed.reverse.map Act.set ++ [Act.number count, Act.ret])

/-- The acts of the main code. -/
def mainActs (count : Nat) (m : Module) : List Act := statementActs g slots m ++ writeBackActs g slots count m

/-- The acts of a value in the code of a rollback, where `kept` tells which nodes are loaded from their slots. -/
def recomputeActs (kept : Nat → Bool) : Nat → Nat → List Act
  | 0, _ => []
  | depth + 1, id =>
    match g.nodes[id]? with
    | none => []
    | some n =>
      if kept id then [.load id]
      else match n.origin with
        | none => [.get n.element]
        | some o => .expand id :: o.fragment.steps.flatMap fun st =>
            match st.pick? n.inputs with
            | some i => recomputeActs kept depth i
            | none => [.own id st]

/-- The nodes that a rollback pushes. -/
def restored (r : Rollback) : List Nat := (g.restores r).map (·.2) ++ r.eip?.toList

/-- The acts of a rollback up to its return. -/
def rollbackBody (kept : Nat → Bool) (route : String) (r : Rollback) : List Act :=
  (restored g r).flatMap (fun id => recomputeActs g kept (id + 1) id) ++
    ((if r.delta = 0 then [] else [Act.number r.delta.toInt, Act.call Builtin.add32.name]) ++
      (Act.set .eip :: ((g.restores r).reverse.map fun e => Act.set e.1) ++
        [Act.get .cpu, Act.fault, Act.call route, Act.number r.index]))

/-- The acts of a rollback. -/
def rollbackActs (kept : Nat → Bool) (route : String) (r : Rollback) : List Act := rollbackBody g kept route r ++ [Act.ret]

/-- Whether a node was stored before some offset. -/
def filled (s : Emission) (guarded : Int) (id : Nat) : Bool := (s.storedAt? id).any fun k => ((k : Nat) : Int) ≤ guarded

/-- The rollbacks that guard some of the main code, with their code. -/
def live (s : Emission) : List (Rollback × Extent) :=
  (g.rollbacks.toList.zip s.extents.toList).filter fun e => !e.2.isEmpty

/-- The acts of some rollbacks after the main code. -/
def handlerActs (main : Emission) (route : String) (l : List (Rollback × Extent)) : List Act :=
  l.flatMap fun e => rollbackActs g (main.filled e.2.first) route e.1

/-- The guards of some rollbacks after the main code. -/
def guardsOf (main : Emission) (route : String) : List (Rollback × Extent) → Emission → List Guard
  | [], _ => []
  | e :: l, s => ⟨Int32.ofInt e.2.first, Int32.ofInt e.2.last, Int32.ofNat s.size⟩ ::
      guardsOf main route l (s.perform g slots (rollbackActs g (main.filled e.2.first) route e.1))

/-- The acts of all code of a block. -/
def executeActs (route : String) (count : Nat) (m : Module) : List Act :=
  mainActs g slots count m ++
    handlerActs g (main_ g slots count (start g m)) route (live g (main_ g slots count (start g m)))

end Acts

/-! ### Performing them -/

section Perform
variable {g : Graph} {slots : Slots}

@[simp] theorem perform_nil (s : Emission) : s.perform g slots [] = s := rfl

@[simp] theorem perform_cons (s : Emission) (a : Act) (acts : List Act) :
    s.perform g slots (a :: acts) = (a.write g slots s).perform g slots acts := rfl

@[simp] theorem perform_append (s : Emission) (acts acts' : List Act) :
    s.perform g slots (acts ++ acts') = (s.perform g slots acts).perform g slots acts' := List.foldl_append

theorem perform_thread {α : Type} {f : α → Emission → List Act} {F : Emission → α → Emission}
    (h : ∀ a s, s.perform g slots (f a s) = F s a) (l : List α) (s : Emission) :
    s.perform g slots (thread g slots f l s) = l.foldl F s := by
  induction l generalizing s with
  | nil => rfl
  | cons a l ih => rw [thread, perform_append, ih, h, List.foldl_cons]

theorem thread_append {α : Type} (f : α → Emission → List Act) (l l' : List α) (s : Emission) :
    thread g slots f (l ++ l') s =
      thread g slots f l s ++ thread g slots f l' (s.perform g slots (thread g slots f l s)) := by
  induction l generalizing s with
  | nil => rfl
  | cons a l ih => rw [List.cons_append, thread, ih, thread, List.append_assoc, perform_append]

/-- A step that picks an input pushes it. -/
theorem step_of_pick {n : Node} {st : Step} {i : Nat} (h : st.pick? n.inputs = some i)
    (input : Nat → Emission → Emission) (s : Emission) : step n input s st = input i s := by
  cases st with
  | input z =>
    simp only [step]
    rw [show (if z < 0 then none else n.inputs[z.toNat]?) = some i from h]
  | literal | dup | pop | call | unknown => cases h

/-- A step that picks no input does not depend on how inputs are pushed. -/
theorem step_of_no_pick {n : Node} {st : Step} (h : st.pick? n.inputs = none) (input input' : Nat → Emission → Emission)
    (s : Emission) : step n input s st = step n input' s st := by
  cases st with
  | input z =>
    simp only [step]
    rw [show (if z < 0 then none else n.inputs[z.toNat]?) = none from h]
  | literal | dup | pop | call | unknown => rfl

theorem perform_stepActs {id : Nat} {n : Node} (hn : g.nodes[id]? = some n) {acts : Nat → Emission → List Act}
    {input : Nat → Emission → Emission} (h : ∀ i s, s.perform g slots (acts i s) = input i s) (st : Step) (s : Emission) :
    s.perform g slots (stepActs id n acts st s) = step n input s st := by
  unfold stepActs
  split
  · next i hi => rw [h, step_of_pick hi]
  · next hi =>
    rw [perform_cons, perform_nil, Act.write, hn, Option.elim_some]
    exact step_of_no_pick hi _ _ s

theorem perform_stepsActs {id : Nat} {n : Node} (hn : g.nodes[id]? = some n) {acts : Nat → Emission → List Act}
    {input : Nat → Emission → Emission} (h : ∀ i s, s.perform g slots (acts i s) = input i s) (o : Origin) (s : Emission) :
    s.perform g slots (stepsActs g slots id n o acts s) = steps n o input s :=
  perform_thread (perform_stepActs hn h) o.fragment.steps s

theorem perform_keepActs {id : Nat} {n : Node} (hn : g.nodes[id]? = some n) (statement : Bool) (s : Emission) :
    s.perform g slots (keepActs slots id n statement) = keep slots id n statement s := by
  unfold keepActs keep
  cases hu : slots.of? id with
  | some u => cases statement <;> simp [Act.write, hn, store, hu]
  | none =>
    dsimp only
    split <;> simp [Act.write]

theorem perform_valueActs (depth id : Nat) (s : Emission) :
    s.perform g slots (valueActs g slots depth id s) = value g slots depth id s := by
  induction depth generalizing id s with
  | zero => rfl
  | succ depth ih =>
    cases hn : g.nodes[id]? with
    | none =>
      simp only [valueActs, value, hn]
      rfl
    | some n =>
      simp only [valueActs, value, hn]
      split
      · rw [perform_cons, perform_nil, Act.write, hn, Option.elim_some]
      · cases n.origin with
        | none => rfl
        | some o =>
          dsimp only
          rw [perform_append, perform_stepsActs hn ih, perform_keepActs hn]

theorem perform_effectActs (id : Nat) (s : Emission) :
    s.perform g slots (effectActs g slots id s) = effect g slots s id := by
  cases hn : g.nodes[id]? with
  | none =>
    simp only [effectActs, effect, hn]
    rfl
  | some n =>
    simp only [effectActs, effect, hn]
    cases n.origin with
    | none => rfl
    | some o =>
      dsimp only
      rw [perform_append, perform_stepsActs hn (perform_valueActs id), perform_keepActs hn]

theorem perform_statementActs (m : Module) :
    (start g m).perform g slots (statementActs g slots m) = g.effects.foldl (effect g slots) (start g m) := by
  rw [statementActs, perform_thread perform_effectActs, Array.foldl_toList]

theorem perform_map_set (rs : List Register) (s : Emission) :
    s.perform g slots (rs.map .set) = rs.foldl setRegister s := by
  rw [perform, List.foldl_map]
  rfl

theorem perform_mainActs (count : Nat) (m : Module) :
    (start g m).perform g slots (mainActs g slots count m) = main_ g slots count (start g m) := by
  rw [mainActs, writeBackActs, perform_append, perform_append, finalActs,
    perform_thread fun r s => perform_valueActs (g.final.get (.reg r) + 1) (g.final.get (.reg r)) s,
    perform_append, perform_map_set, perform_statementActs]
  rfl

/-! ### Performing rollbacks -/

theorem stored_step (n : Node) (s : Emission) (st : Step) : (step n (fun _ s => s) s st).stored = s.stored := by
  cases st with
  | input i =>
    simp only [step]
    split <;> rfl
  | literal l => exact stored_pushInt s _
  | call h => exact stored_step_call n _ s h
  | dup | pop | unknown => rfl

/-- Only a store changes what is stored. -/
theorem stored_write {a : Act} (ha : ∀ id, a ≠ .store id) (s : Emission) : (a.write g slots s).stored = s.stored := by
  cases a with
  | own id st =>
    cases hn : g.nodes[id]? with
    | none => simp [Act.write, hn]
    | some n => simp [Act.write, hn, stored_step]
  | load id =>
    cases hn : g.nodes[id]? with
    | none => simp [Act.write, hn]
    | some n => simp [Act.write, hn, stored_load]
  | store id => exact absurd rfl (ha id)
  | number v => exact stored_pushInt s v
  | expand | get | copy | drop | set | call | fault | ret => rfl

theorem stored_perform {acts : List Act} (h : ∀ id, .store id ∉ acts) (s : Emission) :
    (s.perform g slots acts).stored = s.stored := by
  induction acts generalizing s with
  | nil => rfl
  | cons a acts ih =>
    rw [perform_cons, ih fun id hid => h id (List.mem_cons_of_mem a hid)]
    exact stored_write (fun id ha => h id (ha ▸ List.mem_cons_self)) s

theorem store_notMem_recomputeActs (kept : Nat → Bool) (depth id j : Nat) : .store j ∉ recomputeActs g kept depth id := by
  induction depth generalizing id with
  | zero => exact List.not_mem_nil
  | succ depth ih =>
    unfold recomputeActs
    split
    · exact List.not_mem_nil
    split
    · simp
    split
    · simp
    simp only [List.mem_cons, reduceCtorEq, List.mem_flatMap, false_or, not_exists, not_and]
    intro st _
    split
    · exact ih _
    · simp

theorem store_notMem_rollbackActs (kept : Nat → Bool) (route : String) (r : Rollback) (j : Nat) :
    .store j ∉ rollbackActs g kept route r := by
  simp only [rollbackActs, rollbackBody, List.mem_append, List.mem_flatMap, List.mem_cons, List.mem_map, reduceCtorEq,
    or_false, List.not_mem_nil, and_false, exists_false, not_or, not_exists, not_and]
  refine ⟨fun id _ => store_notMem_recomputeActs kept _ id j, ?_⟩
  split <;> simp

/-- Pieces that store nothing see the same slots as filled. -/
theorem perform_flatMap {α : Type} {f : α → List Act} {F : Emission → α → Emission} {stored : Array (Option Nat)}
    {l : List α} (hstore : ∀ a ∈ l, ∀ id, .store id ∉ f a)
    (h : ∀ a ∈ l, ∀ s, s.stored = stored → s.perform g slots (f a) = F s a) {s : Emission} (hs : s.stored = stored) :
    s.perform g slots (l.flatMap f) = l.foldl F s := by
  induction l generalizing s with
  | nil => rfl
  | cons a l ih =>
    have ha := h a List.mem_cons_self s hs
    rw [List.flatMap_cons, perform_append, List.foldl_cons, ← ha]
    refine ih (fun b hb => hstore b (List.mem_cons_of_mem a hb)) (fun b hb => h b (List.mem_cons_of_mem a hb)) ?_
    exact (stored_perform (hstore a List.mem_cons_self) s).trans hs

section Rollback
variable {s₀ : Emission} (guarded : Int)

theorem perform_recomputeActs (depth id : Nat) {s : Emission} (hs : s.stored = s₀.stored) :
    s.perform g slots (recomputeActs g (s₀.filled guarded) depth id) = recompute g slots guarded depth id s := by
  induction depth generalizing id s with
  | zero => rfl
  | succ depth ih =>
    cases hn : g.nodes[id]? with
    | none =>
      simp only [recomputeActs, recompute, hn]
      rfl
    | some n =>
      have hfilled : s₀.filled guarded id = (s.storedAt? id).any fun k => ((k : Nat) : Int) ≤ guarded := by
        rw [filled, storedAt?, storedAt?, hs]
      simp only [recomputeActs, recompute, hn, hfilled]
      split
      · rw [perform_cons, perform_nil, Act.write, hn, Option.elim_some]
      · cases n.origin with
        | none => rfl
        | some o =>
          refine perform_flatMap (F := step n (recompute g slots guarded depth)) (fun st _ j => ?_) (fun st _ s hs => ?_) hs
          · split
            · exact store_notMem_recomputeActs _ _ _ j
            · simp
          · split
            · next i hi => rw [ih i hs, step_of_pick hi]
            · next hi =>
              rw [perform_cons, perform_nil, Act.write, hn, Option.elim_some]
              exact step_of_no_pick hi _ _ s

theorem perform_restored (r : Rollback) {s : Emission} (hs : s.stored = s₀.stored) :
    s.perform g slots ((restored g r).flatMap fun id => recomputeActs g (s₀.filled guarded) (id + 1) id) =
      (restored g r).foldl (fun s id => recompute g slots guarded (id + 1) id s) s :=
  perform_flatMap (fun id _ => store_notMem_recomputeActs _ _ id) (fun id _ _ hs => perform_recomputeActs guarded _ id hs) hs

theorem perform_pushEip (r : Rollback) (s : Emission) :
    (r.eip?.toList.foldl (fun s id => recompute g slots guarded (id + 1) id s) s).perform g slots
      (if r.delta = 0 then [] else [Act.number r.delta.toInt, Act.call Builtin.add32.name]) =
        pushEip g slots r guarded s := by
  cases heip : r.eip? <;> by_cases hdelta : r.delta = 0 <;> simp [pushEip, heip, hdelta, Act.write]

theorem perform_setRestored (r : Rollback) (s : Emission) :
    s.perform g slots ((g.restores r).reverse.map fun e => .set e.1) = setRestored g r s := by
  rw [perform, List.foldl_map]
  rfl

theorem perform_rollbackActs (route : String) (r : Rollback) {s : Emission} (hs : s.stored = s₀.stored) :
    rollback g slots route r guarded s = (s.size, s.perform g slots (rollbackActs g (s₀.filled guarded) route r)) := by
  rw [rollback_eq, rollbackActs, rollbackBody, perform_append, perform_append, perform_restored guarded r hs, restored,
    List.foldl_append, List.foldl_map, perform_append, perform_pushEip, List.cons_append]
  simp only [perform_cons, perform_append, perform_setRestored]
  rfl

end Rollback

theorem rollbacks_eq {s₀ : Emission} (route : String) (l : List (Rollback × Extent)) {s : Emission}
    (hs : s.stored = s₀.stored) :
    rollbacks g slots route l s =
      (guardsOf g slots s₀ route (l.filter fun e => !e.2.isEmpty) s,
        s.perform g slots (handlerActs g s₀ route (l.filter fun e => !e.2.isEmpty))) := by
  induction l generalizing s with
  | nil => rfl
  | cons e l ih =>
    obtain ⟨r, x⟩ := e
    cases hx : x.isEmpty with
    | true =>
      rw [List.filter_cons_of_neg (by simp [hx]), rollbacks, if_pos hx]
      exact ih hs
    | false =>
      have hstored : (s.perform g slots (rollbackActs g (s₀.filled x.first) route r)).stored = s₀.stored :=
        (stored_perform (store_notMem_rollbackActs _ route r) s).trans hs
      rw [List.filter_cons_of_pos (by simp [hx]), rollbacks, if_neg (by simp [hx]),
        perform_rollbackActs x.first route r hs]
      simp only [ih hstored, guardsOf, handlerActs, List.flatMap_cons, perform_append]

/-- The code of a block is what its acts write. -/
theorem execute_eq_perform (route : String) (count : Nat) (m : Module) :
    execute g slots route count m =
      (guardsOf g slots (main_ g slots count (start g m)) route (live g (main_ g slots count (start g m)))
          (main_ g slots count (start g m)),
        (start g m).perform g slots (executeActs g slots route count m)) := by
  rw [executeActs, perform_append, perform_mainActs]
  exact rollbacks_eq route _ rfl

end Perform

/-! ### Statement by statement -/

section Below
variable {g : Graph} {slots : Slots} {m : Module}

/-- The acts of the statements below a node. -/
def actsBelow (g : Graph) (slots : Slots) (m : Module) (id : Nat) : List Act :=
  thread g slots (effectActs g slots) ((List.range id).filter (isEffect g.nodes)) (start g m)

theorem perform_actsBelow (id : Nat) :
    (start g m).perform g slots (actsBelow g slots m id) = afterEffects g slots m id :=
  perform_thread perform_effectActs _ _

theorem actsBelow_succ (id : Nat) :
    actsBelow g slots m (id + 1) = actsBelow g slots m id ++
      if isEffect g.nodes id then effectActs g slots id (afterEffects g slots m id) else [] := by
  rw [← perform_actsBelow, actsBelow, List.range_succ, List.filter_append, thread_append, List.filter_singleton]
  cases isEffect g.nodes id with
  | true => exact congrArg _ (List.append_nil _)
  | false => rfl

theorem statementActs_eq {P : Fragment → Prop} (hg : g.Valid P) :
    statementActs g slots m = actsBelow g slots m g.nodes.size := by
  rw [statementActs, hg.effects]
  rfl

theorem perform_statements {P : Fragment → Prop} (hg : g.Valid P) :
    (start g m).perform g slots (statementActs g slots m) = afterEffects g slots m g.nodes.size := by
  rw [perform_statementActs, foldl_effects hg]

end Below

/-! ### What an act asks of the writing so far -/

/-- Every act is performed where something holds. -/
def Along (g : Graph) (slots : Slots) (Q : Emission → Act → Prop) : Emission → List Act → Prop
  | _, [] => True
  | s, a :: acts => Q s a ∧ Along g slots Q (a.write g slots s) acts

section Along
variable {g : Graph} {slots : Slots} {Q : Emission → Act → Prop}

theorem along_append {s : Emission} {acts acts' : List Act} :
    Along g slots Q s (acts ++ acts') ↔ Along g slots Q s acts ∧ Along g slots Q (s.perform g slots acts) acts' := by
  induction acts generalizing s with
  | nil => simp [Along]
  | cons a acts ih => simp [Along, ih, and_assoc]

theorem Along.split {s : Emission} {acts before after : List Act} {a : Act} (h : Along g slots Q s acts)
    (heq : acts = before ++ a :: after) : Q (s.perform g slots before) a := by
  subst heq
  exact (along_append.mp h).2.1

theorem Along.imp {Q' : Emission → Act → Prop} (hQ : ∀ s a, Q s a → Q' s a) {s : Emission} {acts : List Act}
    (h : Along g slots Q s acts) : Along g slots Q' s acts := by
  induction acts generalizing s with
  | nil => trivial
  | cons a acts ih => exact ⟨hQ s a h.1, ih h.2⟩

/-- What holds along the pieces, which keep something, holds along all of them. -/
theorem along_thread {α : Type} {f : α → Emission → List Act} {I : Emission → Prop} {l : List α}
    (h : ∀ a ∈ l, ∀ s, I s → Along g slots Q s (f a s) ∧ I (s.perform g slots (f a s))) {s : Emission} (hs : I s) :
    Along g slots Q s (thread g slots f l s) := by
  induction l generalizing s with
  | nil => trivial
  | cons a l ih =>
    obtain ⟨ha, hI⟩ := h a List.mem_cons_self s hs
    exact along_append.mpr ⟨ha, ih (fun b hb => h b (List.mem_cons_of_mem a hb)) hI⟩

theorem along_forall {R : Act → Prop} {s : Emission} {acts : List Act} :
    Along g slots (fun _ => R) s acts ↔ ∀ a ∈ acts, R a := by
  induction acts generalizing s with
  | nil => simp [Along]
  | cons a acts ih => simp [Along, ih]

end Along

/-- What is written of a node is a step of its fragment. What is loaded was stored before, and what is stored was not. -/
def Sensible (g : Graph) (slots : Slots) (s : Emission) : Act → Prop
  | .expand id => ∃ n o, g.nodes[id]? = some n ∧ n.origin = some o
  | .own id st => ∃ n o, g.nodes[id]? = some n ∧ n.origin = some o ∧ st ∈ o.fragment.steps ∧ st.pick? n.inputs = none
  | .load id => ∃ k, s.storedAt? id = some k
  | .store id => id < g.nodes.size ∧ (∃ u, slots.of? id = some u) ∧ s.storedAt? id = none
  | .get _ | .copy | .drop => True
  | .set _ | .number _ | .call _ | .fault | .ret => False

section Sensible
variable {g : Graph} {slots : Slots} {P : Fragment → Prop}

theorem sensible_keepActs {id : Nat} {n : Node} (hn : g.nodes[id]? = some n) {s : Emission} (hnone : s.storedAt? id = none)
    (statement : Bool) : Along g slots (Sensible g slots) s (keepActs slots id n statement) := by
  have hlt := (Array.getElem?_eq_some_iff.mp hn).1
  unfold keepActs
  split
  · next u hu => cases statement <;> simp [Along, Sensible, Act.write, hlt, hu, storedAt?, emit] <;> exact hnone
  · split <;> simp [Along, Sensible]

theorem sensible_stepsActs {id : Nat} {n : Node} {o : Origin} (hn : g.nodes[id]? = some n) (ho : n.origin = some o)
    {input : Nat → Emission → List Act} (hin : ∀ i ∈ n.inputs, ∀ s, Along g slots (Sensible g slots) s (input i s))
    (s : Emission) : Along g slots (Sensible g slots) s (stepsActs g slots id n o input s) := by
  refine ⟨⟨n, o, hn, ho⟩, along_thread (I := fun _ => True) (fun st hst s _ => ⟨?_, trivial⟩) trivial⟩
  unfold stepActs
  split
  · next i hi => exact hin i (Step.mem_of_pick? hi) s
  · next hi => exact ⟨⟨n, o, hn, ho, hst, hi⟩, trivial⟩

variable (hw : WellFormed g.nodes P) (hs : slots.Sound g)
include hw hs

theorem sensible_valueActs (depth id : Nat) (s : Emission) :
    Along g slots (Sensible g slots) s (valueActs g slots depth id s) := by
  induction depth generalizing id s with
  | zero => trivial
  | succ depth ih =>
    unfold valueActs
    split
    · trivial
    next n hn =>
    split
    · next hstored => exact ⟨Option.isSome_iff_exists.mp hstored, trivial⟩
    next hstored =>
    split
    · exact ⟨trivial, trivial⟩
    next o ho =>
    have hnone : (steps n o (value g slots depth) s).storedAt? id = none :=
      storedAt?_steps_eq_none (grows_input hw hs hn depth) o (by simpa using hstored)
    refine along_append.mpr ⟨sensible_stepsActs hn ho (fun i _ s => ih i s) s, ?_⟩
    rw [perform_stepsActs hn (perform_valueActs depth)]
    exact sensible_keepActs hn hnone false

theorem sensible_effectActs {id : Nat} {s : Emission} (hnone : s.storedAt? id = none) :
    Along g slots (Sensible g slots) s (effectActs g slots id s) := by
  unfold effectActs
  split
  · next n hn =>
    split
    · next o ho =>
      have hnone' := storedAt?_steps_eq_none (grows_input hw hs hn id) o hnone
      refine along_append.mpr ⟨sensible_stepsActs hn ho (fun i _ s => sensible_valueActs hw hs id i s) s, ?_⟩
      rw [perform_stepsActs hn (perform_valueActs id)]
      exact sensible_keepActs hn hnone' true
    · trivial
  · trivial

theorem sensible_actsBelow (m : Module) (id : Nat) :
    Along g slots (Sensible g slots) (start g m) (actsBelow g slots m id) := by
  induction id with
  | zero => trivial
  | succ id ih =>
    rw [actsBelow_succ, along_append, perform_actsBelow]
    refine ⟨ih, ?_⟩
    split
    · refine sensible_effectActs hw hs ?_
      cases hk : (afterEffects g slots m id).storedAt? id with
      | none => rfl
      | some k => exact absurd (lt_of_storedAt?_afterEffects hw hs hk) (lt_irrefl id)
    · trivial

omit hw in
/-- The acts of the main code are sensible up to the registers being set. -/
theorem sensible_main (hg : g.Valid P) (m : Module) :
    Along g slots (Sensible g slots) (start g m) (statementActs g slots m ++ finalActs g slots m) := by
  refine along_append.mpr ⟨?_, along_thread (I := fun _ => True) (fun r _ s _ => ⟨?_, trivial⟩) trivial⟩
  · rw [statementActs_eq hg]
    exact sensible_actsBelow hg.wellFormed hs m g.nodes.size
  · exact sensible_valueActs hg.wellFormed hs _ _ s

omit hw in
/-- The main code ends with its only return. -/
theorem exists_mainActs_eq (hg : g.Valid P) (count : Nat) (m : Module) :
    ∃ body, mainActs g slots count m = body ++ [Act.ret] ∧ .ret ∉ body ∧
      ∀ id st, .own id st ∈ body → g.nodes[id]?.isSome = true := by
  refine ⟨(statementActs g slots m ++ finalActs g slots m) ++ (g.changed.reverse.map Act.set ++ [Act.number count]),
    by simp [mainActs, writeBackActs], fun h => ?_, fun id st h => ?_⟩
  · rcases List.mem_append.mp h with h | h
    · obtain ⟨before, after, heq⟩ := List.append_of_mem h
      exact (sensible_main hs hg m).split heq
    · simp at h
  · rcases List.mem_append.mp h with h | h
    · obtain ⟨before, after, heq⟩ := List.append_of_mem h
      obtain ⟨n, o, hn, -⟩ := (sensible_main hs hg m).split heq
      rw [hn]
      rfl
    · simp at h

end Sensible

/-- What is written of a node in a rollback is a step of its fragment, and what is loaded was kept. -/
def Repeats (g : Graph) (kept : Nat → Bool) : Act → Prop
  | .expand id => ∃ n o, g.nodes[id]? = some n ∧ n.origin = some o
  | .own id st => ∃ n o, g.nodes[id]? = some n ∧ n.origin = some o ∧ st ∈ o.fragment.steps
  | .load id => kept id = true
  | .get _ => True
  | _ => False

theorem repeats_recomputeActs {g : Graph} {kept : Nat → Bool} (depth id : Nat) :
    ∀ a ∈ recomputeActs g kept depth id, Repeats g kept a := by
  induction depth generalizing id with
  | zero => exact fun a ha => absurd ha List.not_mem_nil
  | succ depth ih =>
    unfold recomputeActs
    split
    · exact fun a ha => absurd ha List.not_mem_nil
    next n hn =>
    split
    · next hkept => simpa [Repeats] using hkept
    split
    · simp [Repeats]
    next o ho =>
    intro a ha
    rcases List.mem_cons.mp ha with rfl | ha
    · exact ⟨n, o, hn, ho⟩
    obtain ⟨st, hst, ha⟩ := List.mem_flatMap.mp ha
    split at ha
    · exact ih _ a ha
    · rw [List.mem_singleton.mp ha]
      exact ⟨n, o, hn, ho, hst⟩

/-- The acts of a rollback: registers are made out again, EIP is brought up to the instruction, all are set, and the
    fault is routed. -/
theorem mem_rollbackActs {g : Graph} {kept : Nat → Bool} {route : String} {r : Rollback} {a : Act}
    (ha : a ∈ rollbackActs g kept route r) :
    (∃ id ∈ restored g r, a ∈ recomputeActs g kept (id + 1) id) ∨ (∃ v, a = .number v) ∨
      a = .call Builtin.add32.name ∨ (∃ r, a = .set r) ∨ a = .get .cpu ∨ a = .fault ∨ a = .call route ∨ a = .ret := by
  simp only [rollbackActs, rollbackBody, List.mem_append, List.mem_flatMap, List.mem_cons, List.mem_map,
    List.not_mem_nil, or_false] at ha
  rcases ha with (h | h | (rfl | ⟨e, -, rfl⟩) | rfl | rfl | rfl | rfl) | rfl
  · exact .inl h
  · split at h
    · exact absurd h List.not_mem_nil
    · rcases List.mem_pair.mp h with rfl | rfl <;> simp
  all_goals simp

/-! ### The helpers that are called -/

/-- The helper that an act calls. -/
def helperOf : Act → Option String
  | .own _ (.call h) => some h
  | .call h => some h
  | _ => none

section Links
variable {g : Graph} {slots : Slots}

theorem links_pushInt (s : Emission) (v : Int) : (s.pushInt v).module.links = s.module.links := by
  simp only [pushInt]
  split
  · rfl
  · obtain ⟨cs, hcs, -⟩ := s.module.intern_int (.ofInt v)
    show (s.module.intern (.int (.ofInt v))).2.links = s.module.links
    rw [hcs]

theorem links_call (s : Emission) (helper : String) :
    ∀ l ∈ (s.call helper).module.links, l ∈ s.module.links ∨ l = .ofString helper := by
  obtain ⟨ls, hls, -, hname, -⟩ := s.module.link_eq helper
  intro l hl
  rw [show (s.call helper).module.links = s.module.links ++ ls from congrArg Module.links hls] at hl
  exact (List.mem_append.mp hl).imp id (hname l)

theorem module_step_call (n : Node) (s : Emission) (helper : String) :
    (step n (fun _ s => s) s (.call helper)).module = (s.call helper).module := by
  obtain ⟨extents, h⟩ := exists_step_call n (fun _ s => s) s helper
  rw [h]

/-- Links change only as by a call. -/
theorem links_write_cases (a : Act) (s : Emission) : (a.write g slots s).module.links = s.module.links ∨
    ∃ h, helperOf a = some h ∧ (a.write g slots s).module.links = (s.call h).module.links := by
  cases a with
  | own id st =>
    cases hn : g.nodes[id]? with
    | none => exact .inl (by simp [Act.write, hn])
    | some n =>
      simp only [Act.write, hn, Option.elim_some]
      cases st with
      | call h => exact .inr ⟨h, rfl, congrArg Module.links (module_step_call n s h)⟩
      | input i =>
        simp only [step]
        split <;> exact .inl rfl
      | literal v => exact .inl (links_pushInt s _)
      | dup | pop | unknown => exact .inl rfl
  | load id =>
    cases hn : g.nodes[id]? with
    | none => exact .inl (by simp [Act.write, hn])
    | some n =>
      simp only [Act.write, hn, Option.elim_some, load]
      split <;> exact .inl rfl
  | store id =>
    cases hn : g.nodes[id]? with
    | none => exact .inl (by simp [Act.write, hn])
    | some n =>
      simp only [Act.write, hn, Option.elim_some, store]
      split <;> exact .inl rfl
  | number v => exact .inl (links_pushInt s v)
  | call h => exact .inr ⟨h, rfl, rfl⟩
  | expand | get | copy | drop | set | fault | ret => exact .inl rfl

/-- A link names a helper that was called. -/
theorem links_write (a : Act) (s : Emission) :
    ∀ l ∈ (a.write g slots s).module.links, l ∈ s.module.links ∨ ∃ h, helperOf a = some h ∧ l = .ofString h := by
  intro l hl
  rcases links_write_cases a s with heq | ⟨h, hh, heq⟩
  · exact .inl (heq ▸ hl)
  · exact (links_call s h l (heq ▸ hl)).imp id fun h' => ⟨h, hh, h'⟩

theorem links_perform {acts : List Act} {s : Emission} {l : ByteString} (hl : l ∈ (s.perform g slots acts).module.links) :
    l ∈ s.module.links ∨ ∃ a ∈ acts, ∃ h, helperOf a = some h ∧ l = .ofString h := by
  induction acts generalizing s with
  | nil => exact .inl hl
  | cons a acts ih =>
    rcases ih hl with hl | ⟨a', ha', h⟩
    · exact (links_write a s l hl).imp id fun h => ⟨a, List.mem_cons_self, h⟩
    · exact .inr ⟨a', List.mem_cons_of_mem a ha', h⟩

/-- The code of a block calls what its fragments call, and helpers of its own. -/
theorem exists_builtin_of_mem {P : Fragment → Prop} [Fragment.Linkable P] (hg : g.Valid P) (hs : slots.Sound g)
    {b : Builtin} {count : Nat} {m : Module} {a : Act} (ha : a ∈ executeActs g slots b.name count m) {h : String}
    (hh : helperOf a = some h) : ∃ b : Builtin, b.name = h := by
  -- A fragment calls built-in helpers only.
  have hown : ∀ {id : Nat} {st : Step}, a = .own id st →
      (∃ n o, g.nodes[id]? = some n ∧ n.origin = some o ∧ st ∈ o.fragment.steps) → ∃ b : Builtin, b.name = h := by
    rintro id st rfl ⟨n, o, hn, ho, hst⟩
    cases st with
    | call h' =>
      cases hh
      exact Fragment.Linkable.exists_builtin (hg.wellFormed.fragment hn ho) hst
    | _ => cases hh
  rcases List.mem_append.mp ha with ha | ha
  · obtain ⟨before, after, heq⟩ := List.append_of_mem ha
    rw [mainActs, writeBackActs, ← List.append_assoc] at heq
    have hmain : a ∈ (statementActs g slots m ++ finalActs g slots m) ++
        (g.changed.reverse.map Act.set ++ [Act.number count, Act.ret]) := heq ▸ by simp
    rcases List.mem_append.mp hmain with ha | ha
    · obtain ⟨before, after, heq⟩ := List.append_of_mem ha
      have hsensible := (sensible_main hs hg m).split heq
      cases a with
      | own id st =>
        obtain ⟨n, o, hn, ho, hst, -⟩ := hsensible
        exact hown rfl ⟨n, o, hn, ho, hst⟩
      | call => exact hsensible.elim
      | _ => cases hh
    · simp only [List.mem_append, List.mem_map, List.mem_cons, List.not_mem_nil, or_false] at ha
      rcases ha with ⟨r, -, rfl⟩ | rfl | rfl <;> cases hh
  · obtain ⟨e, -, ha⟩ := List.mem_flatMap.mp ha
    rcases mem_rollbackActs ha with ⟨id, -, ha⟩ | ⟨v, rfl⟩ | rfl | ⟨r, rfl⟩ | rfl | rfl | rfl | rfl
    · have hrepeats := repeats_recomputeActs _ _ a ha
      cases a with
      | own id st => exact hown rfl hrepeats
      | call => exact hrepeats.elim
      | _ => cases hh
    · cases hh
    · -- Moving EIP adds.
      exact ⟨.add32, Option.some.inj hh⟩
    · cases hh
    · cases hh
    · cases hh
    · exact ⟨b, Option.some.inj hh⟩
    · cases hh

/-- The links of a block's code name built-in helpers. -/
theorem links_execute {P : Fragment → Prop} [Fragment.Linkable P] (hg : g.Valid P) (hs : slots.Sound g) {b : Builtin}
    {count : Nat} {m : Module} {guards : List Guard} {fin : Emission} (h : execute g slots b.name count m = (guards, fin))
    {l : ByteString} (hl : l ∈ fin.module.links) : l ∈ m.links ∨ ∃ b : Builtin, l = .ofString b.name := by
  have hfin : (start g m).perform g slots (executeActs g slots b.name count m) = fin := by
    rw [execute_eq_perform] at h
    exact congrArg Prod.snd h
  rw [← hfin] at hl
  refine (links_perform hl).imp id ?_
  rintro ⟨a, ha, helper, hh, rfl⟩
  obtain ⟨b', rfl⟩ := exists_builtin_of_mem hg hs ha hh
  exact ⟨b', rfl⟩

end Links

/-! ### No effect is part of a value -/

/-- An act that is not for the steps of an effect. -/
def Pure (g : Graph) : Act → Prop
  | .expand id | .own id _ => isEffect g.nodes id = false
  | _ => True

section Pure
variable {g : Graph} {slots : Slots} {P : Fragment → Prop}

theorem pure_keepActs (id : Nat) (n : Node) (statement : Bool) : ∀ a ∈ keepActs slots id n statement, Pure g a := by
  unfold keepActs
  split
  · cases statement <;> simp [Pure]
  · split <;> simp [Pure]

variable (hw : WellFormed g.nodes P) (hs : slots.Sound g)
include hw hs

/-- When all effects before it are stored, no effect is written as a part of a value. -/
theorem pure_valueActs {depth id : Nat} {s : Emission} (hready : Ready g (id + 1) s) {e : Element}
    (hh : Holds g.nodes id e) : ∀ a ∈ valueActs g slots depth id s, Pure g a := by
  induction depth generalizing id s e with
  | zero => exact fun a ha => absurd ha List.not_mem_nil
  | succ depth ih =>
    unfold valueActs
    split
    · exact fun a ha => absurd ha List.not_mem_nil
    next n hn =>
    split
    · simp [Pure]
    next hstored =>
    split
    · simp [Pure]
    next o ho =>
    -- An effect would be stored by now, and would be loaded.
    have hnot : isEffect g.nodes id = false := by
      rw [isEffect, hn]
      exact hready.hasEffect_eq_false hh hn (by simpa using hstored)
    have hsteps : Along g slots (fun _ => Pure g) s (stepsActs g slots id n o (valueActs g slots depth) s) := by
      refine ⟨hnot, along_thread (I := Grows slots.units id s) (fun st _ s' hgrow => ?_) (.refl _ _ s)⟩
      rw [perform_stepActs hn (perform_valueActs depth)]
      refine ⟨?_, hgrow.trans (grows_step (grows_input hw hs hn depth) st s')⟩
      unfold stepActs
      split
      · next i hi =>
        obtain ⟨hlt, e', he'⟩ := hw.input_lt hn i (Step.mem_of_pick? hi)
        exact along_forall.mpr (ih ((hready.mono (by omega)).grows hgrow) he')
      · exact ⟨hnot, trivial⟩
    intro a ha
    rcases List.mem_append.mp ha with ha | ha
    · exact along_forall.mp hsteps a ha
    · exact pure_keepActs id n false a ha

/-- Of the effects only its own is written in a statement. -/
theorem pure_effectActs {id : Nat} {s : Emission} (hready : Ready g id s) :
    ∀ a ∈ effectActs g slots id s, Pure g a ∨ a = .expand id ∨ ∃ st, a = .own id st := by
  unfold effectActs
  split
  · next n hn =>
    split
    · next o ho =>
      have hsteps : Along g slots (fun _ a => Pure g a ∨ a = .expand id ∨ ∃ st, a = .own id st) s
          (stepsActs g slots id n o (valueActs g slots id) s) := by
        refine ⟨.inr (.inl rfl), along_thread (I := Grows slots.units id s) (fun st _ s' hgrow => ?_) (.refl _ _ s)⟩
        rw [perform_stepActs hn (perform_valueActs id)]
        refine ⟨?_, hgrow.trans (grows_step (grows_input hw hs hn id) st s')⟩
        unfold stepActs
        split
        · next i hi =>
          obtain ⟨hlt, e, he⟩ := hw.input_lt hn i (Step.mem_of_pick? hi)
          exact along_forall.mpr fun a ha => .inl (pure_valueActs hw hs ((hready.mono hlt).grows hgrow) he a ha)
        · exact ⟨.inr (.inr ⟨st, rfl⟩), trivial⟩
      intro a ha
      rcases List.mem_append.mp ha with ha | ha
      · exact along_forall.mp hsteps a ha
      · exact .inl (pure_keepActs id n true a ha)
    · exact fun a ha => absurd ha List.not_mem_nil
  · exact fun a ha => absurd ha List.not_mem_nil

variable [Fragment.Writable P] (hkeep : slots.KeepsEffects g)
include hkeep

omit hw in
/-- The values that the registers end with are written without effects. -/
theorem pure_finalActs (hg : g.Valid P) (m : Module) : ∀ a ∈ finalActs g slots m, Pure g a := by
  have hw := hg.wellFormed
  refine along_forall.mp (along_thread (I := Ready g g.nodes.size) (fun r _ s hready => ?_) ?_)
  · have hholds := hg.final (.reg r)
    rw [perform_valueActs]
    exact ⟨along_forall.mpr (pure_valueActs hw hs (hready.mono hholds.lt) hholds), hready.grows (grows_value hw hs _ _ s)⟩
  · rw [perform_statements hg]
    exact ready_afterEffects hw hs hkeep m g.nodes.size

end Pure

end Emission
end MicroBlock
