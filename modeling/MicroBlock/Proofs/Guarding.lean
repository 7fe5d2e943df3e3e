import Mathlib
import MicroBlock.Proofs.Courses
import MicroBlock.Proofs.Delivery

/-! Which code is guarded, and by which rollback.

A call that is a step of a node that can fault is put under the guard of the node's instruction when it is written, and no
later act takes it out again. The stretches of code that the rollbacks guard follow one another among the statements
of the main code, so a call is under one guard only, and what comes after the statements is under none. -/

namespace MicroBlock

/-- Whether a fault at an offset leads to the target of a guard. -/
def Guard.Covers (x : Guard) (pc : Nat) : Prop := x.first.toInt ≤ pc ∧ (pc : Int) < x.last.toInt

/-- Of guards that follow one another only one covers an offset. -/
theorem Guard.covers_once {guards : List Guard} (hordered : guards.Pairwise fun x y => x.last.toInt ≤ y.first.toInt)
    {pre post : List Guard} {x : Guard} (heq : guards = pre ++ x :: post) {pc : Nat} (hx : x.Covers pc) :
    ∀ y ∈ pre ++ post, ¬ y.Covers pc := by
  obtain ⟨hfirst, hlast⟩ := hx
  rw [heq, List.pairwise_append] at hordered
  obtain ⟨-, hpost, hpre⟩ := hordered
  rintro y hy ⟨hyfirst, hylast⟩
  rcases List.mem_append.mp hy with hy | hy
  · have := hpre y hy x List.mem_cons_self
    omega
  · have := List.rel_of_pairwise_cons hpost hy
    omega

namespace Emission
open MicroBlock.Graph

/-! ### Stretches that acts guard -/

section Extents
variable {g : Graph} {slots : Slots}

/-- Only a call of a node that can fault changes what is guarded. -/
theorem extents_write (a : Act) (s : Emission) : (a.write g slots s).extents = s.extents ∨
    ∃ id h n ρ, a = .own id (.call h) ∧ g.nodes[id]? = some n ∧ n.rollback = some ρ ∧
      (a.write g slots s).extents = s.extents.modify ρ (·.cover s.size (s.call h).size) := by
  cases a with
  | own id st =>
    cases hn : g.nodes[id]? with
    | none => simp [Act.write, hn]
    | some n =>
      simp only [Act.write, hn, Option.elim_some]
      cases st with
      | call h =>
        simp only [step]
        split
        · cases hρ : n.rollback with
          | none => exact .inl rfl
          | some ρ => exact .inr ⟨id, h, n, ρ, rfl, hn, hρ, rfl⟩
        · exact .inl rfl
      | input i =>
        simp only [step]
        split <;> exact .inl rfl
      | literal v => exact .inl (extents_pushInt s _)
      | dup | pop | unknown => exact .inl rfl
  | load id =>
    cases hn : g.nodes[id]? with
    | none => simp [Act.write, hn]
    | some n => exact .inl (by simp [Act.write, hn, extents_load])
  | store id =>
    cases hn : g.nodes[id]? with
    | none => simp [Act.write, hn]
    | some n =>
      simp only [Act.write, hn, Option.elim_some, store]
      split <;> exact .inl rfl
  | number v => exact .inl (extents_pushInt s v)
  | expand | get | copy | drop | set | call | fault | ret => exact .inl rfl

theorem Covers.write {s : Emission} {ρ pc : Nat} (h : s.Covers ρ pc) (a : Act) : (a.write g slots s).Covers ρ pc := by
  obtain ⟨x, hx, hpc⟩ := h
  rcases extents_write (g := g) a s with heq | ⟨id, helper, n, ρ', -, -, -, heq⟩
  · exact ⟨x, by rw [heq, hx], hpc⟩
  · rw [Covers, heq, Array.getElem?_modify]
    split
    · exact ⟨_, by rw [hx, Option.map_some], hpc.cover⟩
    · exact ⟨x, hx, hpc⟩

theorem Covers.perform {s : Emission} {ρ pc : Nat} (h : s.Covers ρ pc) (acts : List Act) :
    (s.perform g slots acts).Covers ρ pc := by
  induction acts generalizing s with
  | nil => exact h
  | cons a acts ih => exact ih (h.write a)

theorem size_extents_perform (s : Emission) (acts : List Act) :
    (s.perform g slots acts).extents.size = s.extents.size := by
  induction acts generalizing s with
  | nil => rfl
  | cons a acts ih =>
    rw [perform_cons, ih]
    rcases extents_write (g := g) a s with heq | ⟨id, helper, n, ρ, -, -, -, heq⟩
    · rw [heq]
    · rw [heq, Array.size_modify]

/-- A call of a node that can fault is under the guard of the node's rollback. -/
theorem covers_own {s : Emission} {id : Nat} {n : Node} (hn : g.nodes[id]? = some n) (hcan : n.canFault = true) {ρ : Nat}
    (hρ : n.rollback = some ρ) (hlt : ρ < s.extents.size) (helper : String) :
    ((Act.own id (.call helper)).write g slots s).Covers ρ s.size := by
  simp only [Act.write, hn, Option.elim_some, step, hcan, if_true, cover, hρ]
  have hx : (s.call helper).extents[ρ]? = some s.extents[ρ] := Array.getElem?_eq_getElem hlt
  refine ⟨_, ?_, Extent.contains_cover s.extents[ρ] (size_lt_size_call s helper)⟩
  rw [Array.getElem?_modify, if_pos rfl, hx, Option.map_some]

end Extents

/-! ### Stretches of the main code -/

section Live
variable {g : Graph} {slots : Slots} {P : Fragment → Prop} [Fragment.Writable P] (hg : g.Valid P) (hs : slots.Sound g)
  (hkeep : slots.KeepsEffects g) {count : Nat} {m : Module}

/-- A rollback and its stretch, at the same place among the rollbacks and among the stretches. -/
theorem exists_of_mem_live {s : Emission} {e : Rollback × Extent} (he : e ∈ live g s) :
    e.2.isEmpty = false ∧ ∃ ρ : Nat, g.rollbacks[ρ]? = some e.1 ∧ s.extents[ρ]? = some e.2 := by
  obtain ⟨hmem, hempty⟩ := List.mem_filter.mp he
  obtain ⟨ρ, hρ⟩ := List.mem_iff_getElem?.mp hmem
  obtain ⟨hrb, hx⟩ := List.getElem?_zip_eq_some.mp hρ
  exact ⟨by simpa using hempty, ρ, by simpa using hrb, by simpa using hx⟩

include hg hs hkeep

/-- A stretch lies among the statements. -/
theorem bounds_of_mem_live {e : Rollback × Extent} (he : e ∈ live g (main_ g slots count (start g m))) :
    0 ≤ e.2.first ∧ e.2.first < e.2.last ∧ e.2.last ≤ (afterEffects g slots m g.nodes.size).size := by
  obtain ⟨hempty, ρ, -, hx⟩ := exists_of_mem_live he
  rw [extents_main hg hs hkeep] at hx
  have hlast := (fenced_afterEffects hg hs hkeep m g.nodes.size ρ e.2 hx).1
  simp only [Extent.isEmpty, Bool.or_eq_false_iff, decide_eq_false_iff_not] at hempty
  omega

/-- The stretches follow one another. -/
theorem pairwise_live : (live g (main_ g slots count (start g m))).Pairwise fun e e' => e.2.last ≤ e'.2.first := by
  rw [live, List.pairwise_filter, List.pairwise_iff_getElem]
  intro ρ ρ' hρ hρ' hlt hne hne'
  have hget : ∀ {k : Nat} (hk : k < (g.rollbacks.toList.zip (main_ g slots count (start g m)).extents.toList).length),
      (main_ g slots count (start g m)).extents[k]? =
        some (g.rollbacks.toList.zip (main_ g slots count (start g m)).extents.toList)[k].2 := by
    intro k hk
    have h := List.getElem?_eq_getElem hk
    exact Array.getElem?_toList ▸ (List.getElem?_zip_eq_some.mp h).2
  generalize g.rollbacks.toList.zip (main_ g slots count (start g m)).extents.toList = pairs at hρ hρ' hne hne' hget ⊢
  simp only [Bool.not_eq_true', Extent.isEmpty, Bool.or_eq_false_iff, decide_eq_false_iff_not] at hne hne'
  have hfenced := fenced_main hg hs hkeep (m := m) count
  obtain ⟨-, -, hlate⟩ := (hfenced ρ _ (hget hρ)).2 (by omega)
  obtain ⟨-, ⟨i, n, hi, hn, hroll, hpos⟩, -⟩ := (hfenced ρ' _ (hget hρ')).2 (by omega)
  exact (hlate i n ρ' hi hn hroll hlt).trans hpos

end Live

/-! ### Guards -/

section Guards
variable {g : Graph} {slots : Slots} {main : Emission} {route : String}

theorem guardsOf_append (l l' : List (Rollback × Extent)) (s : Emission) :
    guardsOf g slots main route (l ++ l') s =
      guardsOf g slots main route l s ++
        guardsOf g slots main route l' (s.perform g slots (handlerActs g main route l)) := by
  induction l generalizing s with
  | nil => rfl
  | cons e l ih =>
    rw [List.cons_append, guardsOf, guardsOf, ih, List.cons_append, handlerActs, handlerActs, List.flatMap_cons,
      perform_append]

/-- The guard of a rollback leads to where its code begins. -/
theorem guardsOf_split (l : List (Rollback × Extent)) (e : Rollback × Extent) (l' : List (Rollback × Extent))
    (s : Emission) :
    ∃ post, guardsOf g slots main route (l ++ e :: l') s = guardsOf g slots main route l s ++
      ⟨Int32.ofInt e.2.first, Int32.ofInt e.2.last,
        Int32.ofNat (s.perform g slots (handlerActs g main route l)).size⟩ :: post := by
  rw [guardsOf_append, guardsOf]
  exact ⟨_, rfl⟩

theorem exists_of_mem_guardsOf {l : List (Rollback × Extent)} {s : Emission} {x : Guard}
    (hx : x ∈ guardsOf g slots main route l s) :
    ∃ before e after, l = before ++ e :: after ∧ x = ⟨Int32.ofInt e.2.first, Int32.ofInt e.2.last,
      Int32.ofNat (s.perform g slots (handlerActs g main route before)).size⟩ := by
  induction l generalizing s with
  | nil => exact absurd hx List.not_mem_nil
  | cons e l ih =>
    rw [guardsOf] at hx
    rcases List.mem_cons.mp hx with rfl | hx
    · exact ⟨[], e, l, rfl, rfl⟩
    · obtain ⟨before, e', after, rfl, rfl⟩ := ih hx
      exact ⟨e :: before, e', after, rfl, by rw [handlerActs, handlerActs, List.flatMap_cons, perform_append]⟩

theorem pairwise_guardsOf {R : Guard → Guard → Prop} {l : List (Rollback × Extent)}
    (h : l.Pairwise fun e e' => ∀ x y : Guard, x.last = Int32.ofInt e.2.last → y.first = Int32.ofInt e'.2.first → R x y)
    (s : Emission) : (guardsOf g slots main route l s).Pairwise R := by
  induction l generalizing s with
  | nil => exact .nil
  | cons e l ih =>
    obtain ⟨he, hl⟩ := List.pairwise_cons.mp h
    refine List.pairwise_cons.mpr ⟨fun y hy => ?_, ih hl _⟩
    obtain ⟨before, e', after, heq, hy⟩ := exists_of_mem_guardsOf hy
    exact he e' (by rw [heq]; simp) _ y rfl (congrArg Guard.first hy)

end Guards

/-! ### All of it -/

/-- The code at an offset runs up to a return, and returns a number. -/
def ReturnsAt (g : Graph) (slots : Slots) (m : Module) (acts : List Act) (target : Int32) (i : Nat) : Prop :=
  ∃ before body after, acts = before ++ (body ++ [Act.number i, Act.ret]) ++ after ∧ .ret ∉ body ∧
    target.toInt = ((start g m).perform g slots before).size

/-- The guards of a block: no range is empty, they follow one another, and they end before the code of the first rollback.
    A call of a node that can fault is under one guard only, and its code returns the number of the node's instruction. What
    is written after the statements is under none. -/
structure Guarding (g : Graph) (slots : Slots) (count : Nat) (m : Module) (handlers : List Act) (guards : List Guard) :
    Prop where
  nonempty : ∀ x ∈ guards, x.first.toInt < x.last.toInt
  ordered : guards.Pairwise fun x y => x.last.toInt ≤ y.first.toInt
  ended : ∀ x ∈ guards, ∀ y ∈ guards, x.last.toInt < y.target.toInt
  own : ∀ before id h after n o, mainActs g slots count m = before ++ Act.own id (.call h) :: after → g.nodes[id]? = some n →
    n.origin = some o → n.canFault = true → ∃ pre x post, guards = pre ++ x :: post ∧
      x.Covers ((start g m).perform g slots before).size ∧
      (∀ y ∈ pre ++ post, ¬ y.Covers ((start g m).perform g slots before).size) ∧
      ReturnsAt g slots m (mainActs g slots count m ++ handlers) x.target o.record.index
  outside : ∀ before a after, writeBackActs g slots count m ++ handlers = before ++ a :: after → ∀ x ∈ guards,
    ¬ x.Covers ((start g m).perform g slots (statementActs g slots m ++ before)).size

theorem ret_notMem_rollbackBody {g : Graph} {kept : Nat → Bool} {route : String} {r : Rollback} :
    .ret ∉ rollbackBody g kept route r := by
  simp only [rollbackBody, List.mem_append, List.mem_flatMap, List.mem_cons, List.mem_map, reduceCtorEq, List.not_mem_nil,
    and_false, exists_false, or_false, not_or, not_exists, not_and]
  refine ⟨fun id _ h => (repeats_recomputeActs (id + 1) id _ h).elim, ?_⟩
  split <;> simp

/-- The code of a rollback returns the number of its instruction, and has no other return. -/
theorem exists_rollbackActs_eq (g : Graph) (kept : Nat → Bool) (route : String) (r : Rollback) :
    ∃ body, rollbackActs g kept route r = body ++ [Act.number r.index, Act.ret] ∧ .ret ∉ body := by
  have hret : .ret ∉ rollbackBody g kept route r := ret_notMem_rollbackBody
  have heq : rollbackBody g kept route r = ((restored g r).flatMap (fun id => recomputeActs g kept (id + 1) id) ++
      ((if r.delta = 0 then [] else [Act.number r.delta.toInt, Act.call Builtin.add32.name]) ++
        (Act.set .eip :: ((g.restores r).reverse.map fun e => Act.set e.1) ++ [Act.get .cpu, Act.fault, Act.call route]))) ++
      [Act.number r.index] := by simp [rollbackBody]
  rw [heq] at hret
  exact ⟨_, by rw [rollbackActs, heq, List.append_assoc]; rfl, fun h => hret (List.mem_append_left _ h)⟩

/-- The statements end before the main code does. -/
theorem size_afterEffects_lt_main {g : Graph} {P : Fragment → Prop} (hg : g.Valid P) (slots : Slots) (count : Nat)
    (m : Module) : (afterEffects g slots m g.nodes.size).size < (main_ g slots count (start g m)).size := by
  have hlast : writeBackActs g slots count m =
      (finalActs g slots m ++ (g.changed.reverse.map Act.set ++ [Act.number count])) ++ [Act.ret] := by simp [writeBackActs]
  rw [← perform_mainActs, mainActs, perform_append, perform_statements hg, hlast, perform_append]
  exact (size_le_perform g slots _ _).trans_lt (Nat.lt_add_of_pos_right (Instr.size_pos .ret))

section Guarding
variable {g : Graph} {slots : Slots} {P : Fragment → Prop} [Fragment.Writable P] (hg : g.Valid P) (hs : slots.Sound g)
  (hkeep : slots.KeepsEffects g) {count : Nat} {m : Module}
include hg hs hkeep

/-- The ends of a stretch are numbers that a guard can hold. -/
theorem toInt_ends {e : Rollback × Extent} (he : e ∈ live g (main_ g slots count (start g m)))
    (hsize : (main_ g slots count (start g m)).size < 2 ^ 29) :
    (Int32.ofInt e.2.first).toInt = e.2.first ∧ (Int32.ofInt e.2.last).toInt = e.2.last := by
  obtain ⟨h₀, hlt, hle⟩ := bounds_of_mem_live hg hs hkeep he
  have hmain := size_afterEffects_lt_main hg slots count m
  exact ⟨Int32.toInt_ofInt_of_le (by omega) (by omega), Int32.toInt_ofInt_of_le (by omega) (by omega)⟩

variable {route : String} {guards : List Guard} {fin : Emission} (h : execute g slots route count m = (guards, fin))
  (hsize : fin.size < 2 ^ 29)
include h hsize

omit hg hs hkeep in
theorem size_main_lt : (main_ g slots count (start g m)).size < 2 ^ 29 := by
  rw [execute_eq_perform, Prod.mk.injEq] at h
  obtain ⟨-, rfl⟩ := h
  rw [executeActs, perform_append, perform_mainActs] at hsize
  exact (size_le_perform g slots _ _).trans_lt hsize

/-- The ends of a guard are those of a stretch, and its target is where the code of the stretch's rollback begins. -/
theorem exists_of_mem_guards {x : Guard} (hx : x ∈ guards) :
    ∃ before e after, live g (main_ g slots count (start g m)) = before ++ e :: after ∧ x.first.toInt = e.2.first ∧
      x.last.toInt = e.2.last ∧ x.target.toInt = ((main_ g slots count (start g m)).perform g slots
        (handlerActs g (main_ g slots count (start g m)) route before)).size := by
  have hmain := size_main_lt h hsize
  rw [execute_eq_perform, Prod.mk.injEq] at h
  obtain ⟨rfl, rfl⟩ := h
  obtain ⟨before, e, after, heq, rfl⟩ := exists_of_mem_guardsOf hx
  obtain ⟨hfirst, hlast⟩ := toInt_ends hg hs hkeep (e := e) (by simp [heq]) hmain
  refine ⟨before, e, after, heq, hfirst, hlast, toInt_ofNat ?_⟩
  rw [executeActs, perform_append, perform_mainActs, heq, handlerActs, List.flatMap_append, perform_append] at hsize
  exact (size_le_perform g slots _ _).trans_lt hsize

/-- A call of a node that can fault is under one guard, which leads to the return of its instruction's number. -/
theorem exists_guard {before after : List Act} {id : Nat} {helper : String}
    (heq : mainActs g slots count m = before ++ Act.own id (.call helper) :: after) {n : Node} (hn : g.nodes[id]? = some n)
    {o : Origin} (ho : n.origin = some o) (hcan : n.canFault = true) :
    ∃ pre x post, guards = pre ++ x :: post ∧ x.Covers ((start g m).perform g slots before).size ∧
      ReturnsAt g slots m (executeActs g slots route count m) x.target o.record.index := by
  have hmain := size_main_lt h hsize
  obtain ⟨ρ, hρ⟩ := hg.tracked.exists_of_canFault hn hcan
  obtain ⟨rb, -, hrb, -⟩ := hg.tracked.snapshot hn hρ
  have hlt : ρ < ((start g m).perform g slots before).extents.size := by
    rw [size_extents_perform]
    simpa [start] using (Array.getElem?_eq_some_iff.mp hrb).1
  obtain ⟨x, hx, hpc⟩ : (main_ g slots count (start g m)).Covers ρ ((start g m).perform g slots before).size := by
    rw [← perform_mainActs, heq, perform_append, perform_cons]
    exact (covers_own hn hcan hρ hlt helper).perform after
  have he : (rb, x) ∈ live g (main_ g slots count (start g m)) := by
    refine List.mem_filter.mpr ⟨List.mem_of_getElem? (i := ρ) ?_, ?_⟩
    · exact List.getElem?_zip_eq_some.mpr ⟨by simpa using hrb, by simpa using hx⟩
    · obtain ⟨h₀, h₁, h₂⟩ := hpc
      simp only [Bool.not_eq_true', Extent.isEmpty, Bool.or_eq_false_iff, decide_eq_false_iff_not]
      omega
  obtain ⟨hfirst, hlast⟩ := toInt_ends hg hs hkeep he hmain
  obtain ⟨l, l', hlive⟩ := List.append_of_mem he
  obtain ⟨body, hbody, hret⟩ := exists_rollbackActs_eq g ((main_ g slots count (start g m)).filled x.first) route rb
  rw [execute_eq_perform, Prod.mk.injEq, hlive] at h
  obtain ⟨rfl, rfl⟩ := h
  obtain ⟨post, hpost⟩ := guardsOf_split (g := g) (s := main_ g slots count (start g m)) l (rb, x) l'
  refine ⟨_, _, post, hpost, ?_, mainActs g slots count m ++ handlerActs g (main_ g slots count (start g m)) route l, body,
    handlerActs g (main_ g slots count (start g m)) route l', ?_, hret, ?_⟩
  · rw [Guard.Covers, hfirst, hlast]
    exact hpc.2
  · rw [executeActs, hlive, ← hg.tracked.index hn hρ ho hrb, ← hbody, handlerActs, List.flatMap_append, List.flatMap_cons,
      handlerActs, handlerActs, List.append_assoc, List.append_assoc]
  · rw [executeActs, perform_append, perform_mainActs, hlive, handlerActs, List.flatMap_append, perform_append] at hsize
    rw [perform_append, perform_mainActs]
    exact toInt_ofNat ((size_le_perform g slots _ _).trans_lt hsize)

theorem guarding_execute : Guarding g slots count m
    (handlerActs g (main_ g slots count (start g m)) route (live g (main_ g slots count (start g m)))) guards := by
  have hmain := size_main_lt h hsize
  have hend := size_afterEffects_lt_main hg slots count m
  have hmem {x : Guard} (hx : x ∈ guards) := exists_of_mem_guards hg hs hkeep h hsize hx
  have hordered : guards.Pairwise fun x y => x.last.toInt ≤ y.first.toInt := by
    rw [execute_eq_perform, Prod.mk.injEq] at h
    rw [← h.1]
    refine pairwise_guardsOf ((pairwise_live hg hs hkeep).imp_of_mem fun {e e'} he he' hle x y hx hy => ?_) _
    rw [hx, hy, (toInt_ends hg hs hkeep he hmain).2, (toInt_ends hg hs hkeep he' hmain).1]
    exact hle
  refine ⟨?_, hordered, ?_, ?_, ?_⟩
  · intro x hx
    obtain ⟨before, e, after, heq, hfirst, hlast, -⟩ := hmem hx
    have := bounds_of_mem_live hg hs hkeep (e := e) (by rw [heq]; simp)
    omega
  · intro x hx y hy
    obtain ⟨before, e, after, heq, -, hlast, -⟩ := hmem hx
    obtain ⟨before', -, -, -, -, -, htarget⟩ := hmem hy
    have := bounds_of_mem_live hg hs hkeep (e := e) (by rw [heq]; simp)
    have := size_le_perform g slots (main_ g slots count (start g m))
      (handlerActs g (main_ g slots count (start g m)) route before')
    omega
  · intro before id helper after n o heq hn ho hcan
    obtain ⟨pre, x, post, hguards, hx, hreturns⟩ := exists_guard hg hs hkeep h hsize heq hn ho hcan
    exact ⟨pre, x, post, hguards, hx, Guard.covers_once hordered hguards hx, hreturns⟩
  · intro before a after _ x hx hcovers
    obtain ⟨before', e, after', heq, -, hlast, -⟩ := hmem hx
    have := bounds_of_mem_live hg hs hkeep (e := e) (by rw [heq]; simp)
    have hle := size_le_perform g slots (afterEffects g slots m g.nodes.size) before
    rw [perform_append, perform_statements hg] at hcovers
    have := hcovers.2
    omega

end Guarding

end Emission

namespace Target
open MicroBlock.Module MicroBlock.Emission

section Filled
variable {mode : Mode} {name : String} {s : Stream} {g : Graph} {slots : Slots} {m : Module} {fin : Emission}
  {guards : List Guard} (h : Filled mode name s g slots m fin guards)
include h

/-- The code of a unit is what its acts write. -/
theorem Filled.eq_perform : fin = (start g (described name slots.kinds s)).perform g slots
    (executeActs g slots (Builtin.route mode).name s.count (described name slots.kinds s)) := by
  have hexecute := h.execute
  rw [execute_eq_perform] at hexecute
  exact (congrArg Prod.snd hexecute).symm

variable {P : Fragment → Prop} (hg : g.Valid P) (hs : slots.Sound g)
include hg hs

theorem Filled.size_lt : fin.size < 2 ^ 29 := by
  rw [(execute_bounds hg hs h.execute).1]
  exact h.length_le.trans_lt (by decide)

/-- If all slots have a number that an operand can hold, the code is read back with an instruction for each act. -/
theorem Filled.decode_placed (hunits : slots.units < 2 ^ 29) :
    Code.decode fin.bytes = .ok (placed g slots (start g (described name slots.kinds s))
      (executeActs g slots (Builtin.route mode).name s.count (described name slots.kinds s))) := by
  rw [← place_start, ← h.eq_perform]
  exact Contains.decode hg hs ⟨h, hunits⟩

end Filled

/-- Each faulting call is guarded by its own instruction's handler. The ranges of a unit's guards are non-empty, follow one
    another and end before the first target. Every call of the main code that is a step of a node that can fault lies in the
    range of one guard only, whose code returns the number of the node's instruction. No call of the write-back or of
    a rollback lies in any range. Offsets are those of the acts, and of the instructions that are read back when operands can
    number all slots. -/
theorem faulting_calls_guarded {r : Registry} {tname : String} {ds : List Definition} {t : Table}
    (ht : Table.build tname ds r = .ok t) (n : ModeNumber) {b : Block} {s : Stream} (hb : Stream.ofBlock b = .ok s)
    {g : Graph} (hg : Graph.build t true s = .ok g) {units : Int} {slots : Slots}
    (ha : Slots.allocate g units = (.ok (), slots)) {name : String} {limit : Int} {m : Module}
    (hm : (ofTable n t).unit name s g slots limit = .ok m) :
    ∃ me handlers, m.method? executeMethod = some me ∧
      mainActs g slots s.count (described name slots.kinds s) ++ handlers =
        executeActs g slots (ofTable n t).route s.count (described name slots.kinds s) ∧
      me.code = ((start g (described name slots.kinds s)).perform g slots
        (mainActs g slots s.count (described name slots.kinds s) ++ handlers)).bytes ∧
      (slots.units < 2 ^ 29 → Code.decode me.code = .ok (placed g slots (start g (described name slots.kinds s))
        (mainActs g slots s.count (described name slots.kinds s) ++ handlers))) ∧
      Guarding g slots s.count (described name slots.kinds s) handlers me.guards := by
  have hv := Graph.build_valid (Table.build_checked ht) hb hg
  obtain ⟨hs, hkeep⟩ := Slots.allocate_sound hv ha
  obtain ⟨fin, guards, h⟩ := unit_filled hv hs (unit_ofTable n t ▸ hm)
  exact ⟨_, _, h.method?_execute, rfl, congrArg bytes h.eq_perform, h.decode_placed hv hs,
    guarding_execute hv hs hkeep h.execute (h.size_lt hv hs)⟩

/-- Counts up in a register, and clears the interrupt flag if the processor may. -/
def privileged : List Definition :=
  [⟨"pure_CLC_EAX_EAX", some [.input 0, .call "inc32"], ""⟩,
    ⟨"fault_CLI_IF_CPL_IOPL", some [.input 0, .input 1, .literal (.const 0), .call "if_checked"], ""⟩]

/-- The second of two instructions can fault. Its one call is guarded. -/
theorem faulting_calls_guarded_privileged : ∃ t s g slots m me handlers,
    Table.build "privileged" privileged .builtin = .ok t ∧ Stream.ofBlock [⟨1, [136]⟩, ⟨1, [141]⟩] = .ok s ∧
      Graph.build t true s = .ok g ∧ Slots.allocate g 1024 = (.ok (), slots) ∧
      (ofTable (Mode.real : ModeNumber) t).unit "x" s g slots 65535 = .ok m ∧ m.method? executeMethod = some me ∧
      me.guards.map (fun x => (x.first.toInt, x.last.toInt, x.target.toInt)) = [(6, 8, 23)] ∧
      Guarding g slots s.count (described "x" slots.kinds s) handlers me.guards := by
  have hok : (Table.addAll .builtin [] privileged).toOption.any (fun fs =>
      decide (fs.Pairwise fun a b => a.target.number ≤ b.target.number) &&
      (Stream.ofBlock [⟨1, [136]⟩, ⟨1, [141]⟩]).toOption.any fun s =>
        (Graph.build ⟨"privileged", fun op => fs.filter (·.op == op)⟩ true s).toOption.any fun g =>
          (Slots.allocate g 1024).1.toOption.any fun _ =>
          ((ofTable (Mode.real : ModeNumber) ⟨"privileged", fun op => fs.filter (·.op == op)⟩).unit "x" s g
            (Slots.allocate g 1024).2 65535).toOption.any fun m => (m.method? executeMethod).any fun me =>
              decide (me.guards.map (fun x => (x.first.toInt, x.last.toInt, x.target.toInt)) = [(6, 8, 23)])) = true := by
    decide +kernel
  obtain ⟨fs, hfs, hok⟩ := exists_ok_of_any hok
  obtain ⟨hsorted, hok⟩ := Bool.and_eq_true_iff.mp hok
  obtain ⟨s, hs, hok⟩ := exists_ok_of_any hok
  obtain ⟨g, hg, hok⟩ := exists_ok_of_any hok
  obtain ⟨_, hallocate, hok⟩ := exists_ok_of_any hok
  obtain ⟨m, hm, hok⟩ := exists_ok_of_any hok
  obtain ⟨me, hme, hguards⟩ := (Option.any_eq_true _ _).mp hok
  have ht : Table.build "privileged" privileged .builtin = .ok ⟨"privileged", fun op => fs.filter (·.op == op)⟩ :=
    Table.build_of_sorted hfs (of_decide_eq_true hsorted) _
  have ha : Slots.allocate g 1024 = (.ok (), (Slots.allocate g 1024).2) := Prod.ext hallocate rfl
  obtain ⟨me', handlers, hme', -, -, -, hguarding⟩ := faulting_calls_guarded ht (Mode.real : ModeNumber) hs hg ha hm
  cases hme.symm.trans hme'
  exact ⟨_, s, g, _, m, me, handlers, ht, hs, hg, ha, hm, hme, of_decide_eq_true hguards, hguarding⟩

end Target
end MicroBlock
