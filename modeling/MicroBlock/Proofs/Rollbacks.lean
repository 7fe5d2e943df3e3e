import Mathlib
import MicroBlock.Proofs.Guarding

/-! What the code of a rollback does, and what a load finds in its slot.

A rollback pushes again what the registers held before its instruction. What has an effect is in its slot by then, so only
pure nodes are written out a second time. A node is stored right behind its steps, and no other node shares its slot. So a
load finds what the same run stored for its node, in the main code and, after a fault, in the code of a rollback. -/

namespace MicroBlock
namespace Emission
open MicroBlock.Graph

/-! ### What is stored -/

section Stored
variable {g : Graph} {slots : Slots} {id k : Nat}

theorem storedAt?_write {a : Act} {s : Emission} (h : (a.write g slots s).storedAt? id = some k) :
    s.storedAt? id = some k ∨ a = .store id ∧ s.size < k := by
  by_cases ha : ∃ j, a = .store j
  · obtain ⟨j, rfl⟩ := ha
    cases hn : g.nodes[j]? with
    | none => exact .inl (by simpa [Act.write, hn] using h)
    | some n =>
      simp only [Act.write, hn, Option.elim_some, store] at h
      split at h
      · rw [storedAt?_set] at h
        split at h
        · next hj =>
          cases h
          exact .inr ⟨by rw [hj.1], Nat.lt_add_of_pos_right (Instr.size_pos _)⟩
        · exact .inl h
      · exact .inl h
  · have hstored : (a.write g slots s).stored = s.stored := stored_write (fun j hj => ha ⟨j, hj⟩) s
    rw [storedAt?, hstored] at h
    exact .inl h

/-- What is stored after some acts was stored before them, or one of them stores it. -/
theorem storedAt?_perform {acts : List Act} {s : Emission} (h : (s.perform g slots acts).storedAt? id = some k) :
    s.storedAt? id = some k ∨ .store id ∈ acts ∧ s.size < k := by
  induction acts generalizing s with
  | nil => exact .inl h
  | cons a acts ih =>
    rcases ih h with h | ⟨hmem, hlt⟩
    · exact (storedAt?_write h).imp_right fun ⟨ha, hlt⟩ => ⟨ha ▸ List.mem_cons_self, hlt⟩
    · exact .inr ⟨List.mem_cons_of_mem a hmem, (size_le_perform g slots s [a]).trans_lt hlt⟩

/-- The last store of a node among some acts. -/
theorem exists_last_store {acts : List Act} (h : .store id ∈ acts) :
    ∃ before after, acts = before ++ Act.store id :: after ∧ .store id ∉ after := by
  obtain ⟨after, before, heq, hnot⟩ := List.eq_append_cons_of_mem (List.mem_reverse.mpr h)
  refine ⟨before.reverse, after.reverse, ?_, by simpa using hnot⟩
  rw [← List.reverse_reverse acts, heq]
  simp

end Stored

/-! ### Stores end expansions -/

/-- The steps of a node stand right before an act, but for the copy of the value that stays on the stack. -/
def Ends (g : Graph) (slots : Slots) (s : Emission) (before : List Act) (id : Nat) : Prop :=
  ∃ pre n o depth copied, g.nodes[id]? = some n ∧ n.origin = some o ∧ (copied = [] ∨ copied = [Act.copy]) ∧
    before = pre ++ (stepsActs g slots id n o (valueActs g slots depth) (s.perform g slots pre) ++ copied)

/-- Every node that is stored was written out right before. -/
def Filed (g : Graph) (slots : Slots) (s : Emission) (acts : List Act) : Prop :=
  ∀ before id after, acts = before ++ Act.store id :: after → Ends g slots s before id

section Filed
variable {g : Graph} {slots : Slots} {s : Emission}

theorem filed_of_notMem {acts : List Act} (h : ∀ id, .store id ∉ acts) : Filed g slots s acts :=
  fun before id after heq => absurd (heq ▸ by simp) (h id)

theorem Ends.append {acts before : List Act} {id : Nat} (h : Ends g slots (s.perform g slots acts) before id) :
    Ends g slots s (acts ++ before) id := by
  obtain ⟨pre, n, o, depth, copied, hn, ho, hcopied, rfl⟩ := h
  exact ⟨acts ++ pre, n, o, depth, copied, hn, ho, hcopied, by rw [perform_append, List.append_assoc]⟩

theorem Filed.append {acts acts' : List Act} (h : Filed g slots s acts) (h' : Filed g slots (s.perform g slots acts) acts') :
    Filed g slots s (acts ++ acts') := by
  intro before id after heq
  rcases List.append_eq_append_iff.mp heq with ⟨cs, rfl, hcs⟩ | ⟨cs, hacts, hcs⟩
  · exact (h' cs id after hcs).append
  · cases cs with
    | nil => simpa [hacts] using (h' [] id after hcs.symm).append
    | cons a cs =>
      cases hcs
      exact h before id cs hacts

theorem filed_thread {α : Type} {f : α → Emission → List Act} {l : List α} (h : ∀ a ∈ l, ∀ s, Filed g slots s (f a s))
    (s : Emission) : Filed g slots s (thread g slots f l s) := by
  induction l generalizing s with
  | nil => exact filed_of_notMem fun _ => List.not_mem_nil
  | cons a l ih => exact (h a List.mem_cons_self s).append (ih (fun b hb => h b (List.mem_cons_of_mem a hb)) _)

theorem filed_stepsActs {id : Nat} {n : Node} {o : Origin} {input : Nat → Emission → List Act}
    (hin : ∀ i s, Filed g slots s (input i s)) (s : Emission) : Filed g slots s (stepsActs g slots id n o input s) := by
  have hexpand : Filed g slots s [Act.expand id] := filed_of_notMem (by simp)
  refine hexpand.append (filed_thread (fun st _ s => ?_) s)
  unfold stepActs
  split
  · exact hin _ s
  · exact filed_of_notMem (by simp)

/-- After the steps of a node no other node is stored. -/
theorem keepActs_eq_append {id j : Nat} {n : Node} {statement : Bool} {before after : List Act}
    (h : keepActs slots id n statement = before ++ Act.store j :: after) :
    j = id ∧ (before = [] ∨ before = [Act.copy]) := by
  unfold keepActs at h
  split at h
  · cases statement with
    | true =>
      rw [if_pos rfl] at h
      rcases before with - | ⟨a, before⟩
      · cases h
        exact ⟨rfl, .inl rfl⟩
      · simp at h
    | false =>
      rw [if_neg Bool.false_ne_true] at h
      rcases before with - | ⟨a, - | ⟨a', before⟩⟩
      · cases h
      · cases h
        exact ⟨rfl, .inr rfl⟩
      · simp at h
  · split at h
    · rcases before with - | ⟨a, before⟩ <;> simp at h
    · simp at h

/-- The steps of a node and what keeps its value, if the steps are in order. -/
theorem filed_keepActs {id : Nat} {n : Node} {o : Origin} (hn : g.nodes[id]? = some n) (ho : n.origin = some o)
    {depth : Nat} (h : Filed g slots s (stepsActs g slots id n o (valueActs g slots depth) s)) (statement : Bool) :
    Filed g slots s (stepsActs g slots id n o (valueActs g slots depth) s ++ keepActs slots id n statement) := by
  intro before j after heq
  have hown : ∀ cs, keepActs slots id n statement = cs ++ Act.store j :: after →
      Ends g slots s (stepsActs g slots id n o (valueActs g slots depth) s ++ cs) j := by
    intro cs hcs
    obtain ⟨rfl, hcopied⟩ := keepActs_eq_append hcs
    exact ⟨[], n, o, depth, cs, hn, ho, hcopied, rfl⟩
  rcases List.append_eq_append_iff.mp heq with ⟨cs, rfl, hcs⟩ | ⟨cs, hsteps, hcs⟩
  · exact hown cs hcs
  · cases cs with
    | nil => simpa [hsteps] using hown [] hcs.symm
    | cons a cs =>
      cases hcs
      exact h before j cs hsteps

theorem filed_valueActs (depth id : Nat) (s : Emission) : Filed g slots s (valueActs g slots depth id s) := by
  induction depth generalizing id s with
  | zero => exact filed_of_notMem fun _ => List.not_mem_nil
  | succ depth ih =>
    unfold valueActs
    split
    · exact filed_of_notMem fun _ => List.not_mem_nil
    next n hn =>
    split
    · exact filed_of_notMem (by simp)
    split
    · exact filed_of_notMem (by simp)
    next o ho => exact filed_keepActs hn ho (filed_stepsActs ih s) false

theorem filed_effectActs (id : Nat) (s : Emission) : Filed g slots s (effectActs g slots id s) := by
  unfold effectActs
  split
  · next n hn =>
    split
    · next o ho => exact filed_keepActs hn ho (filed_stepsActs (filed_valueActs id) s) true
    · exact filed_of_notMem fun _ => List.not_mem_nil
  · exact filed_of_notMem fun _ => List.not_mem_nil

theorem filed_mainActs (count : Nat) (m : Module) : Filed g slots (start g m) (mainActs g slots count m) := by
  refine Filed.append (filed_thread (fun id _ s => filed_effectActs id s) _) (Filed.append ?_ (filed_of_notMem (by simp)))
  exact filed_thread (fun r _ s => filed_valueActs _ _ s) _

end Filed

/-! ### The code of rollbacks -/

/-- An act of making out a value again: a node that is pure and cannot fault is written out, or a value is read. -/
def Inert (g : Graph) : Act → Prop
  | .expand id | .own id _ => ∃ n o, g.nodes[id]? = some n ∧ n.origin = some o ∧ n.hasEffect = false ∧ n.canFault = false
  | .load _ | .get _ => True
  | _ => False

/-- The code of a rollback. Values are made out again, EIP may be brought up to the instruction, the registers are set, and
    the fault is routed. -/
def IsRollback (g : Graph) (route : String) (code : List Act) : Prop :=
  ∃ values adjust, ∃ rs : List Register, ∃ i, code = values ++ (adjust ++ (Act.set .eip :: rs.map Act.set ++
      [Act.get .cpu, Act.fault, Act.call route, Act.number i, Act.ret])) ∧
    (∀ a ∈ values, Inert g a) ∧ (adjust = [] ∨ ∃ d, adjust = [Act.number d, Act.call Builtin.add32.name])

section Inert
variable {g : Graph} {slots : Slots} {P : Fragment → Prop}

/-- Where all effects before it are kept, no effect is written out again as a part of a value. -/
theorem pure_recomputeActs (hw : WellFormed g.nodes P) {kept : Nat → Bool} {s : Emission}
    (hkept : ∀ j k, s.storedAt? j = some k → kept j = true) {depth id : Nat} (hready : Ready g (id + 1) s) {e : Element}
    (hh : Holds g.nodes id e) : ∀ a ∈ recomputeActs g kept depth id, Pure g a := by
  induction depth generalizing id e with
  | zero => exact fun a ha => absurd ha List.not_mem_nil
  | succ depth ih =>
    unfold recomputeActs
    split
    · exact fun a ha => absurd ha List.not_mem_nil
    next n hn =>
    split
    · simp [Pure]
    next hnot =>
    split
    · simp [Pure]
    next o ho =>
    have hnone : s.storedAt? id = none := by
      cases hk : s.storedAt? id with
      | none => rfl
      | some k => exact absurd (hkept id k hk) hnot
    have hpure : isEffect g.nodes id = false := by
      rw [isEffect, hn]
      exact hready.hasEffect_eq_false hh hn hnone
    intro a ha
    rcases List.mem_cons.mp ha with rfl | ha
    · exact hpure
    obtain ⟨st, -, ha⟩ := List.mem_flatMap.mp ha
    split at ha
    · next i hi =>
      obtain ⟨hlt, e', he'⟩ := hw.input_lt hn i (Step.mem_of_pick? hi)
      exact ih (hready.mono (by omega)) he' a ha
    · rw [List.mem_singleton.mp ha]
      exact hpure

theorem inert_of_repeats {kept : Nat → Bool} {a : Act} (h : Repeats g kept a) (hpure : Pure g a) : Inert g a := by
  have hnode : ∀ {id : Nat} {n : Node} {o : Origin}, g.nodes[id]? = some n → n.origin = some o →
      isEffect g.nodes id = false → Inert g (.expand id) := by
    intro id n o hn ho he
    rw [isEffect, hn] at he
    exact ⟨n, o, hn, ho, he, canFault_eq_false he⟩
  cases a with
  | expand id =>
    obtain ⟨n, o, hn, ho⟩ := h
    exact hnode hn ho hpure
  | own id st =>
    obtain ⟨n, o, hn, ho, -⟩ := h
    exact hnode hn ho hpure
  | load | get => trivial
  | _ => exact h

/-- A rollback makes out the nodes of its snapshot. -/
theorem exists_of_mem_restored {r : Rollback} {start : Producers} (hsnap : r.snapshot = Rollback.snapshotOf start) {id : Nat}
    (h : id ∈ restored g r) : ∃ e, id = start.get e := by
  rcases List.mem_append.mp h with h | h
  · obtain ⟨⟨reg, id⟩, hmem, rfl⟩ := List.mem_map.mp h
    exact ⟨.reg reg, mem_snapshotOf.mp (hsnap ▸ (List.mem_filter.mp hmem).1)⟩
  · rw [Rollback.eip?, hsnap, lookup_snapshotOf] at h
    exact ⟨.eip, by simpa using h⟩

variable [Fragment.Writable P] (hg : g.Valid P) (hs : slots.Sound g) (hkeep : slots.KeepsEffects g) {count : Nat}
  {m : Module}
include hg hs hkeep

/-- What a rollback makes out again is pure. -/
theorem inert_restored {e : Rollback × Extent} (he : e ∈ live g (main_ g slots count (start g m))) {id : Nat}
    (hid : id ∈ restored g e.1) :
    ∀ a ∈ recomputeActs g ((main_ g slots count (start g m)).filled e.2.first) (id + 1) id, Inert g a := by
  have hw := hg.wellFormed
  obtain ⟨-, ρ, hrb, hx⟩ := exists_of_mem_live he
  have hfirst := (bounds_of_mem_live hg hs hkeep he).1
  -- The rollback belongs to a node whose code begins before the stretch, and its snapshot is older than that node.
  obtain ⟨-, ⟨i, n, hi, hn, hρ, hpos⟩, -⟩ := (fenced_main hg hs hkeep count ρ e.2 hx).2 hfirst
  obtain ⟨rb, producers, hrb', hsnap, hproducers⟩ := hg.tracked.snapshot hn hρ
  cases hrb'.symm.trans hrb
  obtain ⟨el, rfl⟩ := exists_of_mem_restored hsnap hid
  obtain ⟨hlt, hholds⟩ := hproducers el
  have hkept : ∀ j k, (afterEffects g slots m i).storedAt? j = some k →
      (main_ g slots count (start g m)).filled e.2.first j = true := by
    intro j k hk
    have hle : k ≤ (afterEffects g slots m i).size := by
      rcases (grows_afterEffects hw hs m i).1.fresh hk with hstart | ⟨-, -, hle⟩
      · rw [storedAt?_start] at hstart
        cases hstart
      · exact hle
    rw [filled, (grows_afterEffects_main hg hs hi count).kept hk, Option.any_some, decide_eq_true_iff]
    exact (Int.ofNat_le.mpr hle).trans hpos
  intro a ha
  exact inert_of_repeats (repeats_recomputeActs _ _ a ha)
    (pure_recomputeActs hw hkept ((ready_afterEffects hw hs hkeep m i).mono hlt) hholds a ha)

theorem isRollback_rollbackActs {e : Rollback × Extent} (he : e ∈ live g (main_ g slots count (start g m)))
    (route : String) :
    IsRollback g route (rollbackActs g ((main_ g slots count (start g m)).filled e.2.first) route e.1) := by
  refine ⟨(restored g e.1).flatMap fun id =>
      recomputeActs g ((main_ g slots count (start g m)).filled e.2.first) (id + 1) id,
    if e.1.delta = 0 then [] else [Act.number e.1.delta.toInt, Act.call Builtin.add32.name],
    (g.restores e.1).reverse.map (·.1), e.1.index, ?_, fun a ha => ?_, ?_⟩
  · rw [rollbackActs, rollbackBody, List.map_map]
    simp only [List.append_assoc]
    rfl
  · obtain ⟨id, hid, ha⟩ := List.mem_flatMap.mp ha
    exact inert_restored hg hs hkeep he hid a ha
  · split
    · exact .inl rfl
    · exact .inr ⟨_, rfl⟩

end Inert

/-! ### Loads -/

/-- An act wrote an instruction of the code of some acts. -/
def Wrote (g : Graph) (slots : Slots) (s : Emission) (acts : List Act) (a : Act) (p : Code.Placed) : Prop :=
  ∃ before after, acts = before ++ a :: after ∧ p.pc = (s.perform g slots before).size ∧
    a.instr? g slots (s.perform g slots before) = some p.instr

/-- An instruction stores a node, right behind the steps of the node. -/
def Files (g : Graph) (slots : Slots) (s : Emission) (acts : List Act) (id : Nat) (p : Code.Placed) : Prop :=
  ∃ before after, acts = before ++ Act.store id :: after ∧ p.pc = (s.perform g slots before).size ∧
    (Act.store id).instr? g slots (s.perform g slots before) = some p.instr ∧ Ends g slots s before id

/-- An instruction that stores does so to another slot. -/
def Spares (g : Graph) (slots : Slots) (s : Emission) (acts : List Act) (u : Nat) (p : Code.Placed) : Prop :=
  ∀ c i, p.instr = .store c i → ∃ id u', Wrote g slots s acts (.store id) p ∧ slots.of? id = some u' ∧
    i = Int32.ofNat u' ∧ u' ≠ u ∧ (slots.units < 2 ^ 29 → i ≠ Int32.ofNat u)

/-- A load that is executed after some instructions stands for a node. One of them stored the node right behind the
    node's steps, and those after it store to other slots. -/
def Fetches (g : Graph) (slots : Slots) (s : Emission) (acts : List Act) (ps : List Code.Placed) (p : Code.Placed) : Prop :=
  ∃ id u c, p.instr = .load c (Int32.ofNat u) ∧ Wrote g slots s acts (.load id) p ∧ slots.of? id = some u ∧
    ∃ before q after, ps = before ++ q :: after ∧ q.instr = .store c (Int32.ofNat u) ∧ Files g slots s acts id q ∧
      ∀ x ∈ after, Spares g slots s acts u x

section Loads
variable {g : Graph} {slots : Slots} {P : Fragment → Prop} (hg : g.Valid P) (hs : slots.Sound g) {count : Nat} {m : Module}

/-- An act that writes a load reads the slot of a node. -/
theorem exists_of_load {a : Act} {s : Emission} {c : SlotClass} {i : Int32} (h : a.instr? g slots s = some (.load c i)) :
    ∃ id n u, a = .load id ∧ g.nodes[id]? = some n ∧ slots.of? id = some u ∧ c = .ofKind n.element.kind ∧
      i = Int32.ofNat u := by
  obtain ⟨id, u, rfl, hu, rfl⟩ := explains_of_instr? h
  obtain ⟨n, hn, hload⟩ := Option.bind_eq_some_iff.mp h
  rw [hu] at hload
  cases hload
  exact ⟨id, n, u, rfl, hn, hu, rfl, rfl⟩

theorem spares_of_notMem {s : Emission} {acts before code : List Act} {u : Nat} (h : ∀ id, .store id ∉ code) :
    ∀ p ∈ placed g slots (s.perform g slots before) code, Spares g slots s acts u p := by
  intro p hp c i hi
  obtain ⟨pre, a, post, rfl, -, ha⟩ := mem_placed hp
  rw [hi] at ha
  obtain ⟨id, -, rfl, -⟩ := explains_of_instr? ha
  exact absurd (by simp) (h id)

include hg hs

/-- What is loaded in the main code is stored by then. -/
theorem exists_storedAt?_of_load {before after : List Act} {id : Nat}
    (heq : mainActs g slots count m = before ++ Act.load id :: after) :
    ∃ k, ((start g m).perform g slots before).storedAt? id = some k := by
  have hloads : Along g slots (fun s a => ∀ id, a = .load id → ∃ k, s.storedAt? id = some k) (start g m)
      (mainActs g slots count m) := by
    rw [mainActs, writeBackActs, ← List.append_assoc]
    refine along_append.mpr ⟨(sensible_main hs hg m).imp ?_,
      (along_forall (R := fun a => ∀ id, a ≠ .load id)).mpr ?_ |>.imp ?_⟩
    · rintro s a ha id rfl
      exact ha
    · simp only [List.mem_append, List.mem_map, List.mem_cons, List.not_mem_nil, or_false]
      rintro a (⟨r, -, rfl⟩ | rfl | rfl) id h <;> cases h
    · exact fun s a ha id hid => absurd hid (ha id)
  exact hloads.split heq id rfl

omit hg in
/-- What follows the last store of a node leaves the slot of the node alone. -/
theorem spares_of_last {s : Emission} {acts pre post rest : List Act} {id u : Nat}
    (heq : acts = pre ++ Act.store id :: (post ++ rest)) (hlast : .store id ∉ post) (hu : slots.of? id = some u) :
    ∀ p ∈ placed g slots ((Act.store id).write g slots (s.perform g slots pre)) post, Spares g slots s acts u p := by
  intro p hp c i hi
  obtain ⟨before, a, after, rfl, hpc, ha⟩ := mem_placed hp
  have ha' := ha
  rw [hi] at ha'
  obtain ⟨j, u', rfl, hu', rfl⟩ := explains_of_instr? ha'
  have hne : u' ≠ u := by
    rintro rfl
    rw [hs.inj hu' hu] at hlast
    exact hlast (by simp)
  refine ⟨j, u', ⟨pre ++ Act.store id :: before, after ++ rest, by rw [heq]; simp, ?_, ?_⟩, hu', rfl, hne,
    fun hunits h => ?_⟩
  · rw [perform_append, perform_cons, hpc]
  · rw [perform_append, perform_cons, ha]
  · have h := congrArg Int32.toInt h
    rw [toInt_ofNat ((hs.lt hu').trans hunits), toInt_ofNat ((hs.lt hu).trans hunits)] at h
    exact hne (by exact_mod_cast h)

omit hg in
/-- What is stored at a point of the main code was stored by an instruction before it, and its slot is left alone since. -/
theorem exists_files {before after : List Act} (heq : mainActs g slots count m = before ++ after) {id k u : Nat} {n : Node}
    (hn : g.nodes[id]? = some n) (hu : slots.of? id = some u)
    (hk : ((start g m).perform g slots before).storedAt? id = some k) (handlers : List Act) :
    ∃ ps q qs, placed g slots (start g m) before = ps ++ q :: qs ∧
      q.instr = .store (.ofKind n.element.kind) (Int32.ofNat u) ∧
      Files g slots (start g m) (mainActs g slots count m ++ handlers) id q ∧
      ∀ x ∈ qs, Spares g slots (start g m) (mainActs g slots count m ++ handlers) u x := by
  have hmem : .store id ∈ before := by
    rcases storedAt?_perform hk with hstart | ⟨hmem, -⟩
    · rw [storedAt?_start] at hstart
      cases hstart
    · exact hmem
  obtain ⟨pre, post, rfl, hlast⟩ := exists_last_store hmem
  have hinstr : (Act.store id).instr? g slots ((start g m).perform g slots pre) =
      some (.store (.ofKind n.element.kind) (Int32.ofNat u)) := by
    rw [Act.instr?, hn, Option.bind_some, hu]
    rfl
  have hplaced : placed g slots (start g m) (pre ++ Act.store id :: post) = _ := placed_append _ _ _
  rw [placed_cons hinstr] at hplaced
  have hacts : mainActs g slots count m ++ handlers = pre ++ Act.store id :: (post ++ (after ++ handlers)) := by
    rw [heq]
    simp
  have hends : Ends g slots (start g m) pre id := filed_mainActs count m pre id (post ++ after) (by rw [heq]; simp)
  exact ⟨_, _, _, hplaced, rfl, ⟨pre, _, hacts, rfl, hinstr, hends⟩, spares_of_last hs hacts hlast hu⟩

end Loads

/-! ### Runs -/

section Runs
variable {g : Graph} {slots : Slots} {P : Fragment → Prop} {count : Nat} {m : Module}

/-- An act before the first return, told by what was executed before it. -/
theorem exists_of_executed {s : Emission} {body rest before after : List Act} {a : Act}
    (heq : body ++ Act.ret :: rest = before ++ a :: after) (ha : a ≠ .ret)
    (hret : ∀ p ∈ placed g slots s before, p.instr ≠ .ret) : ∃ tail, body = before ++ a :: tail := by
  have hnot := ret_notMem_of_placed hret
  obtain ⟨ys, hbody, hys⟩ := Execution.exists_of_first (R := fun a => a = .ret) heq.symm (fun x hx h => hnot (h ▸ hx)) rfl
  cases ys with
  | nil =>
    cases hys
    exact absurd rfl ha
  | cons y ys =>
    cases hys
    exact ⟨ys, hbody⟩

/-- A guard that covers an offset leads to the target. -/
theorem exists_covers {r : Routine} {pc : Nat} {target : Int32} (h : r.target? pc = some target) :
    ∃ x ∈ r.guards, x.Covers pc ∧ x.target = target := by
  obtain ⟨x, hx, htarget⟩ := Option.map_eq_some_iff.mp h
  have hcovers := List.find?_some hx
  simp only [Bool.and_eq_true, decide_eq_true_eq] at hcovers
  exact ⟨x, List.mem_of_find?_eq_some hx, hcovers, htarget⟩

theorem kept_of_load {kept : Nat → Bool} {route : String} {r : Rollback} {id : Nat}
    (h : .load id ∈ rollbackActs g kept route r) : kept id = true := by
  rcases mem_rollbackActs h with ⟨j, -, hj⟩ | ⟨v, hv⟩ | hv | ⟨r, hv⟩ | hv | hv | hv | hv
  · exact repeats_recomputeActs _ _ _ hj
  all_goals cases hv

/-- What the main code stores before an offset is stored where the code has come that far. -/
theorem exists_storedAt?_of_filled {before after : List Act} (heq : mainActs g slots count m = before ++ after) {id : Nat}
    {guarded : Int} (h : (main_ g slots count (start g m)).filled guarded id = true)
    (hle : guarded ≤ ((start g m).perform g slots before).size) :
    ∃ k, ((start g m).perform g slots before).storedAt? id = some k := by
  obtain ⟨k, hk, hkle⟩ := (Option.any_eq_true _ _).mp h
  rw [← perform_mainActs, heq, perform_append] at hk
  rcases storedAt?_perform hk with hk | ⟨-, hlt⟩
  · exact ⟨k, hk⟩
  · have := of_decide_eq_true hkle
    omega

variable [Fragment.Writable P] (hg : g.Valid P) (hs : slots.Sound g) (hkeep : slots.KeepsEffects g)
  {route : String} {guards : List Guard} {fin : Emission} (h : execute g slots route count m = (guards, fin))
  (hsize : fin.size < 2 ^ 29) {name : ByteString}
include hg hs hkeep h hsize

variable (name) in
/-- A guard leads to the code of a rollback, which is followed by that of others. -/
theorem exists_codeFrom {x : Guard} (hx : x ∈ guards) :
    ∃ before e after, live g (main_ g slots count (start g m)) = before ++ e :: after ∧ x.first.toInt = e.2.first ∧
      (Routine.mk name (placed g slots (start g m) (executeActs g slots route count m)) guards).codeFrom x.target =
        placed g slots ((start g m).perform g slots
          (mainActs g slots count m ++ handlerActs g (main_ g slots count (start g m)) route before))
          (rollbackActs g ((main_ g slots count (start g m)).filled e.2.first) route e.1 ++
            handlerActs g (main_ g slots count (start g m)) route after) := by
  obtain ⟨before, e, after, hlive, hfirst, -, htarget⟩ := exists_of_mem_guards hg hs hkeep h hsize hx
  refine ⟨before, e, after, hlive, hfirst, codeFrom_placed ?_ ?_⟩
  · rw [executeActs, hlive]
    simp [handlerActs]
  · rw [htarget, perform_append, perform_mainActs]

/-- Behind the main code nothing is guarded. -/
theorem target?_codeFrom {pc : Nat} {target : Int32} {p : Code.Placed}
    (htarget : (Routine.mk name (placed g slots (start g m) (executeActs g slots route count m)) guards).target? pc =
      some target)
    (hp : p ∈ (Routine.mk name (placed g slots (start g m) (executeActs g slots route count m)) guards).codeFrom target) :
    (Routine.mk name (placed g slots (start g m) (executeActs g slots route count m)) guards).target? p.pc = none := by
  obtain ⟨x, hx, -, rfl⟩ := exists_covers htarget
  obtain ⟨before, e, after, hlive, -, hcode⟩ := exists_codeFrom hg hs hkeep h hsize name hx
  rw [hcode] at hp
  obtain ⟨pre, a, post, -, hpc, -⟩ := mem_placed hp
  have hmain : (main_ g slots count (start g m)).size ≤ p.pc := by
    rw [hpc, perform_append, perform_mainActs]
    exact (size_le_perform g slots _ _).trans (size_le_perform g slots _ _)
  cases hnone : Routine.target? _ p.pc with
  | none => rfl
  | some t =>
    obtain ⟨y, hy, hcovers, -⟩ := exists_covers hnone
    obtain ⟨before', e', after', hlive', -, hlast, -⟩ := exists_of_mem_guards hg hs hkeep h hsize hy
    have hbounds := bounds_of_mem_live hg hs hkeep (e := e') (by rw [hlive']; simp)
    have hend := size_afterEffects_lt_main hg slots count m
    have := hcovers.2
    omega

omit hkeep h hsize [Fragment.Writable P] in
/-- What is executed before any return was written by the acts of the main code. -/
theorem exists_main_act {ps rest : List Code.Placed} {p : Code.Placed}
    (hcode : placed g slots (start g m) (executeActs g slots route count m) = ps ++ p :: rest)
    (hps : ∀ q ∈ ps, q.instr ≠ .ret) (hp : p.instr ≠ .ret) :
    ∃ before a after, mainActs g slots count m = before ++ a :: after ∧ placed g slots (start g m) before = ps ∧
      p.pc = ((start g m).perform g slots before).size ∧
      a.instr? g slots ((start g m).perform g slots before) = some p.instr := by
  obtain ⟨body, hbody, -⟩ := exists_mainActs_eq hs hg count m
  obtain ⟨before, a, after, heq, rfl, hpc, ha⟩ := exists_act hcode
  rw [executeActs, hbody, List.append_assoc] at heq
  have hret : a ≠ .ret := by
    rintro rfl
    exact hp (Option.some.inj ha).symm
  obtain ⟨tail, htail⟩ := exists_of_executed heq hret hps
  exact ⟨before, a, tail ++ [Act.ret], by rw [hbody, htail]; simp, rfl, hpc, ha⟩

/-- After a fault a load finds what was stored before the stretch that the rollback guards. -/
theorem fetches_of_jumped {before qs rest rest' : List Code.Placed} {q p : Code.Placed} {i : Int32} {target : Int32}
    (hcode : placed g slots (start g m) (executeActs g slots route count m) = before ++ q :: rest)
    (hbefore : ∀ x ∈ before, x.instr ≠ .ret) (hq : q.instr = .call i)
    (htarget : (Routine.mk name (placed g slots (start g m) (executeActs g slots route count m)) guards).target? q.pc =
      some target)
    (hjump : (Routine.mk name (placed g slots (start g m) (executeActs g slots route count m)) guards).codeFrom target =
      qs ++ p :: rest')
    (hqs : ∀ x ∈ qs, x.instr ≠ .ret) {cls : SlotClass} {i' : Int32} (hp : p.instr = .load cls i') :
    Fetches g slots (start g m) (executeActs g slots route count m) (before ++ q :: qs) p := by
  obtain ⟨pre, a, post, hmain, hbeforeq, hpc, -⟩ :=
    exists_main_act hg hs hcode hbefore (by rw [hq]; exact Instr.noConfusion)
  obtain ⟨x, hx, hcovers, rfl⟩ := exists_covers htarget
  obtain ⟨l, e, l', hlive, hfirst, hfrom⟩ := exists_codeFrom hg hs hkeep h hsize name hx
  rw [hfrom] at hjump
  obtain ⟨pre', a', post', heq, hqseq, hpc', ha'⟩ := exists_act hjump
  have hload := ha'
  rw [hp] at hload
  obtain ⟨id, n, u, rfl, hn, hu, rfl, rfl⟩ := exists_of_load hload
  -- The load is part of the rollback, because the run has not come to its return.
  have hsplit := heq
  rw [rollbackActs, List.append_assoc, List.singleton_append] at hsplit
  obtain ⟨tail, htail⟩ := exists_of_executed hsplit (by simp) (hqseq ▸ hqs)
  have hmem : .load id ∈ rollbackActs g ((main_ g slots count (start g m)).filled e.2.first) route e.1 := by
    rw [rollbackActs, htail]
    simp
  -- So its node was stored before the call, which lies in the stretch.
  obtain ⟨k, hk⟩ := exists_storedAt?_of_filled hmain (kept_of_load hmem) (by have := hcovers.1; omega)
  obtain ⟨ps', q', qs', hplaced, hq', hfiles, hspares⟩ := exists_files hs hmain hn hu hk
    (handlerActs g (main_ g slots count (start g m)) route (live g (main_ g slots count (start g m))))
  refine ⟨id, u, _, hp, ⟨mainActs g slots count m ++ handlerActs g (main_ g slots count (start g m)) route l ++ pre', post',
    ?_, by rw [perform_append, hpc'], by rw [perform_append, ha']⟩, hu, ps', q', qs' ++ q :: qs, ?_, hq', hfiles,
    fun y hy => ?_⟩
  · rw [executeActs, hlive, List.append_assoc, ← heq]
    simp [handlerActs]
  · rw [← hbeforeq, hplaced, List.append_assoc, List.cons_append]
  · rcases List.mem_append.mp hy with hy | hy
    · exact hspares y hy
    rcases List.mem_cons.mp hy with rfl | hy
    · intro c i hi
      rw [hq] at hi
      cases hi
    · refine spares_of_notMem (fun j hj => ?_) y (hqseq ▸ hy)
      exact store_notMem_rollbackActs _ route e.1 j (by rw [rollbackActs, htail]; simp [hj])

/-- Whatever the helpers do, a run loads what it stored. -/
theorem fetches_of_course {l : Linkage} {n : Nat} {c : Context} {ps : List Code.Placed} {st : Execution.State}
    (hc : Execution.Course l ⟨name, placed g slots (start g m) (executeActs g slots route count m), guards⟩
      (Execution.start ⟨name, placed g slots (start g m) (executeActs g slots route count m), guards⟩ n c) ps st)
    {p : Code.Placed} {rest : List Code.Placed} (hrest : st.rest = p :: rest) {cls : SlotClass} {i : Int32}
    (hp : p.instr = .load cls i) : Fetches g slots (start g m) (executeActs g slots route count m) ps p := by
  by_cases hpending : st.pending = none
  · have hcode : placed g slots (start g m) (executeActs g slots route count m) = ps ++ p :: rest :=
      hrest ▸ (hc.straight hpending).2
    obtain ⟨before, a, after, hmain, rfl, hpc, ha⟩ :=
      exists_main_act hg hs hcode hc.ret_notMem (by rw [hp]; exact Instr.noConfusion)
    have hload := ha
    rw [hp] at hload
    obtain ⟨id, n, u, rfl, hn, hu, rfl, rfl⟩ := exists_of_load hload
    obtain ⟨k, hk⟩ := exists_storedAt?_of_load hg hs hmain
    refine ⟨id, u, _, hp, ⟨before, after ++ handlerActs g (main_ g slots count (start g m)) route
      (live g (main_ g slots count (start g m))), ?_, hpc, ha⟩, hu, exists_files hs hmain hn hu hk _⟩
    rw [executeActs, hmain, List.append_assoc, List.cons_append]
  · obtain ⟨before, i, q, rest', target, qs, rfl, hcode, hq, htarget, hjump⟩ := hc.jumped rfl
      (fun htarget hcode _ => target?_codeFrom hg hs hkeep h hsize htarget (by rw [hcode]; simp)) hpending
    exact fetches_of_jumped hg hs hkeep h hsize hcode (fun x hx => hc.ret_notMem x (by simp [hx])) hq htarget
      (hrest ▸ hjump) (fun x hx => hc.ret_notMem x (by simp [hx])) hp

/-- A guard leads to the code of a rollback. -/
theorem exists_isRollback {x : Guard} (hx : x ∈ guards) :
    ∃ before code after, executeActs g slots route count m = before ++ code ++ after ∧
      x.target.toInt = ((start g m).perform g slots before).size ∧ IsRollback g route code := by
  obtain ⟨before, e, after, hlive, -, -, htarget⟩ := exists_of_mem_guards hg hs hkeep h hsize hx
  refine ⟨mainActs g slots count m ++ handlerActs g (main_ g slots count (start g m)) route before, _,
    handlerActs g (main_ g slots count (start g m)) route after, ?_, ?_,
    isRollback_rollbackActs hg hs hkeep (e := e) (by rw [hlive]; simp) route⟩
  · rw [executeActs, hlive]
    simp [handlerActs]
  · rw [htarget, perform_append, perform_mainActs]

end Runs

end Emission

namespace Target
open MicroBlock.Module MicroBlock.Emission

/-- Rollback code is free of effects and reads slots that were filled. Every guard of a unit leads to code that writes out
    only pure nodes, may add to EIP, sets the registers and routes the fault. In every run of the unit, whatever the
    helpers do at each call, a load in the main code or in that of a rollback reads a slot that the run stored right behind
    the steps of the load's own node, and that it stored nothing to since. An operand can number fewer than 2^29 slots;
    with so many the code is read back as it was written. -/
theorem rollbacks_read_stored {r : Registry} {tname : String} {ds : List Definition} {t : Table}
    (ht : Table.build tname ds r = .ok t) (n : ModeNumber) {b : Block} {s : Stream} (hb : Stream.ofBlock b = .ok s)
    {g : Graph} (hg : Graph.build t true s = .ok g) {units : Int} {slots : Slots}
    (ha : Slots.allocate g units = (.ok (), slots)) {name : String} {limit : Int} {m : Module}
    (hm : (ofTable n t).unit name s g slots limit = .ok m) :
    ∃ me acts, m.method? executeMethod = some me ∧
      acts = executeActs g slots (ofTable n t).route s.count (described name slots.kinds s) ∧
      me.code = ((start g (described name slots.kinds s)).perform g slots acts).bytes ∧
      (slots.units < 2 ^ 29 →
        Code.decode me.code = .ok (placed g slots (start g (described name slots.kinds s)) acts)) ∧
      (∀ x ∈ me.guards, ∃ before code after, acts = before ++ code ++ after ∧
        x.target.toInt = ((start g (described name slots.kinds s)).perform g slots before).size ∧
        IsRollback g (ofTable n t).route code) ∧
      ∀ helpers c ps st p rest cls i,
        Execution.Course (CodeBlock.linkage m helpers)
          ⟨me.name, placed g slots (start g (described name slots.kinds s)) acts, me.guards⟩
          (Execution.start ⟨me.name, placed g slots (start g (described name slots.kinds s)) acts, me.guards⟩
            m.slots.length c) ps st → st.rest = p :: rest → p.instr = .load cls i →
        Fetches g slots (start g (described name slots.kinds s)) acts ps p := by
  have hv := Graph.build_valid (Table.build_checked ht) hb hg
  obtain ⟨hs, hkeep⟩ := Slots.allocate_sound hv ha
  obtain ⟨fin, guards, h⟩ := unit_filled hv hs (unit_ofTable n t ▸ hm)
  have hsize := h.size_lt hv hs
  exact ⟨_, _, h.method?_execute, rfl, congrArg bytes h.eq_perform, h.decode_placed hv hs,
    fun x hx => exists_isRollback hv hs hkeep h.execute hsize hx,
    fun helpers c ps st p rest cls i hc hrest hp => fetches_of_course hv hs hkeep h.execute hsize hc hrest hp⟩

/-- Counts up in a register, and clears the interrupt flag if the count is low enough. -/
def checked : List Definition :=
  [⟨"pure_CLC_EAX_EAX", some [.input 0, .call "inc32"], ""⟩,
    ⟨"fault_CLI_IF_EAX_IOPL", some [.input 0, .input 1, .literal (.const 0), .call "if_checked"], ""⟩]

/-- After a reset the count is too high. The fault comes with the seventh instruction, and the rollback begins with a load
    of the count, which the fourth has stored. -/
theorem rollbacks_read_stored_checked : ∃ t s g slots m me acts helpers ps st p rest,
    Table.build "checked" checked .builtin = .ok t ∧ Stream.ofBlock [⟨1, [136]⟩, ⟨1, [141]⟩] = .ok s ∧
      Graph.build t true s = .ok g ∧ Slots.allocate g 1024 = (.ok (), slots) ∧
      (ofTable (Mode.real : ModeNumber) t).unit "x" s g slots 65535 = .ok m ∧ m.method? executeMethod = some me ∧
      Code.decode me.code = .ok (placed g slots (start g (described "x" slots.kinds s)) acts) ∧
      Execution.Course (CodeBlock.linkage m helpers)
        ⟨me.name, placed g slots (start g (described "x" slots.kinds s)) acts, me.guards⟩
        (Execution.start ⟨me.name, placed g slots (start g (described "x" slots.kinds s)) acts, me.guards⟩
          m.slots.length ⟨.reset ⟨.empty⟩, []⟩) ps st ∧
      ps.length = 7 ∧ st.pending.isSome = true ∧ st.rest = p :: rest ∧ p.instr = .load .int 1 ∧
      Fetches g slots (start g (described "x" slots.kinds s)) acts ps p := by
  have hok : (Table.addAll .builtin [] checked).toOption.any (fun fs =>
      decide (fs.Pairwise fun a b => a.target.number ≤ b.target.number) &&
      (Stream.ofBlock [⟨1, [136]⟩, ⟨1, [141]⟩]).toOption.any fun s =>
        (Graph.build ⟨"checked", fun op => fs.filter (·.op == op)⟩ true s).toOption.any fun g =>
          (Slots.allocate g 1024).1.toOption.any fun _ => decide ((Slots.allocate g 1024).2.units = 2) &&
          ((ofTable (Mode.real : ModeNumber) ⟨"checked", fun op => fs.filter (·.op == op)⟩).unit "x" s g
            (Slots.allocate g 1024).2 65535).toOption.any fun m => (m.method? executeMethod).any fun me =>
            (Code.decode me.code).toOption.any fun code => (Loader.resolve .builtin "x" m.links).toOption.any fun helpers =>
            (Execution.runFor (CodeBlock.linkage m helpers) ⟨me.name, code, me.guards⟩ true 7
              (Execution.start ⟨me.name, code, me.guards⟩ m.slots.length ⟨.reset ⟨.empty⟩, []⟩)).state?.any fun st =>
              st.pending.isSome && decide (st.rest.head?.map (·.instr) = some (.load .int 1))) = true := by
    decide +kernel
  obtain ⟨fs, hfs, hok⟩ := exists_ok_of_any hok
  obtain ⟨hsorted, hok⟩ := Bool.and_eq_true_iff.mp hok
  obtain ⟨s, hs, hok⟩ := exists_ok_of_any hok
  obtain ⟨g, hg, hok⟩ := exists_ok_of_any hok
  obtain ⟨_, hallocate, hok⟩ := exists_ok_of_any hok
  obtain ⟨hunits, hok⟩ := Bool.and_eq_true_iff.mp hok
  obtain ⟨m, hm, hok⟩ := exists_ok_of_any hok
  obtain ⟨me, hme, hok⟩ := (Option.any_eq_true _ _).mp hok
  obtain ⟨code, hcode, hok⟩ := exists_ok_of_any hok
  obtain ⟨helpers, -, hok⟩ := exists_ok_of_any hok
  obtain ⟨st, hst, hok⟩ := (Option.any_eq_true _ _).mp hok
  obtain ⟨hpending, hhead⟩ := Bool.and_eq_true_iff.mp hok
  have ht : Table.build "checked" checked .builtin = .ok ⟨"checked", fun op => fs.filter (·.op == op)⟩ :=
    Table.build_of_sorted hfs (of_decide_eq_true hsorted) _
  have ha : Slots.allocate g 1024 = (.ok (), (Slots.allocate g 1024).2) := Prod.ext hallocate rfl
  obtain ⟨me', acts, hme', -, -, hdecode, -, hfetches⟩ :=
    rollbacks_read_stored ht (Mode.real : ModeNumber) hs hg ha hm
  cases hme.symm.trans hme'
  have hdecode := hdecode (by rw [of_decide_eq_true hunits]; decide)
  cases hcode.symm.trans hdecode
  obtain ⟨ps, hlength, hcourse⟩ := (Execution.reached_of_runFor (Execution.eq_running_of_state? hst)).exists_course
  obtain ⟨p, hp, hload⟩ := Option.map_eq_some_iff.mp (of_decide_eq_true hhead)
  obtain ⟨rest, hrest⟩ := List.head?_eq_some_iff.mp hp
  exact ⟨_, s, g, _, m, me, acts, helpers, ps, st, p, rest, ht, hs, hg, ha, hm, hme, hdecode, hcourse, hlength, hpending,
    hrest, hload, hfetches helpers _ ps st p rest .int 1 hcourse hrest hload⟩

end Target
end MicroBlock
