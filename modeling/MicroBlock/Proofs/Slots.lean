import Mathlib
import MicroBlock.Dataflow.Slots
import MicroBlock.Proofs.Graphs

/-! Slot allocation: different nodes get different slots, only nodes that the roots reach get one, and every
effect that has a value does. -/

namespace MicroBlock

theorem Element.kind_ne_void {e : Element} (h : e.materializable = true) : e.kind ≠ .void := by
  cases e with
  | reg r => cases r <;> nofun
  | temp t => cases t <;> nofun
  | _ => simp_all [materializable, isPseudo]

namespace Graph

/-! ### Reach -/

/-- What the roots lead to through inputs. -/
inductive Reachable (g : Graph) : Nat → Prop
  | root {id : Nat} (h : id ∈ g.roots) : Reachable g id
  | input {id i : Nat} (h : Reachable g id) (hi : i ∈ g.inputs id) : Reachable g i

theorem mem_inputs {g : Graph} {id i : Nat} : i ∈ g.inputs id ↔ ∃ n, g.nodes[id]? = some n ∧ i ∈ n.inputs := by
  cases hn : g.nodes[id]? <;> simp [inputs, hn]

theorem Valid.mem_effects {g : Graph} {P : Fragment → Prop} (hg : g.Valid P) {id : Nat} {n : Node} (hn : g.nodes[id]? = some n)
    (he : n.hasEffect = true) : id ∈ g.effects.toList := by
  rw [hg.effects]
  refine List.mem_filter.mpr ⟨List.mem_range.mpr (Array.getElem?_eq_some_iff.mp hn).1, ?_⟩
  simp [isEffect, hn, he]

/-- The roots and the inputs of nodes are nodes. -/
structure Closed (g : Graph) : Prop where
  root_lt : ∀ id ∈ g.roots, id < g.nodes.size
  input_lt : ∀ id, ∀ i ∈ g.inputs id, i < g.nodes.size

theorem Valid.closed {g : Graph} {P : Fragment → Prop} (hg : g.Valid P) : g.Closed where
  root_lt id h := by
    rcases List.mem_append.mp h with h | h
    · rw [hg.effects] at h
      exact List.mem_range.mp (List.mem_filter.mp h).1
    · obtain ⟨r, -, rfl⟩ := List.mem_map.mp h
      exact (hg.final (.reg r)).lt
  input_lt id i hi := by
    obtain ⟨n, hn, hin⟩ := mem_inputs.mp hi
    obtain ⟨hlt, -⟩ := hg.wellFormed.input_lt hn _ hin
    exact hlt.trans (Array.getElem?_eq_some_iff.mp hn).1

theorem Reachable.lt {g : Graph} (hg : g.Closed) {id : Nat} (h : Reachable g id) : id < g.nodes.size := by
  cases h with
  | root h => exact hg.root_lt id h
  | input _ hi => exact hg.input_lt _ id hi

/-- How often a node was reached. -/
def countOf (counts : Array Nat) (id : Nat) : Nat := (counts[id]?).getD 0

theorem countOf_modify {counts : Array Nat} {id : Nat} (hid : id < counts.size) (j : Nat) :
    countOf (counts.modify id (· + 1)) j = if id = j then countOf counts j + 1 else countOf counts j := by
  rw [countOf, Array.getElem?_modify]
  split
  · next h =>
    subst h
    simp [countOf, hid]
  · rfl

structure Reach.Sound (g : Graph) (r : Reach) : Prop where
  size : r.counts.size = g.nodes.size
  mem_iff : ∀ id, id ∈ r.order ↔ countOf r.counts id ≠ 0
  nodup : r.order.Nodup
  reachable : ∀ id ∈ r.order, Reachable g id

/-- The nodes that were not reached yet. -/
def unseen (g : Graph) (counts : Array Nat) : Finset Nat :=
  (Finset.range g.nodes.size).filter fun id => countOf counts id = 0

/-- The number of inputs that will be followed once their nodes are reached. -/
def pendingInputs (g : Graph) (counts : Array Nat) : Nat := ∑ id ∈ g.unseen counts, (g.inputs id).length

theorem pendingInputs_first {g : Graph} {counts : Array Nat} (hs : counts.size = g.nodes.size) {id : Nat}
    (hid : id < g.nodes.size) (h : countOf counts id = 0) :
    (g.inputs id).length + g.pendingInputs (counts.modify id (· + 1)) = g.pendingInputs counts := by
  have herase : g.unseen (counts.modify id (· + 1)) = (g.unseen counts).erase id := by
    ext j
    simp only [unseen, Finset.mem_filter, Finset.mem_range, Finset.mem_erase, countOf_modify (hs ▸ hid)]
    by_cases hj : id = j
    · simp [hj]
    · simp [hj, Ne.symm hj]
  have hmem : id ∈ g.unseen counts := by simp [unseen, hid, h]
  rw [pendingInputs, herase]
  exact Finset.add_sum_erase _ (fun id => (g.inputs id).length) hmem

theorem pendingInputs_again {g : Graph} {counts : Array Nat} (hs : counts.size = g.nodes.size) {id : Nat}
    (hid : id < g.nodes.size) (h : countOf counts id ≠ 0) :
    g.pendingInputs (counts.modify id (· + 1)) = g.pendingInputs counts := by
  have hsame : g.unseen (counts.modify id (· + 1)) = g.unseen counts := by
    ext j
    simp only [unseen, Finset.mem_filter, Finset.mem_range, countOf_modify (hs ▸ hid)]
    by_cases hj : id = j
    · subst hj
      simp [h]
    · simp [hj]
  rw [pendingInputs, hsame]
  rfl

/-- How often some nodes have a node as an input. -/
def inputUses (g : Graph) (ids : List Nat) (j : Nat) : Nat := (ids.map fun id => (g.inputs id).count j).sum

/-- A traversal with enough steps reaches all of its work, and nothing that the roots do not reach. A node is counted
    where it is in the work and where it is an input of a node that is reached. -/
theorem follow_sound {g : Graph} (hg : g.Closed) {steps : Nat} {work : List Nat} {r : Reach} (hr : r.Sound g)
    (hwork : ∀ id ∈ work, Reachable g id) (hsteps : work.length + g.pendingInputs r.counts ≤ steps) :
    (g.follow steps work r).Sound g ∧ (∀ id ∈ work, id ∈ (g.follow steps work r).order) ∧
      (∀ id ∈ r.order, id ∈ (g.follow steps work r).order) ∧
      ∀ j, countOf (g.follow steps work r).counts j + g.inputUses r.order j =
        countOf r.counts j + work.count j + g.inputUses (g.follow steps work r).order j := by
  -- Each step takes one piece of work and adds only inputs that were pending before.
  induction steps generalizing work r with
  | zero =>
    have : work = [] := List.length_eq_zero_iff.mp (by omega)
    subst this
    exact ⟨hr, nofun, fun _ => id, fun _ => rfl⟩
  | succ steps ih =>
    cases work with
    | nil => exact ⟨hr, nofun, fun _ => id, fun _ => rfl⟩
    | cons id work =>
      have hid := hwork id List.mem_cons_self
      have hlt := hid.lt hg
      have hcount := countOf_modify (hr.size.symm ▸ hlt : id < r.counts.size)
      simp only [List.length_cons] at hsteps
      by_cases hseen : countOf r.counts id = 0
      · -- The first visit: its inputs are work from now on, and are pending no more.
        have hfirst := pendingInputs_first hr.size hlt hseen
        have hnot : id ∉ r.order := fun h => (hr.mem_iff id).mp h hseen
        have hsound : Reach.Sound g ⟨r.counts.modify id (· + 1), id :: r.order⟩ := by
          refine ⟨by simp [hr.size], fun j => ?_, List.nodup_cons.mpr ⟨hnot, hr.nodup⟩, ?_⟩
          · rw [List.mem_cons, hcount, hr.mem_iff]
            by_cases hj : id = j
            · simp [hj]
            · simp [hj, Ne.symm hj]
          · intro j hj
            rcases List.mem_cons.mp hj with rfl | hj
            · exact hid
            · exact hr.reachable j hj
        have hall : ∀ j ∈ g.inputs id ++ work, Reachable g j := by
          intro j hj
          rcases List.mem_append.mp hj with hj | hj
          · exact .input hid hj
          · exact hwork j (List.mem_cons_of_mem id hj)
        obtain ⟨hs, hw, ho, hc⟩ := ih hsound hall (by simp only [List.length_append]; omega)
        have hstep : g.follow (steps + 1) (id :: work) r =
            g.follow steps (g.inputs id ++ work) ⟨r.counts.modify id (· + 1), id :: r.order⟩ := by
          rw [follow]
          exact if_pos hseen
        rw [hstep]
        refine ⟨hs, fun j hj => ?_, fun j hj => ho j (List.mem_cons_of_mem id hj), fun j => ?_⟩
        · rcases List.mem_cons.mp hj with rfl | hj
          · exact ho j List.mem_cons_self
          · exact hw j (List.mem_append_right _ hj)
        · have hj := hc j
          simp only [inputUses, List.map_cons, List.sum_cons, hcount, List.count_append, List.count_cons, beq_iff_eq] at hj ⊢
          by_cases hij : id = j
          · rw [if_pos hij] at hj ⊢
            omega
          · rw [if_neg hij] at hj ⊢
            omega
      · -- A later visit only counts.
        have hagain := pendingInputs_again hr.size hlt hseen
        have hsound : Reach.Sound g ⟨r.counts.modify id (· + 1), r.order⟩ := by
          refine ⟨by simp [hr.size], fun j => ?_, hr.nodup, hr.reachable⟩
          rw [hcount, hr.mem_iff]
          by_cases hj : id = j
          · subst hj
            simp [hseen]
          · simp [hj]
        obtain ⟨hs, hw, ho, hc⟩ := ih hsound (fun j hj => hwork j (List.mem_cons_of_mem id hj)) (by simp only; omega)
        have hstep : g.follow (steps + 1) (id :: work) r =
            g.follow steps work ⟨r.counts.modify id (· + 1), r.order⟩ := by
          rw [follow]
          exact if_neg hseen
        rw [hstep]
        refine ⟨hs, fun j hj => ?_, ho, fun j => ?_⟩
        · rcases List.mem_cons.mp hj with rfl | hj
          · exact ho j ((hr.mem_iff j).mpr hseen)
          · exact hw j hj
        · have hj := hc j
          simp only [hcount, List.count_cons, beq_iff_eq] at hj ⊢
          by_cases hij : id = j
          · rw [if_pos hij] at hj ⊢
            omega
          · rw [if_neg hij] at hj ⊢
            omega

theorem inputCount_eq (g : Graph) : g.inputCount = ∑ id ∈ Finset.range g.nodes.size, (g.inputs id).length := by
  have key : ∀ l : List Node, l.foldl (fun n node => n + node.inputs.length) 0 =
      ∑ id ∈ Finset.range l.length, ((l[id]?.map (·.inputs)).getD []).length := by
    intro l
    induction l using List.reverseRecOn with
    | nil => rfl
    | append_singleton l n ih =>
      have hlast : (((l ++ [n])[l.length]?.map (·.inputs)).getD []).length = n.inputs.length := by simp
      rw [List.foldl_append, ih, List.length_append, List.length_singleton, Finset.sum_range_succ, hlast,
        List.foldl_cons, List.foldl_nil, Nat.add_right_cancel_iff]
      refine Finset.sum_congr rfl fun id hid => ?_
      rw [List.getElem?_append_left (Finset.mem_range.mp hid)]
  rw [inputCount, ← Array.foldl_toList, key]
  simp [inputs]

theorem reach_sound {g : Graph} (hg : g.Closed) :
    g.reach.Sound g ∧ (∀ id ∈ g.roots, id ∈ g.reach.order) ∧
      ∀ j, countOf g.reach.counts j = g.roots.count j + g.inputUses g.reach.order j := by
  have hzero : ∀ id, countOf (Array.replicate g.nodes.size 0) id = 0 := by
    intro id
    rw [countOf, Array.getElem?_replicate]
    split <;> rfl
  have hempty : Reach.Sound g ⟨Array.replicate g.nodes.size 0, []⟩ :=
    ⟨by simp, fun id => by simp [hzero], List.nodup_nil, nofun⟩
  have hsteps : g.roots.length + g.pendingInputs (Array.replicate g.nodes.size 0) ≤
      g.roots.length + g.inputCount + 1 := by
    have : g.pendingInputs (Array.replicate g.nodes.size 0) ≤ g.inputCount := by
      rw [inputCount_eq]
      exact Finset.sum_le_sum_of_subset (Finset.filter_subset _ _)
    omega
  obtain ⟨hs, hroots, -, hcounts⟩ := follow_sound hg hempty (fun id hid => .root hid) hsteps
  refine ⟨hs, hroots, fun j => (hcounts j).trans ?_⟩
  rw [hzero, Nat.zero_add]
  rfl

section Reach
variable {g : Graph} (hg : g.Closed)
include hg

theorem countOf_reach (j : Nat) : countOf g.reach.counts j = g.roots.count j + g.inputUses g.reach.order j :=
  (reach_sound hg).2.2 j

theorem mem_order_of_root {j : Nat} (hj : j ∈ g.roots) : j ∈ g.reach.order := (reach_sound hg).2.1 j hj

theorem mem_order_of_input {id j : Nat} (hid : id ∈ g.reach.order) (hj : j ∈ g.inputs id) : j ∈ g.reach.order := by
  rw [(reach_sound hg).1.mem_iff, countOf_reach hg]
  have hone : (g.inputs id).count j ≤ g.inputUses g.reach.order j :=
    List.le_sum_of_mem (List.mem_map_of_mem hid)
  have := List.count_pos_iff.mpr hj
  omega

/-- The traversal reaches what the roots lead to. -/
theorem mem_order_iff {id : Nat} : id ∈ g.reach.order ↔ Reachable g id := by
  refine ⟨(reach_sound hg).1.reachable id, fun h => ?_⟩
  induction h with
  | root h => exact mem_order_of_root hg h
  | input _ hi ih => exact mem_order_of_input hg ih hi

end Reach

end Graph

namespace Slots
open MicroBlock.Graph

/-! ### Assignments -/

/-- The nodes that have a slot. -/
def holders (g : Graph) (s : Slots) : Finset Nat := (Finset.range g.nodes.size).filter fun id => (s.of? id).isSome

structure Sound (g : Graph) (s : Slots) : Prop where
  size : s.assigned.size = g.nodes.size
  lt : ∀ {id u : Nat}, s.of? id = some u → u < s.units
  inj : ∀ {id id' u : Nat}, s.of? id = some u → s.of? id' = some u → id = id'
  reachable : ∀ {id u : Nat}, s.of? id = some u → Reachable g id
  materializable : ∀ {id u : Nat} {n : Node}, s.of? id = some u → g.nodes[id]? = some n → n.element.materializable = true
  kind : ∀ {id u : Nat} {n : Node}, s.of? id = some u → g.nodes[id]? = some n → s.kinds[u]? = some n.element.kind
  units_le : s.units ≤ 2 * (s.holders g).card

/-- Every effect that has a value is kept in a slot. -/
def KeepsEffects (g : Graph) (s : Slots) : Prop :=
  ∀ id n, g.nodes[id]? = some n → n.hasEffect = true → n.element.materializable = true → ∃ u, s.of? id = some u

theorem of?_assign {s : Slots} {id : Nat} (hid : id < s.assigned.size) (k : Kind) (j : Nat) :
    (s.assign id k).of? j = if id = j then some s.units else s.of? j := by
  rw [of?, assign, Array.getElem?_setIfInBounds, if_pos hid]
  split <;> rfl

theorem units_assign (s : Slots) (id : Nat) (k : Kind) :
    s.units < (s.assign id k).units ∧ (s.assign id k).units ≤ s.units + 2 := by
  simp only [units, assign, List.length_append, List.length_cons, List.length_replicate]
  cases k <;> simp [Kind.units]

theorem units_assign_eq (s : Slots) (id : Nat) {k : Kind} (hk : k ≠ .void) :
    (s.assign id k).units = s.units + k.units := by
  simp only [units, assign, List.length_append, List.length_cons, List.length_replicate]
  cases k <;> first | exact absurd rfl hk | rfl

theorem Sound.assign {g : Graph} {s : Slots} (hs : s.Sound g) {id : Nat} {n : Node} (hn : g.nodes[id]? = some n)
    (hr : Reachable g id) (hm : n.element.materializable = true) (hnone : s.of? id = none) :
    (s.assign id n.element.kind).Sound g := by
  have hid : id < g.nodes.size := (Array.getElem?_eq_some_iff.mp hn).1
  have hof := of?_assign (s := s) (hs.size ▸ hid) n.element.kind
  obtain ⟨hlt, hle⟩ := s.units_assign id n.element.kind
  refine ⟨by simp [Slots.assign, hs.size], fun {j u} hj => ?_, fun {j j' u} hj hj' => ?_, fun {j u} hj => ?_,
    fun {j u n'} hj hn' => ?_, fun {j u n'} hj hn' => ?_, ?_⟩
  · rw [hof] at hj
    split at hj
    · cases hj
      exact hlt
    · exact (hs.lt hj).trans hlt
  · -- The new unit lies past all others, so no other node has it.
    rw [hof] at hj hj'
    split at hj <;> split at hj'
    · next h h' => exact h.symm.trans h'
    · cases hj
      exact absurd (hs.lt hj') (lt_irrefl _)
    · cases hj'
      exact absurd (hs.lt hj) (lt_irrefl _)
    · exact hs.inj hj hj'
  · rw [hof] at hj
    split at hj
    · next h => exact h ▸ hr
    · exact hs.reachable hj
  · rw [hof] at hj
    split at hj
    · next h =>
      subst h
      rw [hn, Option.some.injEq] at hn'
      exact hn' ▸ hm
    · exact hs.materializable hj hn'
  · rw [hof] at hj
    split at hj
    · next h =>
      subst h
      cases hj
      rw [hn, Option.some.injEq] at hn'
      simp [Slots.assign, units, hn']
    · have hu : u < s.kinds.length := hs.lt hj
      rw [Slots.assign, List.getElem?_append_left hu]
      exact hs.kind hj hn'
  · have hins : (s.assign id n.element.kind).holders g = insert id (s.holders g) := by
      ext j
      simp only [holders, Finset.mem_filter, Finset.mem_range, Finset.mem_insert, hof]
      by_cases hj : id = j
      · simp [← hj, hid]
      · simp [hj, Ne.symm hj]
    have hnot : id ∉ s.holders g := by simp [holders, hnone]
    rw [hins, Finset.card_insert_of_notMem hnot]
    have := hs.units_le
    omega

theorem allocateFrom_sound {g : Graph} {counts : Array Nat} {limit : Int} {ids : List Nat} {s s' : Slots}
    (hids : ids.Nodup) (hr : ∀ id ∈ ids, Reachable g id) (hnone : ∀ id ∈ ids, s.of? id = none) (hs : s.Sound g)
    (h : allocateFrom g counts limit ids s = (.ok (), s')) :
    s'.Sound g ∧ (∀ id u, s.of? id = some u → s'.of? id = some u) ∧
      ∀ id ∈ ids, ∀ n, g.nodes[id]? = some n → keeps n (countOf counts id) = true → ∃ u, s'.of? id = some u := by
  induction ids generalizing s with
  | nil =>
    cases h
    exact ⟨hs, fun _ _ => id, nofun⟩
  | cons id ids ih =>
    obtain ⟨hnot, hids⟩ := List.nodup_cons.mp hids
    have hr' := fun j hj => hr j (List.mem_cons_of_mem id hj)
    have hnone' := fun j hj => hnone j (List.mem_cons_of_mem id hj)
    simp only [allocateFrom] at h
    split at h
    · next hn =>
      obtain ⟨hs', hold, hnew⟩ := ih hids hr' hnone' hs h
      refine ⟨hs', hold, fun j hj n hnj hk => ?_⟩
      rcases List.mem_cons.mp hj with rfl | hj
      · rw [hn] at hnj
        cases hnj
      · exact hnew j hj n hnj hk
    · next n hn =>
      split at h
      · next hkeep =>
        split at h
        · cases h
        · have hid : id < s.assigned.size := hs.size ▸ (Array.getElem?_eq_some_iff.mp hn).1
          have hm : n.element.materializable = true := (Bool.and_eq_true _ _ ▸ hkeep).1
          have hs₁ := hs.assign hn (hr id List.mem_cons_self) hm (hnone id List.mem_cons_self)
          have hof := of?_assign hid n.element.kind
          -- The numbers are distinct, so the next ones still have no slot.
          have hnone₁ : ∀ j ∈ ids, (s.assign id n.element.kind).of? j = none := by
            intro j hj
            rw [hof, if_neg (by rintro rfl; exact hnot hj)]
            exact hnone' j hj
          obtain ⟨hs', hold, hnew⟩ := ih hids hr' hnone₁ hs₁ h
          refine ⟨hs', fun j u hj => hold j u ?_, fun j hj n' hnj hk => ?_⟩
          · rw [hof, if_neg]
            · exact hj
            · rintro rfl
              rw [hnone id List.mem_cons_self] at hj
              cases hj
          · rcases List.mem_cons.mp hj with rfl | hj
            · exact ⟨_, hold j s.units (by rw [hof, if_pos rfl])⟩
            · exact hnew j hj n' hnj hk
      · next hkeep =>
        obtain ⟨hs', hold, hnew⟩ := ih hids hr' hnone' hs h
        refine ⟨hs', hold, fun j hj n' hnj hk => ?_⟩
        rcases List.mem_cons.mp hj with rfl | hj
        · rw [hn, Option.some.injEq] at hnj
          subst hnj
          exact absurd hk hkeep
        · exact hnew j hj n' hnj hk

/-- An allocation that succeeds gives slots to all nodes that are to be kept. -/
theorem allocate_keeps {g : Graph} (hg : g.Closed) {limit : Int} {s : Slots}
    (h : allocate g limit = (.ok (), s)) :
    s.Sound g ∧ ∀ id ∈ g.reach.order, ∀ n, g.nodes[id]? = some n → keeps n (countOf g.reach.counts id) = true →
      ∃ u, s.of? id = some u := by
  obtain ⟨hreach, -⟩ := reach_sound hg
  have hnone : ∀ id, (empty g.nodes.size).of? id = none := by
    intro id
    rw [of?, empty, Array.getElem?_replicate]
    split <;> rfl
  have hempty : (empty g.nodes.size).Sound g := by
    refine ⟨by simp [empty], ?_, ?_, ?_, ?_, ?_, by simp [units, empty]⟩ <;> simp [hnone]
  obtain ⟨hs, -, hkeeps⟩ := allocateFrom_sound (List.nodup_reverse.mpr hreach.nodup)
    (fun id hid => hreach.reachable id (List.mem_reverse.mp hid)) (fun id _ => hnone id) hempty h
  exact ⟨hs, fun id hid => hkeeps id (List.mem_reverse.mpr hid)⟩

/-- An allocation that succeeds gives slots to the effects that have a value. -/
theorem allocate_sound {g : Graph} {P : Fragment → Prop} (hg : g.Valid P) {limit : Int} {s : Slots}
    (h : allocate g limit = (.ok (), s)) :
    s.Sound g ∧ s.KeepsEffects g := by
  obtain ⟨-, hroots, -⟩ := reach_sound hg.closed
  obtain ⟨hs, hkeeps⟩ := allocate_keeps hg.closed h
  refine ⟨hs, fun id n hn he hm => hkeeps id (hroots id ?_) n hn ?_⟩
  · exact List.mem_append_left _ (hg.mem_effects hn he)
  · simp [keeps, hm, he]

end Slots
end MicroBlock
