import Mathlib
import MicroBlock.Proofs.Scripts

/-! How often the main code writes a node out.

A node is written out when a root or a node that is written out asks for it, unless its slot was filled before. So the main
code writes out what the roots lead to and nothing else, and where nodes without a slot are asked for once it writes none
of them twice. -/

namespace MicroBlock

/-- The number of steps of a node's fragment. -/
def Node.stepCount (n : Node) : Nat := n.origin.elim 0 fun o => o.fragment.steps.length

namespace Graph

def stepsAt (g : Graph) (id : Nat) : Nat := g.nodes[id]?.elim 0 Node.stepCount

/-- The nodes that the steps of a node push, in order. -/
def picks (g : Graph) (id : Nat) : List Nat := g.nodes[id]?.elim [] Node.picks

theorem picks_subset (g : Graph) (id : Nat) : g.picks id ⊆ g.inputs id := by
  unfold picks inputs
  cases g.nodes[id]? with
  | none => exact List.Subset.refl _
  | some n => exact n.picks_subset

end Graph

/-- The node whose steps begin. -/
def Act.expanded? : Act → Option Nat
  | .expand id => some id
  | _ => none

namespace Emission
open MicroBlock.Graph

/-- The nodes that acts write out, in order. -/
def expansions (acts : List Act) : List Nat := acts.filterMap Act.expanded?

theorem expansions_append (acts acts' : List Act) : expansions (acts ++ acts') = expansions acts ++ expansions acts' :=
  List.filterMap_append

theorem expansions_keepActs (slots : Slots) (id : Nat) (n : Node) (statement : Bool) :
    expansions (keepActs slots id n statement) = [] := by
  unfold keepActs
  split
  · cases statement <;> rfl
  · split <;> rfl

/-! ### Single instructions -/

/-- At most `c` instructions were added, and nothing was stored. -/
structure Adds (c : Nat) (s s' : Emission) : Prop where
  length : s'.code.length ≤ s.code.length + c
  stored : s'.stored = s.stored

theorem Adds.trans {c c' : Nat} {s s' s'' : Emission} (h : Adds c s s') (h' : Adds c' s' s'') : Adds (c + c') s s'' where
  length := by
    have := h.length
    have := h'.length
    omega
  stored := h'.stored.trans h.stored

theorem Adds.mono {c c' : Nat} {s s' : Emission} (h : Adds c s s') (hle : c ≤ c') : Adds c' s s' :=
  ⟨h.length.trans (Nat.add_le_add_left hle _), h.stored⟩

theorem adds_emit (s : Emission) (i : Instr) : Adds 1 s (s.emit i) := ⟨le_rfl, rfl⟩

theorem adds_pushInt (s : Emission) (v : Int) : Adds 1 s (s.pushInt v) := by
  cases h : Operand.fits (Int32.ofInt v).toInt with
  | true =>
    rw [pushInt_of_fits h]
    exact adds_emit _ _
  | false =>
    rw [pushInt_of_not_fits h]
    exact ⟨le_rfl, rfl⟩

theorem adds_setRegister (s : Emission) (r : Register) : Adds 1 s (s.setRegister r) := adds_emit s _

theorem adds_call (s : Emission) (helper : String) : Adds 1 s (s.call helper) := ⟨le_rfl, rfl⟩

theorem adds_load (slots : Slots) (s : Emission) (id : Nat) (n : Node) : Adds 1 s (s.load slots id n) := by
  unfold load
  split
  · exact adds_emit _ _
  · exact ⟨Nat.le_succ _, rfl⟩

theorem Adds.foldl {α : Type} {f : Emission → α → Emission} {c : α → Nat} {stored : Array (Option Nat)} {l : List α}
    (h : ∀ a ∈ l, ∀ s, s.stored = stored → Adds (c a) s (f s a)) {s : Emission} (hs : s.stored = stored) :
    Adds (l.map c).sum s (l.foldl f s) := by
  induction l generalizing s with
  | nil => exact ⟨le_rfl, rfl⟩
  | cons a l ih =>
    have ha := h a List.mem_cons_self s hs
    exact ha.trans (ih (fun a' ha' => h a' (List.mem_cons_of_mem a ha')) (ha.stored.trans hs))

/-! ### At most once -/

/-- Code was added for nodes that were asked for: at most `cost` instructions besides those of the nodes that were written
    out. A node is written out when it or a node that was written out asks for it, and not after it was stored. -/
structure Writes (g : Graph) (slots : Slots) (cost : Nat) (asked written : List Nat) (s s' : Emission) : Prop where
  length : s'.code.length ≤ s.code.length + cost + (written.map fun id => g.stepsAt id + 2).sum
  asks : ∀ j, written.count j ≤ asked.count j + (written.map fun id => (g.picks id).count j).sum
  le : ∀ j ∈ written, ∃ id ∈ asked, j ≤ id
  origin : ∀ j ∈ written, ∃ n o, g.nodes[j]? = some n ∧ n.origin = some o
  absent : ∀ j ∈ written, s.storedAt? j = none
  stored : ∀ j ∈ written, (slots.of? j).isSome = true → (s'.storedAt? j).isSome = true
  kept : ∀ j, (s.storedAt? j).isSome = true → (s'.storedAt? j).isSome = true
  once : ∀ j, (slots.of? j).isSome = true → written.count j ≤ 1
  size : s'.stored.size = s.stored.size

section Writes
variable {g : Graph} {slots : Slots} {s s' s'' : Emission}

theorem Adds.writes {c : Nat} (h : Adds c s s') (asked : List Nat) : Writes g slots c asked [] s s' where
  length := h.length
  asks _ := Nat.zero_le _
  le _ h := absurd h List.not_mem_nil
  origin _ h := absurd h List.not_mem_nil
  absent _ h := absurd h List.not_mem_nil
  stored _ h := absurd h List.not_mem_nil
  kept j hj := by
    rw [storedAt?, h.stored]
    exact hj
  once _ _ := Nat.zero_le _
  size := congrArg Array.size h.stored

namespace Writes

theorem mono {c c' : Nat} {asked written : List Nat} (h : Writes g slots c asked written s s') (hle : c ≤ c') :
    Writes g slots c' asked written s s' :=
  { h with length := h.length.trans (Nat.add_le_add_right (Nat.add_le_add_left hle _) _) }

theorem trans {c c' : Nat} {asked asked' written written' : List Nat} (h : Writes g slots c asked written s s')
    (h' : Writes g slots c' asked' written' s' s'') :
    Writes g slots (c + c') (asked ++ asked') (written ++ written') s s'' where
  length := by
    have := h.length
    have := h'.length
    rw [List.map_append, List.sum_append]
    omega
  asks j := by
    have := h.asks j
    have := h'.asks j
    rw [List.count_append, List.count_append, List.map_append, List.sum_append]
    omega
  le j hj := by
    rcases List.mem_append.mp hj with hj | hj
    · obtain ⟨id, hid, hle⟩ := h.le j hj
      exact ⟨id, List.mem_append_left _ hid, hle⟩
    · obtain ⟨id, hid, hle⟩ := h'.le j hj
      exact ⟨id, List.mem_append_right _ hid, hle⟩
  origin j hj := (List.mem_append.mp hj).elim (h.origin j) (h'.origin j)
  absent j hj := by
    rcases List.mem_append.mp hj with hj | hj
    · exact h.absent j hj
    · have hnone := h'.absent j hj
      by_contra hs
      have := h.kept j (Option.isSome_iff_ne_none.mpr hs)
      rw [hnone] at this
      cases this
  stored j hj hu := by
    rcases List.mem_append.mp hj with hj | hj
    · exact h'.kept j (h.stored j hj hu)
    · exact h'.stored j hj hu
  kept j hj := h'.kept j (h.kept j hj)
  once j hu := by
    rw [List.count_append]
    by_cases hj : j ∈ written
    · -- It is stored by then, so it is not written out again.
      have hnot : j ∉ written' := fun hj' => by
        have := h.stored j hj hu
        rw [h'.absent j hj'] at this
        cases this
      rw [List.count_eq_zero.mpr hnot]
      exact h.once j hu
    · rw [List.count_eq_zero.mpr hj, Nat.zero_add]
      exact h'.once j hu
  size := h'.size.trans h.size

end Writes

section Steps
variable {id : Nat} {n : Node} (hn : g.nodes[id]? = some n) {acts : Nat → Emission → List Act}
  {input : Nat → Emission → Emission} (hperform : ∀ i s, s.perform g slots (acts i s) = input i s)
  (hin : ∀ i ∈ n.inputs, ∀ s, s.stored.size = g.nodes.size → Writes g slots 1 [i] (expansions (acts i s)) s (input i s))
include hin

variable (id) in
theorem writes_step (hs : s.stored.size = g.nodes.size) (st : Step) :
    Writes g slots 1 (st.pick? n.inputs).toList (expansions (stepActs id n acts st s)) s (step n input s st) := by
  unfold stepActs
  cases hp : st.pick? n.inputs with
  | some i =>
    rw [step_of_pick hp]
    exact hin i (Step.mem_of_pick? hp) s hs
  | none =>
    refine Adds.writes ?_ _
    cases st with
    | input i =>
      rw [step_of_no_pick hp input fun _ s => s]
      simp only [step]
      split <;> exact ⟨Nat.le_succ _, rfl⟩
    | literal l => exact adds_pushInt s _
    | dup | pop => exact adds_emit s _
    | call h =>
      obtain ⟨extents, hcall⟩ := exists_step_call n input s h
      rw [hcall]
      exact ⟨(adds_call s h).length, (adds_call s h).stored⟩
    | unknown k => exact ⟨Nat.le_succ _, rfl⟩

include hn hperform

variable (slots) in
theorem writes_steps (hs : s.stored.size = g.nodes.size) {o : Origin} (ho : n.origin = some o) :
    Writes g slots n.stepCount n.picks (expansions (thread g slots (stepActs id n acts) o.fragment.steps s)) s
      (steps n o input s) := by
  simp only [Node.stepCount, Node.picks, ho, Option.elim_some, Fragment.picks, steps]
  generalize o.fragment.steps = sts
  induction sts generalizing s with
  | nil => exact (⟨le_rfl, rfl⟩ : Adds 0 s s).writes _
  | cons st sts ih =>
    have hst := writes_step id hin hs st
    have h := hst.trans (ih (hst.size.trans hs))
    rw [thread, expansions_append, perform_stepActs hn hperform, List.foldl_cons, List.length_cons, Nat.add_comm]
    cases hp : st.pick? n.inputs <;> rw [hp] at h
    · rwa [List.filterMap_cons_none hp]
    · rwa [List.filterMap_cons_some hp]

end Steps

theorem expansions_node (id : Nat) (n : Node) (o : Origin) (acts : Nat → Emission → List Act) (statement : Bool) :
    expansions (stepsActs g slots id n o acts s ++ keepActs slots id n statement) =
      id :: expansions (thread g slots (stepActs id n acts) o.fragment.steps s) := by
  rw [expansions_append, expansions_keepActs, List.append_nil]
  rfl

theorem length_keep (slots : Slots) (id : Nat) (n : Node) (statement : Bool) (s : Emission) :
    (keep slots id n statement s).code.length ≤ s.code.length + 2 := by
  unfold keep
  split
  · cases statement <;> simp [emit]
  · split <;> simp [emit]

theorem isSome_storedAt?_keep (slots : Slots) (id : Nat) (n : Node) (statement : Bool) {j : Nat}
    (hj : (s.storedAt? j).isSome = true) : ((keep slots id n statement s).storedAt? j).isSome = true := by
  unfold keep
  split
  · rw [storedAt?_set]
    by_cases h : id = j ∧ id < s.stored.size
    · rw [if_pos (by cases statement <;> exact h)]
      rfl
    · rw [if_neg (by cases statement <;> exact h)]
      cases statement <;> exact hj
  · split <;> exact hj

theorem size_stored_keep (slots : Slots) (id : Nat) (n : Node) (statement : Bool) (s : Emission) :
    (keep slots id n statement s).stored.size = s.stored.size := by
  unfold keep
  split
  · cases statement <;> simp [emit]
  · split <;> rfl

variable {P : Fragment → Prop}

/-- A node that was not stored is written out: its steps, and what follows them. -/
theorem Writes.node (hw : WellFormed g.nodes P) {id : Nat} {n : Node} {o : Origin} (hn : g.nodes[id]? = some n)
    (ho : n.origin = some o) {w : List Nat} (h : Writes g slots n.stepCount n.picks w s s')
    (hs : s.stored.size = g.nodes.size) (hnone : s.storedAt? id = none) (statement : Bool) :
    Writes g slots 0 [id] (id :: w) s (keep slots id n statement s') := by
  -- Only older nodes are written out for the inputs, so the node itself is not among them.
  have hlt : ∀ j ∈ w, j < id := by
    intro j hj
    obtain ⟨i, hi, hle⟩ := h.le j hj
    exact hle.trans_lt (hw.input_lt hn i (n.picks_subset hi)).1
  have hsteps : g.stepsAt id = n.stepCount := by rw [stepsAt, hn, Option.elim_some]
  have hpicks : g.picks id = n.picks := by rw [Graph.picks, hn, Option.elim_some]
  refine ⟨?_, fun j => ?_, fun j hj => ?_, fun j hj => ?_, fun j hj => ?_, fun j hj hu => ?_,
    fun j hj => isSome_storedAt?_keep slots id n statement (h.kept j hj), fun j hu => ?_,
    (size_stored_keep slots id n statement s').trans h.size⟩
  · have := h.length
    have := length_keep slots id n statement s'
    rw [List.map_cons, List.sum_cons, hsteps]
    omega
  · have := h.asks j
    rw [List.map_cons, List.sum_cons, hpicks, List.count_cons, List.count_singleton]
    omega
  · rcases List.mem_cons.mp hj with rfl | hj
    · exact ⟨j, List.mem_singleton_self j, le_rfl⟩
    · exact ⟨id, List.mem_singleton_self id, (hlt j hj).le⟩
  · rcases List.mem_cons.mp hj with rfl | hj
    · exact ⟨n, o, hn, ho⟩
    · exact h.origin j hj
  · rcases List.mem_cons.mp hj with rfl | hj
    · exact hnone
    · exact h.absent j hj
  · rcases List.mem_cons.mp hj with rfl | hj
    · obtain ⟨u, hu⟩ := Option.isSome_iff_exists.mp hu
      have hsize : j < s'.stored.size := h.size.trans hs ▸ (Array.getElem?_eq_some_iff.mp hn).1
      obtain ⟨k, hk⟩ := storedAt?_keep hu hsize n statement
      rw [hk]
      rfl
    · exact isSome_storedAt?_keep slots id n statement (h.stored j hj hu)
  · rw [List.count_cons]
    split
    · next heq =>
      have hid : id = j := by simpa using heq
      rw [List.count_eq_zero.mpr fun hj => lt_irrefl _ (hid ▸ hlt j hj)]
    · exact h.once j hu

variable (hw : WellFormed g.nodes P)
include hw

variable (slots) in
theorem writes_value (depth id : Nat) (hs : s.stored.size = g.nodes.size) :
    Writes g slots 1 [id] (expansions (valueActs g slots depth id s)) s (value g slots depth id s) := by
  have hrefl : Adds 1 s s := ⟨Nat.le_succ _, rfl⟩
  induction depth generalizing id s with
  | zero => exact hrefl.writes _
  | succ depth ih =>
    cases hn : g.nodes[id]? with
    | none =>
      simp only [valueActs, value, hn]
      exact hrefl.writes _
    | some n =>
      simp only [valueActs, value, hn]
      split
      · exact (adds_load slots s id n).writes _
      next hstored =>
      cases ho : n.origin with
      | none => exact (adds_emit s _).writes _
      | some o =>
        have h := writes_steps slots hn (perform_valueActs depth) (fun i _ s hs => ih i hs ⟨Nat.le_succ _, rfl⟩) hs ho
        dsimp only
        rw [expansions_node]
        exact (Writes.node hw hn ho h hs (by simpa using hstored) false).mono (Nat.zero_le 1)

theorem writes_effect {id : Nat} (hs : s.stored.size = g.nodes.size) (hnone : s.storedAt? id = none) :
    Writes g slots 0 [id] (expansions (effectActs g slots id s)) s (effect g slots s id) := by
  have hrefl : Adds 0 s s := ⟨le_rfl, rfl⟩
  cases hn : g.nodes[id]? with
  | none =>
    simp only [effectActs, effect, hn]
    exact hrefl.writes _
  | some n =>
    simp only [effectActs, effect, hn]
    cases ho : n.origin with
    | none => exact hrefl.writes _
    | some o =>
      have h := writes_steps slots hn (perform_valueActs id) (fun i _ s hs => writes_value slots hw id i hs) hs ho
      dsimp only
      rw [expansions_node]
      exact Writes.node hw hn ho h hs hnone true

theorem writes_actsBelow (hs : slots.Sound g) (m : Module) (id : Nat) :
    Writes g slots 0 ((List.range id).filter (isEffect g.nodes)) (expansions (actsBelow g slots m id)) (start g m)
      (afterEffects g slots m id) := by
  induction id with
  | zero => exact (⟨le_rfl, rfl⟩ : Adds 0 (start g m) (start g m)).writes _
  | succ id ih =>
    rw [afterEffects_succ, actsBelow_succ, List.range_succ, List.filter_append, List.filter_singleton, expansions_append]
    cases isEffect g.nodes id with
    | true =>
      have hnone : (afterEffects g slots m id).storedAt? id = none := by
        cases hk : (afterEffects g slots m id).storedAt? id with
        | none => rfl
        | some k => exact absurd (lt_of_storedAt?_afterEffects hw hs hk) (lt_irrefl id)
      exact ih.trans (writes_effect hw (ih.size.trans (by simp [start])) hnone)
    | false =>
      rw [cond_false, List.append_nil]
      simpa [expansions] using ih

variable (slots) in
theorem writes_values (rs : List Register) (final : Producers) (hs : s.stored.size = g.nodes.size) :
    Writes g slots rs.length (rs.map fun r => final.get (.reg r))
      (expansions (thread g slots (fun r => valueActs g slots (final.get (.reg r) + 1) (final.get (.reg r))) rs s)) s
      (rs.foldl (fun s r => value g slots (final.get (.reg r) + 1) (final.get (.reg r)) s) s) := by
  induction rs generalizing s with
  | nil => exact (⟨le_rfl, rfl⟩ : Adds 0 s s).writes _
  | cons r rs ih =>
    have h := writes_value slots hw (final.get (.reg r) + 1) (final.get (.reg r)) hs
    rw [thread, expansions_append, perform_valueActs, List.length_cons, Nat.add_comm]
    exact h.trans (ih (h.size.trans hs))

omit hw in
/-- What the statements and the final values of a block write out for the roots. -/
theorem writes_roots (hg : g.Valid P) (hs : slots.Sound g) (m : Module) :
    Writes g slots g.changed.length g.roots (expansions (statementActs g slots m ++ finalActs g slots m)) (start g m)
      (afterValues g slots m g.changed) := by
  have h₁ := writes_actsBelow hg.wellFormed hs m g.nodes.size
  have h₂ := writes_values slots hg.wellFormed g.changed g.final (h₁.size.trans (by simp [start]))
  rw [← hg.effects, ← statementActs_eq hg] at h₁
  rw [expansions_append, finalActs, perform_statements hg, ← Nat.zero_add g.changed.length]
  exact h₁.trans h₂

end Writes

theorem sum_map_filter {p : Nat → Bool} {f : Nat → Nat} {l : List Nat} (h : ∀ a ∈ l, p a = false → f a = 0) :
    ((l.filter p).map f).sum = (l.map f).sum := by
  induction l with
  | nil => rfl
  | cons a l ih =>
    have hl := ih fun a' ha' => h a' (List.mem_cons_of_mem a ha')
    cases hp : p a with
    | true => rw [List.filter_cons_of_pos hp, List.map_cons, List.sum_cons, hl, List.map_cons, List.sum_cons]
    | false =>
      rw [List.filter_cons_of_neg (by simp [hp]), List.map_cons, List.sum_cons, hl, h a List.mem_cons_self hp, Nat.zero_add]

section Once
variable {g : Graph} {slots : Slots} {P : Fragment → Prop} (hg : g.Valid P) {c : Nat} {w : List Nat} {s s' : Emission}
include hg

/-- What is written out for the roots is reached from them. -/
theorem Writes.mem_order (h : Writes g slots c g.roots w s s') {j : Nat} (hj : j ∈ w) : j ∈ g.reach.order := by
  -- A node is asked for by a root or by a later node, so the induction goes from the last node down.
  induction hk : g.nodes.size - j using Nat.strong_induction_on generalizing j with
  | _ k ih =>
    have hpos := List.count_pos_iff.mpr hj
    by_cases hroot : j ∈ g.roots
    · exact mem_order_of_root hg.closed hroot
    · have hasks := h.asks j
      rw [List.count_eq_zero.mpr hroot] at hasks
      obtain ⟨x, hx, hne⟩ := List.exists_mem_ne_zero_of_sum_ne_zero
        (show (w.map fun id => (g.picks id).count j).sum ≠ 0 by omega)
      obtain ⟨id, hid, rfl⟩ := List.mem_map.mp hx
      have hin := g.picks_subset id (List.count_pos_iff.mp (Nat.pos_of_ne_zero hne))
      obtain ⟨n, hn, hmem⟩ := mem_inputs.mp hin
      have hlt := (hg.wellFormed.input_lt hn j hmem).1
      have hsize := (Array.getElem?_eq_some_iff.mp hn).1
      exact mem_order_of_input hg.closed (ih (g.nodes.size - id) (by omega) hid rfl) hin

variable [Fragment.Writable P] {t : Table} (hm : Mated t g.nodes)
  (ht : ∀ op, ∀ f ∈ t.targets? op, f.isThrifty (t.targets? op) = true)
  (hkeeps : ∀ id ∈ g.reach.order, ∀ n, g.nodes[id]? = some n → Slots.keeps n (countOf g.reach.counts id) = true →
    ∃ u, slots.of? id = some u)
include hm ht hkeeps

theorem Writes.nodup (h : Writes g slots c g.roots w s s') : w.Nodup := by
  refine List.nodup_iff_count_le_one.mpr fun j => ?_
  induction hk : g.nodes.size - j using Nat.strong_induction_on generalizing j with
  | _ k ih =>
    by_cases hj : j ∈ w
    · obtain ⟨n, o, hn, ho⟩ := h.origin j hj
      cases hslot : slots.of? j with
      | some u => exact h.once j (by rw [hslot]; rfl)
      | none =>
        have hone := countOf_of_unslotted hg hkeeps (h.mem_order hg hj) hn ho hslot
        have hle : ∀ id ∈ w, (g.picks id).count j ≤ (g.inputs id).count j := by
          intro id hid
          by_cases hin : j ∈ g.inputs id
          · obtain ⟨n', hn', -⟩ := mem_inputs.mp hin
            have hpicks : g.picks id = n'.picks := by rw [Graph.picks, hn', Option.elim_some]
            have hinputs : g.inputs id = n'.inputs := by rw [inputs, hn', Option.map_some, Option.getD_some]
            rcases hm.count_picks ht hn' j with hle | ⟨id', n'', hne, hn'', heffect, hin'⟩
            · rw [hpicks, hinputs]
              exact hle
            · have hroot : id' ∈ g.roots := List.mem_append_left _ (hg.mem_effects hn'' heffect)
              have := two_le_countOf hg.closed (h.mem_order hg hid) (mem_order_of_root hg.closed hroot) hne hin
                (mem_inputs.mpr ⟨n'', hn'', hin'⟩)
              omega
          · rw [List.count_eq_zero.mpr fun hp => hin (g.picks_subset id hp)]
            exact Nat.zero_le _
        -- Only later nodes ask for this one, and each of them was written out once.
        have hlater : ∀ id ∈ w, decide (j < id) = false → (g.picks id).count j = 0 := by
          intro id hid hlt
          refine List.count_eq_zero.mpr fun hp => ?_
          obtain ⟨n', hn', hin⟩ := mem_inputs.mp (g.picks_subset id hp)
          exact of_decide_eq_false hlt (hg.wellFormed.input_lt hn' j hin).1
        have hnodup : (w.filter fun id => j < id).Nodup := by
          refine List.nodup_iff_count_le_one.mpr fun i => ?_
          by_cases hi : i ∈ w.filter fun id => j < id
          · obtain ⟨hiw, hlt⟩ := List.mem_filter.mp hi
            obtain ⟨_, _, hni, -⟩ := h.origin i hiw
            have := (Array.getElem?_eq_some_iff.mp hni).1
            have hji := of_decide_eq_true hlt
            exact (List.filter_sublist.count_le i).trans (ih (g.nodes.size - i) (by omega) i rfl)
          · rw [List.count_eq_zero.mpr hi]
            exact Nat.zero_le _
        calc w.count j
          _ ≤ g.roots.count j + (w.map fun id => (g.picks id).count j).sum := h.asks j
          _ = g.roots.count j + ((w.filter fun id => j < id).map fun id => (g.picks id).count j).sum := by
            rw [sum_map_filter hlater]
          _ ≤ g.roots.count j + g.inputUses (w.filter fun id => j < id) j :=
            Nat.add_le_add_left (List.sum_le_sum fun id hid => hle id (List.mem_of_mem_filter hid)) _
          _ ≤ g.roots.count j + g.inputUses g.reach.order j :=
            Nat.add_le_add_left (sum_map_le hnodup (fun id hid => h.mem_order hg (List.mem_of_mem_filter hid)) _) _
          _ = countOf g.reach.counts j := (countOf_reach hg.closed j).symm
          _ ≤ 1 := hone
    · rw [List.count_eq_zero.mpr hj]
      exact Nat.zero_le _

end Once

end Emission
end MicroBlock
