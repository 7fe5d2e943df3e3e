import Mathlib
import MicroBlock.Proofs.Courses
import MicroBlock.Proofs.Expansions

/-! How much code a block gets.

The main code writes every node out at most once, so it is linear in the graph. The code of a rollback writes its
registers out again from the values that were stored before the guarded code, and keeps nothing in between: a node that
several others need is written once for each of them. Apart from these repetitions a rollback too is linear. -/

namespace MicroBlock

namespace Graph

/-- The number of steps of all nodes. -/
def stepCount (g : Graph) : Nat := (g.nodes.toList.map Node.stepCount).sum

/-- The number of steps of the nodes in a list. -/
def stepsOf (g : Graph) (ids : List Nat) : Nat := (ids.map g.stepsAt).sum

theorem stepsOf_append (g : Graph) (ids ids' : List Nat) : g.stepsOf (ids ++ ids') = g.stepsOf ids + g.stepsOf ids' := by
  rw [stepsOf, List.map_append, List.sum_append]
  rfl

theorem stepsOf_flatMap (g : Graph) {α : Type} (l : List α) (f : α → List Nat) :
    g.stepsOf (l.flatMap f) = (l.map fun a => g.stepsOf (f a)).sum := by
  rw [stepsOf, List.map_flatMap, List.flatMap_def, List.sum_flatten, List.map_map]
  rfl

theorem stepsOf_range (g : Graph) : g.stepsOf (List.range g.nodes.size) = g.stepCount := by
  have hmap : (List.range g.nodes.size).map g.stepsAt = g.nodes.toList.map Node.stepCount := by
    refine List.ext_getElem (by simp) fun i hi _ => ?_
    have hlt : i < g.nodes.size := by simpa using hi
    simp [stepsAt, hlt]
  rw [stepsOf, hmap, stepCount]

end Graph

namespace Emission
open MicroBlock.Graph

/-! ### The main code -/

/-- The main code is linear in the graph. -/
theorem length_main_le {g : Graph} {slots : Slots} {P : Fragment → Prop} [Fragment.Writable P] (hg : g.Valid P) {t : Table}
    (hm : Mated t g.nodes) (ht : ∀ op, ∀ f ∈ t.targets? op, f.isThrifty (t.targets? op) = true)
    (hkeeps : ∀ id ∈ g.reach.order, ∀ n, g.nodes[id]? = some n → Slots.keeps n (countOf g.reach.counts id) = true →
      ∃ u, slots.of? id = some u) (hs : slots.Sound g) (count : Nat) (m : Module) :
    (main_ g slots count (start g m)).code.length ≤ g.stepCount + 2 * g.nodes.size + 76 := by
  have h := writes_roots hg hs m
  have hnodup := Writes.nodup hg hm ht hkeeps h
  have hsub : expansions (statementActs g slots m ++ finalActs g slots m) ⊆ List.range g.nodes.size := by
    intro j hj
    obtain ⟨n, -, hn, -⟩ := h.origin j hj
    exact List.mem_range.mpr (Array.getElem?_eq_some_iff.mp hn).1
  have hsum : ((expansions (statementActs g slots m ++ finalActs g slots m)).map fun id => g.stepsAt id + 2).sum ≤
      g.stepCount + 2 * g.nodes.size := by
    refine (sum_map_le hnodup hsub _).trans ?_
    rw [List.sum_map_add, ← stepsOf, stepsOf_range, List.map_const', List.sum_replicate, List.length_range, smul_eq_mul, mul_comm]
  have hchanged : g.changed.length ≤ 37 := (List.length_filter_le _ _).trans (by decide)
  have hset := Adds.foldl (f := setRegister) (l := g.changed.reverse) (fun r _ s _ => adds_setRegister s r)
    (rfl : (afterValues g slots m g.changed).stored = _)
  have htail := (hset.trans (adds_pushInt _ count)).trans (adds_emit _ .ret)
  have hlength := h.length
  have htotal := htail.length
  rw [List.map_const', List.sum_replicate, smul_eq_mul, List.length_reverse] at htotal
  rw [main_eq hg]
  simp only [afterValues, start, List.length_nil] at hlength htotal ⊢
  omega

end Emission

/-! ### The code of the rollbacks -/

/-- The nodes that are written out for a node, in order, where `kept` tells which ones are loaded from their slots. -/
def Graph.expansion (g : Graph) (kept : Nat → Bool) : Nat → Nat → List Nat
  | 0, _ => []
  | depth + 1, id =>
    if kept id || g.nodes[id]?.all Node.isInitial then []
    else id :: (g.picks id).flatMap (g.expansion kept depth)

/-- The nodes that are written out for a rollback. -/
def Graph.rewritten (g : Graph) (kept : Nat → Bool) (r : Rollback) : List Nat :=
  ((g.restores r).map (·.2) ++ r.eip?.toList).flatMap fun id => g.expansion kept (id + 1) id

/-- The steps that are written out more than once for a list of nodes. -/
def Graph.repeats (g : Graph) (ids : List Nat) : Nat :=
  ((List.range g.nodes.size).map fun id => (ids.count id - 1) * g.stepsAt id).sum

theorem Graph.stepsOf_le (g : Graph) (ids : List Nat) : g.stepsOf ids ≤ g.stepCount + g.repeats ids := by
  have hrange : ∀ f : Nat → Nat, ((List.range g.nodes.size).map f).sum = ∑ id ∈ Finset.range g.nodes.size, f id :=
    fun _ => rfl
  rw [← stepsOf_range, repeats, stepsOf, stepsOf, hrange, hrange, ← Finset.sum_add_distrib, Finset.sum_list_map_count]
  refine (Finset.sum_le_sum_of_ne_zero fun id _ hne => ?_).trans (Finset.sum_le_sum fun id _ => ?_)
  · by_contra hid
    have hnone : g.nodes[id]? = none := by simpa using hid
    exact hne (by simp [stepsAt, hnone])
  · calc ids.count id • g.stepsAt id
      _ ≤ (1 + (ids.count id - 1)) * g.stepsAt id := Nat.mul_le_mul_right _ (by omega)
      _ = g.stepsAt id + (ids.count id - 1) * g.stepsAt id := by rw [Nat.add_mul, Nat.one_mul]

theorem Graph.length_restores_le (g : Graph) {r : Rollback} {start : Producers} (h : r.snapshot = Rollback.snapshotOf start) :
    (g.restores r).length ≤ 37 := by
  refine (List.length_filter_le _ _).trans ?_
  rw [h, Rollback.snapshotOf, (sortBy_perm _ _).length_eq, List.length_map]
  decide

namespace Emission
open MicroBlock.Graph

section Recompute
variable (g : Graph) (slots : Slots) {stored : Array (Option Nat)}

theorem adds_step {n : Node} {input : Nat → Emission → Emission} {c : Nat → Nat}
    (hin : ∀ i s, s.stored = stored → Adds (1 + c i) s (input i s)) {s : Emission} (hs : s.stored = stored) (st : Step) :
    Adds (1 + ((st.pick? n.inputs).toList.map c).sum) s (step n input s st) := by
  cases st with
  | input i =>
    simp only [step, Step.pick?]
    generalize (if i < 0 then none else n.inputs[i.toNat]?) = picked
    cases picked with
    | none => exact ⟨Nat.le_succ _, rfl⟩
    | some id => exact hin id s hs
  | literal l => exact adds_pushInt s _
  | dup | pop => exact adds_emit s _
  | call h =>
    obtain ⟨extents, hcall⟩ := exists_step_call n input s h
    rw [hcall]
    exact ⟨(adds_call s h).length, (adds_call s h).stored⟩
  | unknown k => exact ⟨Nat.le_succ _, rfl⟩

theorem adds_steps {n : Node} {o : Origin} (ho : n.origin = some o) {input : Nat → Emission → Emission} {c : Nat → Nat}
    (hin : ∀ i s, s.stored = stored → Adds (1 + c i) s (input i s)) {s : Emission} (hs : s.stored = stored) :
    Adds (n.stepCount + (n.picks.map c).sum) s (steps n o input s) := by
  have h := Adds.foldl (l := o.fragment.steps) (fun st _ s hs => adds_step (n := n) hin hs st) hs
  refine h.mono (le_of_eq ?_)
  simp only [Node.stepCount, Node.picks, ho, Option.elim_some, Fragment.picks]
  generalize o.fragment.steps = sts
  induction sts with
  | nil => rfl
  | cons st sts ih =>
    rw [List.map_cons, List.sum_cons, ih, List.length_cons, List.filterMap_cons]
    cases st.pick? n.inputs with
    | none =>
      simp only [Option.toList_none, List.map_nil, List.sum_nil]
      omega
    | some j =>
      simp only [Option.toList_some, List.map_cons, List.map_nil, List.sum_cons, List.sum_nil]
      omega

/-- What a node costs in the code of a rollback: the steps of all nodes that are written out for it. -/
theorem adds_recompute {s₀ : Emission} (guarded : Int) (depth id : Nat) {s : Emission} (hs : s.stored = s₀.stored) :
    Adds (1 + g.stepsOf (g.expansion (s₀.filled guarded) depth id)) s (recompute g slots guarded depth id s) := by
  induction depth generalizing id s with
  | zero => exact ⟨Nat.le_add_right _ _, rfl⟩
  | succ depth ih =>
    unfold recompute
    split
    · exact ⟨Nat.le_add_right _ _, rfl⟩
    next n hn =>
    split
    · exact (adds_load slots s id n).mono (Nat.le_add_right _ _)
    next hfilled =>
    split
    · exact (adds_emit s _).mono (Nat.le_add_right _ _)
    next o ho =>
    have hkept : (s₀.filled guarded id || g.nodes[id]?.all Node.isInitial) = false := by
      have hnot : s₀.filled guarded id = false := by
        rw [filled, storedAt?, ← hs]
        exact Bool.eq_false_iff.mpr hfilled
      simp [hnot, hn, Node.isInitial, ho]
    have hsteps : g.stepsAt id = n.stepCount := by rw [stepsAt, hn, Option.elim_some]
    have hpicks : g.picks id = n.picks := by rw [Graph.picks, hn, Option.elim_some]
    have hcost : g.stepsOf (g.expansion (s₀.filled guarded) (depth + 1) id) =
        n.stepCount + (n.picks.map fun i => g.stepsOf (g.expansion (s₀.filled guarded) depth i)).sum := by
      rw [expansion, hkept, if_neg Bool.false_ne_true, ← stepsOf_flatMap, ← hsteps, ← hpicks]
      rfl
    rw [hcost]
    exact (adds_steps ho (fun i s hs => ih i hs) hs).mono (Nat.le_add_left _ _)

theorem adds_pushEip {s₀ : Emission} (r : Rollback) (guarded : Int) {s : Emission} (hs : s.stored = s₀.stored) :
    Adds (3 + g.stepsOf (r.eip?.toList.flatMap fun id => g.expansion (s₀.filled guarded) (id + 1) id)) s
      (pushEip g slots r guarded s) := by
  have hdelta : ∀ {c : Nat} {s' : Emission}, Adds (1 + c) s s' →
      Adds (3 + c) s (if r.delta = 0 then s' else (s'.pushInt r.delta.toInt).call Builtin.add32.name) := by
    intro c s' h
    split
    · exact h.mono (by omega)
    · exact ((h.trans (adds_pushInt _ _)).trans (adds_call _ _)).mono (by omega)
  unfold pushEip
  cases r.eip? with
  | none => exact hdelta ⟨Nat.le_add_right _ _, rfl⟩
  | some id =>
    rw [Option.toList_some, List.flatMap_singleton]
    exact hdelta (adds_recompute g slots guarded (id + 1) id hs)

theorem adds_rollback {s₀ : Emission} (route : String) (r : Rollback) (guarded : Int) {s : Emission}
    (hs : s.stored = s₀.stored) :
    Adds (2 * (g.restores r).length + 9 + g.stepsOf (g.rewritten (s₀.filled guarded) r)) s
      (rollback g slots route r guarded s).2 := by
  have hrestored : Adds ((g.restores r).map fun e => 1 + g.stepsOf (g.expansion (s₀.filled guarded) (e.2 + 1) e.2)).sum s
      (pushRestored g slots r guarded s) :=
    Adds.foldl (fun e _ s hs => adds_recompute g slots guarded (e.2 + 1) e.2 hs) hs
  have heip := adds_pushEip g slots r guarded (hrestored.stored.trans hs)
  have hset : ∀ s, Adds (g.restores r).length s (setRestored g r s) := by
    intro s
    have h := Adds.foldl (l := (g.restores r).reverse) (fun e _ s _ => adds_setRegister s e.1) (rfl : s.stored = _)
    rwa [List.map_const', List.sum_replicate, smul_eq_mul, Nat.mul_one, List.length_reverse] at h
  have hroute := (((((hrestored.trans heip).trans (adds_setRegister _ .eip)).trans (hset _)).trans
    (adds_emit _ (.get (Int32.ofNat Element.cpu.number)))).trans (adds_emit _ .fault)).trans (adds_call _ route)
  have hcost : g.stepsOf (g.rewritten (s₀.filled guarded) r) =
      ((g.restores r).map fun e => g.stepsOf (g.expansion (s₀.filled guarded) (e.2 + 1) e.2)).sum +
        g.stepsOf (r.eip?.toList.flatMap fun id => g.expansion (s₀.filled guarded) (id + 1) id) := by
    rw [rewritten, List.flatMap_append, stepsOf_append, List.flatMap_map, stepsOf_flatMap]
  rw [rollback_eq]
  refine ((hroute.trans (adds_pushInt _ r.index)).trans (adds_emit _ .ret)).mono (le_of_eq ?_)
  rw [List.sum_map_add, List.map_const', List.sum_replicate, smul_eq_mul, Nat.mul_one, hcost]
  omega

end Recompute

/-- The steps that the code of the rollbacks writes out more than once. -/
def repeats (g : Graph) (s : Emission) : Nat :=
  ((live g s).map fun e => g.repeats (g.rewritten (s.filled e.2.first) e.1)).sum

theorem adds_rollbacks (g : Graph) (slots : Slots) {s₀ : Emission} (route : String) {l : List (Rollback × Extent)}
    {s : Emission} (hs : s.stored = s₀.stored) :
    (rollbacks g slots route l s).1.length = (l.filter fun e => !e.2.isEmpty).length ∧
      Adds ((l.filter fun e => !e.2.isEmpty).map fun e =>
        2 * (g.restores e.1).length + 9 + g.stepsOf (g.rewritten (s₀.filled e.2.first) e.1)).sum s
        (rollbacks g slots route l s).2 := by
  induction l generalizing s with
  | nil => exact ⟨rfl, le_rfl, rfl⟩
  | cons e l ih =>
    obtain ⟨r, x⟩ := e
    unfold rollbacks
    cases hx : x.isEmpty with
    | true =>
      rw [List.filter_cons_of_neg (by simp [hx]), if_pos rfl]
      exact ih hs
    | false =>
      have hr := adds_rollback g slots route r x.first hs
      obtain ⟨hlen, hrest⟩ := ih (hr.stored.trans hs)
      rw [List.filter_cons_of_pos (by simp [hx]), if_neg Bool.false_ne_true, List.map_cons, List.sum_cons]
      exact ⟨congrArg (· + 1) hlen, hr.trans hrest⟩

/-- Emitted code grows with its graph. The main code is linear, with every node written out at most once, and the code of
    every rollback is, up to the nodes that it writes out more than once. -/
theorem length_execute_le {mode : Mode} {b : Block} {s : Stream} {g : Graph} {units : Int} {slots : Slots}
    (hs : Stream.ofBlock b = .ok s) (hg : Graph.build (Lowering.table mode) true s = .ok g)
    (ha : Slots.allocate g units = (.ok (), slots)) (route : String) (count : Nat) (m : Module) :
    (main_ g slots count (start g m)).code.length ≤ g.stepCount + 2 * g.nodes.size + 100 ∧
      (execute g slots route count m).1.length ≤ g.rollbacks.size ∧
      (execute g slots route count m).2.code.length ≤
        ((execute g slots route count m).1.length + 1) * (g.stepCount + 2 * g.nodes.size + 100) +
          repeats g (main_ g slots count (start g m)) := by
  have hv := Graph.build_valid (Lowering.table_disciplined mode) hs hg
  have hmated := Graph.build_mated (Lowering.table_disciplined mode) hs hg
  obtain ⟨hsound, hkeeps⟩ := Slots.allocate_keeps hv.closed ha
  obtain ⟨-, heffects⟩ := Slots.allocate_sound hv ha
  have hmain := length_main_le hv hmated (fun _ _ => Lowering.isThrifty_of_mem) hkeeps hsound count m
  obtain ⟨hlen, hadds⟩ := adds_rollbacks g slots route
    (l := g.rollbacks.toList.zip (main_ g slots count (start g m)).extents.toList)
    (rfl : (main_ g slots count (start g m)).stored = _)
  have hlive : (live g (main_ g slots count (start g m))).length ≤ g.rollbacks.size := by
    refine (List.length_filter_le _ _).trans ?_
    rw [List.length_zip, Array.length_toList]
    exact Nat.min_le_left _ _
  have hcost : ((live g (main_ g slots count (start g m))).map fun e => 2 * (g.restores e.1).length + 9 +
      g.stepsOf (g.rewritten ((main_ g slots count (start g m)).filled e.2.first) e.1)).sum ≤
      (live g (main_ g slots count (start g m))).length * (g.stepCount + 2 * g.nodes.size + 100) +
        repeats g (main_ g slots count (start g m)) := by
    -- The steps of the graph pay for a node that is written out once; the rest are repeats.
    have hone : ∀ e ∈ live g (main_ g slots count (start g m)), 2 * (g.restores e.1).length + 9 +
        g.stepsOf (g.rewritten ((main_ g slots count (start g m)).filled e.2.first) e.1) ≤
        (g.stepCount + 2 * g.nodes.size + 100) +
          g.repeats (g.rewritten ((main_ g slots count (start g m)).filled e.2.first) e.1) := by
      intro e he
      obtain ⟨hmem, hempty⟩ := List.mem_filter.mp he
      obtain ⟨start', hsnap, -⟩ := exists_snapshot hv hsound heffects hmem (by simpa using hempty)
      have := g.length_restores_le hsnap
      have := g.stepsOf_le (g.rewritten ((main_ g slots count (start g m)).filled e.2.first) e.1)
      omega
    refine (List.sum_le_sum hone).trans (le_of_eq ?_)
    rw [List.sum_map_add, List.map_const', List.sum_replicate, smul_eq_mul]
    rfl
  refine ⟨hmain.trans (by omega), hlen.trans_le hlive, ?_⟩
  calc (execute g slots route count m).2.code.length
    _ ≤ (g.stepCount + 2 * g.nodes.size + 100) + _ := hadds.length.trans (Nat.add_le_add (by omega) hcost)
    _ = ((live g (main_ g slots count (start g m))).length + 1) * (g.stepCount + 2 * g.nodes.size + 100) +
        repeats g (main_ g slots count (start g m)) := by ring
    _ = _ := by rw [show (execute g slots route count m).1.length = _ from hlen]; rfl

/-- A value is doubled before an instruction that can fault. The rollback of that instruction writes the value out twice. -/
theorem length_execute_le_doubled :
    ∃ (s : Stream) (g : Graph) (slots : Slots), Stream.ofBlock [⟨1, [1, 16, 8, 111, 16]⟩, ⟨1, [141]⟩] = .ok s ∧
      Graph.build (Lowering.table .protected_) true s = .ok g ∧ Slots.allocate g 1024 = (.ok (), slots) ∧
      (execute g slots (Target.ofMode .protected_).route s.count (Target.ofMode .protected_).skeleton).1.length = 1 ∧
      repeats g (main_ g slots s.count (start g (Target.ofMode .protected_).skeleton)) = 1 ∧
      (main_ g slots s.count (start g (Target.ofMode .protected_).skeleton)).code.length ≤
        g.stepCount + 2 * g.nodes.size + 100 ∧
      (execute g slots (Target.ofMode .protected_).route s.count (Target.ofMode .protected_).skeleton).2.code.length ≤
        (1 + 1) * (g.stepCount + 2 * g.nodes.size + 100) + 1 := by
  have hunit : (Stream.ofBlock [⟨1, [1, 16, 8, 111, 16]⟩, ⟨1, [141]⟩]).toOption.any (fun s =>
      (Graph.build (Lowering.table .protected_) true s).toOption.any fun g =>
        (Slots.allocate g 1024).1.toOption.any fun _ =>
          (execute g (Slots.allocate g 1024).2 (Target.ofMode .protected_).route s.count
            (Target.ofMode .protected_).skeleton).1.length = 1 ∧
          repeats g (main_ g (Slots.allocate g 1024).2 s.count (start g (Target.ofMode .protected_).skeleton)) = 1) = true := by
    decide +kernel
  obtain ⟨s, hs, hunit⟩ := exists_ok_of_any hunit
  obtain ⟨g, hg, hunit⟩ := exists_ok_of_any hunit
  obtain ⟨_, hallocate, hunit⟩ := exists_ok_of_any hunit
  obtain ⟨hguards, hrepeats⟩ := of_decide_eq_true hunit
  have ha : Slots.allocate g 1024 = (.ok (), (Slots.allocate g 1024).2) := Prod.ext hallocate rfl
  obtain ⟨hmain, -, htotal⟩ := length_execute_le hs hg ha (Target.ofMode .protected_).route s.count
    (Target.ofMode .protected_).skeleton
  rw [hguards, hrepeats] at htotal
  exact ⟨s, g, _, hs, hg, ha, hguards, hrepeats, hmain, htotal⟩

/-! ### The exact number of instructions -/

end Emission

/-- Whether an act writes an instruction. This does not depend on what was written before. -/
def Act.writes (g : Graph) (slots : Slots) : Act → Bool
  | .expand _ => false
  | .own _ (.input _) | .own _ (.unknown _) => false
  | .own id _ => g.nodes[id]?.isSome
  | .load id | .store id => g.nodes[id]?.isSome && (slots.of? id).isSome
  | _ => true

/-- The number of instructions that push a node in the code of a rollback, where `kept` tells which nodes are loaded from
    their slots. -/
def Graph.recomputeLength (g : Graph) (slots : Slots) (kept : Nat → Bool) : Nat → Nat → Nat
  | 0, _ => 0
  | depth + 1, id =>
    match g.nodes[id]? with
    | none => 0
    | some n =>
      if kept id then (slots.of? id).elim 0 fun _ => 1
      else match n.origin with
        | none => 1
        | some o => (o.fragment.steps.map fun st =>
            match st.pick? n.inputs with
            | some i => g.recomputeLength slots kept depth i
            | none => if (Act.own id st).writes g slots then 1 else 0).sum

namespace Emission

/-- The number of instructions of a rollback. -/
def rollbackLength (g : Graph) (slots : Slots) (kept : Nat → Bool) (r : Rollback) : Nat :=
  ((restored g r).map fun id => g.recomputeLength slots kept (id + 1) id).sum + (if r.delta = 0 then 0 else 2) +
    (g.restores r).length + 6

section Lengths
variable {g : Graph} {slots : Slots}

theorem isSome_instr? (a : Act) (s : Emission) : (a.instr? g slots s).isSome = a.writes g slots := by
  cases a with
  | own id st => cases st <;> cases hn : g.nodes[id]? <;> simp [Act.instr?, Act.writes, Step.instr?, hn]
  | load id | store id => cases hn : g.nodes[id]? <;> simp [Act.instr?, Act.writes, hn]
  | _ => rfl

theorem length_write (a : Act) (s : Emission) :
    (a.write g slots s).code.length = s.code.length + if a.writes g slots then 1 else 0 := by
  rw [(adds?_write a s).code, List.length_append, ← isSome_instr? a s, Nat.add_comm]
  cases a.instr? g slots s <;> rfl

theorem length_perform (s : Emission) (acts : List Act) :
    (s.perform g slots acts).code.length = s.code.length + acts.countP (Act.writes g slots) := by
  induction acts generalizing s with
  | nil => rfl
  | cons a acts ih =>
    rw [perform_cons, ih, length_write, List.countP_cons]
    omega

theorem countP_recomputeActs (kept : Nat → Bool) (depth id : Nat) :
    (recomputeActs g kept depth id).countP (Act.writes g slots) = g.recomputeLength slots kept depth id := by
  induction depth generalizing id with
  | zero => rfl
  | succ depth ih =>
    unfold recomputeActs Graph.recomputeLength
    cases hn : g.nodes[id]? with
    | none => rfl
    | some n =>
      dsimp only
      split
      · cases hu : slots.of? id <;> simp [Act.writes, hn, hu]
      cases n.origin with
      | none => rfl
      | some o =>
        dsimp only
        rw [List.countP_cons_of_neg (by simp [Act.writes]), List.countP_flatMap]
        refine congrArg List.sum (List.map_congr_left fun st _ => ?_)
        cases hi : st.pick? n.inputs with
        | some i => simp only [Function.comp_apply, hi, ih]
        | none => simp only [Function.comp_apply, hi, List.countP_singleton]

theorem countP_rollbackActs (kept : Nat → Bool) (route : String) (r : Rollback) :
    (rollbackActs g kept route r).countP (Act.writes g slots) = rollbackLength g slots kept r := by
  have hpushed : ((restored g r).flatMap fun id => recomputeActs g kept (id + 1) id).countP (Act.writes g slots) =
      ((restored g r).map fun id => g.recomputeLength slots kept (id + 1) id).sum := by
    rw [List.countP_flatMap]
    exact congrArg List.sum (List.map_congr_left fun id _ => countP_recomputeActs kept (id + 1) id)
  have hdelta : (if r.delta = 0 then [] else [Act.number r.delta.toInt, Act.call Builtin.add32.name]).countP
      (Act.writes g slots) = if r.delta = 0 then 0 else 2 := by split <;> rfl
  have hset : ((g.restores r).reverse.map fun e => Act.set e.1).countP (Act.writes g slots) = (g.restores r).length := by
    have hall : ∀ a ∈ (g.restores r).reverse.map fun e => Act.set e.1, a.writes g slots = true := by
      intro a ha
      obtain ⟨e, -, rfl⟩ := List.mem_map.mp ha
      rfl
    rw [List.countP_eq_length.mpr hall, List.length_map, List.length_reverse]
  simp only [rollbackActs, rollbackBody, List.countP_append, hpushed, hdelta, hset, rollbackLength, List.cons_append,
    List.countP_cons, List.countP_nil, Act.writes, if_true]
  omega

/-- A block has the instructions of its main code and those of every rollback that guards some of it. -/
theorem length_execute_eq (route : String) (count : Nat) (m : Module) :
    (execute g slots route count m).2.code.length = (main_ g slots count (start g m)).code.length +
      ((live g (main_ g slots count (start g m))).map fun e =>
        rollbackLength g slots ((main_ g slots count (start g m)).filled e.2.first) e.1).sum := by
  rw [execute_eq_perform, executeActs, perform_append, perform_mainActs, length_perform, handlerActs, List.countP_flatMap]
  exact congrArg (_ + List.sum ·) (List.map_congr_left fun e _ => countP_rollbackActs _ route e.1)

end Lengths

/-- A value that is doubled six times and kept in four registers makes the code of one rollback larger than the graph
    allows for all code: the rollback writes the value out for each register, with all of its doublings. -/
theorem rollback_code_doubles :
    ∃ (s : Stream) (g : Graph) (slots : Slots),
      Stream.ofBlock [⟨1, [1, 16, 8, 111, 16, 8, 111, 16, 8, 111, 16, 8, 111, 16, 8, 111, 16, 8, 111, 16, 17, 18, 19]⟩,
        ⟨1, [141]⟩] = .ok s ∧
      Graph.build (Lowering.table .protected_) true s = .ok g ∧ Slots.allocate g 1024 = (.ok (), slots) ∧
      (g.rollbacks.size + 1) * (g.stepCount + 2 * g.nodes.size + 100) <
        (execute g slots (Target.ofMode .protected_).route s.count (Target.ofMode .protected_).skeleton).2.code.length := by
  -- Writing the rollback goes through every doubling; its length is known without.
  simp only [length_execute_eq]
  have hunit : (Stream.ofBlock [⟨1, [1, 16, 8, 111, 16, 8, 111, 16, 8, 111, 16, 8, 111, 16, 8, 111, 16, 8, 111,
      16, 17, 18, 19]⟩, ⟨1, [141]⟩]).toOption.any (fun s =>
      (Graph.build (Lowering.table .protected_) true s).toOption.any fun g =>
        (Slots.allocate g 1024).1.toOption.any fun _ =>
          let main := main_ g (Slots.allocate g 1024).2 s.count (start g (Target.ofMode .protected_).skeleton)
          (g.rollbacks.size + 1) * (g.stepCount + 2 * g.nodes.size + 100) < main.code.length +
            ((live g main).map fun e => rollbackLength g (Slots.allocate g 1024).2 (main.filled e.2.first) e.1).sum) =
      true := by
    decide +kernel
  obtain ⟨s, hs, hunit⟩ := exists_ok_of_any hunit
  obtain ⟨g, hg, hunit⟩ := exists_ok_of_any hunit
  obtain ⟨_, hallocate, hunit⟩ := exists_ok_of_any hunit
  exact ⟨s, g, _, hs, hg, Prod.ext hallocate rfl, of_decide_eq_true hunit⟩

end Emission
end MicroBlock
