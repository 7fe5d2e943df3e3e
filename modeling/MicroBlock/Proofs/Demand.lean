import Mathlib
import MicroBlock.Proofs.Slots

/-! How often the nodes of a graph are asked for.

The steps of a node push its inputs, most of them once. A node that two others ask for is kept in a slot, so a node
without a slot is asked for once. The exception are the fragments that move a 16-bit stack pointer: they push ESP twice,
but then an effect of the same record has it as an input too. -/

namespace MicroBlock

/-! ### Fragments -/

/-- What an input step picks among the inputs of its fragment. -/
def Step.pick? {α : Type} (inputs : List α) : Step → Option α
  | .input i => if i < 0 then none else inputs[i.toNat]?
  | _ => none

theorem Step.pick?_map {α β : Type} (f : α → β) (inputs : List α) (s : Step) :
    s.pick? (inputs.map f) = (s.pick? inputs).map f := by
  cases s with
  | input i =>
    simp only [pick?]
    split
    · rfl
    · rw [List.getElem?_map]
  | literal | dup | pop | call | unknown => rfl

theorem Step.mem_of_pick? {α : Type} {inputs : List α} {s : Step} {a : α} (h : s.pick? inputs = some a) : a ∈ inputs := by
  cases s with
  | input i =>
    simp only [pick?] at h
    split at h
    · cases h
    · exact List.mem_of_getElem? h
  | literal | dup | pop | call | unknown => cases h

/-- What the steps of a fragment pick among its inputs, in order. -/
def Fragment.picks {α : Type} (f : Fragment) (inputs : List α) : List α := f.steps.filterMap (·.pick? inputs)

theorem Fragment.picks_map {α β : Type} (f : Fragment) (g : α → β) (inputs : List α) :
    f.picks (inputs.map g) = (f.picks inputs).map g := by
  simp only [picks, Step.pick?_map, List.map_filterMap]

/-- Whether a fragment of an op pushes every input as often as it has it, or an effect of the op has the input too. -/
def Fragment.isThrifty (fs : List Fragment) (f : Fragment) : Bool :=
  (f.picks f.inputs).all fun e => (f.picks f.inputs).count e ≤ f.inputs.count e ||
    !f.hasEffect && fs.any fun f' => f'.hasEffect && f'.inputs.contains e

theorem Lowering.isThrifty_of_mem {mode : Mode} {op : Option Op} {f : Fragment}
    (hf : f ∈ (Lowering.table mode).targets? op) : f.isThrifty ((Lowering.table mode).targets? op) = true := by
  have h : ∀ m ∈ Mode.all, ∀ op ∈ Op.all, ∀ f ∈ Lowering.targets m op, f.isThrifty (Lowering.targets m op) = true := by
    decide +kernel
  cases op with
  | none => cases hf
  | some op => exact h mode mode.mem_all op op.mem_all f hf

/-- The nodes that the steps of a node push, in order. -/
def Node.picks (n : Node) : List Nat := n.origin.elim [] fun o => o.fragment.picks n.inputs

theorem Node.picks_subset (n : Node) : n.picks ⊆ n.inputs := by
  intro j hj
  unfold picks at hj
  cases ho : n.origin with
  | none =>
    rw [ho] at hj
    cases hj
  | some o =>
    rw [ho] at hj
    obtain ⟨s, -, hs⟩ := List.mem_filterMap.mp hj
    exact Step.mem_of_pick? hs

namespace Graph

/-! ### The nodes of one record -/

/-- Every node stands with the nodes of all fragments of its record, and they have their inputs from the same bank. -/
def Mated (t : Table) (nodes : Array Node) : Prop :=
  ∀ (id : Nat) (n : Node) (o : Origin), nodes[id]? = some n → n.origin = some o →
    ∃ producers : Producers, (∀ e, Holds nodes (producers.get e) e) ∧ o.fragment ∈ t.targets? o.record.op ∧
      n.inputs = o.fragment.inputs.map producers.get ∧
      ∀ f ∈ t.targets? o.record.op, ∃ (id' : Nat) (n' : Node), nodes[id']? = some n' ∧
        n'.origin = some ⟨o.record, f⟩ ∧ n'.inputs = f.inputs.map producers.get

namespace Draft
variable {startOf : Nat → Int64} {P : Fragment → Prop} {t : Table} {p : Draft} {rec : Record}

theorem size_addFragments (p : Draft) (rec : Record) (fs : List Fragment) :
    (fs.foldl (addFragment true rec) p).nodes.size = p.nodes.size + fs.length := by
  have htrack : ∀ p : Draft, (p.track rec).2.nodes = p.nodes := by
    intro p
    unfold track
    split <;> rfl
  have hone : ∀ p f, (addFragment true rec p f).nodes.size = p.nodes.size + 1 := by
    intro p f
    cases hf : f.canFault <;> simp [addFragment, hf, htrack]
  induction fs generalizing p with
  | nil => rfl
  | cons f fs ih =>
    rw [List.foldl_cons, ih, hone, List.length_cons]
    omega

theorem Mated.addRecord (hm : Mated t p.nodes) (hv : p.Valid P) (hp : p.Fresh startOf)
    (hle : ∀ i, p.index = some i → i ≤ rec.index) (hstart : rec.start = startOf rec.index) :
    Mated t (p.addRecord true rec (t.targets? rec.op)).nodes := by
  have hi := p.index_enter rec
  have hp' := hp.enter hle
  have hg := grows_addFragments hp' hi hstart (t.targets? rec.op)
  have hsize := size_addFragments (p.enter rec) rec (t.targets? rec.op)
  have hold : Extends p.nodes (p.addRecord true rec (t.targets? rec.op)).nodes :=
    (extends_addRecord hp hle hstart (t.targets? rec.op)).1
  have henter : (p.enter rec).nodes = p.nodes := by
    unfold enter
    split <;> rfl
  intro id n o hn ho
  by_cases hid : id < p.nodes.size
  · have hnode := Array.getElem?_eq_getElem hid
    cases hn.symm.trans (hold id _ hnode)
    obtain ⟨producers, hholds, hmem, hinputs, hmates⟩ := hm id _ o hnode ho
    refine ⟨producers, fun e => (hholds e).mono hold, hmem, hinputs, fun f hf => ?_⟩
    obtain ⟨id', n', hn', hrest⟩ := hmates f hf
    exact ⟨id', n', hold id' n' hn', hrest⟩
  · -- A node of this record: it stands where its fragment stands in the op.
    have hlt : id < (p.enter rec).nodes.size + (t.targets? rec.op).length :=
      hsize ▸ (Array.getElem?_eq_some_iff.mp hn).1
    obtain ⟨j, rfl⟩ := Nat.exists_eq_add_of_le (Nat.le_of_not_lt (henter ▸ hid : ¬id < (p.enter rec).nodes.size))
    have hj := List.getElem?_eq_getElem (Nat.lt_of_add_lt_add_left hlt)
    obtain ⟨rollback, hnode⟩ := nodes_addFragments hp' hi hstart hj
    cases hn.symm.trans hnode
    cases ho
    refine ⟨(p.enter rec).producers, fun e => ((hv.enter rec).producers e).mono hg.nodes, List.mem_of_getElem? hj, rfl,
      fun f hf => ?_⟩
    obtain ⟨k, hk⟩ := List.mem_iff_getElem?.mp hf
    obtain ⟨rollback', hmate⟩ := nodes_addFragments hp' hi hstart hk
    exact ⟨_, _, hmate, rfl, rfl⟩

theorem Mated.addRecords (ht : t.All P) {p p' : Draft} {rs : List Record} (hrs : Record.Ordered startOf rs)
    (hm : Mated t p.nodes) (hv : p.Valid P) (hp : p.Fresh startOf)
    (hle : ∀ i, p.index = some i → ∀ r ∈ rs, i ≤ r.index) (h : p.addRecords t true rs = .ok p') : Mated t p'.nodes := by
  induction rs generalizing p with
  | nil =>
    cases h
    exact hm
  | cons rec rs ih =>
    obtain ⟨hsorted, hstarts⟩ := hrs
    obtain ⟨hhead, htail⟩ := List.pairwise_cons.mp hsorted
    simp only [Draft.addRecords] at h
    split at h
    · cases h
    · have hle' := fun i hi => hle i hi rec List.mem_cons_self
      have hstart := hstarts rec List.mem_cons_self
      obtain ⟨hv', hp', hi'⟩ := addRecord_valid hv hp hle' hstart (ht rec.op)
      refine ih ⟨htail, fun r hr => hstarts r (List.mem_cons_of_mem rec hr)⟩ (Mated.addRecord hm hv hp hle' hstart) hv' hp'
        (fun i hi r hr => ?_) h
      rw [hi', Option.some.injEq] at hi
      exact hi ▸ hhead r hr

end Draft

theorem build_mated {P : Fragment → Prop} {t : Table} (ht : t.All P) {b : Block} {s : Stream} (hs : Stream.ofBlock b = .ok s) {g : Graph}
    (hg : build t true s = .ok g) : Mated t g.nodes := by
  obtain ⟨startOf, hrs⟩ := Stream.ordered_of_ofBlock hs
  unfold build at hg
  split at hg
  · cases hg
  · next p hp =>
    cases hg
    refine Draft.Mated.addRecords ht hrs ?_ Draft.empty_valid nofun nofun hp
    intro id n o hn ho
    obtain ⟨e, -, rfl⟩ := Draft.empty_nodes hn
    cases ho

theorem Holds.element_eq {nodes : Array Node} {id : Nat} {e e' : Element} (h : Holds nodes id e) (h' : Holds nodes id e') :
    e = e' := by
  obtain ⟨n, hn, rfl, -⟩ := h
  obtain ⟨n', hn', rfl, -⟩ := h'
  cases hn.symm.trans hn'
  rfl

/-- A node asks for an input as often as it has it, or else an effect besides it has the input too. -/
theorem Mated.count_picks {t : Table} {nodes : Array Node} (hm : Mated t nodes)
    (ht : ∀ op, ∀ f ∈ t.targets? op, f.isThrifty (t.targets? op) = true) {id : Nat} {n : Node} (hn : nodes[id]? = some n)
    (j : Nat) :
    n.picks.count j ≤ n.inputs.count j ∨
      ∃ (id' : Nat) (n' : Node), id' ≠ id ∧ nodes[id']? = some n' ∧ n'.hasEffect = true ∧ j ∈ n'.inputs := by
  by_cases hj : j ∈ n.picks
  · obtain ⟨o, ho⟩ : ∃ o, n.origin = some o := by
      cases ho : n.origin with
      | none =>
        rw [Node.picks, ho] at hj
        cases hj
      | some o => exact ⟨o, rfl⟩
    obtain ⟨producers, hholds, hmem, hinputs, hmates⟩ := hm id n o hn ho
    have hinj : Function.Injective producers.get := fun e e' he => (hholds e).element_eq (he ▸ hholds e')
    have hpicks : n.picks = (o.fragment.picks o.fragment.inputs).map producers.get := by
      rw [Node.picks, ho, hinputs]
      exact Fragment.picks_map _ _ _
    rw [hpicks] at hj ⊢
    obtain ⟨e, he, rfl⟩ := List.mem_map.mp hj
    have hthrifty := List.all_eq_true.mp (ht _ _ hmem) e he
    simp only [Bool.or_eq_true, decide_eq_true_eq, Bool.and_eq_true, Bool.not_eq_true'] at hthrifty
    rcases hthrifty with hle | ⟨hpure, hany⟩
    · left
      rw [hinputs, List.count_map_of_injective _ _ hinj, List.count_map_of_injective _ _ hinj]
      exact hle
    · right
      obtain ⟨f, hf, hf'⟩ := List.any_eq_true.mp hany
      simp only [Bool.and_eq_true, List.contains_iff_mem] at hf'
      obtain ⟨id', n', hn', ho', hinputs'⟩ := hmates f hf
      have heffect : n'.hasEffect = true := by simpa [Node.hasEffect, ho'] using hf'.1
      refine ⟨id', n', ?_, hn', heffect, ?_⟩
      · rintro rfl
        cases hn.symm.trans hn'
        rw [Node.hasEffect, ho, Option.any_some, hpure] at heffect
        cases heffect
      · rw [hinputs']
        exact List.mem_map_of_mem hf'.2
  · left
    rw [List.count_eq_zero.mpr hj]
    exact Nat.zero_le _

/-! ### Reach -/

theorem sum_map_le {ids ids' : List Nat} (hids : ids.Nodup) (hsub : ids ⊆ ids') (f : Nat → Nat) :
    (ids.map f).sum ≤ (ids'.map f).sum := by
  obtain ⟨l, hperm, hl⟩ := List.subperm_of_subset hids hsub
  rw [← (hperm.map f).sum_eq]
  exact (hl.map f).sum_le_sum fun _ _ => Nat.zero_le _

/-- An input of two nodes that are reached is reached twice. -/
theorem two_le_countOf {g : Graph} (hg : g.Closed) {id id' j : Nat} (hid : id ∈ g.reach.order) (hid' : id' ∈ g.reach.order) (hne : id' ≠ id)
    (hj : j ∈ g.inputs id) (hj' : j ∈ g.inputs id') : 2 ≤ countOf g.reach.counts j := by
  have huses : g.inputUses [id', id] j ≤ g.inputUses g.reach.order j := by
    refine sum_map_le (by simpa using hne) ?_ _
    intro x hx
    rcases List.mem_cons.mp hx with rfl | hx
    · exact hid'
    · exact List.mem_singleton.mp hx ▸ hid
  have h := List.count_pos_iff.mpr hj
  have h' := List.count_pos_iff.mpr hj'
  rw [countOf_reach hg]
  simp only [inputUses, List.map_cons, List.sum_cons, List.map_nil, List.sum_nil] at huses
  simp only [inputUses]
  omega

section Reach
variable {g : Graph} {P : Fragment → Prop} (hg : g.Valid P)
include hg

/-- An effect without a value is reached as a root only, and once. -/
theorem countOf_of_void {id : Nat} {n : Node} {o : Origin} (hn : g.nodes[id]? = some n) (ho : n.origin = some o)
    (hk : n.element.kind = .void) : countOf g.reach.counts id ≤ 1 := by
  have hnot : ∀ e, ¬Holds g.nodes id e := by
    rintro e ⟨n', hn', rfl, hor⟩
    cases hn.symm.trans hn'
    rcases hor with h | h
    · rw [ho] at h
      cases h
    · exact h hk
  have huses : g.inputUses g.reach.order id = 0 := by
    refine List.sum_eq_zero fun x hx => ?_
    obtain ⟨i, -, rfl⟩ := List.mem_map.mp hx
    refine List.count_eq_zero.mpr fun hi => ?_
    obtain ⟨n', hn', hin⟩ := mem_inputs.mp hi
    obtain ⟨-, e, he⟩ := hg.wellFormed.input_lt hn' id hin
    exact hnot e he
  have hchanged : (g.changed.map fun r => g.final.get (.reg r)).count id = 0 := by
    refine List.count_eq_zero.mpr fun hi => ?_
    obtain ⟨r, -, rfl⟩ := List.mem_map.mp hi
    exact hnot _ (hg.final (.reg r))
  have heffects : g.effects.toList.count id ≤ 1 := by
    refine List.nodup_iff_count_le_one.mp ?_ id
    rw [hg.effects]
    exact List.nodup_range.filter _
  rw [countOf_reach hg.closed, huses, roots, List.count_append, hchanged]
  omega

/-- A node that is reached, is not initial and has no slot is reached once. -/
theorem countOf_of_unslotted [Fragment.Writable P] {slots : Slots}
    (hkeeps : ∀ id ∈ g.reach.order, ∀ n, g.nodes[id]? = some n → Slots.keeps n (countOf g.reach.counts id) = true →
      ∃ u, slots.of? id = some u) {id : Nat} (hid : id ∈ g.reach.order) {n : Node} {o : Origin}
    (hn : g.nodes[id]? = some n) (ho : n.origin = some o) (hnone : slots.of? id = none) :
    countOf g.reach.counts id ≤ 1 := by
  by_cases hk : n.element.kind = .void
  · exact countOf_of_void hg hn ho hk
  · by_contra hlt
    have helement := hg.wellFormed.element hn ho
    have hm := Fragment.Writable.materializable (hg.wellFormed.fragment hn ho) (helement ▸ hk)
    obtain ⟨u, hu⟩ := hkeeps id hid n hn (by
      rw [Slots.keeps, helement, hm]
      simp only [Bool.true_and, Bool.or_eq_true, decide_eq_true_eq]
      left
      omega)
    rw [hnone] at hu
    cases hu

end Reach
end Graph
end MicroBlock
