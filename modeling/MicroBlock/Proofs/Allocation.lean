import Mathlib
import MicroBlock.Lowering
import MicroBlock.Proofs.Slots

/-! Slot allocation is exact.

A graph needs units for the values that have an effect or are asked for more than once. An allocation succeeds if and
only if it needs none or may take that many, and then these values have the units one after the other, the same ones
whatever the limit. -/

namespace MicroBlock

namespace Graph

/-! ### The nodes of a built graph -/

namespace Draft

/-- What adding a fragment does to nodes and effects, whether rollbacks are tracked or not. -/
theorem addFragment_nodes (tracked : Bool) (rec : Record) (p : Draft) (f : Fragment) :
    ∃ rollback rollbacks, p.addFragment tracked rec f =
      { p with
        nodes := p.nodes.push (p.nodeOf rec f rollback)
        rollbacks
        effects := if f.hasEffect then p.effects.push p.nodes.size else p.effects } := by
  cases hf : f.canFault && tracked with
  | false => exact ⟨none, p.rollbacks, by simp [addFragment, hf, nodeOf]⟩
  | true =>
    by_cases hback : p.rollbacks.back?.any (·.index == rec.index) = true
    · exact ⟨some (p.rollbacks.size - 1), p.rollbacks, by simp only [addFragment, hf, track, hback, if_true, nodeOf]⟩
    · exact ⟨some p.rollbacks.size, p.rollbacks.push (p.opening rec), by
        simp only [addFragment, hf, track, hback, if_true, nodeOf, opening]
        rfl⟩

/-- Inputs, effects and producers are nodes. -/
structure InBounds (p : Draft) : Prop where
  inputs : ∀ {id : Nat} {n : Node}, p.nodes[id]? = some n → ∀ i ∈ n.inputs, i < p.nodes.size
  effects : ∀ id ∈ p.effects.toList, id < p.nodes.size
  producers : ∀ e, p.producers.get e < p.nodes.size

theorem InBounds.addFragment {p : Draft} (hp : p.InBounds) (tracked : Bool) (rec : Record) (f : Fragment) :
    (p.addFragment tracked rec f).InBounds := by
  obtain ⟨rollback, rollbacks, heq⟩ := addFragment_nodes tracked rec p f
  rw [heq]
  refine ⟨fun {id n} hn i hi => ?_, fun id hid => ?_, fun e => ?_⟩
  · rw [Array.size_push]
    rcases getElem?_push_cases hn with hn | ⟨-, rfl⟩
    · exact Nat.lt_succ_of_lt (hp.inputs hn i hi)
    · obtain ⟨e, -, rfl⟩ := List.mem_map.mp hi
      exact Nat.lt_succ_of_lt (hp.producers e)
  · rw [Array.size_push]
    split at hid
    · rcases List.mem_append.mp (Array.toList_push ▸ hid) with hid | hid
      · exact Nat.lt_succ_of_lt (hp.effects id hid)
      · exact List.mem_singleton.mp hid ▸ Nat.lt_succ_self _
    · exact Nat.lt_succ_of_lt (hp.effects id hid)
  · rw [Array.size_push]
    exact Nat.lt_succ_of_lt (hp.producers e)

theorem InBounds.addFragments {p : Draft} (hp : p.InBounds) (tracked : Bool) (rec : Record) (fs : List Fragment) :
    (fs.foldl (Draft.addFragment tracked rec) p).InBounds ∧
      (fs.foldl (Draft.addFragment tracked rec) p).nodes.size = p.nodes.size + fs.length := by
  induction fs generalizing p with
  | nil => exact ⟨hp, rfl⟩
  | cons f fs ih =>
    obtain ⟨hb, hsize⟩ := ih (hp.addFragment tracked rec f)
    obtain ⟨rollback, rollbacks, heq⟩ := addFragment_nodes tracked rec p f
    refine ⟨hb, hsize.trans ?_⟩
    rw [heq, Array.size_push, List.length_cons]
    omega

theorem commit_lt {size : Nat} {producers : Producers} (hp : ∀ e, producers.get e < size) {first : Nat}
    {fs : List Fragment} (hfs : first + fs.length ≤ size) : ∀ e, (commit producers first fs).get e < size := by
  induction fs generalizing producers first with
  | nil => exact hp
  | cons f fs ih =>
    rw [List.length_cons] at hfs
    refine ih (fun e => ?_) (by omega)
    split
    · exact hp e
    · rw [Bank.get_set]
      split
      · omega
      · exact hp e

theorem InBounds.addRecord {p : Draft} (hp : p.InBounds) (tracked : Bool) (rec : Record) (fs : List Fragment) :
    (p.addRecord tracked rec fs).InBounds := by
  have henter : (p.enter rec).InBounds := by
    unfold enter
    split
    · exact hp
    · exact ⟨hp.inputs, hp.effects, hp.producers⟩
  obtain ⟨hb, hsize⟩ := henter.addFragments tracked rec fs
  have hlt : ∀ e, (p.enter rec).producers.get e < (fs.foldl (Draft.addFragment tracked rec) (p.enter rec)).nodes.size :=
    fun e => (henter.producers e).trans_le (by omega)
  exact ⟨hb.inputs, hb.effects, commit_lt hlt hsize.ge⟩

theorem InBounds.addRecords {t : Table} {tracked : Bool} {p p' : Draft} (hp : p.InBounds) {rs : List Record}
    (h : p.addRecords t tracked rs = .ok p') : p'.InBounds := by
  induction rs generalizing p with
  | nil =>
    cases h
    exact hp
  | cons rec rs ih =>
    simp only [Draft.addRecords] at h
    split at h
    · cases h
    · exact ih (hp.addRecord tracked rec _) h

theorem empty_inBounds : empty.InBounds := by
  have hv : empty.Valid fun _ => True := empty_valid
  refine ⟨fun {id n} hn i hi => ?_, fun id hid => ?_, fun e => (hv.producers e).lt⟩
  · obtain ⟨hlt, -⟩ := hv.wellFormed.input_lt hn i hi
    exact hlt.trans (Array.getElem?_eq_some_iff.mp hn).1
  · exact absurd hid List.not_mem_nil

end Draft

/-- The graph of any records is closed, whatever the table. -/
theorem build_closed {t : Table} {tracked : Bool} {s : Stream} {g : Graph} (hg : build t tracked s = .ok g) : g.Closed := by
  unfold build at hg
  split at hg
  · cases hg
  · next p hp =>
    cases hg
    have hb := Draft.empty_inBounds.addRecords hp
    refine ⟨fun id hid => ?_, fun id i hi => ?_⟩
    · rcases List.mem_append.mp hid with hid | hid
      · exact hb.effects id hid
      · obtain ⟨r, -, rfl⟩ := List.mem_map.mp hid
        exact hb.producers _
    · obtain ⟨n, hn, hin⟩ := mem_inputs.mp hi
      exact hb.inputs hn i hin

/-! ### What a graph needs -/

open Classical in
/-- The nodes that the roots lead to. -/
noncomputable def reachable (g : Graph) : Finset Nat := (Finset.range g.nodes.size).filter (Reachable g)

/-- How often a node is a root or an input of a node that the roots lead to. -/
noncomputable def demand (g : Graph) (id : Nat) : Nat := g.roots.count id + ∑ j ∈ g.reachable, (g.inputs j).count id

/-- Whether a node is to be kept in a slot. -/
def Needs (g : Graph) (id : Nat) : Prop :=
  Reachable g id ∧ ∃ n, g.nodes[id]? = some n ∧ n.element.materializable = true ∧ (2 ≤ g.demand id ∨ n.hasEffect = true)

def kindOf (g : Graph) (id : Nat) : Kind := (g.nodes[id]?.map (·.element.kind)).getD .void

open Classical in
/-- The units that the nodes to be kept take together. -/
noncomputable def need (g : Graph) : Nat := ∑ id ∈ g.reachable.filter g.Needs, (g.kindOf id).units

/-- Those of some nodes that are kept in a slot when they were reached as often as counted. -/
def keptOf (g : Graph) (counts : Array Nat) (ids : List Nat) : List Nat :=
  ids.filter fun id => g.nodes[id]?.any (Slots.keeps · (countOf counts id))

theorem kindOf_eq {g : Graph} {id : Nat} {n : Node} (hn : g.nodes[id]? = some n) : g.kindOf id = n.element.kind := by
  simp [kindOf, hn]

section Closed
variable {g : Graph} (hg : g.Closed)
include hg

theorem mem_reachable {id : Nat} : id ∈ g.reachable ↔ Reachable g id := by
  classical
  rw [reachable, Finset.mem_filter, Finset.mem_range]
  exact ⟨And.right, fun h => ⟨h.lt hg, h⟩⟩

/-- The traversal counts the demand. -/
theorem countOf_eq_demand (id : Nat) : countOf g.reach.counts id = g.demand id := by
  have hset : g.reach.order.toFinset = g.reachable := by
    ext j
    rw [List.mem_toFinset, mem_order_iff hg, mem_reachable hg]
  rw [countOf_reach hg, demand, ← hset, List.sum_toFinset _ (reach_sound hg).1.nodup]
  rfl

/-- The nodes to be kept, in the order in which the traversal reaches them. -/
def kept (g : Graph) : List Nat := g.keptOf g.reach.counts g.reach.order.reverse

theorem nodup_kept : g.kept.Nodup := (List.nodup_reverse.mpr (reach_sound hg).1.nodup).filter _

theorem mem_kept {id : Nat} : id ∈ g.kept ↔ g.Needs id := by
  rw [kept, keptOf, List.mem_filter, List.mem_reverse, mem_order_iff hg, countOf_eq_demand hg, Option.any_eq_true]
  simp only [Needs, Slots.keeps, Bool.and_eq_true, Bool.or_eq_true, decide_eq_true_eq]

theorem sum_kept : (g.kept.map fun id => (g.kindOf id).units).sum = g.need := by
  classical
  have hset : g.kept.toFinset = g.reachable.filter g.Needs := by
    ext id
    rw [List.mem_toFinset, mem_kept hg, Finset.mem_filter, mem_reachable hg]
    exact ⟨fun h => ⟨h.1, h⟩, And.right⟩
  rw [need, ← hset, List.sum_toFinset _ (nodup_kept hg)]

end Closed
end Graph

namespace Slots
open MicroBlock.Graph

/-! ### Filling slots -/

/-- The slots after some nodes were given units one after the other. -/
def fill (g : Graph) (ids : List Nat) (s : Slots) : Slots := ids.foldl (fun s id => s.assign id (g.kindOf id)) s

theorem units_le_fill (g : Graph) (ids : List Nat) (s : Slots) : s.units ≤ (s.fill g ids).units := by
  induction ids generalizing s with
  | nil => exact le_rfl
  | cons id ids ih => exact (s.units_assign id _).1.le.trans (ih _)

/-- Which allocations succeed, and what with. -/
theorem allocateFrom_eq_ok_iff {g : Graph} {counts : Array Nat} {limit : Int} {ids : List Nat} {s s' : Slots} :
    allocateFrom g counts limit ids s = (.ok (), s') ↔
      (g.keptOf counts ids = [] ∨ ((s.fill g (g.keptOf counts ids)).units : Int) ≤ limit) ∧
        s' = s.fill g (g.keptOf counts ids) := by
  fun_induction allocateFrom g counts limit ids s with
  | case1 s => simp [keptOf, fill, eq_comm]
  | case2 id rest s hn ih => rw [ih, keptOf, keptOf, List.filter_cons_of_neg (by simp [hn])]
  | case3 id rest s n hn hkeep k hexceeds =>
    have hk : n.element.kind ≠ .void := Element.kind_ne_void (Bool.and_eq_true_iff.mp hkeep).1
    have hle := units_le_fill g (g.keptOf counts rest) (s.assign id n.element.kind)
    rw [units_assign_eq s id hk] at hle
    rw [keptOf, List.filter_cons_of_pos (by simpa [hn, countOf] using hkeep), ← keptOf]
    simp only [fill, List.foldl_cons, kindOf_eq hn] at hle ⊢
    constructor
    · intro h
      cases h
    · -- The units of this node alone exceed the limit, and the later ones only add to them.
      rintro ⟨h | h, -⟩
      · cases h
      · have : limit < ((s.units + n.element.kind.units : Nat) : Int) := hexceeds
        omega
  | case4 id rest s n hn hkeep k hfits ih =>
    have hk : k ≠ .void := Element.kind_ne_void (Bool.and_eq_true_iff.mp hkeep).1
    rw [ih, keptOf, keptOf, List.filter_cons_of_pos (by simpa [hn, countOf] using hkeep)]
    simp only [fill, List.foldl_cons, kindOf_eq hn, List.cons_ne_nil, false_or]
    refine and_congr_left fun _ => ⟨?_, .inr⟩
    rintro (h | h)
    · rw [h, List.foldl_nil, units_assign_eq s id hk]
      omega
    · exact h
  | case5 id rest s n hn hkeep ih =>
    rw [ih, keptOf, keptOf, List.filter_cons_of_neg (by simpa [hn, countOf] using hkeep)]

/-- Exactly the nodes in question have slots. No two share a unit and no unit is left out; the first unit of a node is of
    its kind, and the second one of a long is void. -/
structure Tiled (g : Graph) (holds : Nat → Prop) (s : Slots) : Prop where
  size : s.assigned.size = g.nodes.size
  exists_iff : ∀ id, (∃ u, s.of? id = some u) ↔ holds id
  within : ∀ {id u : Nat}, s.of? id = some u → u + (g.kindOf id).units ≤ s.units
  apart : ∀ {id id' u u' : Nat}, s.of? id = some u → s.of? id' = some u' → id ≠ id' →
    u + (g.kindOf id).units ≤ u' ∨ u' + (g.kindOf id').units ≤ u
  covers : ∀ v < s.units, ∃ id u, s.of? id = some u ∧ u ≤ v ∧ v < u + (g.kindOf id).units
  kind : ∀ {id u : Nat}, s.of? id = some u → s.kinds[u]? = some (g.kindOf id)
  second : ∀ {id u : Nat}, s.of? id = some u → g.kindOf id = .long → s.kinds[u + 1]? = some .void

theorem kinds_assign_of_lt {s : Slots} {u : Nat} (hu : u < s.units) (id : Nat) (k : Kind) :
    (s.assign id k).kinds[u]? = s.kinds[u]? := List.getElem?_append_left hu

/-- The next node takes the next units. -/
theorem Tiled.assign {g : Graph} {holds : Nat → Prop} {s : Slots} (hs : s.Tiled g holds) {id : Nat}
    (hid : id < g.nodes.size) (hk : g.kindOf id ≠ .void) (hnot : ¬holds id) :
    (s.assign id (g.kindOf id)).Tiled g (fun j => j = id ∨ holds j) := by
  have hof := of?_assign (s := s) (hs.size ▸ hid) (g.kindOf id)
  have hunits := units_assign_eq s id hk
  have hnone : ∀ {j u : Nat}, s.of? j = some u → id ≠ j := by
    rintro j u hj rfl
    exact hnot ((hs.exists_iff id).mp ⟨u, hj⟩)
  have hold : ∀ {j u : Nat}, s.of? j = some u → (s.assign id (g.kindOf id)).of? j = some u := by
    intro j u hj
    rw [hof, if_neg (hnone hj), hj]
  have hcases : ∀ {j u : Nat}, (s.assign id (g.kindOf id)).of? j = some u → j = id ∧ u = s.units ∨ s.of? j = some u := by
    intro j u hj
    rw [hof] at hj
    split at hj
    · next h => exact .inl ⟨h.symm, (Option.some.inj hj).symm⟩
    · exact .inr hj
  refine ⟨by simp [Slots.assign, hs.size], fun j => ⟨?_, ?_⟩, fun {j u} hj => ?_, fun {j j' u u'} hj hj' hne => ?_,
    fun v hv => ?_, fun {j u} hj => ?_, fun {j u} hj hlong => ?_⟩
  · rintro ⟨u, hj⟩
    exact (hcases hj).imp And.left fun h => (hs.exists_iff j).mp ⟨u, h⟩
  · rintro (rfl | h)
    · exact ⟨_, by rw [hof, if_pos rfl]⟩
    · obtain ⟨u, hu⟩ := (hs.exists_iff j).mpr h
      exact ⟨u, hold hu⟩
  · rw [hunits]
    rcases hcases hj with ⟨rfl, rfl⟩ | hj
    · exact le_rfl
    · exact (hs.within hj).trans (Nat.le_add_right _ _)
  · rcases hcases hj with ⟨rfl, rfl⟩ | hold₁ <;> rcases hcases hj' with ⟨rfl, rfl⟩ | hold₂
    · exact absurd rfl hne
    · -- Old nodes end before the new one begins.
      exact .inr (hs.within hold₂)
    · exact .inl (hs.within hold₁)
    · exact hs.apart hold₁ hold₂ hne
  · rw [hunits] at hv
    by_cases hlt : v < s.units
    · obtain ⟨j, u, hj, hle, hv'⟩ := hs.covers v hlt
      exact ⟨j, u, hold hj, hle, hv'⟩
    · exact ⟨id, s.units, by rw [hof, if_pos rfl], Nat.le_of_not_lt hlt, hv⟩
  · rcases hcases hj with ⟨rfl, rfl⟩ | hj
    · simp [Slots.assign, units]
    · have hlt : u < s.units := (List.getElem?_eq_some_iff.mp (hs.kind hj)).1
      rw [kinds_assign_of_lt hlt]
      exact hs.kind hj
  · rcases hcases hj with ⟨rfl, rfl⟩ | hj
    · simp [Slots.assign, units, hlong, Kind.units]
    · have hlt : u + 1 < s.units := (List.getElem?_eq_some_iff.mp (hs.second hj hlong)).1
      rw [kinds_assign_of_lt hlt]
      exact hs.second hj hlong

/-- Nodes that are filled in, each once, take all units. -/
theorem tiled_fill {g : Graph} {ids : List Nat} (hids : ids.Nodup) (hlt : ∀ id ∈ ids, id < g.nodes.size)
    (hk : ∀ id ∈ ids, g.kindOf id ≠ .void) :
    ((empty g.nodes.size).fill g ids).Tiled g (· ∈ ids) ∧
      ((empty g.nodes.size).fill g ids).units = (ids.map fun id => (g.kindOf id).units).sum := by
  induction ids using List.reverseRecOn with
  | nil =>
    have hnone : ∀ id, (empty g.nodes.size).of? id = none := by
      intro id
      rw [of?, empty, Array.getElem?_replicate]
      split <;> rfl
    refine ⟨⟨by simp [fill, empty], ?_, ?_, ?_, fun v hv => absurd hv (Nat.not_lt_zero v), ?_, ?_⟩, rfl⟩ <;>
      simp [fill, hnone]
  | append_singleton ids id ih =>
    obtain ⟨hids', -, hdisj⟩ := List.nodup_append'.mp hids
    have hnot : id ∉ ids := fun h => hdisj h (List.mem_singleton_self id)
    have hmem : id ∈ ids ++ [id] := List.mem_append_right _ (List.mem_singleton_self id)
    obtain ⟨ht, hu⟩ := ih hids' (fun j hj => hlt j (List.mem_append_left _ hj)) fun j hj => hk j (List.mem_append_left _ hj)
    have hfill : (empty g.nodes.size).fill g (ids ++ [id]) =
        ((empty g.nodes.size).fill g ids).assign id (g.kindOf id) := by
      rw [fill, List.foldl_append]
      rfl
    have hP : (fun j => j ∈ ids ++ [id]) = fun j => j = id ∨ j ∈ ids := by
      funext j
      simp [or_comm]
    rw [hfill, hP, units_assign_eq _ id (hk id hmem), hu]
    exact ⟨ht.assign (hlt id hmem) (hk id hmem) hnot, by simp⟩

/-- An allocation succeeds if and only if the graph needs no units or the limit allows those it needs. Its slots are
    always the same: they have as many units as are needed, and these belong to the nodes to be kept. -/
theorem allocate_exact {t : Table} {tracked : Bool} {s : Stream} {g : Graph} (hg : Graph.build t tracked s = .ok g) :
    ∃ slots : Slots, slots.units = g.need ∧ slots.Tiled g g.Needs ∧
      ∀ (limit : Int) (slots' : Slots),
        allocate g limit = (.ok (), slots') ↔ (g.need = 0 ∨ (g.need : Int) ≤ limit) ∧ slots' = slots := by
  have hc := build_closed hg
  have hk : ∀ id ∈ g.kept, g.kindOf id ≠ .void := by
    intro id hid
    obtain ⟨-, n, hn, hm, -⟩ := (mem_kept hc).mp hid
    rw [kindOf_eq hn]
    exact Element.kind_ne_void hm
  obtain ⟨ht, hu⟩ := tiled_fill (nodup_kept hc) (fun id hid => ((mem_kept hc).mp hid).1.lt hc) hk
  rw [sum_kept hc] at hu
  have hP : (fun id => id ∈ g.kept) = g.Needs := funext fun id => propext (mem_kept hc)
  refine ⟨_, hu, hP ▸ ht, fun limit slots' => ?_⟩
  have hnil : g.kept = [] ↔ g.need = 0 := by
    refine ⟨fun h => ?_, fun h => ?_⟩
    · rw [← hu, h]
      rfl
    · rw [List.eq_nil_iff_forall_not_mem]
      intro id hid
      obtain ⟨u, hid'⟩ := (ht.exists_iff id).mpr hid
      have hlt := (List.getElem?_eq_some_iff.mp (ht.kind hid')).1
      have : u < g.need := hu ▸ hlt
      omega
  rw [← hnil, ← hu]
  exact allocateFrom_eq_ok_iff

/-- A product that is divided again is kept twice as a long. -/
theorem allocate_exact_division :
    ∃ (s : Stream) (g : Graph), Stream.ofBlock [⟨3, [0, 11, 143, 144, 146]⟩, ⟨2, [145, 11, 147]⟩] = .ok s ∧
      Graph.build (Lowering.table .real) true s = .ok g ∧ g.need = 10 ∧
      ∀ limit : Int, (∃ slots, allocate g limit = (.ok (), slots)) ↔ 10 ≤ limit := by
  have hunit : (Stream.ofBlock [⟨3, [0, 11, 143, 144, 146]⟩, ⟨2, [145, 11, 147]⟩]).toOption.any (fun s =>
      (Graph.build (Lowering.table .real) true s).toOption.any fun g =>
        (allocate g 10).1.toOption.any fun _ => (allocate g 10).2.units = 10) = true := by
    decide +kernel
  obtain ⟨s, hs, hunit⟩ := exists_ok_of_any hunit
  obtain ⟨g, hg, hunit⟩ := exists_ok_of_any hunit
  obtain ⟨_, hallocate, hunit⟩ := exists_ok_of_any hunit
  obtain ⟨slots, hu, -, hiff⟩ := allocate_exact hg
  have hten : allocate g 10 = (.ok (), (allocate g 10).2) := Prod.ext hallocate rfl
  have hneed : g.need = 10 := by rw [← hu, ← ((hiff 10 _).mp hten).2, of_decide_eq_true hunit]
  refine ⟨s, g, hs, hg, hneed, fun limit => ⟨?_, fun h => ⟨slots, (hiff limit slots).mpr ⟨.inr (by omega), rfl⟩⟩⟩⟩
  rintro ⟨slots', h⟩
  rcases ((hiff limit slots').mp h).1 with h | h <;> omega

end Slots
end MicroBlock
