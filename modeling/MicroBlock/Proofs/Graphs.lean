import Mathlib
import MicroBlock.Dataflow.Graph
import MicroBlock.Proofs.Fragments

/-! The graphs of blocks are well formed.

The initial values come first, one for every element; every other node applies a fragment of the table to
older nodes that hold values of its inputs. The nodes with effects are listed in program order. A node
that can fault has a rollback, whose snapshot holds older nodes, and later nodes have later rollbacks. -/

namespace MicroBlock

/-- A check that a result passes is passed by its value. -/
theorem exists_ok_of_any {ε α : Type} {x : Except ε α} {p : α → Bool} (h : x.toOption.any p = true) :
    ∃ a, x = .ok a ∧ p a = true := by
  cases x with
  | error e => cases h
  | ok a => exact ⟨a, rfl, h⟩

theorem eq_error_of_map {ε α β : Type} {x : Except ε α} {f : α → β} {e : ε} (h : x.map f = .error e) : x = .error e := by
  cases x with
  | error e' =>
    cases h
    rfl
  | ok a => cases h

/-! ### Records in order -/

/-- The numbers of instructions never fall, and each decides where its instruction begins. -/
structure Record.Ordered (startOf : Nat → Int64) (rs : List Record) : Prop where
  sorted : rs.Pairwise fun a b => a.index ≤ b.index
  starts : ∀ r ∈ rs, r.start = startOf r.index

theorem Stream.mem_recordsOf {start position : Int64} {index : Nat} {ws : List Int32} {rs : List Record}
    (h : recordsOf start position index ws = .ok rs) : ∀ r ∈ rs, r.start = start ∧ r.index = index := by
  fun_induction recordsOf start position index ws generalizing rs with
  | case1 => cases h; simp
  | case2 | case3 | case5 | case7 => cases h
  | case4 _ _ _ _ _ _ _ hrs ih | case6 _ _ _ _ _ _ hrs ih | case8 _ _ _ _ hrs ih =>
    cases h
    simpa using ih hrs

theorem Stream.ordered_recordsFrom {start : Int64} {index : Nat} {b : Block} {rs : List Record}
    (h : recordsFrom start index b = .ok rs) :
    (∀ r ∈ rs, index ≤ r.index) ∧ ∃ startOf, Record.Ordered startOf rs := by
  fun_induction recordsFrom start index b generalizing rs with
  | case1 => cases h; exact ⟨by simp, fun _ => 0, by simp, by simp⟩
  | case2 | case3 => cases h
  | case4 start index i is first hfirst rest hrest ih =>
    cases h
    obtain ⟨hge, startOf, hsorted, hstarts⟩ := ih hrest
    have hmem := mem_recordsOf hfirst
    refine ⟨fun r hr => ?_, fun k => if k = index then start else startOf k, ?_, fun r hr => ?_⟩
    · rcases List.mem_append.mp hr with hr | hr
      · exact (hmem r hr).2.ge
      · exact Nat.le_of_succ_le (hge r hr)
    · refine List.pairwise_append.mpr ⟨?_, hsorted, fun a ha r hr => ?_⟩
      · exact List.pairwise_of_forall_mem_list fun a ha r hr => by rw [(hmem a ha).2, (hmem r hr).2]
      · rw [(hmem a ha).2]
        exact Nat.le_of_succ_le (hge r hr)
    · rcases List.mem_append.mp hr with hr | hr
      · simp [hmem r hr]
      · rw [hstarts r hr, if_neg (by have := hge r hr; omega)]

theorem Stream.ordered_of_ofBlock {b : Block} {s : Stream} (h : ofBlock b = .ok s) :
    ∃ startOf, Record.Ordered startOf s.records := by
  unfold ofBlock at h
  split at h
  · cases h
  · next rs hrs =>
    split at h
    · cases h
    · cases h
      exact (ordered_recordsFrom hrs).2

/-! ### Tables -/

/-- Every fragment of the table is of a family. -/
def Table.All (P : Fragment → Prop) (t : Table) : Prop := ∀ op, ∀ f ∈ t.targets? op, P f

def Table.Disciplined (t : Table) : Prop := t.All Fragment.Disciplined

theorem Lowering.table_disciplined (mode : Mode) : (table mode).Disciplined := fun _ _ hf => isDisciplined_of_mem hf

namespace Graph

/-! ### Arrays that grow at the end -/

/-- All entries of the first array are in the second, at the same places. -/
def Extends {α : Type} (a b : Array α) : Prop := ∀ (i : Nat) (x : α), a[i]? = some x → b[i]? = some x

theorem Extends.refl {α : Type} (a : Array α) : Extends a a := fun _ _ => id

theorem Extends.trans {α : Type} {a b c : Array α} (h : Extends a b) (h' : Extends b c) : Extends a c :=
  fun i x hx => h' i x (h i x hx)

theorem Extends.push {α : Type} (a : Array α) (y : α) : Extends a (a.push y) := fun i x hx => by
  obtain ⟨hi, rfl⟩ := Array.getElem?_eq_some_iff.mp hx
  exact Array.getElem?_push_lt hi

theorem getElem?_push_cases {α : Type} {a : Array α} {y x : α} {i : Nat} (h : (a.push y)[i]? = some x) :
    a[i]? = some x ∨ i = a.size ∧ x = y := by
  rw [Array.getElem?_push] at h
  split at h
  · next hi => exact .inr ⟨hi, (Option.some.inj h).symm⟩
  · exact .inl h

/-! ### Nodes -/

/-- A node whose value is one of an element. -/
def Holds (nodes : Array Node) (id : Nat) (e : Element) : Prop :=
  ∃ n, nodes[id]? = some n ∧ n.element = e ∧ (n.origin = none ∨ e.kind ≠ .void)

theorem Holds.mono {nodes nodes' : Array Node} (hn : Extends nodes nodes') {id : Nat} {e : Element}
    (h : Holds nodes id e) : Holds nodes' id e := by
  obtain ⟨n, hid, hrest⟩ := h
  exact ⟨n, hn id n hid, hrest⟩

theorem Holds.lt {nodes : Array Node} {id : Nat} {e : Element} (h : Holds nodes id e) : id < nodes.size := by
  obtain ⟨n, hid, -⟩ := h
  exact (Array.getElem?_eq_some_iff.mp hid).1

/-- Nodes of fragments of a family, applied to older nodes. -/
structure WellFormed (nodes : Array Node) (P : Fragment → Prop := Fragment.Disciplined) : Prop where
  initial : ∀ e, nodes[initialNode e]? = some (.initial e)
  leaf : ∀ {id : Nat} {n : Node}, nodes[id]? = some n → n.origin = none → ∃ e, id = initialNode e ∧ n = .initial e
  fragment : ∀ {id : Nat} {n : Node} {o : Origin}, nodes[id]? = some n → n.origin = some o → P o.fragment
  element : ∀ {id : Nat} {n : Node} {o : Origin}, nodes[id]? = some n → n.origin = some o → n.element = o.fragment.target
  inputs : ∀ {id : Nat} {n : Node} {o : Origin}, nodes[id]? = some n → n.origin = some o →
    List.Forall₂ (fun i e => i < id ∧ Holds nodes i e) n.inputs o.fragment.inputs

namespace WellFormed
variable {nodes : Array Node} {P : Fragment → Prop} (h : WellFormed nodes P)
include h

theorem holds_initial (e : Element) : Holds nodes (initialNode e) e := ⟨_, h.initial e, rfl, .inl rfl⟩

/-- The inputs of a node are older than the node, and each holds a value. -/
theorem input_lt {id : Nat} {n : Node} (hn : nodes[id]? = some n) :
    ∀ i ∈ n.inputs, i < id ∧ ∃ e, Holds nodes i e := by
  intro i hi
  cases ho : n.origin with
  | none =>
    obtain ⟨e, -, rfl⟩ := h.leaf hn ho
    cases hi
  | some o =>
    obtain ⟨j, hj, rfl⟩ := List.mem_iff_getElem.mp hi
    have hin := h.inputs hn ho
    have hij := (List.forall₂_iff_get.mp hin).2 j hj (hin.length_eq ▸ hj)
    exact ⟨hij.1, _, hij.2⟩

/-- Only the initial node holds the processor. -/
theorem eq_initial_of_holds_cpu [Fragment.Writable P] {id : Nat} (hc : Holds nodes id .cpu) : id = initialNode .cpu := by
  obtain ⟨n, hn, he, -⟩ := hc
  cases ho : n.origin with
  | none =>
    obtain ⟨e, rfl, rfl⟩ := h.leaf hn ho
    cases he
    rfl
  | some o =>
    have ht := h.element hn ho
    have hm := Fragment.Writable.materializable (h.fragment hn ho) (by rw [← ht, he]; nofun)
    rw [← ht, he] at hm
    cases hm

theorem push {n : Node} {o : Origin} (ho : n.origin = some o) (hf : P o.fragment)
    (he : n.element = o.fragment.target)
    (hi : List.Forall₂ (fun i e => Holds nodes i e) n.inputs o.fragment.inputs) :
    WellFormed (nodes.push n) P where
  initial e := Extends.push _ _ _ _ (h.initial e)
  leaf hid hnone := by
    rcases getElem?_push_cases hid with hid | ⟨-, rfl⟩
    · exact h.leaf hid hnone
    · rw [ho] at hnone
      cases hnone
  fragment hid hsome := by
    rcases getElem?_push_cases hid with hid | ⟨-, rfl⟩
    · exact h.fragment hid hsome
    · rw [ho] at hsome
      cases hsome
      exact hf
  element hid hsome := by
    rcases getElem?_push_cases hid with hid | ⟨-, rfl⟩
    · exact h.element hid hsome
    · rw [ho] at hsome
      cases hsome
      exact he
  inputs hid hsome := by
    rcases getElem?_push_cases hid with hid | ⟨rfl, rfl⟩
    · exact (h.inputs hid hsome).imp fun i e hie => ⟨hie.1, hie.2.mono (.push _ _)⟩
    · rw [ho] at hsome
      cases hsome
      exact hi.imp fun i e hie => ⟨hie.lt, hie.mono (.push _ _)⟩

end WellFormed

/-! ### Rollbacks -/

/-- Every node that can fault has a rollback, that of its instruction; a rollback's snapshot is older than the nodes it is
    for, and the rollbacks of later nodes are later. -/
structure Tracked (nodes : Array Node) (rollbacks : Array Rollback) : Prop where
  exists_of_canFault : ∀ {id : Nat} {n : Node}, nodes[id]? = some n → n.canFault = true → ∃ ρ, n.rollback = some ρ
  snapshot : ∀ {id : Nat} {n : Node} {ρ : Nat}, nodes[id]? = some n → n.rollback = some ρ →
    ∃ rb start, rollbacks[ρ]? = some rb ∧ rb.snapshot = Rollback.snapshotOf start ∧
      ∀ e, start.get e < id ∧ Holds nodes (start.get e) e
  index : ∀ {id : Nat} {n : Node} {ρ : Nat} {o : Origin} {rb : Rollback}, nodes[id]? = some n → n.rollback = some ρ →
    n.origin = some o → rollbacks[ρ]? = some rb → rb.index = o.record.index
  mono : ∀ {id id' : Nat} {n n' : Node} {ρ ρ' : Nat}, nodes[id]? = some n → nodes[id']? = some n' → n.rollback = some ρ →
    n'.rollback = some ρ' → id ≤ id' → ρ ≤ ρ'

theorem Tracked.push {nodes : Array Node} {rollbacks rollbacks' : Array Rollback} {n : Node}
    (h : Tracked nodes rollbacks) (hr : Extends rollbacks rollbacks') (hsize : rollbacks.size ≤ rollbacks'.size)
    (hfault : n.canFault = true → ∃ ρ, n.rollback = some ρ)
    (hn : ∀ ρ, n.rollback = some ρ → ρ + 1 = rollbacks'.size ∧
      ∃ rb start, rollbacks'[ρ]? = some rb ∧ rb.snapshot = Rollback.snapshotOf start ∧
        (∀ o, n.origin = some o → rb.index = o.record.index) ∧ ∀ e, Holds nodes (start.get e) e) :
    Tracked (nodes.push n) rollbacks' where
  exists_of_canFault hid hcan := by
    rcases getElem?_push_cases hid with hid | ⟨-, rfl⟩
    · exact h.exists_of_canFault hid hcan
    · exact hfault hcan
  snapshot hid hρ := by
    rcases getElem?_push_cases hid with hid | ⟨rfl, rfl⟩
    · obtain ⟨rb, start, hrb, hsnap, hstart⟩ := h.snapshot hid hρ
      exact ⟨rb, start, hr _ _ hrb, hsnap, fun e => ⟨(hstart e).1, (hstart e).2.mono (.push _ _)⟩⟩
    · obtain ⟨-, rb, start, hrb, hsnap, -, hstart⟩ := hn _ hρ
      exact ⟨rb, start, hrb, hsnap, fun e => ⟨(hstart e).lt, (hstart e).mono (.push _ _)⟩⟩
  index hid hρ ho hrb := by
    rcases getElem?_push_cases hid with hid | ⟨rfl, rfl⟩
    · obtain ⟨rb', -, hrb', -⟩ := h.snapshot hid hρ
      cases (hr _ _ hrb').symm.trans hrb
      exact h.index hid hρ ho hrb'
    · obtain ⟨-, rb', -, hrb', -, hindex, -⟩ := hn _ hρ
      cases hrb'.symm.trans hrb
      exact hindex _ ho
  mono {id id' n₁ n₂ ρ ρ'} hid hid' hρ hρ' hle := by
    -- The new node has the last rollback, so no other node has a later one.
    have hlt : ∀ {id : Nat} {n : Node} {ρ : Nat}, nodes[id]? = some n → n.rollback = some ρ → ρ < rollbacks'.size := by
      intro id n ρ hid hρ
      obtain ⟨rb, start, hrb, -⟩ := h.snapshot hid hρ
      exact (Array.getElem?_eq_some_iff.mp hrb).1.trans_le hsize
    rcases getElem?_push_cases hid' with hid' | ⟨rfl, rfl⟩
    · rcases getElem?_push_cases hid with hid | ⟨rfl, -⟩
      · exact h.mono hid hid' hρ hρ' hle
      · have := (Array.getElem?_eq_some_iff.mp hid').1
        omega
    · have hlast := (hn _ hρ').1
      rcases getElem?_push_cases hid with hid | ⟨-, rfl⟩
      · have := hlt hid hρ
        omega
      · rw [hρ] at hρ'
        cases hρ'
        exact le_rfl

/-! ### Drafts -/

/-- Whether the node of a number has an effect. -/
def isEffect (nodes : Array Node) (id : Nat) : Bool := nodes[id]?.any Node.hasEffect

namespace Draft

structure Valid (p : Draft) (P : Fragment → Prop := Fragment.Disciplined) : Prop where
  wellFormed : WellFormed p.nodes P
  tracked : Tracked p.nodes p.rollbacks
  effects : p.effects.toList = (List.range p.nodes.size).filter (isEffect p.nodes)
  producers : ∀ e, Holds p.nodes (p.producers.get e) e
  start : ∀ e, Holds p.nodes (p.start.get e) e

/-- The rollback that an instruction opens. -/
def opening (p : Draft) (rec : Record) : Rollback where
  index := rec.index
  start := rec.start
  base := p.startBase
  snapshot := Rollback.snapshotOf p.start

/-- The last rollback belongs to the current instruction or to an earlier one. -/
def Fresh (startOf : Nat → Int64) (p : Draft) : Prop :=
  ∀ rb, p.rollbacks.back? = some rb → ∃ i, p.index = some i ∧ rb.index ≤ i ∧
    (rb.index = i → rb = ⟨i, startOf i, p.startBase, Rollback.snapshotOf p.start⟩)

theorem isEffect_push (nodes : Array Node) (n : Node) :
    (List.range (nodes.push n).size).filter (isEffect (nodes.push n)) =
      (List.range nodes.size).filter (isEffect nodes) ++ if n.hasEffect then [nodes.size] else [] := by
  rw [Array.size_push, List.range_succ, List.filter_append]
  congr 1
  · refine List.filter_congr fun id hid => ?_
    rw [isEffect, isEffect, Array.getElem?_push_lt (List.mem_range.mp hid)]
    simp [List.mem_range.mp hid]
  · simp [isEffect, List.filter_singleton]

section AddFragment
variable {startOf : Nat → Int64} {P : Fragment → Prop} {p : Draft} {rec : Record}

/-- The node that a fragment of a record adds. -/
def nodeOf (p : Draft) (rec : Record) (f : Fragment) (rollback : Option Nat) : Node where
  element := f.target
  origin := some ⟨rec, f⟩
  inputs := f.inputs.map p.producers.get
  rollback
  base := p.base

/-- What adding a fragment does. -/
theorem addFragment_eq (hp : p.Fresh startOf) (hi : p.index = some rec.index)
    (hstart : rec.start = startOf rec.index) (f : Fragment) :
    ∃ rollback rollbacks,
      p.addFragment true rec f =
        { p with
          nodes := p.nodes.push (p.nodeOf rec f rollback)
          rollbacks
          effects := if f.hasEffect then p.effects.push p.nodes.size else p.effects } ∧
      Extends p.rollbacks rollbacks ∧ p.rollbacks.size ≤ rollbacks.size ∧
      (f.canFault = true → rollback = some (rollbacks.size - 1) ∧ rollbacks.back? = some (p.opening rec)) ∧
      (f.canFault = false → rollback = none ∧ rollbacks = p.rollbacks) := by
  cases hf : f.canFault with
  | false =>
    exact ⟨none, p.rollbacks, by simp [addFragment, hf, nodeOf], .refl _, le_rfl, nofun, fun _ => ⟨rfl, rfl⟩⟩
  | true =>
    by_cases hback : ∃ rb, p.rollbacks.back? = some rb ∧ rb.index = rec.index
    · obtain ⟨rb, hrb, hidx⟩ := hback
      obtain ⟨i, hi', -, hsame⟩ := hp rb hrb
      rw [hi, Option.some.injEq] at hi'
      subst hi'
      have hopen : rb = p.opening rec := by rw [hsame hidx, opening, hstart]
      refine ⟨some (p.rollbacks.size - 1), p.rollbacks, ?_, .refl _, le_rfl, fun _ => ⟨rfl, ?_⟩, nofun⟩
      · simp [addFragment, hf, track, hrb, hidx, nodeOf]
      · rw [hrb, hopen]
    · have hnone : (p.rollbacks.back?.any (·.index == rec.index)) = false := by
        cases hb : p.rollbacks.back? with
        | none => rfl
        | some rb => simpa using fun he => hback ⟨rb, hb, he⟩
      refine ⟨some p.rollbacks.size, p.rollbacks.push (p.opening rec), ?_, .push _ _, by simp, fun _ => ?_, nofun⟩
      · simp only [addFragment, hf, track, Bool.and_self, if_true, hnone]
        rfl
      · simp

theorem Fresh.addFragment (hp : p.Fresh startOf) (hi : p.index = some rec.index)
    (hstart : rec.start = startOf rec.index) (f : Fragment) : (p.addFragment true rec f).Fresh startOf := by
  obtain ⟨rollback, rollbacks, heq, -, -, hcan, hnot⟩ := addFragment_eq hp hi hstart f
  rw [heq]
  intro rb hrb
  cases hf : f.canFault with
  | false => exact hp rb (by rw [← (hnot hf).2]; exact hrb)
  | true =>
    have : rb = p.opening rec := Option.some.inj (hrb.symm.trans (hcan hf).2)
    subst this
    exact ⟨rec.index, hi, le_rfl, fun _ => by rw [opening, hstart]⟩

theorem Valid.addFragment (hv : p.Valid P) (hp : p.Fresh startOf) (hi : p.index = some rec.index)
    (hstart : rec.start = startOf rec.index) {f : Fragment} (hf : P f) : (p.addFragment true rec f).Valid P := by
  obtain ⟨rollback, rollbacks, heq, hext, hsize, hcan, hnot⟩ := addFragment_eq hp hi hstart f
  have hinputs : List.Forall₂ (fun i e => Holds p.nodes i e) (f.inputs.map p.producers.get) f.inputs :=
    List.forall₂_map_left_iff.mpr (List.forall₂_same.mpr fun e _ => hv.producers e)
  rw [heq]
  refine ⟨hv.wellFormed.push rfl hf rfl hinputs, hv.tracked.push hext hsize ?_ ?_, ?_,
    fun e => (hv.producers e).mono (.push _ _), fun e => (hv.start e).mono (.push _ _)⟩
  · intro hfault
    exact ⟨_, (hcan hfault).1⟩
  · intro ρ hρ
    cases hfault : f.canFault with
    | false =>
      have hnone : rollback = some ρ := hρ
      rw [(hnot hfault).1] at hnone
      cases hnone
    | true =>
      obtain ⟨hroll, hback⟩ := hcan hfault
      have hρ' : rollback = some ρ := hρ
      rw [hroll, Option.some.injEq] at hρ'
      subst hρ'
      rw [Array.back?] at hback
      have hlt := (Array.getElem?_eq_some_iff.mp hback).1
      exact ⟨Nat.sub_add_cancel (by omega), p.opening rec, p.start, hback, rfl, fun o ho => (by cases ho; rfl), hv.start⟩
  · rw [isEffect_push, ← hv.effects]
    cases hfe : f.hasEffect <;> simp [nodeOf, Node.hasEffect, hfe]

/-! ### Records -/

/-- Nodes and rollbacks are added, and nothing else changes. -/
structure Grows (p p' : Draft) : Prop where
  nodes : Extends p.nodes p'.nodes
  rollbacks : Extends p.rollbacks p'.rollbacks
  producers : p'.producers = p.producers
  start : p'.start = p.start
  startBase : p'.startBase = p.startBase
  base : p'.base = p.base
  index : p'.index = p.index

theorem Grows.refl (p : Draft) : Grows p p := ⟨.refl _, .refl _, rfl, rfl, rfl, rfl, rfl⟩

theorem Grows.trans {p p' p'' : Draft} (h : Grows p p') (h' : Grows p' p'') : Grows p p'' :=
  ⟨h.nodes.trans h'.nodes, h.rollbacks.trans h'.rollbacks, h'.producers.trans h.producers,
    h'.start.trans h.start, h'.startBase.trans h.startBase, h'.base.trans h.base, h'.index.trans h.index⟩

theorem grows_addFragment (hp : p.Fresh startOf) (hi : p.index = some rec.index)
    (hstart : rec.start = startOf rec.index) (f : Fragment) : Grows p (p.addFragment true rec f) := by
  obtain ⟨rollback, rollbacks, heq, hext, -⟩ := addFragment_eq hp hi hstart f
  rw [heq]
  exact ⟨.push _ _, hext, rfl, rfl, rfl, rfl, rfl⟩

theorem grows_addFragments (hp : p.Fresh startOf) (hi : p.index = some rec.index)
    (hstart : rec.start = startOf rec.index) (fs : List Fragment) :
    Grows p (fs.foldl (addFragment true rec) p) := by
  induction fs generalizing p with
  | nil => exact .refl p
  | cons f fs ih =>
    have hg := grows_addFragment hp hi hstart f
    exact hg.trans (ih (hp.addFragment hi hstart f) (hg.index.trans hi))

theorem addFragments_valid (hv : p.Valid P) (hp : p.Fresh startOf) (hi : p.index = some rec.index)
    (hstart : rec.start = startOf rec.index) {fs : List Fragment} (hfs : ∀ f ∈ fs, P f) :
    (fs.foldl (addFragment true rec) p).Valid P ∧ (fs.foldl (addFragment true rec) p).Fresh startOf := by
  induction fs generalizing p with
  | nil => exact ⟨hv, hp⟩
  | cons f fs ih =>
    have hg := grows_addFragment hp hi hstart f
    exact ih (hv.addFragment hp hi hstart (hfs f List.mem_cons_self)) (hp.addFragment hi hstart f)
      (hg.index.trans hi) fun f' hf' => hfs f' (List.mem_cons_of_mem f hf')

theorem nodes_addFragments (hp : p.Fresh startOf) (hi : p.index = some rec.index)
    (hstart : rec.start = startOf rec.index) {fs : List Fragment} {j : Nat} {f : Fragment} (hj : fs[j]? = some f) :
    ∃ rollback, (fs.foldl (addFragment true rec) p).nodes[p.nodes.size + j]? = some (p.nodeOf rec f rollback) := by
  induction fs generalizing p j with
  | nil => cases hj
  | cons f' fs ih =>
    have hg := grows_addFragment hp hi hstart f'
    have hp' := hp.addFragment hi hstart f'
    have hi' := hg.index.trans hi
    obtain ⟨rollback, rollbacks, heq, -⟩ := addFragment_eq hp hi hstart f'
    cases j with
    | zero =>
      cases hj
      refine ⟨rollback, (grows_addFragments hp' hi' hstart fs).nodes _ _ ?_⟩
      simp [heq]
    | succ j =>
      obtain ⟨rollback', h'⟩ := ih hp' hi' hj
      refine ⟨rollback', ?_⟩
      have hsize : (p.addFragment true rec f').nodes.size + j = p.nodes.size + (j + 1) := by
        simp only [heq, Array.size_push]
        omega
      have hnode : (p.addFragment true rec f').nodeOf rec f rollback' = p.nodeOf rec f rollback' := by
        simp only [nodeOf, hg.producers, hg.base]
      rwa [hsize, hnode] at h'

theorem holds_commit {nodes : Array Node} {producers : Producers} {first : Nat} {fs : List Fragment}
    (hp : ∀ e, Holds nodes (producers.get e) e)
    (hfs : ∀ (j : Nat) f, fs[j]? = some f → ∃ n, nodes[first + j]? = some n ∧ n.element = f.target) :
    ∀ e, Holds nodes ((commit producers first fs).get e) e := by
  induction fs generalizing producers first with
  | nil => exact hp
  | cons f fs ih =>
    refine ih (fun e => ?_) fun j f' hj => ?_
    · split
      · exact hp e
      · next hvoid =>
        rw [Bank.get_set]
        split
        · next he =>
          obtain ⟨n, hn, ht⟩ := hfs 0 f rfl
          exact ⟨n, hn, ht.trans he, .inr (he ▸ hvoid)⟩
        · exact hp e
    · have := hfs (j + 1) f' hj
      rwa [show first + (j + 1) = first + 1 + j by omega] at this

theorem index_enter (p : Draft) (rec : Record) : (p.enter rec).index = some rec.index := by
  unfold enter
  split <;> simp [*]

theorem Valid.enter (hv : p.Valid P) (rec : Record) : (p.enter rec).Valid P := by
  unfold Draft.enter
  split
  · exact hv
  · exact ⟨hv.wellFormed, hv.tracked, hv.effects, hv.producers, hv.producers⟩

theorem Fresh.enter (hp : p.Fresh startOf) (hle : ∀ i, p.index = some i → i ≤ rec.index) :
    (p.enter rec).Fresh startOf := by
  unfold Draft.enter
  split
  · exact hp
  · next hne =>
    intro rb hrb
    obtain ⟨i, hi, hle', -⟩ := hp rb hrb
    have hlt : i < rec.index := lt_of_le_of_ne (hle i hi) fun he => hne (he ▸ hi)
    exact ⟨rec.index, rfl, by omega, fun he => by omega⟩

/-- Adding a record keeps a draft valid. -/
theorem addRecord_valid (hv : p.Valid P) (hp : p.Fresh startOf) (hle : ∀ i, p.index = some i → i ≤ rec.index)
    (hstart : rec.start = startOf rec.index) {fs : List Fragment} (hfs : ∀ f ∈ fs, P f) :
    (p.addRecord true rec fs).Valid P ∧ (p.addRecord true rec fs).Fresh startOf ∧
      (p.addRecord true rec fs).index = some rec.index := by
  have hi := p.index_enter rec
  have hp' := hp.enter hle
  obtain ⟨hv', hf'⟩ := addFragments_valid (hv.enter rec) hp' hi hstart hfs
  have hg := grows_addFragments hp' hi hstart fs
  refine ⟨⟨hv'.wellFormed, hv'.tracked, hv'.effects, holds_commit (fun e => ?_) fun j f hj => ?_, hv'.start⟩, hf',
    hg.index.trans hi⟩
  · exact ((hv.enter rec).producers e).mono hg.nodes
  · obtain ⟨rollback, h⟩ := nodes_addFragments hp' hi hstart hj
    exact ⟨_, h, rfl⟩

theorem extends_addRecord (hp : p.Fresh startOf) (hle : ∀ i, p.index = some i → i ≤ rec.index)
    (hstart : rec.start = startOf rec.index) (fs : List Fragment) :
    Extends p.nodes (p.addRecord true rec fs).nodes ∧ Extends p.rollbacks (p.addRecord true rec fs).rollbacks := by
  have hg := grows_addFragments (hp.enter hle) (p.index_enter rec) hstart fs
  have henter : (p.enter rec).nodes = p.nodes ∧ (p.enter rec).rollbacks = p.rollbacks := by
    unfold Draft.enter
    split <;> exact ⟨rfl, rfl⟩
  exact ⟨henter.1 ▸ hg.nodes, henter.2 ▸ hg.rollbacks⟩

end AddFragment

theorem addRecords_valid {startOf : Nat → Int64} {P : Fragment → Prop} {t : Table} (ht : t.All P) {p p' : Draft}
    {rs : List Record} (hrs : Record.Ordered startOf rs) (hv : p.Valid P) (hp : p.Fresh startOf)
    (hle : ∀ i, p.index = some i → ∀ r ∈ rs, i ≤ r.index) (h : p.addRecords t true rs = .ok p') :
    p'.Valid P ∧ Extends p.nodes p'.nodes ∧ Extends p.rollbacks p'.rollbacks := by
  induction rs generalizing p with
  | nil =>
    cases h
    exact ⟨hv, .refl _, .refl _⟩
  | cons rec rs ih =>
    obtain ⟨hsorted, hstarts⟩ := hrs
    obtain ⟨hhead, htail⟩ := List.pairwise_cons.mp hsorted
    simp only [addRecords] at h
    split at h
    · cases h
    · have hle' := fun i hi => hle i hi rec List.mem_cons_self
      have hstart := hstarts rec List.mem_cons_self
      obtain ⟨hv', hp', hi'⟩ := addRecord_valid hv hp hle' hstart (ht rec.op)
      obtain ⟨hn, hr⟩ := extends_addRecord hp hle' hstart (t.targets? rec.op)
      have hnext : ∀ i, (p.addRecord true rec (t.targets? rec.op)).index = some i → ∀ r ∈ rs, i ≤ r.index := by
        intro i hi r hr
        rw [hi', Option.some.injEq] at hi
        exact hi ▸ hhead r hr
      obtain ⟨hfinal, hn', hr'⟩ :=
        ih ⟨htail, fun r hr => hstarts r (List.mem_cons_of_mem rec hr)⟩ hv' hp' hnext h
      exact ⟨hfinal, hn.trans hn', hr.trans hr'⟩

theorem empty_nodes {id : Nat} {n : Node} (h : empty.nodes[id]? = some n) :
    ∃ e, id = initialNode e ∧ n = .initial e := by
  simp only [empty, List.getElem?_toArray, List.getElem?_map, Option.map_eq_some_iff] at h
  obtain ⟨e, he, rfl⟩ := h
  obtain ⟨e', he', rfl⟩ := Element.ofNumber?_eq_some (Element.length_all ▸ (List.getElem?_eq_some_iff.mp he).1)
  cases he.symm.trans he'
  exact ⟨e, rfl, rfl⟩

theorem empty_producers (e : Element) : empty.producers.get e = initialNode e := by
  simp only [empty]
  rw [Bank.get_foldl_set, if_pos e.mem_all]

theorem empty_valid {P : Fragment → Prop} : empty.Valid P := by
  have hinit : ∀ e, empty.nodes[initialNode e]? = some (.initial e) := fun e => by
    simp only [empty, List.getElem?_toArray, List.getElem?_map, initialNode]
    rw [show Element.all[e.number]? = some e from Element.ofNumber?_number e]
    rfl
  have hholds : ∀ e, Holds empty.nodes (empty.producers.get e) e := fun e =>
    ⟨_, empty_producers e ▸ hinit e, rfl, .inl rfl⟩
  have horigin : ∀ {id : Nat} {n : Node}, empty.nodes[id]? = some n → n.origin = none ∧ n.rollback = none := by
    intro id n hid
    obtain ⟨e, -, rfl⟩ := empty_nodes hid
    exact ⟨rfl, rfl⟩
  refine ⟨⟨hinit, fun hid _ => empty_nodes hid, ?_, ?_, ?_⟩, ⟨?_, ?_, ?_, ?_⟩, rfl, hholds, hholds⟩
  · intro id n o hid ho
    simp [horigin hid] at ho
  · intro id n o hid ho
    simp [horigin hid] at ho
  · intro id n o hid ho
    simp [horigin hid] at ho
  · intro id n hid hcan
    simp [Node.canFault, horigin hid] at hcan
  · intro id n ρ hid hρ
    simp [horigin hid] at hρ
  · intro id n ρ o rb hid hρ
    simp [horigin hid] at hρ
  · intro id id' n n' ρ ρ' hid _ hρ
    simp [horigin hid] at hρ

end Draft

/-! ### Graphs -/

structure Valid (g : Graph) (P : Fragment → Prop := Fragment.Disciplined) : Prop where
  wellFormed : WellFormed g.nodes P
  tracked : Tracked g.nodes g.rollbacks
  effects : g.effects.toList = (List.range g.nodes.size).filter (isEffect g.nodes)
  final : ∀ e, Holds g.nodes (g.final.get e) e

/-- The graph of a block is valid. -/
theorem build_valid {P : Fragment → Prop} {t : Table} (ht : t.All P) {b : Block} {s : Stream}
    (hs : Stream.ofBlock b = .ok s) {g : Graph} (hg : build t true s = .ok g) : g.Valid P := by
  obtain ⟨startOf, hrs⟩ := Stream.ordered_of_ofBlock hs
  unfold build at hg
  split at hg
  · cases hg
  · next p hp =>
    cases hg
    obtain ⟨⟨hw, ht, he, hf, -⟩, -⟩ := Draft.addRecords_valid ht hrs Draft.empty_valid nofun nofun hp
    exact ⟨hw, ht, he, hf⟩

end Graph
end MicroBlock
