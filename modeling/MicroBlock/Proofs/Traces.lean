import Mathlib
import MicroBlock.Interpreter
import MicroBlock.Proofs.Graphs
import MicroBlock.Proofs.Registers

/-! The values of a graph, and how a run of the interpreter follows them.

From a machine every node of a graph gets a value, in the order of the nodes, and every node leaves a
machine to the next. A run of the interpreter computes these values record by record: it completes if no
node faults, and otherwise it rolls back to the snapshot of the first node that does. -/

namespace MicroBlock

/-- What a node gives over the values of the nodes before it, and the machine it leaves. -/
def Node.outcome (n : Node) (m₀ : Machine) (values : Nat → Value) (m : Machine) :
    Except Fragment.EvalError Value × Machine :=
  match n.origin with
  | none => (.ok (m₀.get n.element), m)
  | some o => o.fragment.outcome (n.inputs.map values) n.place m

theorem Node.outcome_congr {n : Node} {values values' : Nat → Value} (h : ∀ i ∈ n.inputs, values i = values' i)
    (m₀ m : Machine) : n.outcome m₀ values m = n.outcome m₀ values' m := by
  unfold outcome
  split
  · rfl
  · rw [List.map_congr_left h]

namespace Graph

/-! ### Values and machines -/

/-- The values of the first nodes, and the machine after them. -/
def trace (nodes : Array Node) (m₀ : Machine) : Nat → (Nat → Value) × Machine
  | 0 => (fun _ => .zero, m₀)
  | id + 1 =>
    let before := trace nodes m₀ id
    match nodes[id]? with
    | none => before
    | some n =>
      match n.outcome m₀ before.1 before.2 with
      | (.ok v, m) => (Function.update before.1 id v, m)
      | (.error _, m) => (before.1, m)

/-- The value of a node. -/
def valueAt (nodes : Array Node) (m₀ : Machine) (id : Nat) : Value := (trace nodes m₀ (id + 1)).1 id

/-- The machine before a node. -/
def machineAt (nodes : Array Node) (m₀ : Machine) (id : Nat) : Machine := (trace nodes m₀ id).2

section Trace
variable {nodes : Array Node} {m₀ : Machine}

theorem trace_value {i k : Nat} (h : i < k) : (trace nodes m₀ k).1 i = valueAt nodes m₀ i := by
  induction k with
  | zero => omega
  | succ k ih =>
    rcases Nat.lt_succ_iff_lt_or_eq.mp h with hik | rfl
    · rw [← ih hik]
      simp only [trace]
      split
      · rfl
      · split
        · exact Function.update_of_ne hik.ne _ _
        · rfl
    · rfl

variable (hw : WellFormed nodes)
include hw

theorem outcome_trace {id : Nat} {n : Node} (hn : nodes[id]? = some n) (m : Machine) :
    n.outcome m₀ (trace nodes m₀ id).1 m = n.outcome m₀ (valueAt nodes m₀) m :=
  Node.outcome_congr (fun i hi => trace_value (hw.input_lt hn i hi).1) m₀ m

theorem machineAt_succ {id : Nat} {n : Node} (hn : nodes[id]? = some n) :
    machineAt nodes m₀ (id + 1) = (n.outcome m₀ (valueAt nodes m₀) (machineAt nodes m₀ id)).2 := by
  rw [← outcome_trace hw hn]
  simp only [machineAt, trace, hn]
  split <;> simp [*]

theorem valueAt_eq {id : Nat} {n : Node} (hn : nodes[id]? = some n) {v : Value}
    (h : (n.outcome m₀ (valueAt nodes m₀) (machineAt nodes m₀ id)).1 = .ok v) : valueAt nodes m₀ id = v := by
  rw [← outcome_trace hw hn] at h
  simp only [valueAt, trace, hn]
  simp only [machineAt] at h
  split
  · next v' m' hv' =>
    rw [hv'] at h
    cases h
    simp
  · next e m' he =>
    rw [he] at h
    cases h

theorem valueAt_initial (e : Element) : valueAt nodes m₀ (initialNode e) = m₀.get e :=
  valueAt_eq hw (hw.initial e) rfl

/-- The inputs of a node supply what its fragment asks for. -/
theorem supplies (m₀ : Machine) {id : Nat} {n : Node} {o : Origin} (hn : nodes[id]? = some n) (ho : n.origin = some o) :
    Fragment.Supplies o.fragment.inputs (n.inputs.map (valueAt nodes m₀)) := by
  have hin := hw.inputs hn ho
  refine ⟨by rw [List.length_map, hin.length_eq], fun j hj => ?_⟩
  obtain ⟨hlt, hcpu⟩ := List.getElem?_eq_some_iff.mp hj
  have hlt' : j < n.inputs.length := hin.length_eq ▸ hlt
  have hholds := ((List.forall₂_iff_get.mp hin).2 j hlt' hlt).2
  simp only [List.get_eq_getElem, hcpu] at hholds
  rw [List.getElem?_map, List.getElem?_eq_getElem hlt', hw.eq_initial_of_holds_cpu hholds, Option.map_some,
    valueAt_initial hw]
  rfl

/-- A node without effects gives its value on any machine and leaves the machine alone. -/
theorem outcome_of_not_hasEffect (m₀ : Machine) {id : Nat} {n : Node} (hn : nodes[id]? = some n) (he : n.hasEffect = false)
    (m : Machine) : n.outcome m₀ (valueAt nodes m₀) m = (.ok (valueAt nodes m₀ id), m) := by
  have hconst : ∃ v, ∀ m, n.outcome m₀ (valueAt nodes m₀) m = (.ok v, m) := by
    cases ho : n.origin with
    | none => exact ⟨m₀.get n.element, fun m => by simp [Node.outcome, ho]⟩
    | some o =>
      have hpure : o.fragment.hasEffect = false := by simpa [Node.hasEffect, ho] using he
      obtain ⟨v, hv⟩ :=
        Fragment.outcome_of_pure (hw.fragment hn ho) hpure (supplies hw m₀ hn ho) n.place
      exact ⟨v, fun m => by simp [Node.outcome, ho, hv]⟩
  obtain ⟨v, hv⟩ := hconst
  rw [hv, valueAt_eq hw hn (by rw [hv])]

/-- A node gives a value or, if it can fault, a fault; it leaves the registers alone. -/
theorem outcome_cases (m₀ : Machine) {id : Nat} {n : Node} (hn : nodes[id]? = some n) (m : Machine) :
    (∃ v m', n.outcome m₀ (valueAt nodes m₀) m = (.ok v, m') ∧ m'.SameFront m) ∨
    (∃ x m', n.outcome m₀ (valueAt nodes m₀) m = (.error (.helper (.fault x)), m') ∧ n.canFault = true ∧
      m'.SameFront m) := by
  cases ho : n.origin with
  | none => exact .inl ⟨m₀.get n.element, m, by simp [Node.outcome, ho], .refl m⟩
  | some o =>
    simp only [Node.outcome, ho, Node.canFault, Option.any_some]
    rcases Fragment.outcome_cases (hw.fragment hn ho) (supplies hw m₀ hn ho) n.place m with
      ⟨v, m', h, hr, -⟩ | ⟨x, m', h, hr, hcan, -⟩
    · exact .inl ⟨v, m', h, hr⟩
    · exact .inr ⟨x, m', h, hcan, hr⟩

theorem machineAt_sameFront (id : Nat) : (machineAt nodes m₀ id).SameFront m₀ := by
  induction id with
  | zero => exact .refl _
  | succ id ih =>
    cases hn : nodes[id]? with
    | none =>
      have : machineAt nodes m₀ (id + 1) = machineAt nodes m₀ id := by simp only [machineAt, trace, hn]
      rwa [this]
    | some n =>
      rw [machineAt_succ hw hn]
      rcases outcome_cases hw m₀ hn (machineAt nodes m₀ id) with ⟨v, m', h, hr⟩ | ⟨x, m', h, -, hr⟩ <;>
        exact h ▸ hr.trans ih

end Trace

/-- None of the first nodes faults. -/
def FaultFree (nodes : Array Node) (m₀ : Machine) (k : Nat) : Prop :=
  ∀ id < k, ∀ n, nodes[id]? = some n →
    n.outcome m₀ (valueAt nodes m₀) (machineAt nodes m₀ id) =
      (.ok (valueAt nodes m₀ id), machineAt nodes m₀ (id + 1))

theorem FaultFree.succ {nodes : Array Node} {m₀ : Machine} (hw : WellFormed nodes) {k : Nat}
    (h : FaultFree nodes m₀ k) {n : Node} (hn : nodes[k]? = some n) {v : Value} {m : Machine}
    (hv : n.outcome m₀ (valueAt nodes m₀) (machineAt nodes m₀ k) = (.ok v, m)) : FaultFree nodes m₀ (k + 1) := by
  intro id hid n' hn'
  rcases Nat.lt_succ_iff_lt_or_eq.mp hid with hlt | rfl
  · exact h id hlt n' hn'
  · rw [hn, Option.some.injEq] at hn'
    subst hn'
    rw [machineAt_succ hw hn, hv, valueAt_eq hw hn (by rw [hv])]

/-- A node is the first to fault: which node, its rollback, the fault, and the machine it leaves. -/
structure FaultsAt (g : Graph) (m₀ : Machine) (k : Nat) (rb : Rollback) (x : Fault) (m : Machine) : Prop where
  faultFree : FaultFree g.nodes m₀ k
  node : ∃ n ρ, g.nodes[k]? = some n ∧ n.rollback = some ρ ∧ g.rollbacks[ρ]? = some rb ∧ n.canFault = true ∧
    n.outcome m₀ (valueAt g.nodes m₀) (machineAt g.nodes m₀ k) = (.error (.helper (.fault x)), m)

/-! ### Following a graph record by record -/

section Follow
open Interpreter
variable {nodes : Array Node} {m₀ : Machine}

/-- The results of the fragments of a record whose first node is given. -/
def results (values : Nat → Value) : Nat → List Fragment → List (Element × Value)
  | _, [] => []
  | k, f :: fs =>
    if f.target.kind = .void then results values (k + 1) fs else (f.target, values k) :: results values (k + 1) fs

theorem get_foldl_results {values : Nat → Value} {bank : Values} {producers : Producers}
    (h : ∀ e, bank.get e = values (producers.get e)) (k : Nat) (fs : List Fragment) (e : Element) :
    ((results values k fs).foldl (fun b v => b.set v.1 v.2) bank).get e =
      values ((commit producers k fs).get e) := by
  induction fs generalizing bank producers k with
  | nil => exact h e
  | cons f fs ih =>
    unfold results commit
    split
    · exact ih h (k + 1)
    · refine ih (fun e => ?_) (k + 1)
      rw [Bank.get_set, Bank.get_set]
      split
      · rfl
      · exact h e

theorem get_foldl_written {values : Nat → Value} {written : Bank Element Bool} {producers : Producers}
    (h : ∀ e, written.get e = decide (producers.get e ≠ initialNode e)) {k : Nat} (hk : ∀ e, initialNode e < k)
    (fs : List Fragment) (e : Element) :
    ((results values k fs).foldl (fun b v => b.set v.1 true) written).get e =
      decide ((commit producers k fs).get e ≠ initialNode e) := by
  induction fs generalizing written producers k with
  | nil => exact h e
  | cons f fs ih =>
    have hk' : ∀ e, initialNode e < k + 1 := fun e => Nat.lt_succ_of_lt (hk e)
    unfold results commit
    split
    · exact ih h hk'
    · refine ih (fun e => ?_) hk'
      rw [Bank.get_set, Bank.get_set]
      split
      · have := hk e
        simp only [Bool.true_eq, decide_eq_true_eq]
        omega
      · exact h e

/-- The interpreter's progress at the point to which a graph has been drafted. -/
structure Follows (nodes : Array Node) (m₀ : Machine) (p : Draft) (q : Progress) : Prop where
  faultFree : FaultFree nodes m₀ p.nodes.size
  machine : q.context.machine = machineAt nodes m₀ p.nodes.size
  values : ∀ e, q.values.get e = valueAt nodes m₀ (p.producers.get e)
  snapshot : ∀ e, q.snapshot.get e = valueAt nodes m₀ (p.start.get e)
  written : ∀ e, q.written.get e = decide (p.producers.get e ≠ initialNode e)
  snapshotBase : q.snapshotBase = p.startBase
  base : q.base = p.base
  index : q.index = p.index

theorem Follows.enter {p : Draft} {q : Progress} (h : Follows nodes m₀ p q) (rec : Record) :
    Follows nodes m₀ (p.enter rec) (q.enter rec) := by
  unfold Draft.enter Progress.enter
  rw [h.index]
  split
  · exact h
  · exact ⟨h.faultFree, h.machine, h.values, h.values, h.written, h.base, h.base, rfl⟩

/-- The fragments of a record give the values of their nodes, or one of them is the first node to fault. -/
theorem evalFragments_follows (hw : WellFormed nodes) {startOf : Nat → Int64} {p : Draft} {rec : Record}
    (hp : p.Fresh startOf) (hi : p.index = some rec.index) (hstart : rec.start = startOf rec.index)
    {fs : List Fragment} (hext : Extends (fs.foldl (Draft.addFragment true rec) p).nodes nodes) {bank : Values}
    (hbank : ∀ e, bank.get e = valueAt nodes m₀ (p.producers.get e)) {c : Context}
    (hfree : FaultFree nodes m₀ p.nodes.size) (hc : c.machine = machineAt nodes m₀ p.nodes.size) :
    let after := fs.foldl (Draft.addFragment true rec) p
    (∃ c', evalFragments .builtin bank (rec.place p.base) fs c =
        (.ok (results (valueAt nodes m₀) p.nodes.size fs), c') ∧
      FaultFree nodes m₀ after.nodes.size ∧ c'.machine = machineAt nodes m₀ after.nodes.size) ∨
    (∃ f x c' k n ρ, evalFragments .builtin bank (rec.place p.base) fs c = (.error (f, .helper (.fault x)), c') ∧
      f.canFault = true ∧ FaultFree nodes m₀ k ∧ nodes[k]? = some n ∧ n.rollback = some ρ ∧
      after.rollbacks[ρ]? = some (p.opening rec) ∧ n.canFault = true ∧
      n.outcome m₀ (valueAt nodes m₀) (machineAt nodes m₀ k) = (.error (.helper (.fault x)), c'.machine)) := by
  induction fs generalizing p c with
  | nil => exact .inl ⟨c, rfl, hfree, hc⟩
  | cons f fs ih =>
    have hg := Draft.grows_addFragment hp hi hstart f
    have hp' := hp.addFragment hi hstart f
    have hi' := hg.index.trans hi
    have hgs := Draft.grows_addFragments hp' hi' hstart fs
    obtain ⟨rollback, rollbacks, heq, -, -, hcan, hnot⟩ := Draft.addFragment_eq hp hi hstart f
    have hnode : nodes[p.nodes.size]? = some (p.nodeOf rec f rollback) :=
      hext _ _ (hgs.nodes _ _ (by simp [heq]))
    -- The interpreter evaluates the fragment over the values of the node's inputs.
    have hinputs : f.inputs.map bank.get = (p.nodeOf rec f rollback).inputs.map (valueAt nodes m₀) := by
      simp only [Draft.nodeOf, List.map_map]
      exact List.map_congr_left fun e _ => hbank e
    have houtcome : f.outcome (f.inputs.map bank.get) (rec.place p.base) c.machine =
        (p.nodeOf rec f rollback).outcome m₀ (valueAt nodes m₀) (machineAt nodes m₀ p.nodes.size) := by
      rw [hinputs, hc]
      rfl
    obtain ⟨calls, heval⟩ := f.eval_eq_outcome (f.inputs.map bank.get) (rec.place p.base) c
    rw [houtcome] at heval
    rcases outcome_cases hw m₀ hnode (machineAt nodes m₀ p.nodes.size) with ⟨v, m', ho, -⟩ | ⟨x, m', ho, hf, -⟩
    · -- The fragment gives its value, and the machine is that before the next node.
      rw [ho] at heval
      have hfree' := hfree.succ hw hnode ho
      have hv := valueAt_eq hw hnode (by rw [ho])
      have hm : machineAt nodes m₀ (p.nodes.size + 1) = m' := by rw [machineAt_succ hw hnode, ho]
      have hsize : (p.addFragment true rec f).nodes.size = p.nodes.size + 1 := by simp [heq]
      have hopen : (p.addFragment true rec f).opening rec = p.opening rec := by
        simp only [Draft.opening, hg.startBase, hg.start]
      have hbank' : ∀ e, bank.get e = valueAt nodes m₀ ((p.addFragment true rec f).producers.get e) := by
        rwa [hg.producers]
      have ih' := ih hp' hi' hext hbank' (c := ⟨m', calls⟩) (by rwa [hsize]) (by rw [hsize, hm])
      rw [hg.base, hsize, hopen] at ih'
      rcases ih' with ⟨c', h, hrest⟩ | ⟨f', x, c', k, n, ρ, h, hrest⟩
      · refine .inl ⟨c', ?_, hrest⟩
        simp only [evalFragments, heval, h, results, hv]
      · refine .inr ⟨f', x, c', k, n, ρ, ?_, hrest⟩
        simp only [evalFragments, heval, h]
    · rw [ho] at heval
      have hf' : f.canFault = true := hf
      obtain ⟨hroll, hback⟩ := hcan hf'
      refine .inr ⟨f, x, ⟨m', calls⟩, p.nodes.size, _, rollbacks.size - 1, ?_, hf', hfree, hnode, hroll,
        hgs.rollbacks _ _ ?_, hf, ho⟩
      · simp only [evalFragments, heval]
      · rw [heq]
        exact hback

/-- A record that does not fault: the progress follows the draft to the record's end. -/
theorem Follows.commit {startOf : Nat → Int64} {p : Draft} {q : Progress} {rec : Record}
    (h : Follows nodes m₀ p q) (hv : p.Valid) (hp : p.Fresh startOf) (hi : p.index = some rec.index)
    (hstart : rec.start = startOf rec.index) {fs : List Fragment} {c : Context}
    (hfree : FaultFree nodes m₀ (fs.foldl (Draft.addFragment true rec) p).nodes.size)
    (hc : c.machine = machineAt nodes m₀ (fs.foldl (Draft.addFragment true rec) p).nodes.size) :
    Follows nodes m₀
      { fs.foldl (Draft.addFragment true rec) p with
        producers := Graph.commit p.producers p.nodes.size fs
        base := if fs.any Fragment.foldsEip then rec.position
          else (fs.foldl (Draft.addFragment true rec) p).base }
      ({ q with context := c }.commit rec fs (results (valueAt nodes m₀) p.nodes.size fs)) := by
  have hg := Draft.grows_addFragments hp hi hstart fs
  have hk : ∀ e, initialNode e < p.nodes.size := fun e => (hv.wellFormed.holds_initial e).lt
  refine ⟨hfree, hc, get_foldl_results h.values _ fs, ?_, get_foldl_written h.written hk fs, ?_, ?_, ?_⟩
  · rw [hg.start]
    exact h.snapshot
  · exact h.snapshotBase.trans hg.startBase.symm
  · simp only [Progress.commit, h.base, hg.base]
  · exact h.index.trans hg.index.symm

/-- How a run of the interpreter ends: it writes back the final values, or it rolls back to the snapshot of
    the first node that faults. -/
theorem runRecords_follows {t : Table} (ht : t.Disciplined) {startOf : Nat → Int64} {p p' : Draft} {q : Progress}
    {rs : List Record} (hrs : Record.Ordered startOf rs) (hv : p.Valid) (hp : p.Fresh startOf)
    (hle : ∀ i, p.index = some i → ∀ r ∈ rs, i ≤ r.index) (h : p.addRecords t true rs = .ok p')
    (hq : Follows p'.nodes m₀ p q) (route : String) (count : Nat) :
    (∃ q', runRecords t .builtin route count rs q = (.ok count, q'.writeBack) ∧ Follows p'.nodes m₀ p' q') ∨
    (∃ k n ρ rb x start snapshot c, FaultFree p'.nodes m₀ k ∧ p'.nodes[k]? = some n ∧ n.rollback = some ρ ∧
      p'.rollbacks[ρ]? = some rb ∧ n.canFault = true ∧
      n.outcome m₀ (valueAt p'.nodes m₀) (machineAt p'.nodes m₀ k) = (.error (.helper (.fault x)), c.machine) ∧
      rb.snapshot = Rollback.snapshotOf start ∧ (∀ e, snapshot.get e = valueAt p'.nodes m₀ (start.get e)) ∧
      runRecords t .builtin route count rs q =
        Interpreter.rollback .builtin route snapshot rb.delta x rb.index c) := by
  induction rs generalizing p q with
  | nil =>
    cases h
    exact .inl ⟨q, rfl, hq⟩
  | cons rec rs ih =>
    obtain ⟨hsorted, hstarts⟩ := hrs
    obtain ⟨hhead, htail⟩ := List.pairwise_cons.mp hsorted
    have hle' := fun i hi => hle i hi rec List.mem_cons_self
    have hstart := hstarts rec List.mem_cons_self
    have hrest : Record.Ordered startOf rs := ⟨htail, fun r hr => hstarts r (List.mem_cons_of_mem rec hr)⟩
    simp only [Draft.addRecords] at h
    split at h
    · cases h
    next hfs =>
    simp only [runRecords]
    generalize htargets : t.targets? rec.op = fs at h hfs
    have hdisc : ∀ f ∈ fs, f.isDisciplined = true := htargets ▸ ht rec.op
    obtain ⟨hv', hp', hi'⟩ := Draft.addRecord_valid hv hp hle' hstart hdisc
    have hnext : ∀ i, (p.addRecord true rec fs).index = some i → ∀ r ∈ rs, i ≤ r.index := by
      intro i hi r hr
      rw [hi', Option.some.injEq] at hi
      exact hi ▸ hhead r hr
    obtain ⟨hvalid, hnodes, hrollbacks⟩ := Draft.addRecords_valid ht hrest hv' hp' hnext h
    have hie := p.index_enter rec
    have hpe := hp.enter hle'
    have hqe := hq.enter rec
    -- The graph only grows after the record, so its nodes have the same values at the end.
    have heval := evalFragments_follows hvalid.wellFormed hpe hie hstart hnodes hqe.values hqe.faultFree hqe.machine
    rw [hqe.base.symm] at heval
    rcases heval with ⟨c, he, hfree, hc⟩ | ⟨f, x, c, k, n, ρ, he, hf, hfree, hn, hρ, hrb, hcan, ho⟩
    · simp only [he]
      exact ih hrest hv' hp' hnext h (hqe.commit (hv.enter rec) hpe hie hstart hfree hc)
    · -- Both roll back to where the instruction of the record began.
      refine .inr ⟨k, n, ρ, (p.enter rec).opening rec, x, (p.enter rec).start, (q.enter rec).snapshot, c, hfree, hn, hρ,
        hrollbacks _ _ hrb, hcan, ho, rfl, hqe.snapshot, ?_⟩
      simp only [he, hf, if_true, Rollback.delta, Draft.opening, hqe.snapshotBase]

theorem faultFree_empty (hw : WellFormed nodes) (m₀ : Machine) {k : Nat} (hk : k ≤ Draft.empty.nodes.size) :
    machineAt nodes m₀ k = m₀ ∧ FaultFree nodes m₀ k := by
  induction k with
  | zero => exact ⟨rfl, nofun⟩
  | succ k ih =>
    obtain ⟨hm, hfree⟩ := ih (by omega)
    obtain ⟨e, rfl, -⟩ := Draft.empty_nodes (Array.getElem?_eq_getElem hk)
    have hn := hw.initial e
    have ho := outcome_of_not_hasEffect hw m₀ hn rfl (machineAt nodes m₀ (initialNode e))
    exact ⟨by rw [machineAt_succ hw hn, ho, hm], hfree.succ hw hn ho⟩

theorem start_follows (hw : WellFormed nodes) (c : Context) :
    Follows nodes c.machine Draft.empty (.start c) := by
  obtain ⟨hm, hfree⟩ := faultFree_empty hw c.machine le_rfl
  have hvalues : ∀ e, (initialValues c.machine).get e = valueAt nodes c.machine (Draft.empty.producers.get e) := by
    intro e
    rw [Draft.empty_producers, valueAt_initial hw, initialValues, Bank.get_foldl_set, if_pos e.mem_all]
  refine ⟨hfree, hm.symm, hvalues, hvalues, fun e => ?_, rfl, rfl, rfl⟩
  rw [Draft.empty_producers]
  simp [Progress.start]

end Follow

/-! ### How a run ends -/

/-- The machine at the end of a run without faults: the registers that changed hold their final values. -/
structure Finished (g : Graph) (m₀ m : Machine) : Prop where
  rest : m.SameRest (machineAt g.nodes m₀ g.nodes.size)
  regs : ∀ r, m.getReg r =
    if g.final.get (.reg r) = initialNode (.reg r) then m₀.getReg r
    else r.held (valueAt g.nodes m₀ (g.final.get (.reg r)))

theorem Finished.unique {g : Graph} {m₀ m m' : Machine} (h : Finished g m₀ m) (h' : Finished g m₀ m') : m = m' :=
  Machine.eq_of_same (fun r => by rw [h.regs, h'.regs]) (h.rest.trans h'.rest.symm)

/-- The machine that a rollback makes of the one a fault left: the registers hold what the snapshot says,
    and EIP points at the instruction. -/
structure Restored (nodes : Array Node) (m₀ : Machine) (rb : Rollback) (faulted m : Machine) : Prop where
  rest : m.SameRest faulted
  regs : ∀ r id, (r, id) ∈ rb.snapshot → r ≠ .eip → m.getReg r = r.held (valueAt nodes m₀ id)
  eip : ∀ id, (Register.eip, id) ∈ rb.snapshot →
    m.getReg .eip = .ofUInt32 ((valueAt nodes m₀ id).toUInt32 + UInt32.ofInt rb.delta.toInt)

theorem mem_snapshotOf {producers : Producers} {r : Register} {id : Nat} :
    (r, id) ∈ Rollback.snapshotOf producers ↔ id = producers.get (.reg r) := by
  simp only [Rollback.snapshotOf, (sortBy_perm _ _).mem_iff, List.mem_map, Prod.mk.injEq]
  constructor
  · rintro ⟨r, -, rfl, rfl⟩
    rfl
  · rintro rfl
    exact ⟨r, r.mem_all, rfl, rfl⟩

theorem Restored.unique {nodes : Array Node} {m₀ faulted m m' : Machine} {rb : Rollback} {start : Producers}
    (hs : rb.snapshot = Rollback.snapshotOf start) (h : Restored nodes m₀ rb faulted m)
    (h' : Restored nodes m₀ rb faulted m') : m = m' := by
  refine Machine.eq_of_same (fun r => ?_) (h.rest.trans h'.rest.symm)
  have hr : (r, start.get (.reg r)) ∈ rb.snapshot := by rw [hs, mem_snapshotOf]
  by_cases he : r = .eip
  · subst he
    rw [h.eip _ hr, h'.eip _ hr]
  · rw [h.regs r _ hr he, h'.regs r _ hr he]

end Graph

namespace Interpreter
open MicroBlock.Graph

theorem writeBack_machine (q : Progress) :
    q.writeBack.machine =
      (Register.all.filter fun r => q.written.get (.reg r)).foldl (fun m r => m.set r (q.values.get (.reg r)))
        q.context.machine := by
  rw [List.foldl_filter]
  rfl

theorem finished_writeBack {g : Graph} (hw : WellFormed g.nodes) {m₀ : Machine} {q : Progress} {p : Draft}
    (hq : Follows g.nodes m₀ p q) (hn : p.nodes = g.nodes) (hf : p.producers = g.final) :
    Finished g m₀ q.writeBack.machine := by
  rw [writeBack_machine]
  have hm := hq.machine
  rw [hn] at hm
  refine ⟨hm ▸ Machine.foldl_set_sameRest _ _ _, fun r => ?_⟩
  rw [Machine.getReg_foldl_set (fun r => q.values.get (.reg r)), hm, (machineAt_sameFront hw _).regs r,
    hq.values, hf]
  simp only [List.mem_filter, r.mem_all, true_and, hq.written, hf, decide_eq_true_eq, ne_eq, ite_not]

theorem body_route_of_route {mode : Mode} {x : Fault} {m m' : Machine} (h : m.route mode (some x) = .ok m') :
    (Builtin.route mode).body [.cpu, .fault (some x)] m = .ok (.zero, m') := by
  change Builtin.routeBody _ mode [.cpu, .fault (some x)] m = _
  simp only [Builtin.routeBody, Builtin.cpu, Builtin.arg, List.getElem?_cons_zero, List.getElem?_cons_succ, bind,
    Except.bind, h]
  rfl

theorem exists_body_route (mode : Mode) {m : Machine} (h : m.router ≠ .reject) (x : Fault) :
    ∃ m', (Builtin.route mode).body [.cpu, .fault (some x)] m = .ok (.zero, m') := by
  have hr : ∃ m', m.route mode (some x) = .ok m' := by
    cases hm : m.router with
    | absent => exact ⟨m, by simp [Machine.route, hm]⟩
    | queue => exact ⟨{ m with delivered := m.delivered ++ [⟨mode, some x, m.eip⟩] }, by simp [Machine.route, hm]⟩
    | reject => exact absurd hm h
  obtain ⟨m', hm'⟩ := hr
  exact ⟨m', body_route_of_route hm'⟩

theorem body_route_reject (mode : Mode) {m : Machine} (h : m.router = .reject) (x : Fault) :
    (Builtin.route mode).body [.cpu, .fault (some x)] m = .error (.error (.rejected (.fault x mode))) := by
  change Builtin.routeBody _ mode [.cpu, .fault (some x)] m = _
  simp only [Builtin.routeBody, Builtin.cpu, Builtin.arg, List.getElem?_cons_zero, List.getElem?_cons_succ, bind,
    Except.bind, Machine.route, h]
  rfl

theorem routeHelper_eq (mode : Mode) : (mode : ModeNumber).routeHelper = (Builtin.route mode).name := by
  cases mode <;> rfl

/-- The machine that a rollback makes of the one a fault left, before it routes the fault. -/
def restored (snapshot : Values) (delta : Int64) (m : Machine) : Machine :=
  (Register.all.foldl (fun m e => m.set e (snapshot.get (.reg e))) m).set .eip
    (.ofUInt32 ((snapshot.get .eip).toUInt32 + UInt32.ofInt delta.toInt))

theorem restored_sameRest (snapshot : Values) (delta : Int64) (m : Machine) :
    (restored snapshot delta m).SameRest m :=
  (Machine.set_sameRest _ _ _).trans (Machine.foldl_set_sameRest (fun r => snapshot.get (.reg r)) _ _)

theorem getReg_restored (snapshot : Values) (delta : Int64) (m : Machine) (r : Register) :
    (restored snapshot delta m).getReg r =
      if r = .eip then .ofUInt32 ((snapshot.get .eip).toUInt32 + UInt32.ofInt delta.toInt)
      else r.held (snapshot.get (.reg r)) := by
  rw [restored, Machine.getReg_set]
  by_cases hr : r = .eip
  · subst hr
    simp [Register.held]
  · rw [if_neg (Ne.symm hr), if_neg hr, Machine.getReg_foldl_set (fun r => snapshot.get (.reg r)), if_pos r.mem_all]

/-- A rollback restores the registers and calls the routing helper of the mode. -/
theorem rollback_eq (mode : Mode) (snapshot : Values) (delta : Int64) (x : Fault) (index : Nat) (c : Context) :
    rollback .builtin (mode : ModeNumber).routeHelper snapshot delta x index c =
      match (Builtin.route mode).body [.cpu, .fault (some x)] (restored snapshot delta c.machine) with
      | .error e => (.error (ofFailure e), ⟨restored snapshot delta c.machine, (Builtin.route mode).name :: c.calls⟩)
      | .ok (_, m) => (.ok index, ⟨m, (Builtin.route mode).name :: c.calls⟩) := by
  have hbody : (Builtin.route mode).helper.body = (Builtin.route mode).body := rfl
  have hname : (Builtin.route mode).helper.name = (Builtin.route mode).name := rfl
  simp only [rollback, routeHelper_eq, Builtin.lookup_name, Helper.call, hbody, hname]
  rw [← restored]
  rcases (Builtin.route mode).body [.cpu, .fault (some x)] (restored snapshot delta c.machine) with e | ⟨v, m⟩ <;> rfl

/-- A rollback restores the machine and routes the fault. A router that turns faults away ends the run with the
    machine restored. -/
theorem rollback_restores {nodes : Array Node} {m₀ : Machine} {rb : Rollback} {start : Producers}
    (hs : rb.snapshot = Rollback.snapshotOf start) {snapshot : Values}
    (hv : ∀ e, snapshot.get e = valueAt nodes m₀ (start.get e)) (mode : Mode) (x : Fault) (c : Context) :
    ∃ m calls, Restored nodes m₀ rb c.machine m ∧
      ((∃ m', (Builtin.route mode).body [.cpu, .fault (some x)] m = .ok (.zero, m') ∧
          rollback .builtin (mode : ModeNumber).routeHelper snapshot rb.delta x rb.index c =
            (.ok rb.index, ⟨m', calls⟩)) ∨
        (c.machine.router = .reject ∧ ∃ e, (Builtin.route mode).body [.cpu, .fault (some x)] m = .error (.error e) ∧
          rollback .builtin (mode : ModeNumber).routeHelper snapshot rb.delta x rb.index c =
            (.error (.helper e), ⟨m, calls⟩))) := by
  have hm : Restored nodes m₀ rb c.machine (restored snapshot rb.delta c.machine) := by
    refine ⟨restored_sameRest _ _ _, fun r id hid hne => ?_, fun id hid => ?_⟩
    · rw [hs, mem_snapshotOf] at hid
      rw [getReg_restored, if_neg hne, hv, hid]
    · rw [hs, mem_snapshotOf] at hid
      rw [getReg_restored, if_pos rfl, hv, hid]
  refine ⟨_, (Builtin.route mode).name :: c.calls, hm, ?_⟩
  rw [rollback_eq]
  by_cases hr : c.machine.router = .reject
  · have hbody := body_route_reject mode (hm.rest.router.trans hr) x
    exact .inr ⟨hr, _, hbody, by rw [hbody]; rfl⟩
  · obtain ⟨m', hbody⟩ := exists_body_route mode (by rwa [hm.rest.router]) x
    exact .inl ⟨m', hbody, by rw [hbody]⟩

/-- How the interpreter runs a block that has a graph: without faults it finishes, and with a fault it
    restores the machine as of the faulting instruction and routes the fault, which the router may turn away. -/
theorem runMode_cases {mode : Mode} {b : Block} {s : Stream} (hs : Stream.ofBlock b = .ok s) {g : Graph}
    (hg : Graph.build (Lowering.table mode) true s = .ok g) (c : Context) :
    (FaultFree g.nodes c.machine g.nodes.size ∧ ∃ m calls, Finished g c.machine m ∧
      runMode mode .builtin s c = (.ok s.count, ⟨m, calls⟩)) ∨
    (∃ k rb x faulted m calls, FaultsAt g c.machine k rb x faulted ∧ Restored g.nodes c.machine rb faulted m ∧
      ((∃ m', (Builtin.route mode).body [.cpu, .fault (some x)] m = .ok (.zero, m') ∧
          runMode mode .builtin s c = (.ok rb.index, ⟨m', calls⟩)) ∨
        (c.machine.router = .reject ∧ ∃ e, (Builtin.route mode).body [.cpu, .fault (some x)] m = .error (.error e) ∧
          runMode mode .builtin s c = (.error (.helper e), ⟨m, calls⟩)))) := by
  have hgv := build_valid (Lowering.table_disciplined mode) hs hg
  obtain ⟨startOf, hrs⟩ := Stream.ordered_of_ofBlock hs
  unfold build at hg
  split at hg
  · cases hg
  next p hp =>
  cases hg
  have hw : WellFormed p.nodes := hgv.wellFormed
  rcases runRecords_follows (Lowering.table_disciplined mode) hrs Draft.empty_valid nofun nofun hp
      (start_follows hw c) (mode : ModeNumber).routeHelper s.count with
    ⟨q, hrun, hq⟩ | ⟨k, n, ρ, rb, x, start, snapshot, c', hfree, hn, hρ, hrb, hcan, ho, hsnap, hv, hrun⟩
  · refine .inl ⟨hq.faultFree, q.writeBack.machine, q.writeBack.calls, ?_, hrun⟩
    exact finished_writeBack (g := ⟨p.nodes, p.producers, p.effects, p.rollbacks⟩) hw hq rfl rfl
  · have hrouter : c'.machine.router = c.machine.router := by
      rcases outcome_cases hw c.machine hn (machineAt p.nodes c.machine k) with ⟨v, m', h, -⟩ | ⟨x, m', h, -, hfront⟩
      · rw [ho] at h
        cases h
      · rw [ho, Prod.mk.injEq] at h
        rw [h.2, hfront.router, (machineAt_sameFront hw k).router]
    obtain ⟨m, calls, hm, hroute⟩ := rollback_restores hsnap hv mode x c'
    rw [← hrun, hrouter] at hroute
    exact .inr ⟨k, rb, x, c'.machine, m, calls, ⟨hfree, n, ρ, hn, hρ, hrb, hcan, ho⟩, hm, hroute⟩

end Interpreter
end MicroBlock
