import Mathlib
import MicroBlock.Proofs.Runs

/-! Compiled code computes the values of its graph.

The slots hold the values of the nodes stored so far, so the code of a value pushes the value of its node
and a statement takes the machine from before its node to after it. The code of a rollback starts from
the slots that were filled before the guarded code, and restores the registers from them. -/

namespace MicroBlock

namespace Emission
open MicroBlock.Graph MicroBlock.Execution

variable {g : Graph} {slots : Slots} {m₀ : Machine}

/-! ### Slots -/

/-- The slots hold the values of the nodes that were stored at the offsets in question. -/
structure Held (slots : Slots) (values : Nat → Value) (P : Nat → Prop) (s : Emission) (kept : Array Value) : Prop where
  size : kept.size = slots.units
  get : ∀ {id k : Nat}, s.storedAt? id = some k → P k → ∃ u, slots.of? id = some u ∧ kept[u]? = some (values id)

theorem Held.of_stored {values : Nat → Value} {P : Nat → Prop} {s s' : Emission} {kept : Array Value}
    (h : Held slots values P s kept) (hst : s'.stored = s.stored) : Held slots values P s' kept where
  size := h.size
  get hid hk := by
    rw [storedAt?, hst] at hid
    exact h.get hid hk

theorem Held.store (hs : slots.Sound g) {values : Nat → Value} {P : Nat → Prop} {s : Emission} {kept : Array Value}
    (h : Held slots values P s kept) {id u : Nat} (hu : slots.of? id = some u) {s' : Emission} {k : Nat}
    (hst : s'.stored = s.stored.setIfInBounds id (some k)) :
    Held slots values P s' (kept.setIfInBounds u (values id)) where
  size := by rw [Array.size_setIfInBounds, h.size]
  get {j k'} hj hk := by
    have hlt : u < kept.size := h.size ▸ hs.lt hu
    have hset := storedAt?_set s id k j
    rw [storedAt?, hst] at hj
    rw [storedAt?, hj] at hset
    by_cases hij : id = j
    · subst hij
      exact ⟨u, hu, by rw [Array.getElem?_setIfInBounds, if_pos rfl, if_pos hlt]⟩
    · rw [if_neg fun h => hij h.1] at hset
      obtain ⟨u', hu', hget⟩ := h.get hset.symm hk
      refine ⟨u', hu', ?_⟩
      rw [Array.getElem?_setIfInBounds, if_neg, hget]
      rintro rfl
      exact hij (hs.inj hu hu')

/-- The slots, and the effects below a node among them, as the code of a value finds them. -/
structure Supplied (g : Graph) (slots : Slots) (m₀ : Machine) (P : Nat → Prop) (id : Nat) (s : Emission)
    (kept : Array Value) : Prop extends Held slots (valueAt g.nodes m₀) P s kept where
  ready : ∀ j < id, ∀ n, g.nodes[j]? = some n → n.hasEffect = true → n.element.kind ≠ .void →
    ∃ k, s.storedAt? j = some k ∧ P k

theorem Supplied.of_stored {P : Nat → Prop} {id : Nat} (s s' : Emission) (kept : Array Value)
    (hst : s'.stored = s.stored) (h : Supplied g slots m₀ P id s kept) : Supplied g slots m₀ P id s' kept where
  toHeld := h.toHeld.of_stored hst
  ready := by
    unfold storedAt?
    rw [hst]
    exact h.ready

/-- A node with a value that is not stored has no effect. -/
theorem Supplied.hasEffect_eq_false {P : Nat → Prop} {id b : Nat} {s : Emission} {kept : Array Value}
    (h : Supplied g slots m₀ P b s kept) (hid : id < b) {e : Element} (hh : Holds g.nodes id e) {n : Node}
    (hn : g.nodes[id]? = some n) (hnone : ∀ k, s.storedAt? id = some k → ¬ P k) : n.hasEffect = false := by
  cases he : n.hasEffect with
  | false => rfl
  | true =>
    obtain ⟨n', hn', rfl, hor⟩ := hh
    rw [hn, Option.some.injEq] at hn'
    subst hn'
    rcases hor with ho | hk
    · simp [Node.hasEffect, ho] at he
    · obtain ⟨k, hk, hP⟩ := h.ready id hid n hn he hk
      exact absurd hP (hnone k hk)

theorem Supplied.ready_grows {P : Nat → Prop} {b units bound : Nat} {s s' : Emission} {kept : Array Value}
    (h : Supplied g slots m₀ P b s kept) (hgrow : Grows units bound s s') :
    ∀ j < b, ∀ n, g.nodes[j]? = some n → n.hasEffect = true → n.element.kind ≠ .void →
      ∃ k, s'.storedAt? j = some k ∧ P k := by
  intro j hj n hn he hk
  obtain ⟨k, hk, hP⟩ := h.ready j hj n hn he hk
  exact ⟨k, hgrow.kept hk, hP⟩

/-! ### Values -/

section Values
variable {bound : Nat} {fin : Emission} {l : Linkage} {r : Routine} (hl : Layout slots.units fin l r)
  (hw : WellFormed g.nodes) (hs : slots.Sound g)
include hl

/-- A stored node is loaded. -/
theorem pushes_load (hs : slots.Sound g) {P : Nat → Prop} {b id k : Nat} {s : Emission} (n : Node)
    (hk : s.storedAt? id = some k) (hP : P k) (hfin : Precedes (s.load slots id n) fin) :
    Pushes fin l r m₀ (Supplied g slots m₀ P b) s (s.load slots id n) (valueAt g.nodes m₀ id) := by
  intro stack kept pending c hkept _
  obtain ⟨u, hu, hget⟩ := hkept.get hk hP
  exact ⟨kept, c.calls, reaches_load hl hu (hs.lt hu) hget hfin, .of_stored s _ kept (stored_load s id n) hkept⟩

omit hl in
include hw in
/-- An initial value is read from its register. -/
theorem pushes_initial {P : Nat → Prop} {b id : Nat} {s : Emission} {n : Node} (hn : g.nodes[id]? = some n)
    (ho : n.origin = none) (hfin : Precedes (s.getElement n.element) fin) :
    Pushes fin l r m₀ (Supplied g slots m₀ P b) s (s.getElement n.element) (valueAt g.nodes m₀ id) := by
  intro stack kept pending c hkept hc
  obtain ⟨e, rfl, rfl⟩ := hw.leaf hn ho
  rw [valueAt_initial hw, ← hc.regs.get]
  exact ⟨kept, c.calls, reaches_getElement hfin, .of_stored s _ kept rfl hkept⟩

include hw

/-- The steps of a node without effects push its value. -/
theorem pushes_steps {P : Nat → Prop} {b id : Nat} {n : Node} {o : Origin} (hn : g.nodes[id]? = some n)
    (ho : n.origin = some o) {e : Element} (hh : Holds g.nodes id e) {input : Nat → Emission → Emission}
    (hgrow : ∀ i ∈ n.inputs, ∀ s, Grows slots.units bound s (input i s))
    (hpush : ∀ i ∈ n.inputs, ∀ s, Precedes (input i s) fin →
      Pushes fin l r m₀ (Supplied g slots m₀ P b) s (input i s) (valueAt g.nodes m₀ i))
    {s : Emission} (hpure : n.hasEffect = false) (hfin : Precedes (steps n o input s) fin) :
    Pushes fin l r m₀ (Supplied g slots m₀ P b) s (steps n o input s) (valueAt g.nodes m₀ id) := by
  intro stack kept pending c hkept hc
  have hf := hw.fragment hn ho
  have hnone : n.element.kind ≠ .void := by
    obtain ⟨n', hn', rfl, hor⟩ := hh
    rw [hn, Option.some.injEq] at hn'
    subst hn'
    rcases hor with h | h
    · rw [ho] at h
      cases h
    · exact h
  have hpure' := outcome_of_not_hasEffect hw m₀ hn hpure c.machine
  simp only [Node.outcome, ho] at hpure'
  rcases Fragment.outcome_cases hf (supplies hw m₀ hn ho) n.place c.machine with
    ⟨v, m', hout, -, heval⟩ | ⟨x, m', hout, -⟩
  · rw [hpure', Prod.mk.injEq, Except.ok.injEq] at hout
    obtain ⟨rfl, rfl⟩ := hout
    obtain ⟨calls', heval⟩ := heval c.calls
    rw [Fragment.left, if_neg (hw.element hn ho ▸ hnone)] at heval
    obtain ⟨hok, -⟩ := runs_steps hl Supplied.of_stored hf hgrow hpush (fun _ h => h) hfin [] hc hkept stack pending
      c.calls
    exact hok _ _ heval
  · rw [hpure'] at hout
    cases hout

omit hw in
include hs in
/-- A value that has a slot is stored in passing. -/
theorem reaches_keep_value {P : Nat → Prop} {b id : Nat} (n : Node) {s : Emission}
    (hnone : s.storedAt? id = none) (hfin : Precedes (keep slots id n false s) fin) {kept : Array Value}
    (hkept : Supplied g slots m₀ P b s kept) (stack : List Value) (pending : Option Fault) (c : Context) :
    ∃ kept', Reaches l r ⟨rest fin s, valueAt g.nodes m₀ id :: stack, kept, pending, c⟩
        ⟨rest fin (keep slots id n false s), valueAt g.nodes m₀ id :: stack, kept', pending, c⟩ ∧
      Supplied g slots m₀ P b (keep slots id n false s) kept' := by
  have hgrow := grows_keep hs (Nat.lt_succ_self id) hnone n false
  have hready := hkept.ready_grows hgrow
  cases hu : slots.of? id with
  | none =>
    have hkeep : keep slots id n false s = s := by simp [keep, hu]
    rw [hkeep]
    exact ⟨kept, .refl _, hkept⟩
  | some u =>
    simp only [keep, hu, Bool.false_eq_true, if_false] at hfin hready ⊢
    have hstore : Precedes ((s.emit .dup).emit (.store (.ofKind n.element.kind) (.ofNat u))) fin :=
      ⟨hfin.code, hfin.constants, hfin.links⟩
    exact ⟨_, (reaches_dup hstore.of_emit).trans (reaches_store hl (hs.lt hu) hkept.size hstore),
      hkept.toHeld.store hs hu rfl, hready⟩

include hs

/-- The code of a value pushes the value of its node. -/
theorem pushes_value {b id : Nat} (hid : id < b) {depth : Nat} (hd : id < depth) {e : Element}
    (hh : Holds g.nodes id e) {s : Emission} (hfin : Precedes (value g slots depth id s) fin) :
    Pushes fin l r m₀ (Supplied g slots m₀ (fun _ => True) b) s (value g slots depth id s) (valueAt g.nodes m₀ id) := by
  induction depth generalizing id s e with
  | zero => omega
  | succ depth ih =>
    have ⟨n, hn, _⟩ := hh
    simp only [value, hn] at hfin ⊢
    split at hfin
    · next hstored =>
      obtain ⟨k, hk⟩ := Option.isSome_iff_exists.mp hstored
      rw [if_pos hstored]
      exact pushes_load hl hs n hk trivial hfin
    next hstored =>
    have hnone : s.storedAt? id = none := by simpa using hstored
    rw [if_neg hstored]
    cases ho : n.origin with
    | none =>
      simp only [ho] at hfin ⊢
      exact pushes_initial hw hn ho hfin
    | some o =>
      simp only [ho] at hfin ⊢
      intro stack kept pending c hkept hc
      have hgrow := grows_input hw hs hn depth
      have hnone' := storedAt?_steps_eq_none hgrow o hnone
      have hsteps := (grows_keep hs (Nat.lt_succ_self id) hnone' n false).precedes hfin
      have hpure := hkept.hasEffect_eq_false hid hh hn (by simp [hnone])
      have hpush : ∀ i ∈ n.inputs, ∀ s, Precedes (value g slots depth i s) fin →
          Pushes fin l r m₀ (Supplied g slots m₀ (fun _ => True) b) s (value g slots depth i s) (valueAt g.nodes m₀ i) := by
        intro i hi s hs
        obtain ⟨hlt, e, he⟩ := hw.input_lt hn i hi
        exact ih (by omega) (by omega) he hs
      obtain ⟨kept', calls', hreach, hkept'⟩ :=
        pushes_steps hl hw hn ho hh hgrow hpush hpure hsteps stack kept pending c hkept hc
      obtain ⟨kept'', hreach', hkept''⟩ :=
        reaches_keep_value hl hs n hnone' hfin hkept' stack pending ⟨c.machine, calls'⟩
      exact ⟨kept'', calls', hreach.trans hreach', hkept''⟩

/-- The code of a rollback pushes the value of a node. -/
theorem pushes_recompute {b id : Nat} (hid : id < b) {guarded : Int} {depth : Nat} (hd : id < depth) {e : Element}
    (hh : Holds g.nodes id e) {s : Emission} (hfin : Precedes (recompute g slots guarded depth id s) fin) :
    Pushes fin l r m₀ (Supplied g slots m₀ (fun k => (k : Int) ≤ guarded) b) s (recompute g slots guarded depth id s)
      (valueAt g.nodes m₀ id) := by
  induction depth generalizing id s e with
  | zero => omega
  | succ depth ih =>
    have ⟨n, hn, _⟩ := hh
    simp only [recompute, hn] at hfin ⊢
    split at hfin
    · next hstored =>
      obtain ⟨k, hk, hle⟩ := (Option.any_eq_true _ _).mp hstored
      rw [if_pos hstored]
      exact pushes_load hl hs n hk (of_decide_eq_true hle) hfin
    next hstored =>
    rw [if_neg hstored]
    cases ho : n.origin with
    | none =>
      simp only [ho] at hfin ⊢
      exact pushes_initial hw hn ho hfin
    | some o =>
      simp only [ho] at hfin ⊢
      intro stack kept pending c hkept hc
      have hgrow : ∀ i ∈ n.inputs, ∀ s, Grows slots.units 0 s (recompute g slots guarded depth i s) :=
        fun i _ s => grows_recompute hs guarded depth i s
      have hpure := hkept.hasEffect_eq_false hid hh hn fun k hk hle => hstored (by simpa [hk] using hle)
      have hpush : ∀ i ∈ n.inputs, ∀ s, Precedes (recompute g slots guarded depth i s) fin →
          Pushes fin l r m₀ (Supplied g slots m₀ (fun k => (k : Int) ≤ guarded) b) s
            (recompute g slots guarded depth i s) (valueAt g.nodes m₀ i) := by
        intro i hi s hs
        obtain ⟨hlt, e, he⟩ := hw.input_lt hn i hi
        exact ih (by omega) (by omega) he hs
      exact pushes_steps hl hw hn ho hh hgrow hpush hpure hfin stack kept pending c hkept hc

end Values

/-! ### Statements -/

section Statements
variable {fin : Emission} {l : Linkage} {r : Routine} (hl : Layout slots.units fin l r)
  (hg : g.Valid) (hs : slots.Sound g)
include hl hs

/-- A statement leaves its value in its slot, if it has one, and nothing on the stack. -/
theorem reaches_keep_statement {id : Nat} {n : Node} {f : Fragment} (hn : g.nodes[id]? = some n)
    (hf : n.element = f.target) {s : Emission} (hfin : Precedes (keep slots id n true s) fin) {kept : Array Value}
    (hkept : Held slots (valueAt g.nodes m₀) (fun _ => True) s kept) (stack : List Value) (pending : Option Fault)
    (c : Context) :
    ∃ kept', Reaches l r ⟨rest fin s, f.left (valueAt g.nodes m₀ id) ++ stack, kept, pending, c⟩
        ⟨rest fin (keep slots id n true s), stack, kept', pending, c⟩ ∧
      Held slots (valueAt g.nodes m₀) (fun _ => True) (keep slots id n true s) kept' := by
  cases hu : slots.of? id with
  | some u =>
    have hk : f.target.kind ≠ .void := hf ▸ Element.kind_ne_void (hs.materializable hu hn)
    simp only [keep, hu, if_true] at hfin ⊢
    have hstore : Precedes (s.emit (.store (.ofKind n.element.kind) (.ofNat u))) fin :=
      ⟨hfin.code, hfin.constants, hfin.links⟩
    rw [Fragment.left, if_neg hk]
    exact ⟨_, reaches_store hl (hs.lt hu) hkept.size hstore, hkept.store hs hu rfl⟩
  | none =>
    by_cases hk : f.target.kind = .void
    · have hkeep : keep slots id n true s = s := by simp [keep, hu, hf, hk]
      rw [hkeep, Fragment.left, if_pos hk]
      exact ⟨kept, .refl _, hkept⟩
    · have hkeep : keep slots id n true s = s.emit .pop := by simp [keep, hu, hf, hk]
      rw [hkeep] at hfin ⊢
      rw [Fragment.left, if_neg hk]
      exact ⟨kept, reaches_pop hfin, hkept.of_stored rfl⟩

include hg
variable (hkeep : slots.KeepsEffects g) {m : Module}
include hkeep

/-- One statement, which takes the machine from before its node to after it, or raises the fault of the
    node where its rollback guards it. -/
theorem runs_effect {id : Nat} {n : Node} (hn : g.nodes[id]? = some n) (he : n.hasEffect = true)
    (hfin : Precedes (afterEffects g slots m (id + 1)) fin) {kept : Array Value}
    (hkept : Held slots (valueAt g.nodes m₀) (fun _ => True) (afterEffects g slots m id) kept)
    (calls : List String) :
    (∀ m', n.outcome m₀ (valueAt g.nodes m₀) (machineAt g.nodes m₀ id) = (.ok (valueAt g.nodes m₀ id), m') →
      ∃ kept' calls', Reaches l r
          ⟨rest fin (afterEffects g slots m id), [], kept, none, ⟨machineAt g.nodes m₀ id, calls⟩⟩
          ⟨rest fin (afterEffects g slots m (id + 1)), [], kept', none, ⟨m', calls'⟩⟩ ∧
        Held slots (valueAt g.nodes m₀) (fun _ => True) (afterEffects g slots m (id + 1)) kept') ∧
    (∀ x m', n.outcome m₀ (valueAt g.nodes m₀) (machineAt g.nodes m₀ id) = (.error (.helper (.fault x)), m') →
      ∃ s₁ kept', Jumps l r
          ⟨rest fin (afterEffects g slots m id), [], kept, none, ⟨machineAt g.nodes m₀ id, calls⟩⟩ s₁.size kept' x m' ∧
        Held slots (valueAt g.nodes m₀) (fun _ => True) s₁ kept' ∧
        Grows slots.units (id + 1) (afterEffects g slots m id) s₁ ∧
        Grows slots.units (id + 1) s₁ (afterEffects g slots m (id + 1)) ∧
        ∀ ρ < g.rollbacks.size, n.rollback = some ρ → (afterEffects g slots m (id + 1)).Covers ρ s₁.size) := by
  have hw := hg.wellFormed
  obtain ⟨o, ho⟩ : ∃ o, n.origin = some o := by
    cases ho : n.origin with
    | none => simp [Node.hasEffect, ho] at he
    | some o => exact ⟨o, rfl⟩
  have hgrow := grows_input hw hs hn id
  have hnone : (afterEffects g slots m id).storedAt? id = none := by
    cases hk : (afterEffects g slots m id).storedAt? id with
    | none => rfl
    | some k => exact absurd (lt_of_storedAt?_afterEffects hw hs hk) (lt_irrefl id)
  have hnone' := storedAt?_steps_eq_none hgrow o hnone
  have hk := grows_keep hs (Nat.lt_succ_self id) hnone' n true
  have heff : afterEffects g slots m (id + 1) =
      keep slots id n true (steps n o (value g slots id) (afterEffects g slots m id)) := by
    rw [afterEffects_succ, if_pos (by simp [isEffect, hn, he])]
    simp only [effect, hn, ho]
  rw [heff] at hfin ⊢
  have hpush : ∀ i ∈ n.inputs, ∀ s, Precedes (value g slots id i s) fin →
      Pushes fin l r m₀ (Supplied g slots m₀ (fun _ => True) id) s (value g slots id i s) (valueAt g.nodes m₀ i) := by
    intro i hi s hs'
    obtain ⟨hlt, e, he⟩ := hw.input_lt hn i hi
    exact pushes_value hl hw hs hlt hlt he hs'
  -- All effects before the node are stored, so what its steps read is in the slots.
  have hsupplied : Supplied g slots m₀ (fun _ => True) id (afterEffects g slots m id) kept :=
    ⟨hkept, fun j hj n' hn' he' hk' => by
      obtain ⟨k, hk⟩ := ready_afterEffects hw hs hkeep m id j hj n' hn' he' hk'
      exact ⟨k, hk, trivial⟩⟩
  obtain ⟨hok, hfault⟩ := runs_steps hl Supplied.of_stored (hw.fragment hn ho) hgrow hpush (fun _ h => h)
    (hk.precedes hfin) [] (c := ⟨machineAt g.nodes m₀ id, calls⟩) (machineAt_sameFront hw id) hsupplied []
    none calls
  simp only [Node.outcome, ho]
  refine ⟨fun m' hout => ?_, fun x m' hout => ?_⟩
  · -- The fragment goes through: its steps run, and what follows them keeps the value.
    rcases Fragment.outcome_cases (hw.fragment hn ho) (supplies hw m₀ hn ho) n.place (machineAt g.nodes m₀ id) with
      ⟨v, m₁, hout', -, heval⟩ | ⟨x, m₁, hout', -⟩
    · rw [hout, Prod.mk.injEq, Except.ok.injEq] at hout'
      obtain ⟨rfl, rfl⟩ := hout'
      obtain ⟨calls', heval⟩ := heval calls
      obtain ⟨kept₁, calls₁, hreach, hkept₁⟩ := hok _ _ heval
      obtain ⟨kept₂, hreach', hkept₂⟩ := reaches_keep_statement hl hs hn (hw.element hn ho) hfin hkept₁.toHeld []
        none ⟨m', calls₁⟩
      exact ⟨kept₂, calls₁, hreach.trans hreach', hkept₂⟩
    · rw [hout] at hout'
      cases hout'
  · -- The fragment faults inside its steps, before anything is kept.
    rcases Fragment.outcome_cases (hw.fragment hn ho) (supplies hw m₀ hn ho) n.place (machineAt g.nodes m₀ id) with
      ⟨v, m₁, hout', -⟩ | ⟨x', m₁, hout', -, hcan, heval⟩
    · rw [hout] at hout'
      cases hout'
    · rw [hout] at hout'
      cases hout'
      obtain ⟨calls', heval⟩ := heval calls
      obtain ⟨s₁, kept₁, hjump, hkept₁, hg₁, hg₂, hcover⟩ := hfault _ _ heval
      have hsize : (afterEffects g slots m id).extents.size = g.rollbacks.size := by
        rw [(grows_afterEffects hw hs m id).1.extentsSize]
        exact Array.size_replicate
      exact ⟨s₁, kept₁, hjump, hkept₁.toHeld, hg₁.mono (Nat.le_succ id), (hg₂.mono (Nat.le_succ id)).trans hk,
        fun ρ hlt hρ => hk.covers (hcover ρ (hsize ▸ hlt) (by simpa [Node.canFault, ho] using hcan) hρ)⟩

/-- The statements before a node take the machine to where it is before the node, if none of them faults. -/
theorem reaches_afterEffects {id : Nat} (hfree : FaultFree g.nodes m₀ id) (hid : id ≤ g.nodes.size)
    (hfin : Precedes (afterEffects g slots m id) fin) (calls : List String) :
    ∃ kept calls', Reaches l r ⟨rest fin (start g m), [], Array.replicate slots.units .zero, none, ⟨m₀, calls⟩⟩
        ⟨rest fin (afterEffects g slots m id), [], kept, none, ⟨machineAt g.nodes m₀ id, calls'⟩⟩ ∧
      Held slots (valueAt g.nodes m₀) (fun _ => True) (afterEffects g slots m id) kept := by
  induction id with
  | zero =>
    refine ⟨Array.replicate slots.units .zero, calls, .refl _, Array.size_replicate, fun hk => ?_⟩
    rw [afterEffects_zero, storedAt?_start] at hk
    cases hk
  | succ id ih =>
    have hw := hg.wellFormed
    have hgrow := (grows_afterEffects hw hs m id).2
    obtain ⟨kept, calls₁, hreach, hkept⟩ :=
      ih (fun j hj => hfree j (by omega)) (by omega) (hgrow.precedes hfin)
    have hn := Array.getElem?_eq_getElem (show id < g.nodes.size by omega)
    generalize g.nodes[id] = n at hn
    have hout := hfree id (Nat.lt_succ_self id) n hn
    cases he : n.hasEffect with
    | true =>
      obtain ⟨kept', calls', hreach', hkept'⟩ := (runs_effect hl hg hs hkeep hn he hfin hkept calls₁).1 _ hout
      exact ⟨kept', calls', hreach.trans hreach', hkept'⟩
    | false =>
      have heff : afterEffects g slots m (id + 1) = afterEffects g slots m id := by
        rw [afterEffects_succ, if_neg (by simp [isEffect, hn, he])]
      have hmachine : machineAt g.nodes m₀ (id + 1) = machineAt g.nodes m₀ id := by
        rw [outcome_of_not_hasEffect hw m₀ hn he, Prod.mk.injEq] at hout
        exact hout.2.symm
      rw [heff, hmachine]
      exact ⟨kept, calls₁, hreach, hkept⟩

end Statements

end Emission
end MicroBlock
