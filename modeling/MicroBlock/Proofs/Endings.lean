import Mathlib
import MicroBlock.Proofs.Simulation

/-! How the code of a block ends.

Without faults the code writes the final values back and returns the instruction count. A fault leads to
the code of the rollback that guards the call: it restores the registers, routes the fault and returns
the number of instructions that were completed. -/

namespace MicroBlock

theorem Builtin.body_add32 (a b : Value) (m : Machine) :
    Builtin.add32.body [a, b] m = .ok (.ofUInt32 (a.toUInt32 + b.toUInt32), m) := rfl

namespace Emission
open MicroBlock.Graph MicroBlock.Execution

variable {g : Graph} {slots : Slots} {m₀ : Machine} {P : Fragment → Prop}

/-! ### Sequences -/

section Sequences
variable {fin : Emission} {l : Linkage} {r : Routine} {α : Type}

theorem returns_ret {s : Emission} (hfin : Precedes (s.emit .ret) fin) (v : Value) (stack : List Value)
    (kept : Array Value) (pending : Option Fault) (c : Context) :
    Returns l r ⟨rest fin s, v :: stack, kept, pending, c⟩ v c.machine := by
  rw [rest_emit hfin]
  refine ⟨1, c.calls, ?_, fun n => ?_⟩
  · simp only [List.length_cons]
    omega
  · rw [Nat.add_comm, runFor]
    rfl

/-- Values that are pushed one after the other lie on the stack in reverse. -/
theorem reaches_foldl_push {units bound : Nat} {R : Emission → Array Value → Prop} {push : Emission → α → Emission}
    {v : α → Value} (xs : List α) (hgrow : ∀ a ∈ xs, ∀ s, Grows units bound s (push s a))
    (hpush : ∀ a ∈ xs, ∀ s, Precedes (push s a) fin → Pushes fin l r m₀ R s (push s a) (v a)) {s : Emission}
    (hfin : Precedes (xs.foldl push s) fin) (stack : List Value) {kept : Array Value} (pending : Option Fault)
    {c : Context} (hkept : R s kept) (hc : c.machine.SameFront m₀) :
    ∃ kept' calls, Reaches l r ⟨rest fin s, stack, kept, pending, c⟩
        ⟨rest fin (xs.foldl push s), (xs.map v).reverse ++ stack, kept', pending, ⟨c.machine, calls⟩⟩ ∧
      R (xs.foldl push s) kept' := by
  induction xs generalizing s stack kept c with
  | nil => exact ⟨kept, c.calls, .refl _, hkept⟩
  | cons a xs ih =>
    have hgrow' := fun b hb => hgrow b (List.mem_cons_of_mem a hb)
    have hhead : Precedes (push s a) fin := (Grows.foldl hgrow' (push s a)).precedes hfin
    obtain ⟨kept₁, calls₁, hreach, hkept₁⟩ := hpush a List.mem_cons_self s hhead stack kept pending c hkept hc
    obtain ⟨kept₂, calls₂, hreach', hkept₂⟩ :=
      ih hgrow' (fun b hb => hpush b (List.mem_cons_of_mem a hb)) hfin (v a :: stack)
        (c := ⟨c.machine, calls₁⟩) hkept₁ hc
    refine ⟨kept₂, calls₂, ?_, hkept₂⟩
    rw [List.map_cons, List.reverse_cons, List.append_assoc]
    exact hreach.trans hreach'

theorem reaches_foldl_setRegister (reg : α → Register) (v : α → Value) {xs : List α} {s : Emission}
    (hfin : Precedes (xs.foldl (fun s a => s.setRegister (reg a)) s) fin) (stack : List Value) (kept : Array Value)
    (pending : Option Fault) (c : Context) :
    Reaches l r ⟨rest fin s, xs.map v ++ stack, kept, pending, c⟩
      ⟨rest fin (xs.foldl (fun s a => s.setRegister (reg a)) s), stack, kept, pending,
        ⟨xs.foldl (fun m a => m.set (reg a) (v a)) c.machine, c.calls⟩⟩ := by
  induction xs generalizing s c with
  | nil => exact .refl _
  | cons a xs ih =>
    have hhead : Precedes (s.setRegister (reg a)) fin :=
      (Grows.foldl (fun b _ s => grows_setRegister 0 0 s (reg b)) _).precedes hfin
    exact (reaches_setRegister hhead).trans (ih hfin _)

end Sequences

/-! ### Without faults -/

section Finish
variable {fin : Emission} {l : Linkage} {r : Routine} (hl : Layout slots.units fin l r)
  (hg : g.Valid) (hs : slots.Sound g) {m : Module}

theorem main_eq (hg : g.Valid P) (count : Nat) :
    main_ g slots count (start g m) =
      ((g.changed.reverse.foldl setRegister (afterValues g slots m g.changed)).pushInt count).emit .ret := by
  rw [main_, foldl_effects hg]
  rfl

theorem grows_main (hg : g.Valid P) (count : Nat) :
    Grows slots.units g.nodes.size (afterValues g slots m g.changed) (main_ g slots count (start g m)) := by
  rw [main_eq hg]
  have hset := Grows.foldl (l := g.changed.reverse) (fun r _ s => grows_setRegister slots.units g.nodes.size s r)
    (afterValues g slots m g.changed)
  exact (hset.trans (grows_pushInt _ _ _ _)).trans (grows_emit _ trivial)

include hl hg hs

/-- Code that meets no fault finishes its block. -/
theorem returns_main (hkeep : slots.KeepsEffects g) (hfree : FaultFree g.nodes m₀ g.nodes.size) {count : Nat}
    (hfin : Precedes (main_ g slots count (start g m)) fin) (calls : List String) :
    ∃ m', Finished g m₀ m' ∧
      Returns l r ⟨rest fin (start g m), [], Array.replicate slots.units .zero, none, ⟨m₀, calls⟩⟩
        (.ofUInt32 (UInt32.ofInt count)) m' := by
  have hw := hg.wellFormed
  have hvalues := (grows_main hg count).precedes hfin
  have heffects := (grows_afterValues hg hs m g.changed).precedes hvalues
  obtain ⟨kept, calls₁, hreach, hkept⟩ := reaches_afterEffects hl hg hs hkeep hfree le_rfl heffects calls
  have hsupplied : Supplied g slots m₀ (fun _ => True) g.nodes.size (afterEffects g slots m g.nodes.size) kept :=
    ⟨hkept, fun j hj n hn he hk => by
      obtain ⟨k, hk⟩ := ready_afterEffects hw hs hkeep m g.nodes.size j hj n hn he hk
      exact ⟨k, hk, trivial⟩⟩
  have hfront : (machineAt g.nodes m₀ g.nodes.size).SameFront m₀ := machineAt_sameFront hw g.nodes.size
  obtain ⟨kept₂, calls₂, hreach₂, -⟩ := reaches_foldl_push g.changed
    (v := fun r => valueAt g.nodes m₀ (g.final.get (.reg r)))
    (fun r _ s => (grows_value hw hs _ _ s).mono (hg.final (.reg r)).lt)
    (fun r _ s hs' => pushes_value hl hw hs (hg.final (.reg r)).lt (Nat.lt_succ_self _) (hg.final (.reg r)) hs')
    hvalues [] none (c := ⟨machineAt g.nodes m₀ g.nodes.size, calls₁⟩) hsupplied hfront
  rw [main_eq hg] at hfin
  have hpush := hfin.of_emit
  have hset := (grows_pushInt slots.units 0 _ _).precedes hpush
  rw [← List.map_reverse] at hreach₂
  have hreach₃ := reaches_foldl_setRegister (l := l) (r := r) id
    (fun r => valueAt g.nodes m₀ (g.final.get (.reg r))) hset [] kept₂ none
    ⟨machineAt g.nodes m₀ g.nodes.size, calls₂⟩
  refine ⟨g.changed.reverse.foldl (fun m r => m.set r (valueAt g.nodes m₀ (g.final.get (.reg r))))
    (machineAt g.nodes m₀ g.nodes.size), ⟨Machine.foldl_set_sameRest _ _ _, fun r => ?_⟩,
    hreach.returns (hreach₂.returns (hreach₃.returns
      ((reaches_pushInt hl hpush).returns (returns_ret hfin _ _ _ _ _))))⟩
  rw [Machine.getReg_foldl_set (fun r => valueAt g.nodes m₀ (g.final.get (.reg r))), hfront.regs r]
  simp [changed, r.mem_all]

end Finish

/-! ### Rollbacks -/

/-- Pushes the registers that a rollback restores. -/
def pushRestored (g : Graph) (slots : Slots) (rb : Rollback) (guarded : Int) (s : Emission) : Emission :=
  (g.restores rb).foldl (fun s e => recompute g slots guarded (e.2 + 1) e.2 s) s

/-- Pushes the EIP that a rollback restores. -/
def pushEip (g : Graph) (slots : Slots) (rb : Rollback) (guarded : Int) (s : Emission) : Emission :=
  let s := match rb.eip? with
    | some id => recompute g slots guarded (id + 1) id s
    | none => s
  if rb.delta = 0 then s else (s.pushInt rb.delta.toInt).call Builtin.add32.name

/-- Stores the registers that a rollback restores. -/
def setRestored (g : Graph) (rb : Rollback) (s : Emission) : Emission :=
  (g.restores rb).reverse.foldl (fun s e => s.setRegister e.1) s

theorem rollback_eq (route : String) (rb : Rollback) (guarded : Int) (s : Emission) :
    rollback g slots route rb guarded s =
      (s.size,
        (((((setRestored g rb ((pushEip g slots rb guarded (pushRestored g slots rb guarded s)).setRegister .eip)).getElement
          .cpu).emit .fault).call route).pushInt rb.index).emit .ret) := rfl

theorem lookup_snapshotOf (producers : Producers) :
    (Rollback.snapshotOf producers).lookup .eip = some (producers.get .eip) := by
  cases h : (Rollback.snapshotOf producers).lookup .eip with
  | none =>
    rw [List.lookup_eq_none_iff] at h
    exact absurd (h (.eip, producers.get .eip) (mem_snapshotOf.mpr rfl)) (by simp)
  | some id =>
    obtain ⟨before, after, heq, -⟩ := List.lookup_eq_some_iff.mp h
    have hmem : (Register.eip, id) ∈ Rollback.snapshotOf producers := by simp [heq]
    rw [mem_snapshotOf.mp hmem]

section Growth
variable (hs : slots.Sound g)
include hs

theorem grows_pushRestored (rb : Rollback) (guarded : Int) (s : Emission) :
    Grows slots.units 0 s (pushRestored g slots rb guarded s) :=
  Grows.foldl (fun _ _ s => grows_recompute hs guarded _ _ s) s

theorem grows_pushEip (rb : Rollback) (guarded : Int) (s : Emission) :
    Grows slots.units 0 s (pushEip g slots rb guarded s) := by
  unfold pushEip
  have hid : Grows slots.units 0 s (match rb.eip? with
      | some id => recompute g slots guarded (id + 1) id s
      | none => s) := by
    split
    · exact grows_recompute hs guarded _ _ s
    · exact .refl _ _ s
  simp only
  split
  · exact hid
  · exact (hid.trans (grows_pushInt _ _ _ _)).trans (grows_call _ _ _ _)

omit hs in
theorem grows_setRestored (g : Graph) (units bound : Nat) (rb : Rollback) (s : Emission) :
    Grows units bound s (setRestored g rb s) :=
  Grows.foldl (fun e _ s => grows_setRegister units bound s e.1) s

/-- The code of a rollback ends in a return. -/
theorem exists_rollback_body (route : String) (rb : Rollback) (guarded : Int) (s : Emission) :
    ∃ s', Grows slots.units 0 s s' ∧ rollback g slots route rb guarded s = (s.size, s'.emit .ret) := by
  refine ⟨_, ?_, rollback_eq route rb guarded s⟩
  have hset := (((grows_pushRestored hs rb guarded s).trans (grows_pushEip hs rb guarded _)).trans
    (grows_setRegister _ _ _ .eip)).trans (grows_setRestored g _ _ rb _)
  have hroute := ((hset.trans (grows_getElement _ _ _ .cpu)).trans (grows_emit (i := .fault) _ trivial)).trans
    (grows_call _ _ _ route)
  exact hroute.trans (grows_pushInt _ _ _ _)

theorem grows_rollback (route : String) (rb : Rollback) (guarded : Int) (s : Emission) :
    Grows slots.units 0 s (rollback g slots route rb guarded s).2 := by
  obtain ⟨s', hgrow, heq⟩ := exists_rollback_body hs route rb guarded s
  rw [heq]
  exact hgrow.trans (grows_emit _ trivial)

end Growth

/-- The machine that the code of a rollback makes of the one a fault left. A register that is not restored holds
    what it held at the start of the block, bits that a write would cut included. -/
structure Reverted (nodes : Array Node) (m₀ : Machine) (rb : Rollback) (faulted m : Machine) : Prop where
  rest : m.SameRest faulted
  regs : ∀ r id, (r, id) ∈ rb.snapshot → r ≠ .eip →
    m.getReg r = r.held (valueAt nodes m₀ id) ∨ m.getReg r = m₀.getReg r ∧ valueAt nodes m₀ id = m₀.getReg r
  eip : ∀ id, (Register.eip, id) ∈ rb.snapshot →
    m.getReg .eip = .ofUInt32 ((valueAt nodes m₀ id).toUInt32 + UInt32.ofInt rb.delta.toInt)

section Rollback
variable {fin : Emission} {l : Linkage} {r : Routine} (hl : Layout slots.units fin l r)
  (hw : WellFormed g.nodes) (hs : slots.Sound g) {rb : Rollback} {start : Producers}
  (hsnap : rb.snapshot = Rollback.snapshotOf start) {b : Nat}
  (hstart : ∀ e, start.get e < b ∧ Holds g.nodes (start.get e) e) {guarded : Int}
include hl hw hs hsnap hstart

/-- The EIP of a rollback is that of the snapshot, brought up to the instruction. -/
theorem pushes_pushEip {s : Emission} (hfin : Precedes (pushEip g slots rb guarded s) fin) :
    ∃ v, Register.eip.held v =
        .ofUInt32 ((valueAt g.nodes m₀ (start.get .eip)).toUInt32 + UInt32.ofInt rb.delta.toInt) ∧
      Pushes fin l r m₀ (Supplied g slots m₀ (fun k => (k : Int) ≤ guarded) b) s (pushEip g slots rb guarded s) v := by
  have heip : rb.eip? = some (start.get .eip) := by rw [Rollback.eip?, hsnap, lookup_snapshotOf]
  simp only [pushEip, heip] at hfin ⊢
  obtain ⟨hlt, hholds⟩ := hstart .eip
  split at hfin
  · next hdelta =>
    rw [if_pos hdelta]
    refine ⟨_, ?_, pushes_recompute hl hw hs hlt (Nat.lt_succ_self _) hholds hfin⟩
    rw [hdelta, show UInt32.ofInt (0 : Int64).toInt = 0 from rfl, UInt32.add_zero]
    rfl
  · next hdelta =>
    rw [if_neg hdelta]
    have hpush := (grows_call slots.units 0 _ _).precedes hfin
    have hid := (grows_pushInt slots.units 0 _ _).precedes hpush
    refine ⟨.ofUInt32 ((valueAt g.nodes m₀ (start.get .eip)).toUInt32 + UInt32.ofInt rb.delta.toInt),
      by simp [Register.held], fun stack kept pending c hkept hc => ?_⟩
    obtain ⟨kept₁, calls₁, hreach, hkept₁⟩ :=
      pushes_recompute hl hw hs hlt (Nat.lt_succ_self _) hholds hid stack kept pending c hkept hc
    have hargs : Builtin.add32.helper.arguments?
        (.ofUInt32 (UInt32.ofInt rb.delta.toInt) :: valueAt g.nodes m₀ (start.get .eip) :: stack) =
          some ([valueAt g.nodes m₀ (start.get .eip), .ofUInt32 (UInt32.ofInt rb.delta.toInt)], stack) := by
      simp [Helper.arguments?, Builtin.helper, Builtin.arity]
    have hadd : Builtin.add32.body [valueAt g.nodes m₀ (start.get .eip), .ofUInt32 (UInt32.ofInt rb.delta.toInt)]
        c.machine = .ok (.ofUInt32 ((valueAt g.nodes m₀ (start.get .eip)).toUInt32 + UInt32.ofInt rb.delta.toInt),
          c.machine) := by
      rw [Builtin.body_add32, Value.toUInt32_ofUInt32]
    refine ⟨kept₁, _, hreach.trans ((reaches_pushInt hl hpush).trans
      (reaches_call (c := ⟨c.machine, calls₁⟩) hl hfin hargs hadd)), .of_stored _ _ kept₁ ?_ hkept₁⟩
    simp only [call_eq, emit, stored_pushInt]

omit hl hs in
/-- A register that is not restored has not changed since the start of the block. -/
theorem reverted_setRestored {m : Machine} (hc : m.SameFront m₀) {v : Value}
    (hv : Register.eip.held v =
      .ofUInt32 ((valueAt g.nodes m₀ (start.get .eip)).toUInt32 + UInt32.ofInt rb.delta.toInt)) :
    Reverted g.nodes m₀ rb m
      ((g.restores rb).reverse.foldl (fun m e => m.set e.1 (valueAt g.nodes m₀ (start.get (.reg e.1))))
        (m.set .eip v)) := by
  have hmap : (g.restores rb).reverse.foldl (fun m e => m.set e.1 (valueAt g.nodes m₀ (start.get (.reg e.1))))
      (m.set .eip v) = ((g.restores rb).reverse.map (·.1)).foldl
        (fun m r => m.set r (valueAt g.nodes m₀ (start.get (.reg r)))) (m.set .eip v) := by rw [List.foldl_map]
  rw [hmap]
  refine ⟨(Machine.foldl_set_sameRest _ _ _).trans (Machine.set_sameRest _ _ _), fun r id hid hne => ?_, fun id hid => ?_⟩
  · rw [hsnap, mem_snapshotOf] at hid
    subst hid
    rw [Machine.getReg_foldl_set (fun r => valueAt g.nodes m₀ (start.get (.reg r))), Machine.getReg_set,
      if_neg (Ne.symm hne), hc.regs r]
    split
    · exact .inl rfl
    next hnot =>
    obtain ⟨-, n, hnode, helem, -⟩ := hstart (.reg r)
    have hinitial : n.origin = none := by
      by_contra ho
      refine hnot (List.mem_map.mpr ⟨(r, start.get (.reg r)), List.mem_reverse.mpr (List.mem_filter.mpr ⟨?_, ?_⟩), rfl⟩)
      · rw [hsnap, mem_snapshotOf]
      · simpa [hnode, Node.isInitial, hne] using Option.isSome_iff_ne_none.mpr ho
    obtain ⟨e, hid, rfl⟩ := hw.leaf hnode hinitial
    have he : e = .reg r := helem
    rw [hid, he, valueAt_initial hw]
    exact .inr ⟨rfl, rfl⟩
  · rw [hsnap, mem_snapshotOf] at hid
    rw [hid, Machine.getReg_foldl_set (fun r => valueAt g.nodes m₀ (start.get (.reg r))), if_neg, Machine.getReg_set,
      if_pos rfl]
    · exact hv
    · intro hmem
      obtain ⟨e, he, heip⟩ := List.mem_map.mp hmem
      have hne := (List.mem_filter.mp (List.mem_reverse.mp he)).2
      simp [heip] at hne

/-- The code of a rollback comes to the call of the routing helper with the registers back. -/
theorem reaches_route {mode : Mode} {x : Fault} {s : Emission}
    (hfin : Precedes (rollback g slots (Builtin.route mode).name rb guarded s).2 fin) {kept : Array Value}
    (hkept : Supplied g slots m₀ (fun k => (k : Int) ≤ guarded) b s kept) {c : Context}
    (hc : c.machine.SameFront m₀) :
    ∃ m s' kept' calls, Reverted g.nodes m₀ rb c.machine m ∧
      Precedes (((s'.call (Builtin.route mode).name).pushInt rb.index).emit .ret) fin ∧
      Reaches l r ⟨rest fin s, [], kept, some x, c⟩
        ⟨rest fin s', [.fault (some x), .cpu], kept', some x, ⟨m, calls⟩⟩ := by
  rw [rollback_eq] at hfin
  have hcall := (grows_pushInt slots.units 0 _ _).precedes hfin.of_emit
  have hfault := (grows_call slots.units 0 _ _).precedes hcall
  have hcpu := hfault.of_emit
  have hset := hcpu.of_emit
  have hseteip := (grows_setRestored g slots.units 0 rb _).precedes hset
  have heip := hseteip.of_emit
  have hpush := (grows_pushEip hs rb guarded _).precedes heip
  have hmem : ∀ e ∈ g.restores rb, e.2 = start.get (.reg e.1) := by
    rintro ⟨reg, id⟩ he
    exact mem_snapshotOf.mp (hsnap ▸ (List.mem_filter.mp he).1)
  obtain ⟨kept₁, calls₁, hreach₁, hkept₁⟩ := reaches_foldl_push (g.restores rb)
    (v := fun e => valueAt g.nodes m₀ (start.get (.reg e.1)))
    (fun e _ s => grows_recompute hs guarded _ _ s)
    (fun e he s hs' => by
      obtain ⟨hlt, hholds⟩ := hstart (.reg e.1)
      rw [hmem e he] at hs' ⊢
      exact pushes_recompute hl hw hs hlt (Nat.lt_succ_self _) hholds hs')
    hpush [] (some x) hkept hc
  rw [← List.map_reverse] at hreach₁
  obtain ⟨v, hv, hpusheip⟩ := pushes_pushEip hl hw hs hsnap hstart heip
  obtain ⟨kept₂, calls₂, hreach₂, -⟩ := hpusheip _ kept₁ (some x) ⟨c.machine, calls₁⟩ hkept₁ hc
  have hreach₃ := reaches_foldl_setRegister (l := l) (r := r) (fun e : Register × Nat => e.1) (fun e => valueAt g.nodes m₀ (start.get (.reg e.1)))
    hset [] kept₂ (some x) ⟨c.machine.set .eip v, calls₂⟩
  exact ⟨_, _, kept₂, calls₂, reverted_setRestored hw hsnap hstart hc hv, hfin, hreach₁.trans (hreach₂.trans ((reaches_setRegister hseteip).trans (hreach₃.trans
    ((reaches_getElement hcpu).trans (reaches_emit hfault rfl)))))⟩

end Rollback

section Route
variable {units : Nat} {fin : Emission} {l : Linkage} {r : Routine} (hl : Layout units fin l r) {mode : Mode} {index : Nat}
  {s : Emission} (hfin : Precedes (((s.call (Builtin.route mode).name).pushInt index).emit .ret) fin) {x : Fault}
include hl hfin

omit hl hfin in
theorem arguments?_route (mode : Mode) (x : Fault) :
    (Builtin.route mode).helper.arguments? [.fault (some x), .cpu] = some ([.cpu, .fault (some x)], []) := by
  simp [Helper.arguments?, Builtin.helper, Builtin.arity]

/-- A rollback whose fault is routed returns. -/
theorem returns_route (kept : Array Value) {c : Context} {m : Machine}
    (hroute : (Builtin.route mode).body [.cpu, .fault (some x)] c.machine = .ok (.zero, m)) :
    Returns l r ⟨rest fin s, [.fault (some x), .cpu], kept, some x, c⟩ (.ofUInt32 (UInt32.ofInt index)) m := by
  have hindex := hfin.of_emit
  have hcall := (grows_pushInt units 0 _ _).precedes hindex
  exact (reaches_call hl hcall (arguments?_route mode x) hroute).returns
    ((reaches_pushInt hl hindex).returns (returns_ret hfin _ _ kept (some x) _))

/-- A rollback whose fault is turned away fails. -/
theorem fails_route (kept : Array Value) {c : Context} {e : HelperError}
    (hroute : (Builtin.route mode).body [.cpu, .fault (some x)] c.machine = .error (.error e)) (n : Nat) :
    runFor l r true (1 + n) ⟨rest fin s, [.fault (some x), .cpu], kept, some x, c⟩ =
      .failed (.helper (Builtin.route mode).name e) ⟨c.machine, (Builtin.route mode).name :: c.calls⟩ :=
  runFor_call_error hl ((grows_pushInt units 0 _ _).precedes hfin.of_emit) (arguments?_route mode x) hroute n

end Route

/-! ### Guards -/

theorem place_append (pc : Nat) (is is' : List Instr) :
    place pc (is ++ is') = place pc is ++ place (pc + sizeOf is) is' := by
  induction is generalizing pc with
  | nil => rfl
  | cons i is ih =>
    simp only [List.cons_append, place, ih, sizeOf_cons, Nat.add_assoc]

theorem dropWhile_place (pc : Nat) (is is' : List Instr) :
    (place pc (is ++ is')).dropWhile (fun p => ((pc + sizeOf is : Nat) : Int) != p.pc) =
      place (pc + sizeOf is) is' := by
  induction is generalizing pc with
  | nil =>
    cases is' with
    | nil => rfl
    | cons i is' => simp [place, sizeOf]
  | cons i is ih =>
    have hsum : pc + sizeOf (i :: is) = pc + i.size + sizeOf is := by rw [sizeOf_cons, Nat.add_assoc]
    have hne : (((pc + sizeOf (i :: is) : Nat) : Int) != (pc : Int)) = true := by
      have hpos := i.size_pos
      rw [bne_iff_ne]
      omega
    rw [List.cons_append, place, List.dropWhile_cons, if_pos hne, hsum]
    exact ih (pc + i.size)

/-- A jump to where a point of the writing was goes on with the code that comes after it. -/
theorem codeFrom_eq {units : Nat} {s fin : Emission} {l : Linkage} {r : Routine} (hl : Layout units fin l r)
    (hfin : Precedes s fin) (hsize : s.size = sizeOf s.code) (hlt : s.size < 2 ^ 29) :
    r.codeFrom (Int32.ofNat s.size) = rest fin s := by
  obtain ⟨is, hcode⟩ := hfin.code
  have hinstrs : fin.instrs = s.code.reverse ++ is.reverse := by rw [instrs, hcode, List.reverse_append]
  have hdrop : fin.instrs.drop s.code.length = is.reverse := by rw [hinstrs, List.drop_left' (by simp)]
  rw [Routine.codeFrom, hl.code, toInt_ofNat hlt, rest, hdrop, hinstrs, hsize, ← sizeOf_reverse s.code]
  have h := dropWhile_place 0 s.code.reverse is.reverse
  rwa [Nat.zero_add] at h

section Guards
variable (hs : slots.Sound g)
include hs

theorem grows_rollbacks (route : String) (rs : List (Rollback × Extent)) (s : Emission) :
    Grows slots.units 0 s (rollbacks g slots route rs s).2 := by
  induction rs generalizing s with
  | nil => exact .refl _ _ s
  | cons e rs ih =>
    obtain ⟨rb, x⟩ := e
    simp only [rollbacks]
    split
    · exact ih s
    · exact (grows_rollback hs route rb x.first s).trans (ih _)

/-- A guard has the ends of a stretch and leads to a point of the writing that has code after it; there are no more
    guards than instructions. -/
theorem guards_rollbacks (route : String) (rs : List (Rollback × Extent)) (s : Emission) :
    (rollbacks g slots route rs s).1.length + s.code.length ≤ (rollbacks g slots route rs s).2.code.length ∧
      ∀ gd ∈ (rollbacks g slots route rs s).1, ∃ e ∈ rs, ∃ sρ, Grows slots.units 0 s sρ ∧
        Grows slots.units 0 sρ (rollbacks g slots route rs s).2 ∧ sρ.size < (rollbacks g slots route rs s).2.size ∧
        e.2.isEmpty = false ∧ gd = ⟨Int32.ofInt e.2.first, Int32.ofInt e.2.last, Int32.ofNat sρ.size⟩ := by
  induction rs generalizing s with
  | nil => exact ⟨(Nat.zero_add _).le, nofun⟩
  | cons e rs ih =>
    obtain ⟨rb, x⟩ := e
    simp only [rollbacks]
    split
    · obtain ⟨hlen, hmem⟩ := ih s
      refine ⟨hlen, fun gd hgd => ?_⟩
      obtain ⟨e, he, h⟩ := hmem gd hgd
      exact ⟨e, List.mem_cons_of_mem _ he, h⟩
    · next hempty =>
      obtain ⟨s', hgrow, heq⟩ := exists_rollback_body hs route rb x.first s
      obtain ⟨is, hcode, -⟩ := hgrow.code
      obtain ⟨hlen, hmem⟩ := ih (s'.emit .ret)
      have hret : Grows slots.units 0 s (s'.emit .ret) := hgrow.trans (grows_emit 0 trivial)
      have hgrow' := grows_rollbacks hs route rs (s'.emit .ret)
      have hlt : s.size < (s'.emit .ret).size := hgrow.size_le.trans_lt (Nat.lt_add_of_pos_right (Instr.size_pos _))
      simp only [heq]
      constructor
      · simp only [emit, hcode, List.length_cons, List.length_append] at hlen ⊢
        omega
      · intro gd hgd
        rcases List.mem_cons.mp hgd with rfl | hgd
        · exact ⟨(rb, x), List.mem_cons_self, s, .refl _ _ s, hret.trans hgrow', hlt.trans_le hgrow'.size_le,
            by simpa using hempty, rfl⟩
        · obtain ⟨e, he, sρ, hfrom, h⟩ := hmem gd hgd
          exact ⟨e, List.mem_cons_of_mem _ he, sρ, hret.trans hfrom, h⟩

/-- The first stretch that contains an offset leads to the code of its rollback. -/
theorem exists_rollback (route : String) {before after : List (Rollback × Extent)} {rb : Rollback} {x : Extent} {pc : Nat}
    (hbefore : ∀ e ∈ before, ¬ e.2.Contains pc) (hx : x.Contains pc)
    (hlast : ∀ e ∈ before ++ (rb, x) :: after, e.2.last < 2 ^ 31) (s : Emission) :
    ∃ sρ, Grows slots.units 0 s sρ ∧
      Grows slots.units 0 (rollback g slots route rb x.first sρ).2
        (rollbacks g slots route (before ++ (rb, x) :: after) s).2 ∧
      ((rollbacks g slots route (before ++ (rb, x) :: after) s).1.find? fun g =>
        g.first.toInt ≤ (pc : Int) && (pc : Int) < g.last.toInt).map (·.target) = some (.ofNat sρ.size) := by
  -- The operands of a guard are the ends of its stretch.
  have hends : ∀ x : Extent, x.isEmpty = false → x.last < 2 ^ 31 →
      (Int32.ofInt x.first).toInt = x.first ∧ (Int32.ofInt x.last).toInt = x.last := by
    intro x hempty hlt
    simp only [Extent.isEmpty, Bool.or_eq_false_iff, decide_eq_false_iff_not] at hempty
    exact ⟨Int32.toInt_ofInt_of_le (by omega) (by omega), Int32.toInt_ofInt_of_le (by omega) (by omega)⟩
  induction before generalizing s with
  | nil =>
    have hempty : x.isEmpty = false := by
      obtain ⟨h0, h1, h2⟩ := hx
      simp only [Extent.isEmpty, Bool.or_eq_false_iff, decide_eq_false_iff_not]
      omega
    obtain ⟨hfirst, hlast⟩ := hends x hempty (hlast (rb, x) (by simp))
    obtain ⟨h0, h1, h2⟩ := hx
    simp only [List.nil_append, rollbacks, hempty, Bool.false_eq_true, if_false]
    refine ⟨s, .refl _ _ s, grows_rollbacks hs route after _, ?_⟩
    rw [List.find?_cons_of_pos]
    · rfl
    · simp [hfirst, hlast, h1, h2]
  | cons e before ih =>
    obtain ⟨rb', x'⟩ := e
    have hrest := ih (fun e he => hbefore e (List.mem_cons_of_mem _ he)) (fun e he => hlast e (List.mem_cons_of_mem _ he))
    simp only [List.cons_append, rollbacks]
    split
    · exact hrest s
    · next hempty =>
      have hempty : x'.isEmpty = false := by simpa using hempty
      obtain ⟨hfirst, hlast⟩ := hends x' hempty (hlast (rb', x') (by simp))
      obtain ⟨sρ, hgrow, hgrow', hfind⟩ := hrest (rollback g slots route rb' x'.first s).2
      refine ⟨sρ, (grows_rollback hs route rb' x'.first s).trans hgrow, hgrow', ?_⟩
      rw [List.find?_cons_of_neg]
      · exact hfind
      · have hnot := hbefore (rb', x') List.mem_cons_self
        simp only [Extent.isEmpty, Bool.or_eq_false_iff, decide_eq_false_iff_not] at hempty
        simp only [Extent.Contains] at hnot
        simp only [hfirst, hlast, Bool.and_eq_true, decide_eq_true_eq]
        omega

end Guards

/-! ### With a fault -/

section Main
variable (hg : g.Valid P) (hs : slots.Sound g) (hkeep : slots.KeepsEffects g) {m : Module}
include hg hs

theorem grows_afterEffects_main {id : Nat} (hid : id ≤ g.nodes.size) (count : Nat) :
    Grows slots.units g.nodes.size (afterEffects g slots m id) (main_ g slots count (start g m)) :=
  ((grows_afterEffects_le hg.wellFormed hs m hid).trans (grows_afterValues hg hs m g.changed)).trans (grows_main hg count)

variable [Fragment.Writable P]
include hkeep

/-- Writing the values back guards no code. -/
theorem extents_main (count : Nat) :
    (main_ g slots count (start g m)).extents = (afterEffects g slots m g.nodes.size).extents := by
  have hw := hg.wellFormed
  rw [main_eq hg, extents_emit, extents_pushInt]
  have hset : ∀ (rs : List Register) (s : Emission), (rs.foldl setRegister s).extents = s.extents := by
    intro rs
    induction rs with
    | nil => exact fun _ => rfl
    | cons r rs ih => exact fun s => ih _
  rw [hset, afterValues]
  refine (List.foldlRecOn (motive := fun s => Ready g g.nodes.size s ∧
    s.extents = (afterEffects g slots m g.nodes.size).extents) g.changed _
    ⟨ready_afterEffects hw hs hkeep m g.nodes.size, rfl⟩ ?_).2
  rintro s ⟨hready, hext⟩ r -
  have hholds := hg.final (.reg r)
  exact ⟨hready.grows (grows_value hw hs _ _ s), (extents_value hw hs (hready.mono hholds.lt) hholds).trans hext⟩

theorem fenced_main (count : Nat) :
    Fenced g (fun i => (afterEffects g slots m i).size) g.nodes.size (main_ g slots count (start g m)) :=
  (fenced_afterEffects hg hs hkeep m g.nodes.size).of_extents (extents_main hg hs hkeep count)
    (grows_afterEffects_main hg hs le_rfl count).size_le

/-- A rollback that guards some code has a snapshot of nodes that hold values. -/
theorem exists_snapshot {count : Nat} {rb : Rollback} {x : Extent}
    (he : (rb, x) ∈ g.rollbacks.toList.zip (main_ g slots count (start g m)).extents.toList) (hempty : x.isEmpty = false) :
    ∃ start : Producers, rb.snapshot = Rollback.snapshotOf start ∧ ∀ e, Holds g.nodes (start.get e) e := by
  obtain ⟨ρ, hρ⟩ := List.mem_iff_getElem?.mp he
  obtain ⟨hrb, hx⟩ := List.getElem?_zip_eq_some.mp hρ
  simp only [Extent.isEmpty, Bool.or_eq_false_iff, decide_eq_false_iff_not] at hempty
  obtain ⟨-, hfirst⟩ := fenced_main hg hs hkeep count ρ x (by simpa using hx)
  obtain ⟨-, ⟨i, n, -, hn, hroll, -⟩, -⟩ := hfirst (by omega)
  obtain ⟨rb', start', hrb', hsnap, hstart⟩ := hg.tracked.snapshot hn hroll
  obtain rfl : rb' = rb := Option.some.inj (hrb'.symm.trans (by simpa using hrb))
  exact ⟨start', hsnap, fun e => (hstart e).2⟩

/-- The rollbacks with their stretches, split at the one that guards an offset. -/
theorem zip_extents_eq {count ρ pc : Nat} {rb : Rollback} (hrb : g.rollbacks[ρ]? = some rb)
    (hc : (main_ g slots count (start g m)).Covers ρ pc) :
    ∃ before after x, (main_ g slots count (start g m)).extents[ρ]? = some x ∧ x.Contains pc ∧
      g.rollbacks.toList.zip (main_ g slots count (start g m)).extents.toList = before ++ (rb, x) :: after ∧
      ∀ e ∈ before, ¬ e.2.Contains pc := by
  obtain ⟨x, hx, hpc⟩ := hc
  generalize hpairs : g.rollbacks.toList.zip (main_ g slots count (start g m)).extents.toList = pairs
  have hget : pairs[ρ]? = some (rb, x) := by
    rw [← hpairs, List.getElem?_zip_eq_some]
    exact ⟨by simpa using hrb, by simpa using hx⟩
  obtain ⟨hlt, hget'⟩ := List.getElem?_eq_some_iff.mp hget
  refine ⟨pairs.take ρ, pairs.drop (ρ + 1), x, hx, hpc, ?_, fun e he hcontains => ?_⟩
  · rw [← hget', List.getElem_cons_drop, List.take_append_drop]
  · obtain ⟨ρ', hlt', hρ'⟩ := List.mem_iff_getElem.mp he
    rw [List.getElem_take] at hρ'
    have hlt₁ : ρ' < ρ := by simp only [List.length_take] at hlt'; omega
    have hget₁ : pairs[ρ']? = some e := List.getElem?_eq_some_iff.mpr ⟨by omega, hρ'⟩
    rw [← hpairs, List.getElem?_zip_eq_some] at hget₁
    have hcovers : (main_ g slots count (start g m)).Covers ρ' pc := ⟨e.2, by simpa using hget₁.2, hcontains⟩
    have := (fenced_main hg hs hkeep count).covers_unique hcovers ⟨x, hx, hpc⟩
    omega

/-- What the slots held when the fault came is what the code of the rollback finds in them. -/
theorem supplied_of_held {units bound bound' i : Nat} {s s₁ : Emission} {guarded : Int} {kept : Array Value}
    (hheld : Held slots (valueAt g.nodes m₀) (fun _ => True) s₁ kept) (hgrow : Grows units bound s₁ s)
    (hle : guarded ≤ s₁.size) (hgrow' : Grows units bound' (afterEffects g slots m i) s)
    (hpos : ((afterEffects g slots m i).size : Int) ≤ guarded) :
    Supplied g slots m₀ (fun k => (k : Int) ≤ guarded) i s kept where
  size := hheld.size
  get {id k} hk hkle := by
    rcases hgrow.fresh hk with hk | ⟨-, hlt, -⟩
    · exact hheld.get hk trivial
    · omega
  ready j hj n hn he hkind := by
    obtain ⟨k, hk⟩ := ready_afterEffects hg.wellFormed hs hkeep m i j hj n hn he hkind
    refine ⟨k, hgrow'.kept hk, ?_⟩
    rcases (grows_afterEffects hg.wellFormed hs m i).1.fresh hk with hstart | ⟨-, -, hk⟩
    · rw [storedAt?_start] at hstart
      cases hstart
    · omega

end Main

/-- A fault leads to the code of the rollback of its instruction, and through it to the routing of the fault. -/
theorem reaches_execute_route (hg : g.Valid) (hs : slots.Sound g) (hkeep : slots.KeepsEffects g) {m : Module}
    {fin : Emission} {l : Linkage} {r : Routine} (hl : Layout slots.units fin l r) {mode : Mode} {count : Nat}
    (hexec : execute g slots (Builtin.route mode).name count m = (r.guards, fin)) (hsize : fin.size < 2 ^ 29)
    {k : Nat} {rb : Rollback} {x : Fault} {faulted : Machine} (hf : FaultsAt g m₀ k rb x faulted)
    (calls : List String) :
    ∃ m₁ steps s kept calls', (∃ start, rb.snapshot = Rollback.snapshotOf start) ∧ Reverted g.nodes m₀ rb faulted m₁ ∧
      Precedes (((s.call (Builtin.route mode).name).pushInt rb.index).emit .ret) fin ∧
      steps + (rest fin s).length ≤ 2 * r.code.length ∧
      ∀ n, runFor l r true (steps + n)
          ⟨rest fin (start g m), [], Array.replicate slots.units .zero, none, ⟨m₀, calls⟩⟩ =
        runFor l r true n ⟨rest fin s, [.fault (some x), .cpu], kept, some x, ⟨m₁, calls'⟩⟩ := by
  have hw := hg.wellFormed
  obtain ⟨hfree, n, ρ, hnode, hρ, hrb, hcan, hout⟩ := hf
  have hk : k < g.nodes.size := (Array.getElem?_eq_some_iff.mp hnode).1
  have hρlt : ρ < g.rollbacks.size := (Array.getElem?_eq_some_iff.mp hrb).1
  have he : n.hasEffect = true := by
    cases he : n.hasEffect with
    | false =>
      rw [canFault_eq_false he] at hcan
      cases hcan
    | true => rfl
  have hguards : (rollbacks g slots (Builtin.route mode).name (g.rollbacks.toList.zip
      (main_ g slots count (start g m)).extents.toList) (main_ g slots count (start g m))).1 = r.guards :=
    congrArg Prod.fst hexec
  have hrolls : (rollbacks g slots (Builtin.route mode).name (g.rollbacks.toList.zip
      (main_ g slots count (start g m)).extents.toList) (main_ g slots count (start g m))).2 = fin :=
    congrArg Prod.snd hexec
  have hmain := grows_afterEffects_main (m := m) hg hs (show k + 1 ≤ g.nodes.size by omega) count
  have hrollbacks := grows_rollbacks hs (Builtin.route mode).name (g.rollbacks.toList.zip
    (main_ g slots count (start g m)).extents.toList) (main_ g slots count (start g m))
  rw [hrolls] at hrollbacks
  have hfin := hmain.precedes (hrollbacks.precedes (.refl fin))
  have hgrow := (grows_afterEffects hw hs m k).2
  -- The fault, and the rollback that guards it.
  obtain ⟨kept, calls₁, hreach, hkept⟩ := reaches_afterEffects hl hg hs hkeep hfree hk.le (hgrow.precedes hfin) calls
  obtain ⟨s₁, kept₁, hjump, hkept₁, -, hg₁, hcover⟩ :=
    (runs_effect hl hg hs hkeep hnode he hfin hkept calls₁).2 x faulted hout
  obtain ⟨before, after, ext, hext, hpc, hzip, hbefore⟩ :=
    zip_extents_eq hg hs hkeep hrb (hmain.covers (hcover ρ hρlt hρ))
  have hfenced := fenced_main (m := m) hg hs hkeep count
  have hlast : ∀ e ∈ before ++ (rb, ext) :: after, e.2.last < 2 ^ 31 := by
    intro e he
    rw [← hzip] at he
    obtain ⟨ρ', hρ'⟩ := List.mem_iff_getElem?.mp he
    have hx := (List.getElem?_zip_eq_some.mp hρ').2
    have := (hfenced ρ' e.2 (by simpa using hx)).1
    have := hrollbacks.size_le
    omega
  obtain ⟨sρ, hgrowρ, hgrowρ', hfind⟩ := exists_rollback hs (Builtin.route mode).name hbefore hpc hlast
    (main_ g slots count (start g m))
  rw [← hzip, hrolls] at hgrowρ'
  rw [← hzip, hguards] at hfind
  have hrollback := hgrowρ'.precedes (.refl fin)
  have hρ' := grows_rollback hs (Builtin.route mode).name rb ext.first sρ
  -- Its code starts where the writing was when it was written.
  have hcode : r.codeFrom (Int32.ofNat sρ.size) = rest fin sρ := by
    refine codeFrom_eq hl (hρ'.precedes hrollback) ?_ (hρ'.size_le.trans_lt (hgrowρ'.size_le.trans_lt hsize))
    obtain ⟨is, hcode, hsize, -⟩ :=
      ((grows_afterEffects_main hg hs (Nat.zero_le _) count).trans (hgrowρ.mono (Nat.zero_le _))).code
    rw [afterEffects_zero] at hcode hsize
    rw [hcode, hsize]
    simp [start]
  -- The slots hold what it reads.
  obtain ⟨hfirst, hle, -⟩ := hpc
  obtain ⟨-, ⟨i, n', hi, hn', hρi, hpos⟩, -⟩ := (hfenced ρ ext hext).2 hfirst
  obtain ⟨rb', start', hrb', hsnap, hstart⟩ := hg.tracked.snapshot hn' hρi
  rw [hrb, Option.some.injEq] at hrb'
  subst hrb'
  have hsupplied := supplied_of_held (m := m) hg hs hkeep hkept₁
    ((hg₁.mono hk).trans (hmain.trans (hgrowρ.mono (Nat.zero_le _)))) hle
    ((grows_afterEffects_main hg hs hi count).trans (hgrowρ.mono (Nat.zero_le _))) hpos
  have hfront : faulted.SameFront m₀ := by
    rcases outcome_cases hw m₀ hnode (machineAt g.nodes m₀ k) with ⟨v, m', h, -⟩ | ⟨x, m', h, -, hfront⟩
    · rw [hout] at h
      cases h
    · rw [hout] at h
      cases h
      exact hfront.trans (machineAt_sameFront hw k)
  obtain ⟨k₁, calls₂, hk₁, hrun⟩ := hreach.jumps hjump
  obtain ⟨m₁, s', kept₂, calls₃, hm₁, hroute, k₂, hk₂, hrun'⟩ := reaches_route (c := ⟨faulted, calls₂⟩) (x := x) hl hw hs
    hsnap hstart hrollback hsupplied hfront
  have hlen : ∀ s, (rest fin s).length ≤ r.code.length := by
    intro s
    rw [rest, hl.code, length_place, length_place, List.length_drop]
    omega
  refine ⟨m₁, k₁ + k₂, s', kept₂, calls₃, ⟨start', hsnap⟩, hm₁, hroute, ?_, fun n => ?_⟩
  · have := hlen (start g m)
    have := hlen sρ
    simp only at hk₁ hk₂
    omega
  · rw [Nat.add_assoc, hrun _ hfind, hcode, hrun']

end Emission
end MicroBlock
