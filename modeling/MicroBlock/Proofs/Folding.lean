import Mathlib
import MicroBlock.Proofs.Computations
import MicroBlock.Proofs.Refinement

/-! Accounting for EIP.

An update of EIP does not run at every instruction. It adds the bytes from the last point that EIP was brought
up to, the base, and moves the base on to the end of its own instruction. So EIP and the base move together,
and what is missing from EIP at any moment is the distance to the base: the end of a run and a rollback read
EIP off this invariant. -/

namespace MicroBlock

namespace Stream

/-- Whether a record only brings EIP up to the end of its instruction. -/
def updates (rec : Record) : Bool := rec.op = some .eipUpdate

/-- The position of the last update of EIP among some records; `base` if there is none. -/
def lastUpdate (base : Int64) (rs : List Record) : Int64 := ((rs.filter updates).getLast?.map (·.position)).getD base

/-- Every op of the stream has a lowering, and updates alone write EIP. -/
def MovesByUpdates (mode : Mode) (s : Stream) : Prop :=
  ∀ rec ∈ s.records, (Lowering.table mode).targets? rec.op ≠ [] ∧
    ((∃ f ∈ (Lowering.table mode).targets? rec.op, f.target = .eip) → rec.op = some .eipUpdate)

instance (mode : Mode) (s : Stream) : Decidable (s.MovesByUpdates mode) :=
  inferInstanceAs (Decidable (∀ rec ∈ s.records, (Lowering.table mode).targets? rec.op ≠ [] ∧
    ((∃ f ∈ (Lowering.table mode).targets? rec.op, f.target = .eip) → rec.op = some .eipUpdate)))

theorem lastUpdate_cons (base : Int64) (rec : Record) (rs : List Record) :
    lastUpdate base (rec :: rs) = lastUpdate (if updates rec then rec.position else base) rs := by
  unfold lastUpdate
  cases h : updates rec with
  | false => simp [h]
  | true =>
    cases hrs : (rs.filter updates).getLast? <;> simp [h, hrs, List.getLast?_cons]

end Stream

/-! ### Offsets in 32 bits -/

theorem ofInt_toInt_sub (a b : Int64) :
    UInt32.ofInt (a - b).toInt = UInt32.ofInt a.toInt - UInt32.ofInt b.toInt := by
  apply UInt32.toNat_inj.mp
  rw [Int64.toInt_sub, UInt32.toNat_sub]
  simp only [UInt32.ofInt, UInt32.toNat_ofNat']
  have hmod : (a.toInt - b.toInt).bmod (2 ^ 64) % 2 ^ 32 = (a.toInt - b.toInt) % 2 ^ 32 := by
    rw [Int.bmod_def]
    split <;> omega
  omega

theorem toNat_add_ofInt (e : UInt32) (i : Int) : ((e + UInt32.ofInt i).toNat : Int) = (e.toNat + i) % 2 ^ 32 := by
  rw [UInt32.toNat_add]
  simp only [UInt32.ofInt, UInt32.toNat_ofNat']
  omega

/-- A fragment writes EIP if and only if it folds EIP. -/
theorem Lowering.foldsEip_eq {mode : Mode} {op : Option Op} {f : Fragment}
    (hf : f ∈ (Lowering.table mode).targets? op) : f.foldsEip = decide (f.target = .eip) :=
  of_mem (P := fun _ f => f.foldsEip = decide (f.target = .eip)) (by decide +kernel) hf

namespace Interpreter

/-- EIP is the EIP of the start moved by the base, now and in the snapshot. -/
structure Progress.Folded (e : UInt32) (p : Progress) : Prop where
  values : (p.values.get .eip).toUInt32 = e + UInt32.ofInt p.base.toInt
  snapshot : (p.snapshot.get .eip).toUInt32 = e + UInt32.ofInt p.snapshotBase.toInt

theorem Progress.folded_start (c : Context) : (Progress.start c).Folded c.machine.eip := by
  have heip : ((initialValues c.machine).get .eip).toUInt32 = c.machine.eip + UInt32.ofInt (0 : Int64).toInt := by
    rw [get_initialValues, show UInt32.ofInt (0 : Int64).toInt = 0 from rfl, UInt32.add_zero]
    exact Value.toUInt32_ofUInt32 _
  exact ⟨heip, heip⟩

theorem Progress.Folded.enter {e : UInt32} {p : Progress} (hp : p.Folded e) (rec : Record) : (p.enter rec).Folded e := by
  unfold Progress.enter
  split
  · exact hp
  · exact ⟨hp.values, hp.values⟩

/-- An update adds to EIP the bytes from the base to the end of its instruction. -/
theorem gives_eipUpdate (mode : Mode) (values : Values) (place : Place) (m : Machine) :
    Gives values place (Lowering.targets mode .eipUpdate) m
      [(.eip, .ofUInt32 ((values.get .eip).toUInt32 + UInt32.ofInt place.x86Length.toInt))] m := by
  have hbody := Builtin.body_add32 (values.get .eip) (.ofUInt32 (UInt32.ofInt place.x86Length.toInt)) m
  rw [Value.toUInt32_ofUInt32] at hbody
  have hsteps : Fragment.Yields [values.get .eip] place [.input 0, Lowering.x86Length, Lowering.call .add32] [] m
      (.ok [.ofUInt32 ((values.get .eip).toUInt32 + UInt32.ofInt place.x86Length.toInt)]) m :=
    .input (i := 0) rfl (.literal (.call [_, _] rfl rfl hbody .nil))
  exact .single rfl (by decide) hsteps.outcome_ok

section Step
variable {mode : Mode} {rec : Record}
  (hrec : (∃ f ∈ (Lowering.table mode).targets? rec.op, f.target = .eip) → rec.op = some .eipUpdate)
include hrec

/-- A record brings the base up if and only if it is an update. -/
theorem any_foldsEip : ((Lowering.table mode).targets? rec.op).any Fragment.foldsEip = Stream.updates rec := by
  rw [Bool.eq_iff_iff, Stream.updates, decide_eq_true_eq, List.any_eq_true]
  constructor
  · rintro ⟨f, hf, hfolds⟩
    rw [Lowering.foldsEip_eq hf, decide_eq_true_eq] at hfolds
    exact hrec ⟨f, hf, hfolds⟩
  · intro hop
    rw [hop]
    exact ⟨_, List.mem_singleton_self _, by decide⟩

theorem Progress.Folded.step {e : UInt32} {p q : Progress} (hp : p.Folded e)
    (h : step? (Lowering.table mode) p rec = some q) : q.Folded e := by
  obtain ⟨vs, c, -, heval, rfl⟩ := step?_eq_some.mp h
  refine ⟨?_, (hp.enter rec).snapshot⟩
  simp only [Progress.commit, any_foldsEip hrec, enter_values, enter_base]
  cases hup : Stream.updates rec with
  | true =>
    have hop : rec.op = some .eipUpdate := of_decide_eq_true hup
    rw [hop] at heval
    obtain rfl := (gives_eipUpdate mode p.values (rec.place p.base) p.context.machine).eq heval
    simp only [List.foldl_cons, List.foldl_nil, Bank.get_set_self, Value.toUInt32_ofUInt32, Record.place, hp.values,
      ofInt_toInt_sub, if_true]
    grind
  | false =>
    have heip : Element.eip ∉ vs.map Prod.fst := by
      rw [fst_of_evalFragments heval]
      intro hmem
      obtain ⟨f, hf, htarget⟩ := List.mem_map.mp (List.mem_filter.mp hmem).1
      simp [Stream.updates, hrec ⟨f, hf, htarget⟩] at hup
    rw [get_foldl_of_not_mem heip Prod.snd]
    exact hp.values

end Step

section Run
variable {mode : Mode} {e : UInt32} {p q : Progress} {rs : List Record}
  (hrs : ∀ rec ∈ rs, (∃ f ∈ (Lowering.table mode).targets? rec.op, f.target = .eip) → rec.op = some .eipUpdate)
include hrs

theorem Progress.Folded.advance (hp : p.Folded e) (h : advance (Lowering.table mode) p rs = some q) : q.Folded e :=
  advance_induct (fun rec hrec _ _ hp h => hp.step (hrs rec hrec) h) hp h

theorem foldBase_eq_lastUpdate (base : Int64) :
    foldBase (Lowering.table mode) base rs = Stream.lastUpdate base rs := by
  induction rs generalizing base with
  | nil => rfl
  | cons rec rs ih =>
    rw [Stream.lastUpdate_cons, ← any_foldsEip (hrs rec List.mem_cons_self),
      ← ih fun rec' hrec' => hrs rec' (List.mem_cons_of_mem rec hrec')]
    rfl

end Run

/-- At the end of a run EIP is the last one computed. -/
theorem Progress.Sound.eip_writeBack {m₀ : Machine} {p : Progress} (hp : p.Sound m₀) :
    p.writeBack.machine.eip = (p.values.get .eip).toUInt32 := by
  apply Value.ofUInt32_inj
  change p.writeBack.machine.getReg .eip = _
  rw [writeBack_machine, Machine.getReg_foldl_set (fun r => p.values.get (.reg r))]
  split
  · rfl
  · next hr =>
    have hw : p.written.get .eip = false := by simpa [Register.eip.mem_all] using hr
    rw [hp.unwritten _ hw, hp.machine.regs]
    exact congrArg Value.ofUInt32 (Value.toUInt32_ofUInt32 _).symm

/-- A rollback leaves EIP where the snapshot had it, moved on, whether or not the router takes the fault. -/
theorem exists_rollback_eip (mode : Mode) (snapshot : Values) (delta : Int64) (x : Fault) (index : Nat) (c : Context) :
    ∃ c', c'.machine.eip = (snapshot.get .eip).toUInt32 + UInt32.ofInt delta.toInt ∧
      (rollback .builtin (mode : ModeNumber).routeHelper snapshot delta x index c = (.ok index, c') ∨
        c.machine.router = .reject ∧ ∃ e,
          rollback .builtin (mode : ModeNumber).routeHelper snapshot delta x index c = (.error (.helper e), c')) := by
  by_cases hr : c.machine.router = .reject
  · have hrest := restored_sameRest snapshot delta c.machine
    have hget := (getReg_restored snapshot delta c.machine .eip).trans (if_pos rfl)
    have hroll := rollback_eq mode snapshot delta x index c
    rw [body_route_reject mode (hrest.router.trans hr) x] at hroll
    refine ⟨_, ?_, .inr ⟨hr, _, hroll⟩⟩
    exact Value.ofUInt32_inj hget
  · obtain ⟨c', hroll, -, heip, -⟩ := exists_rollback_eq mode snapshot delta x index hr
    exact ⟨c', heip, .inl hroll⟩

/-- EIP is where the last update puts it, if a run comes to its end, and at the start of the instruction that faulted
    if not. -/
theorem runMode_eip (mode : Mode) {b : Block} {s : Stream} (hs : Stream.ofBlock b = .ok s)
    (hm : s.MovesByUpdates mode) (c : Context) :
    (∃ c', runMode mode .builtin s c = (.ok s.count, c') ∧
      c'.machine.eip = c.machine.eip + UInt32.ofInt (Stream.lastUpdate 0 s.records).toInt) ∨
    (∃ before rec done f x c', Faults (Lowering.table mode) s c before rec done f x ∧ rec.index < s.count ∧
      (runMode mode .builtin s c = (.ok rec.index, c') ∨
        c.machine.router = .reject ∧ ∃ e, runMode mode .builtin s c = (.error (.helper e), c')) ∧
      c'.machine.eip = c.machine.eip + UInt32.ofInt (Stream.lengthOf (b.take rec.index)).toInt) := by
  obtain ⟨hrs, -, heq⟩ := Stream.eq_of_ofBlock hs
  have ht := Lowering.table_disciplined mode
  rcases runRecords_cases ht (Progress.sound_start c) (mode : ModeNumber).routeHelper s.count s.records with
    ⟨q, hq, hrun⟩ | ⟨before, rec, after, q, hsplit, -, hnil, -⟩ |
      ⟨before, rec, after, q, done, f, x, c₁, hsplit, hq, hraises, hrun⟩
  · refine .inl ⟨q.writeBack, hrun, ?_⟩
    have hmoves := fun rec hrec => (hm rec hrec).2
    rw [((Progress.sound_start c).advance ht hq).eip_writeBack, ((Progress.folded_start c).advance hmoves hq).values,
      base_of_advance hq, foldBase_eq_lastUpdate hmoves]
    rfl
  · exact absurd hnil (hm rec (by simp [hsplit])).1
  · have hmem : rec ∈ s.records := by simp [hsplit]
    obtain ⟨k, hk, hindex, hstart⟩ := Stream.start_of_recordsFrom hrs rec hmem
    rw [Nat.zero_add] at hindex
    rw [Int64.zero_add, ← hindex] at hstart
    have hmoves := fun r (hr : r ∈ before) => (hm r (by simp [hsplit, hr])).2
    have hfolded := ((Progress.folded_start c).advance hmoves hq).enter rec
    have hshell := hraises.sameShell ht ((Progress.sound_start c).advance ht hq)
    obtain ⟨c', heip, hroll⟩ :=
      exists_rollback_eip mode (q.enter rec).snapshot (rec.start - (q.enter rec).snapshotBase) x rec.index c₁
    rw [← hrun, hshell.router] at hroll
    refine .inr ⟨before, rec, done, f, x, c', ⟨⟨after, hsplit⟩, q, c₁, hq, hraises⟩, ?_, hroll, ?_⟩
    · rw [heq]
      exact hindex ▸ hk
    · rw [heip, hfolded.snapshot, ofInt_toInt_sub, ← hstart]
      grind

/-- Accounting for EIP by folding is exact. Where updates alone write EIP, a run that comes to its end leaves EIP at the
    position of the last update, and one that faults leaves it at the start of the faulting instruction, both counted
    modulo 2^32 from the EIP of the start. Compiled code leaves it where the interpreter does. -/
theorem eip_accounting_exact (mode : Mode) {b : Block} {s : Stream} (hs : Stream.ofBlock b = .ok s)
    (hm : s.MovesByUpdates mode) (c : Context) :
    ((∃ c', runMode mode .builtin s c = (.ok s.count, c') ∧
        (c'.machine.eip.toNat : Int) = (c.machine.eip.toNat + (Stream.lastUpdate 0 s.records).toInt) % 2 ^ 32) ∨
      (∃ before rec done f x c', Faults (Lowering.table mode) s c before rec done f x ∧ rec.index < s.count ∧
        (runMode mode .builtin s c = (.ok rec.index, c') ∨
          c.machine.router = .reject ∧ ∃ e, runMode mode .builtin s c = (.error (.helper e), c')) ∧
        (c'.machine.eip.toNat : Int) =
          (c.machine.eip.toNat + (Stream.lengthOf (b.take rec.index)).toInt) % 2 ^ 32)) ∧
    ∀ g units slots name limit m, Graph.build (Target.ofMode mode).table true s = .ok g →
      Slots.allocate g units = (.ok (), slots) → (Target.ofMode mode).unit name s g slots limit = .ok m →
      ∃ me code helpers, m.method? Module.executeMethod = some me ∧ Code.decode me.code = .ok code ∧
        Loader.resolve .builtin name m.links = .ok helpers ∧
        (Execution.run (CodeBlock.linkage m helpers) ⟨me.name, code, me.guards⟩ true c).2.machine.eip =
          (runMode mode .builtin s c).2.machine.eip := by
  constructor
  · rcases runMode_eip mode hs hm c with ⟨c', hrun, heip⟩ | ⟨before, rec, done, f, x, c', hf, hlt, hrun, heip⟩
    · exact .inl ⟨c', hrun, by rw [heip, toNat_add_ofInt]⟩
    · exact .inr ⟨before, rec, done, f, x, c', hf, hlt, hrun, by rw [heip, toNat_add_ofInt]⟩
  · intro g units slots name limit m hg ha hunit
    obtain ⟨me, code, helpers, hme, hcode, hh, halike⟩ := Target.unit_run_alike mode hs hg ha hunit c
    exact ⟨me, code, helpers, hme, hcode, hh, halike.eip⟩

/-- Two updates in the first instruction, none in the second, and one in the third, which then faults: EIP is left
    five bytes on, past the end of the address space. -/
theorem eip_accounting_exact_wrap :
    ∃ s c', Stream.ofBlock [⟨2, [156, 156]⟩, ⟨3, [135]⟩, ⟨1, [156, 141]⟩] = .ok s ∧ s.MovesByUpdates .protected_ ∧
      runMode .protected_ .builtin s ⟨{ Machine.reset (.ofSize 0) with cpl := 3, eip := 0xfffffffe }, []⟩ = (.ok 2, c') ∧
      (c'.machine.eip.toNat : Int) = (0xfffffffe + 5) % 2 ^ 32 := by
  have hrecords : (Stream.ofBlock [⟨2, [156, 156]⟩, ⟨3, [135]⟩, ⟨1, [156, 141]⟩]).toOption.any (fun s =>
      s.MovesByUpdates .protected_ ∧ s.count = 3 ∧
        (runMode .protected_ .builtin s ⟨{ Machine.reset (.ofSize 0) with cpl := 3, eip := 0xfffffffe }, []⟩).1 = .ok 2) =
      true := by
    decide
  obtain ⟨s, hs, hdecide⟩ := exists_ok_of_any hrecords
  obtain ⟨hm, hcount, hresult⟩ := of_decide_eq_true hdecide
  obtain ⟨hends, -⟩ := eip_accounting_exact .protected_ hs hm
    ⟨{ Machine.reset (.ofSize 0) with cpl := 3, eip := 0xfffffffe }, []⟩
  rcases hends with ⟨c', hrun, -⟩ | ⟨before, rec, done, f, x, c', -, -, hrun | ⟨hreject, -⟩, heip⟩
  · rw [hrun, hcount] at hresult
    cases hresult
  · have hindex : rec.index = 2 := by
      rw [hrun] at hresult
      exact Except.ok.inj hresult
    rw [hindex] at hrun heip
    exact ⟨s, c', hs, hm, hrun, heip⟩
  · cases hreject

end Interpreter
end MicroBlock
