import Mathlib
import MicroBlock.Proofs.Prefixes
import MicroBlock.Proofs.Refinement

/-! Faults are precise.

A fault in an instruction takes the registers back to where the instructions before it had brought them,
with EIP at the faulting instruction. A fragment that faults has done nothing, so memory and ports too are
as these instructions left them, unless the faulting one had an effect before. -/

namespace MicroBlock

/-! ### A fragment that faults has done nothing -/

/-- Whether a step may change the machine. -/
def Step.mayChange : Step → Bool
  | .call h => (Builtin.ofName? h).any fun b => !b.isPure
  | _ => false

namespace Fragment

theorem mark_pure {cls : EffectClass} {inputs : List Element} {s : Step} {marks marks' : List Bool}
    (h : mark cls inputs s marks = some marks') (hs : s.mayChange = false) : mark .pure inputs s marks = some marks' := by
  cases s with
  | call name =>
    cases hb : Builtin.ofName? name with
    | none => simp [mark, hb] at h
    | some b =>
      have hpure : EffectClass.pure.admits b = true := by
        simpa [EffectClass.admits, Step.mayChange, hb] using hs
      have hadm : cls.admits b = true := by
        by_contra hne
        simp [mark, hb, hne] at h
      simpa only [mark, hb, hadm, hpure] using h
  | dup | pop => cases marks <;> exact h
  | input i | literal l | unknown k => exact h

theorem markAll_pure {cls : EffectClass} {inputs : List Element} {ss : List Step} {marks marks' : List Bool}
    (h : markAll cls inputs ss marks = some marks') (hs : ∀ s ∈ ss, s.mayChange = false) :
    markAll .pure inputs ss marks = some marks' := by
  induction ss generalizing marks with
  | nil => exact h
  | cons s ss ih =>
    obtain ⟨marks₁, h₁, h₂⟩ := Option.bind_eq_some_iff.mp h
    exact Option.bind_eq_some_iff.mpr ⟨marks₁, mark_pure h₁ (hs s List.mem_cons_self),
      ih h₂ fun s' hs' => hs s' (List.mem_cons_of_mem s hs')⟩

/-- Steps of which only one may change the machine have not changed it when they fail. -/
theorem machine_of_evalSteps_error {cls : EffectClass} {inputs : List Element} {vs : List Value} {name : String}
    {p : Place} {ss : List Step} {stack : List Value} {marks marks' : List Bool} (hs : Supplies inputs vs)
    (hm : Marked stack marks) (hk : markAll cls inputs ss marks = some marks') (hone : ss.countP Step.mayChange ≤ 1)
    {c c' : Context} {e : EvalError} (h : evalSteps .builtin name vs p ss stack c = (.error e, c')) :
    c'.machine = c.machine := by
  induction ss generalizing stack marks c with
  | nil => cases h
  | cons s ss ih =>
    obtain ⟨marks₁, hk₁, hk₂⟩ := Option.bind_eq_some_iff.mp hk
    cases hchange : s.mayChange with
    | false =>
      obtain ⟨stack₁, hm₁, h₁⟩ := evalStep_pure name p hs hm (mark_pure hk₁ hchange)
      obtain ⟨calls, hc⟩ := h₁ c
      rw [evalSteps_cons_ok hc] at h
      have hmachine := ih hm₁ hk₂ (by simpa [hchange] using hone) h
      exact hmachine
    | true =>
      -- The steps after this one are pure, so it is this one that fails.
      have hrest : ∀ s' ∈ ss, s'.mayChange = false := by simpa [hchange] using hone
      rcases evalStep_marked name p hs hm hk₁ c with ⟨stack₁, c₁, h₁, hm₁, -⟩ | ⟨f, c₁, h₁, -, hr⟩
      · obtain ⟨stack₂, -, h₂⟩ := evalSteps_pure name p hs hm₁ (markAll_pure hk₂ hrest)
        obtain ⟨calls, hc⟩ := h₂ c₁
        rw [evalSteps_cons_ok h₁, hc] at h
        cases h
      · rw [evalSteps_cons_error h₁] at h
        cases h
        exact hr

theorem machine_of_eval_error {f : Fragment} (hf : f.isDisciplined = true)
    (hone : f.steps.countP Step.mayChange ≤ 1) {vs : List Value} (hs : Supplies f.inputs vs) {p : Place}
    {c c' : Context} {e : EvalError} (h : f.eval .builtin vs p c = (.error e, c')) : c'.machine = c.machine := by
  obtain ⟨marks, hk, -⟩ := eq_of_isDisciplined hf
  unfold eval at h
  split at h
  · next e' c₁ he =>
    cases h
    exact machine_of_evalSteps_error hs .nil hk hone he
  · cases h

end Fragment

theorem Lowering.countP_mayChange_le {mode : Mode} {op : Option Op} {f : Fragment}
    (hf : f ∈ (Lowering.table mode).targets? op) : f.steps.countP Step.mayChange ≤ 1 :=
  of_mem (P := fun _ f => f.steps.countP Step.mayChange ≤ 1) (by decide +kernel) hf

/-! ### The faulting instruction -/

/-- Two machines have the same memory, the same ports and as many retired instructions. -/
structure Machine.SameWorld (m m' : Machine) : Prop where
  memory : m.memory = m'.memory
  ports : m.ports = m'.ports
  retired : m.retired = m'.retired

theorem Machine.SameRest.sameWorld {m m' : Machine} (h : m.SameRest m') : m.SameWorld m' :=
  ⟨h.memory, h.ports, h.retired⟩

theorem Machine.SameWorld.trans {m m' m'' : Machine} (h : m.SameWorld m') (h' : m'.SameWorld m'') : m.SameWorld m'' :=
  ⟨h.memory.trans h'.memory, h.ports.trans h'.ports, h.retired.trans h'.retired⟩

/-- Routing a fault changes the deliveries only. -/
theorem Builtin.body_route_frame {mode : Mode} {x : Fault} {m m' : Machine} {v : Value}
    (h : (Builtin.route mode).body [.cpu, .fault (some x)] m = .ok (v, m')) :
    (∀ r, m'.getReg r = m.getReg r) ∧ m'.SameWorld m := by
  cases body_touches _ _ m v m' h with
  | nothing => exact ⟨fun _ => rfl, rfl, rfl, rfl⟩
  | delivered mode ds => exact ⟨fun r => by cases r <;> rfl, rfl, rfl, rfl⟩

namespace Interpreter

/-- A run of a stream faults: the records it goes through, the one that faults, the fragments of this one
    that are evaluated before, the fragment that raises the fault, and the fault. -/
structure Faults (t : Table) (s : Stream) (c : Context) (before : List Record) (rec : Record) (done : List Fragment)
    (f : Fragment) (x : Fault) : Prop where
  records : ∃ after, s.records = before ++ rec :: after
  raises : ∃ p c', advance t (.start c) before = some p ∧ Raises t p rec done f x c'

/-- No fragment with an effect was evaluated in the faulting instruction. -/
structure Quiet (t : Table) (before : List Record) (rec : Record) (done : List Fragment) : Prop where
  records : ∀ r ∈ before, r.index = rec.index → ∀ f ∈ t.targets? r.op, f.hasEffect = false
  fragments : ∀ f ∈ done, f.hasEffect = false

section Records
variable {t : Table}

/-- While the records stay in one instruction, the snapshot is what the run had come to before. -/
theorem snapshot_of_advance {p q : Progress} {k : Nat} (hk : p.index ≠ some k) {rs : List Record}
    (hrs : ∀ rec ∈ rs, rec.index = k) (h : advance t p rs = some q) {rec : Record} (hrec : rec.index = k) :
    (q.enter rec).snapshot = p.values ∧ (q.enter rec).snapshotBase = p.base := by
  refine advance_induct (P := fun q => ∀ rec : Record, rec.index = k →
    (q.enter rec).snapshot = p.values ∧ (q.enter rec).snapshotBase = p.base) ?_ ?_ h rec hrec
  · intro rec' hrec' p' q' hp' hq' rec hrec
    obtain ⟨vs, c, -, -, rfl⟩ := step?_eq_some.mp hq'
    have hindex : (p'.enter rec').index = some rec.index := by rw [enter_index, hrs rec' hrec', hrec]
    rw [Progress.enter, if_pos (by exact hindex)]
    exact hp' rec' (hrs rec' hrec')
  · intro rec hrec
    rw [Progress.enter, if_neg (by rwa [hrec])]
    exact ⟨rfl, rfl⟩

end Records

/-- The records before one of an instruction: those of the instructions before, then others of its own. -/
theorem records_before {b : Block} {s : Stream} (hs : Stream.ofBlock b = .ok s) {before after : List Record}
    {rec : Record} (h : s.records = before ++ rec :: after) :
    ∃ earlier own, before = earlier ++ own ∧ Stream.recordsFrom 0 0 (b.take rec.index) = .ok earlier ∧
      (∀ r ∈ earlier, r.index < rec.index) ∧ ∀ r ∈ own, r.index = rec.index := by
  obtain ⟨hrs, -, -⟩ := Stream.eq_of_ofBlock hs
  have hk := Stream.index_lt_of_recordsFrom hrs rec (by simp [h])
  rw [← List.take_append_drop rec.index b] at hrs
  obtain ⟨ra, rb, hra, hrb, heq⟩ := Stream.recordsFrom_append.mp hrs
  have hlt : ∀ r ∈ ra, r.index < rec.index := fun r hr => by
    have := Stream.index_lt_of_recordsFrom hra r hr
    simp only [List.length_take] at this
    omega
  obtain ⟨hge, startOf, hsorted, -⟩ := Stream.ordered_recordsFrom hrb
  rw [h] at heq
  rcases List.append_eq_append_iff.mp heq with ⟨l, rfl, hl⟩ | ⟨l, rfl, hl⟩
  · cases l with
    | nil => exact ⟨before, [], by simp, by simpa using hra, by simpa using hlt, by simp⟩
    | cons r l =>
      cases hl
      exact absurd (hlt rec (by simp)) (Nat.lt_irrefl _)
  · refine ⟨ra, l, rfl, hra, hlt, fun r hr => ?_⟩
    subst hl
    have hle : r.index ≤ rec.index := (List.pairwise_append.mp hsorted).2.2 r hr rec List.mem_cons_self
    have := hge r (List.mem_append_left _ hr)
    simp only [List.length_take] at this
    omega

/-- In a quiet instruction the fault comes before any change to the machine. -/
theorem Raises.machine_eq {mode : Mode} {p : Progress} {rec : Record} {done : List Fragment} {f : Fragment}
    {x : Fault} {c : Context} (h : Raises (Lowering.table mode) p rec done f x c) {m₀ : Machine} (hp : p.Sound m₀)
    (hdone : ∀ f ∈ done, f.hasEffect = false) : c.machine = p.context.machine := by
  obtain ⟨⟨rest, htargets⟩, ⟨vs, c₁, heval, hx⟩, -⟩ := h
  have hdisc := Lowering.table_disciplined mode rec.op
  have hmem : f ∈ (Lowering.table mode).targets? rec.op := by simp [htargets]
  have hsupplies : Fragment.Supplies f.inputs (f.inputs.map p.values.get) := .map hp.cpu
  obtain ⟨vs', h'⟩ := evalFragments_of_pure (fun g hg => hdisc g (by simp [htargets, hg])) hdone hp.cpu (rec.place p.base)
  obtain ⟨calls, hc⟩ := h' p.context
  rw [hc] at heval
  cases heval
  have hmachine := Fragment.machine_of_eval_error (hdisc f hmem) (Lowering.countP_mayChange_le hmem) hsupplies hx
  exact hmachine

/-- A faulting run, cut where the faulting instruction begins: what it had come to there, and the rollback
    that ends it. -/
theorem exists_cut {mode : Mode} {b : Block} {s : Stream} (hs : Stream.ofBlock b = .ok s) {c : Context}
    {before : List Record} {rec : Record} {done : List Fragment} {f : Fragment} {x : Fault}
    (h : Faults (Lowering.table mode) s c before rec done f x) :
    ∃ earlier p c', Stream.recordsFrom 0 0 (b.take rec.index) = .ok earlier ∧
      advance (Lowering.table mode) (.start c) earlier = some p ∧ c'.machine.SameShell c.machine ∧
      runMode mode .builtin s c =
        rollback .builtin (mode : ModeNumber).routeHelper p.values (rec.start - p.base) x rec.index c' ∧
      (Quiet (Lowering.table mode) before rec done → c'.machine = p.context.machine) := by
  obtain ⟨⟨after, hrs⟩, q, c', hq, hraises⟩ := h
  obtain ⟨earlier, own, rfl, hearlier, hlt, hown⟩ := records_before hs hrs
  obtain ⟨p, hp, hpq⟩ := advance_append.mp hq
  have ht := Lowering.table_disciplined mode
  have hsound := (Progress.sound_start c).advance ht hp
  have hsound' := hsound.advance ht hpq
  have hindex : p.index ≠ some rec.index := index_of_advance (by simp [Progress.start]) hlt hp
  obtain ⟨hsnapshot, hbase⟩ := snapshot_of_advance hindex hown hpq rfl
  refine ⟨earlier, p, c', hearlier, hp, hraises.sameShell ht hsound', ?_, fun hquiet => ?_⟩
  · rw [runMode, run, hrs, runRecords_append hq, runRecords_of_raises hraises, hsnapshot, hbase]
  · rw [hraises.machine_eq hsound' hquiet.fragments]
    exact machine_of_advance ht hsound (fun r hr => hquiet.records r (List.mem_append_right _ hr) (hown r hr)) hpq

/-- A run that returns before its end faults. -/
theorem exists_faults {mode : Mode} {s : Stream} {c c' : Context} {k : Nat}
    (h : runMode mode .builtin s c = (.ok k, c')) (hk : k < s.count) :
    ∃ before rec done f x, Faults (Lowering.table mode) s c before rec done f x ∧ rec.index = k := by
  rcases runRecords_cases (Lowering.table_disciplined mode) (Progress.sound_start c) (mode : ModeNumber).routeHelper
    s.count s.records with ⟨q, -, hrun⟩ | ⟨before, rec, after, q, -, -, -, hrun⟩ |
      ⟨before, rec, after, q, done, f, x, c₁, hrs, hq, hraises, hrun⟩ <;> rw [← run, ← runMode, h] at hrun
  · cases hrun
    exact absurd hk (Nat.lt_irrefl _)
  · cases hrun
  · exact ⟨before, rec, done, f, x, ⟨⟨after, hrs⟩, q, c₁, hq, hraises⟩, (rollback_index hrun.symm).symm⟩

/-- A rollback whose fault is routed: the registers hold the snapshot, with EIP moved on, and the rest of the
    machine is as the fault left it. -/
theorem exists_rollback_eq (mode : Mode) (snapshot : Values) (delta : Int64) (x : Fault) (index : Nat) {c : Context}
    (hr : c.machine.router ≠ .reject) :
    ∃ c', rollback .builtin (mode : ModeNumber).routeHelper snapshot delta x index c = (.ok index, c') ∧
      (∀ r, r ≠ .eip → c'.machine.getReg r = r.held (snapshot.get (.reg r))) ∧
      c'.machine.eip = (snapshot.get .eip).toUInt32 + UInt32.ofInt delta.toInt ∧ c'.machine.SameWorld c.machine := by
  have hrest := restored_sameRest snapshot delta c.machine
  have hget := getReg_restored snapshot delta c.machine
  have hroll := rollback_eq mode snapshot delta x index c
  generalize restored snapshot delta c.machine = m at hrest hget hroll
  obtain ⟨m', hm'⟩ := exists_body_route mode (by rwa [hrest.router]) x
  rw [hm'] at hroll
  obtain ⟨hregs, hworld⟩ := Builtin.body_route_frame hm'
  have heip : m'.eip = (snapshot.get .eip).toUInt32 + UInt32.ofInt delta.toInt :=
    Value.ofUInt32_inj (((hregs .eip).trans (hget .eip)).trans (if_pos rfl))
  exact ⟨_, hroll, fun r hne => ((hregs r).trans (hget r)).trans (if_neg hne), heip, hworld.trans hrest.sameWorld⟩

/-- Faults are precise: a run that faults returns the number of its faulting instruction. Every register
    but EIP is as the instructions before leave it, and EIP points at the faulting one, counted from where
    these had brought EIP up to. With no effect in the faulting instruction, memory and ports are as they leave them, too. -/
theorem fault_precise (mode : Mode) {b : Block} {s : Stream} (hs : Stream.ofBlock b = .ok s) {c : Context}
    (hn : c.machine.Normalised) (hr : c.machine.router ≠ .reject) {before : List Record} {rec : Record}
    {done : List Fragment} {f : Fragment} {x : Fault} (h : Faults (Lowering.table mode) s c before rec done f x) :
    ∃ c', runMode mode .builtin s c = (.ok rec.index, c') ∧
      (rec.index = 0 → c'.machine.SameRegs c.machine ∧
        (Quiet (Lowering.table mode) before rec done → c'.machine.SameWorld c.machine)) ∧
      (0 < rec.index → ∃ s' c₁, Stream.ofBlock (b.take rec.index) = .ok s' ∧ s'.count = rec.index ∧
        runMode mode .builtin s' c = (.ok rec.index, c₁) ∧
        (∀ r, r ≠ .eip → c'.machine.getReg r = c₁.machine.getReg r) ∧
        c'.machine.eip = c₁.machine.eip +
          UInt32.ofInt (Stream.lengthOf (b.take rec.index) - foldBase (Lowering.table mode) 0 s'.records).toInt ∧
        (Quiet (Lowering.table mode) before rec done → c'.machine.SameWorld c₁.machine)) := by
  -- The instructions before the faulting one are a block of their own, which runs to its end.
  obtain ⟨earlier, p, c₂, hearlier, hp, hshell, hrun, hquiet⟩ := exists_cut hs h
  obtain ⟨hrs, -, -⟩ := Stream.eq_of_ofBlock hs
  obtain ⟨⟨after, hafter⟩, -⟩ := h
  obtain ⟨k, hk, hindex, hstart⟩ := Stream.start_of_recordsFrom hrs rec (by simp [hafter])
  rw [Nat.zero_add] at hindex
  rw [Int64.zero_add, ← hindex] at hstart
  have hsound := (Progress.sound_start c).advance (Lowering.table_disciplined mode) hp
  obtain ⟨c', hroll, hregs, heip, hworld⟩ :=
    exists_rollback_eq mode p.values (rec.start - p.base) x rec.index (c := c₂) (by rwa [hshell.router])
  refine ⟨c', hrun.trans hroll, fun hzero => ?_, fun hpos => ?_⟩
  · -- Nothing ran before the instruction.
    rw [hzero, List.take_zero] at hearlier hstart
    obtain rfl : earlier = [] := by simpa [Stream.recordsFrom, eq_comm] using hearlier
    obtain rfl := advance_nil.mp hp
    have hvalues (r : Register) : (Progress.start c).values.get (.reg r) = c.machine.getReg r :=
      get_initialValues c.machine (.reg r)
    refine ⟨fun r => ?_, fun hq => hquiet hq ▸ hworld⟩
    by_cases hne : r = .eip
    · have hdelta : rec.start - (Progress.start c).base = 0 := by
        rw [hstart, show (Progress.start c).base = 0 from rfl]
        decide
      have hvalue : (Progress.start c).values.get .eip = .ofUInt32 c.machine.eip := hvalues .eip
      rw [hdelta, hvalue, Value.toUInt32_ofUInt32] at heip
      rw [hne, Machine.getReg, Machine.getReg, heip]
      exact congrArg Value.ofUInt32 (UInt32.add_zero _)
    · rw [hregs r hne, hvalues, hn.held_getReg]
  · have hlen : (b.take rec.index).length = rec.index := List.length_take_of_le (hindex ▸ hk.le)
    have hne : b.take rec.index ≠ [] := List.ne_nil_of_length_pos (hlen.symm ▸ hpos)
    have hback := hsound.getReg_writeBack hn
    have heip' : p.writeBack.machine.eip = (p.values.get .eip).toUInt32 := Value.ofUInt32_inj (hback .eip)
    refine ⟨_, p.writeBack, Stream.ofBlock_of_recordsFrom hearlier hne, hlen, ?_, fun r hne => ?_, ?_, fun hq => ?_⟩
    · simp only [runMode, run, hlen, runRecords_of_advance hp]
    · rw [hregs r hne, hback]
    · rw [heip, heip', base_of_advance hp, hstart]
      rfl
    · exact hworld.trans (hquiet hq ▸ (writeBack_sameRest p).symm.sameWorld)

/-- In protected mode the second of two instructions may not clear the interrupt flag: EIP is left at its start,
    where the first one brought it. -/
theorem fault_precise_cli :
    ∃ s before rec done f x c' s' c₁, Stream.ofBlock [⟨2, [156]⟩, ⟨1, [141]⟩] = .ok s ∧
      Faults (Lowering.table .protected_) s ⟨{ Machine.reset (.ofSize 0) with cpl := 3 }, []⟩ before rec done f x ∧
      Quiet (Lowering.table .protected_) before rec done ∧
      runMode .protected_ .builtin s ⟨{ Machine.reset (.ofSize 0) with cpl := 3 }, []⟩ = (.ok 1, c') ∧
      Stream.ofBlock [⟨2, [156]⟩] = .ok s' ∧
      runMode .protected_ .builtin s' ⟨{ Machine.reset (.ofSize 0) with cpl := 3 }, []⟩ = (.ok 1, c₁) ∧
      c'.machine.eip = c₁.machine.eip + UInt32.ofInt (2 - 2) ∧ c'.machine.SameWorld c₁.machine := by
  have hrecords : (Stream.ofBlock [⟨2, [156]⟩, ⟨1, [141]⟩]).toOption.any (fun s =>
      s.records = [⟨some .eipUpdate, none, 2, 0, 0⟩, ⟨some .cli, none, 3, 2, 1⟩] ∧ s.count = 2 ∧
        (runMode .protected_ .builtin s ⟨{ Machine.reset (.ofSize 0) with cpl := 3 }, []⟩).1 = .ok 1) = true := by
    decide
  obtain ⟨s, hs, hdecide⟩ := exists_ok_of_any hrecords
  obtain ⟨hrs, hcount, hresult⟩ := of_decide_eq_true hdecide
  obtain ⟨before, rec, done, f, x, h, hindex⟩ := exists_faults (Prod.ext hresult rfl) (by omega : 1 < s.count)
  have hquiet : Quiet (Lowering.table .protected_) before rec done := by
    obtain ⟨⟨after, hafter⟩, p, c', -, ⟨rest, htargets⟩, -⟩ := h
    rw [hrs] at hafter
    rcases before with _ | ⟨r, _ | ⟨r', before⟩⟩
    · cases hafter
      cases hindex
    · cases hafter
      have hdone : done = [] := by
        have hone : ((Lowering.table .protected_).targets? (some .cli)).length = 1 := rfl
        rw [htargets, List.length_append, List.length_cons] at hone
        exact List.length_eq_zero_iff.mp (by omega)
      subst hdone
      exact ⟨by simp, by simp⟩
    · have := congrArg List.length hafter
      simp at this
  obtain ⟨c', hrun, -, hprefix⟩ :=
    fault_precise .protected_ hs (c := ⟨{ Machine.reset (.ofSize 0) with cpl := 3 }, []⟩)
      ⟨fun f => by cases f <;> decide, by decide⟩ (by decide) h
  obtain ⟨s', c₁, hs', -, hrun', -, heip, hworld⟩ := hprefix (by omega)
  rw [hindex] at hrun hs' hrun' heip
  have hbase : foldBase (Lowering.table .protected_) 0 s'.records = 2 := by
    obtain ⟨hrs', -, -⟩ := Stream.eq_of_ofBlock hs'
    have hone : s'.records = [⟨some .eipUpdate, none, 2, 0, 0⟩] := (Except.ok.inj hrs').symm
    rw [hone]
    decide
  rw [hbase] at heip
  exact ⟨s, before, rec, done, f, x, c', s', c₁, hs, h, hquiet, hrun, hs', hrun', heip, hworld hquiet⟩

end Interpreter
end MicroBlock
