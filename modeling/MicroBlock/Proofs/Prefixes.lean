import Mathlib
import MicroBlock.Proofs.Frames
import MicroBlock.Proofs.Traces

/-! Runs of the interpreter, cut between two records.

A block is drawn instruction by instruction, so the records of its first instructions come first and are
those of the block that these instructions make on their own. A run goes through them as it would without
the rest: what it has come to at the cut is the same, and the rest runs on from there. -/

namespace MicroBlock

/-! ### Streams of joined blocks -/

namespace Stream

theorem foldl_length (b : Block) (n : Int64) : b.foldl (fun n i => n + i.length) n = n + lengthOf b := by
  induction b generalizing n with
  | nil => exact (Int64.add_zero n).symm
  | cons i b ih =>
    rw [lengthOf, List.foldl_cons, List.foldl_cons, ih, ih, Int64.zero_add, Int64.add_assoc]

theorem lengthOf_cons (i : Instruction) (b : Block) : lengthOf (i :: b) = i.length + lengthOf b := by
  rw [lengthOf, List.foldl_cons, foldl_length, Int64.zero_add]

/-- The records of two blocks one after the other: those of the second are drawn from where the first
    one ends. -/
theorem recordsFrom_append {start : Int64} {index : Nat} {a b : Block} {rs : List Record} :
    recordsFrom start index (a ++ b) = .ok rs ↔
      ∃ ra rb, recordsFrom start index a = .ok ra ∧
        recordsFrom (start + lengthOf a) (index + a.length) b = .ok rb ∧ rs = ra ++ rb := by
  induction a generalizing start index rs with
  | nil =>
    have h0 : start + lengthOf [] = start := Int64.add_zero start
    simp [recordsFrom, h0]
  | cons i a ih =>
    have hstart : start + lengthOf (i :: a) = start + i.length + lengthOf a := by
      rw [lengthOf_cons, Int64.add_assoc]
    have hindex : index + (i :: a).length = index + 1 + a.length := by
      rw [List.length_cons]
      omega
    rw [List.cons_append, recordsFrom, recordsFrom, hstart, hindex]
    cases recordsOf start (start + i.length) index i.words with
    | error e => simp
    | ok first =>
      simp only
      constructor
      · intro h
        split at h
        · cases h
        next rest hrest =>
        cases h
        obtain ⟨ra, rb, hra, hrb, rfl⟩ := ih.mp hrest
        exact ⟨first ++ ra, rb, by rw [hra], hrb, by simp⟩
      · rintro ⟨ra, rb, hra, hrb, rfl⟩
        split at hra
        · cases hra
        next rest hrest =>
        cases hra
        rw [ih.mpr ⟨rest, rb, hrest, hrb, rfl⟩]
        simp

/-- A record stands where its instruction does. -/
theorem start_of_recordsFrom {start : Int64} {index : Nat} {b : Block} {rs : List Record}
    (h : recordsFrom start index b = .ok rs) :
    ∀ r ∈ rs, ∃ k < b.length, r.index = index + k ∧ r.start = start + lengthOf (b.take k) := by
  fun_induction recordsFrom start index b generalizing rs with
  | case1 => cases h; simp
  | case2 | case3 => cases h
  | case4 start index i is first hfirst rest hrest ih =>
    cases h
    intro r hr
    rcases List.mem_append.mp hr with hr | hr
    · obtain ⟨hstart, hindex⟩ := mem_recordsOf hfirst r hr
      exact ⟨0, by simp, hindex, by rw [hstart]; exact (Int64.add_zero start).symm⟩
    · obtain ⟨k, hk, hindex, hstart⟩ := ih hrest r hr
      refine ⟨k + 1, by simpa using hk, by omega, ?_⟩
      rw [hstart, List.take_succ_cons, lengthOf_cons, Int64.add_assoc]

theorem ofBlock_of_recordsFrom {b : Block} {rs : List Record} (h : recordsFrom 0 0 b = .ok rs) (hb : b ≠ []) :
    ofBlock b = .ok ⟨rs, b.flatMap (·.words), positionsFrom 0 b, lengthOf b, b.length⟩ := by
  simp [ofBlock, h, hb]

end Stream

namespace Interpreter

/-! ### The fragments of one record -/

section Fragments
variable {values : Values} {fs : List Fragment} {place : Place}

/-- The first fragment that fails ends the evaluation. -/
theorem evalFragments_of_error {done rest : List Fragment} {f : Fragment} {c c₁ c₂ : Context}
    {vs : List (Element × Value)} {e : Fragment.EvalError}
    (hdone : evalFragments .builtin values place done c = (.ok vs, c₁))
    (hf : f.eval .builtin (f.inputs.map values.get) place c₁ = (.error e, c₂)) :
    evalFragments .builtin values place (done ++ f :: rest) c = (.error (f, e), c₂) := by
  induction done generalizing c vs with
  | nil =>
    cases hdone
    simp only [List.nil_append, evalFragments, hf]
  | cons g done ih =>
    simp only [evalFragments] at hdone
    simp only [List.cons_append, evalFragments]
    split at hdone
    · cases hdone
    next v c' hv =>
    split at hdone
    · cases hdone
    next vs' c'' hvs =>
    cases hdone
    simp only [ih hvs]

/-- The elements that the fragments of a record compute. -/
theorem fst_of_evalFragments {c c' : Context} {vs : List (Element × Value)}
    (h : evalFragments .builtin values place fs c = (.ok vs, c')) :
    vs.map Prod.fst = (fs.map (·.target)).filter fun e => e.kind ≠ .void := by
  induction fs generalizing c vs with
  | nil =>
    cases h
    rfl
  | cons f fs ih =>
    simp only [evalFragments] at h
    split at h
    · cases h
    next v c₁ hv =>
    split at h
    · cases h
    next vs' c₂ hvs =>
    cases h
    by_cases hk : f.target.kind = .void <;> simp [hk, ih hvs]

theorem evalFragments_sameShell (hfs : ∀ f ∈ fs, f.isDisciplined = true) (hcpu : values.get .cpu = .cpu)
    (place : Place) (c : Context) :
    (evalFragments .builtin values place fs c).2.machine.SameShell c.machine := by
  induction fs generalizing c with
  | nil => exact .refl _
  | cons f fs ih =>
    have hsupplies : Fragment.Supplies f.inputs (f.inputs.map values.get) := .map hcpu
    have hshell := Fragment.outcome_sameShell (hfs f List.mem_cons_self) hsupplies place c.machine
    obtain ⟨calls, heval⟩ := f.eval_eq_outcome (f.inputs.map values.get) place c
    rcases ho : f.outcome (f.inputs.map values.get) place c.machine with ⟨_ | v, m⟩ <;> rw [ho] at heval hshell
    · simpa only [evalFragments, heval] using hshell
    · have hrest := ih (fun g hg => hfs g (List.mem_cons_of_mem f hg)) ⟨m, calls⟩
      simp only [evalFragments, heval]
      split <;> next h =>
        rw [h] at hrest
        exact hrest.trans hshell

/-- The fragments of a record all give values, or one that can fault does so. -/
theorem evalFragments_cases (hfs : ∀ f ∈ fs, f.isDisciplined = true) (hcpu : values.get .cpu = .cpu) (place : Place)
    (c : Context) :
    (∃ vs c', evalFragments .builtin values place fs c = (.ok vs, c')) ∨
    (∃ done f rest vs x c₁ c', fs = done ++ f :: rest ∧
      evalFragments .builtin values place done c = (.ok vs, c₁) ∧
      f.eval .builtin (f.inputs.map values.get) place c₁ = (.error (.helper (.fault x)), c') ∧
      f.canFault = true) := by
  induction fs generalizing c with
  | nil => exact .inl ⟨[], c, rfl⟩
  | cons f fs ih =>
    have hsupplies : Fragment.Supplies f.inputs (f.inputs.map values.get) := .map hcpu
    obtain ⟨calls, heval⟩ := f.eval_eq_outcome (f.inputs.map values.get) place c
    rcases Fragment.outcome_cases (hfs f List.mem_cons_self) hsupplies place c.machine with
      ⟨v, m, ho, -⟩ | ⟨x, m, ho, -, hcan, -⟩
    · rw [ho] at heval
      rcases ih (fun g hg => hfs g (List.mem_cons_of_mem f hg)) ⟨m, calls⟩ with
        ⟨vs, c', h⟩ | ⟨done, g, rest, vs, x, c₁, c', rfl, h, hx, hcan⟩
      · exact .inl ⟨if f.target.kind = .void then vs else (f.target, v) :: vs, c',
          by simp only [evalFragments, heval, h]⟩
      · exact .inr ⟨f :: done, g, rest, if f.target.kind = .void then vs else (f.target, v) :: vs, x, c₁, c', rfl,
          by simp only [evalFragments, heval, h], hx, hcan⟩
    · rw [ho] at heval
      exact .inr ⟨[], f, fs, [], x, c, ⟨m, calls⟩, rfl, rfl, heval, hcan⟩

/-- Fragments without effects give the same values on every machine and leave it alone. -/
theorem evalFragments_of_pure (hfs : ∀ f ∈ fs, f.isDisciplined = true) (hp : ∀ f ∈ fs, f.hasEffect = false)
    (hcpu : values.get .cpu = .cpu) (place : Place) :
    ∃ vs, ∀ c, ∃ calls, evalFragments .builtin values place fs c = (.ok vs, ⟨c.machine, calls⟩) := by
  induction fs with
  | nil => exact ⟨[], fun c => ⟨c.calls, rfl⟩⟩
  | cons f fs ih =>
    have hsupplies : Fragment.Supplies f.inputs (f.inputs.map values.get) := .map hcpu
    obtain ⟨v, hv⟩ :=
      Fragment.outcome_of_pure (hfs f List.mem_cons_self) (hp f List.mem_cons_self) hsupplies place
    obtain ⟨vs, hvs⟩ := ih (fun g hg => hfs g (List.mem_cons_of_mem f hg)) fun g hg => hp g (List.mem_cons_of_mem f hg)
    refine ⟨if f.target.kind = .void then vs else (f.target, v) :: vs, fun c => ?_⟩
    obtain ⟨calls, heval⟩ := f.eval_eq_outcome (f.inputs.map values.get) place c
    rw [hv] at heval
    obtain ⟨calls', hrest⟩ := hvs ⟨c.machine, calls⟩
    exact ⟨calls', by simp only [evalFragments, heval, hrest]⟩

end Fragments

/-! ### Record by record -/

theorem enter_values (p : Progress) (rec : Record) : (p.enter rec).values = p.values := by
  unfold Progress.enter
  split <;> rfl

theorem enter_written (p : Progress) (rec : Record) : (p.enter rec).written = p.written := by
  unfold Progress.enter
  split <;> rfl

theorem enter_base (p : Progress) (rec : Record) : (p.enter rec).base = p.base := by
  unfold Progress.enter
  split <;> rfl

theorem enter_context (p : Progress) (rec : Record) : (p.enter rec).context = p.context := by
  unfold Progress.enter
  split <;> rfl

theorem enter_index (p : Progress) (rec : Record) : (p.enter rec).index = some rec.index := by
  unfold Progress.enter
  split
  · assumption
  · rfl

/-- The progress after a record, if the record does not end the run. -/
def step? (t : Table) (p : Progress) (rec : Record) : Option Progress :=
  match evalFragments .builtin p.values (rec.place p.base) (t.targets? rec.op) p.context with
  | (.error _, _) => none
  | (.ok vs, c) =>
    if t.targets? rec.op = [] then none
    else some ({ p.enter rec with context := c }.commit rec (t.targets? rec.op) vs)

/-- The progress after some records, none of which ends the run. -/
def advance (t : Table) (p : Progress) (rs : List Record) : Option Progress := rs.foldlM (step? t) p

/-- A record faults: the fragments before the one that raises the fault, that fragment, the fault, and what
    it leaves. -/
structure Raises (t : Table) (p : Progress) (rec : Record) (done : List Fragment) (f : Fragment) (x : Fault)
    (c : Context) : Prop where
  targets : ∃ rest, t.targets? rec.op = done ++ f :: rest
  eval : ∃ vs c₁, evalFragments .builtin p.values (rec.place p.base) done p.context = (.ok vs, c₁) ∧
    f.eval .builtin (f.inputs.map p.values.get) (rec.place p.base) c₁ = (.error (.helper (.fault x)), c)
  canFault : f.canFault = true

section Records
variable {t : Table} {route : String} {count : Nat}

/-- All that a record that does not end the run does. -/
theorem step?_eq_some {p q : Progress} {rec : Record} :
    step? t p rec = some q ↔
      ∃ vs c, t.targets? rec.op ≠ [] ∧
        evalFragments .builtin p.values (rec.place p.base) (t.targets? rec.op) p.context = (.ok vs, c) ∧
        q = { p.enter rec with context := c }.commit rec (t.targets? rec.op) vs := by
  unfold step?
  split
  · next e c he => simp [he]
  · next vs c he =>
    split
    · next hnil => simp [hnil]
    · next hne => simp [he, hne, eq_comm]

theorem advance_nil {p q : Progress} : advance t p [] = some q ↔ p = q := by
  rw [advance, List.foldlM_nil]
  exact Option.some_inj

theorem advance_cons {p q : Progress} {rec : Record} {rs : List Record} :
    advance t p (rec :: rs) = some q ↔ ∃ p', step? t p rec = some p' ∧ advance t p' rs = some q := by
  rw [advance, List.foldlM_cons]
  exact Option.bind_eq_some_iff

theorem advance_append {p q : Progress} {rs rs' : List Record} :
    advance t p (rs ++ rs') = some q ↔ ∃ p', advance t p rs = some p' ∧ advance t p' rs' = some q := by
  rw [advance, List.foldlM_append]
  exact Option.bind_eq_some_iff

/-- What every record of a run keeps holds at its end. -/
theorem advance_induct {P : Progress → Prop} {rs : List Record}
    (hstep : ∀ rec ∈ rs, ∀ p q, P p → step? t p rec = some q → P q) {p q : Progress} (hp : P p)
    (h : advance t p rs = some q) : P q := by
  induction rs generalizing p with
  | nil => exact advance_nil.mp h ▸ hp
  | cons rec rs ih =>
    obtain ⟨p', hp', h⟩ := advance_cons.mp h
    exact ih (fun rec' hrec => hstep rec' (List.mem_cons_of_mem rec hrec))
      (hstep rec List.mem_cons_self p p' hp hp') h

theorem runRecords_of_step {p q : Progress} {rec : Record} (h : step? t p rec = some q) (rs : List Record) :
    runRecords t .builtin route count (rec :: rs) p = runRecords t .builtin route count rs q := by
  obtain ⟨vs, c, hne, heval, rfl⟩ := step?_eq_some.mp h
  obtain ⟨f, fs, htargets⟩ := List.exists_cons_of_ne_nil hne
  rw [htargets] at heval
  simp only [runRecords, htargets, enter_values, enter_base, enter_context, heval]

/-- A run goes on from where its first records leave it. -/
theorem runRecords_append {p q : Progress} {rs : List Record} (h : advance t p rs = some q) (rs' : List Record) :
    runRecords t .builtin route count (rs ++ rs') p = runRecords t .builtin route count rs' q := by
  induction rs generalizing p with
  | nil => rw [advance_nil.mp h]; rfl
  | cons rec rs ih =>
    obtain ⟨p', hp', h⟩ := advance_cons.mp h
    rw [List.cons_append, runRecords_of_step hp', ih h]

theorem runRecords_of_advance {p q : Progress} {rs : List Record} (h : advance t p rs = some q) :
    runRecords t .builtin route count rs p = (.ok count, q.writeBack) := by
  rw [← List.append_nil rs, runRecords_append h, runRecords]

theorem runRecords_of_raises {p : Progress} {rec : Record} {done : List Fragment} {f : Fragment} {x : Fault}
    {c : Context} (h : Raises t p rec done f x c) (rs : List Record) :
    runRecords t .builtin route count (rec :: rs) p =
      rollback .builtin route (p.enter rec).snapshot (rec.start - (p.enter rec).snapshotBase) x rec.index c := by
  obtain ⟨⟨rest, htargets⟩, ⟨vs, c₁, hdone, hx⟩, hcan⟩ := h
  have heval : evalFragments .builtin p.values (rec.place p.base) (done ++ f :: rest) p.context =
      (.error (f, .helper (.fault x)), c) := evalFragments_of_error hdone hx
  obtain ⟨g, gs, hcons⟩ := List.exists_cons_of_ne_nil (List.append_ne_nil_of_right_ne_nil done (List.cons_ne_nil f rest))
  rw [hcons] at htargets heval
  simp only [runRecords, htargets, enter_values, enter_base, enter_context, heval, hcan, if_true]

/-! ### What a run has computed -/

theorem get_foldl_of_not_mem {α : Type} {vs : List (Element × Value)} {e : Element} (he : e ∉ vs.map Prod.fst)
    (g : Element × Value → α) (b : Bank Element α) :
    (vs.foldl (fun b v => b.set v.1 (g v)) b).get e = b.get e := by
  induction vs generalizing b with
  | nil => rfl
  | cons v vs ih =>
    simp only [List.map_cons, List.mem_cons, not_or] at he
    rw [List.foldl_cons, ih he.2, Bank.get_set, if_neg (Ne.symm he.1)]

theorem get_foldl_true {vs : List (Element × Value)} {e : Element} (he : e ∈ vs.map Prod.fst)
    (b : Bank Element Bool) : (vs.foldl (fun b v => b.set v.1 true) b).get e = true := by
  induction vs generalizing b with
  | nil => cases he
  | cons v vs ih =>
    rw [List.foldl_cons]
    by_cases hvs : e ∈ vs.map Prod.fst
    · exact ih hvs _
    · have hv : e = v.1 := by simpa [hvs] using he
      rw [get_foldl_of_not_mem hvs fun _ => true, hv, Bank.get_set, if_pos rfl]

/-- What holds of a run from a machine as long as no fault was routed: the machine keeps its shell, and what
    was not computed is as it was at the start. -/
structure Progress.Sound (m₀ : Machine) (p : Progress) : Prop where
  machine : p.context.machine.SameShell m₀
  cpu : p.values.get .cpu = .cpu
  unwritten : ∀ e, p.written.get e = false → p.values.get e = m₀.get e

theorem get_initialValues (m : Machine) (e : Element) : (initialValues m).get e = m.get e := by
  rw [initialValues, Bank.get_foldl_set, if_pos e.mem_all]

theorem Progress.sound_start (c : Context) : (Progress.start c).Sound c.machine where
  machine := .refl _
  cpu := get_initialValues c.machine .cpu
  unwritten e _ := get_initialValues c.machine e

theorem Progress.Sound.step {m₀ : Machine} {p q : Progress} (hp : p.Sound m₀) (ht : t.Disciplined) {rec : Record}
    (h : step? t p rec = some q) : q.Sound m₀ := by
  obtain ⟨vs, c, -, heval, rfl⟩ := step?_eq_some.mp h
  have hshell := evalFragments_sameShell (ht rec.op) hp.cpu (rec.place p.base) p.context
  rw [heval] at hshell
  have hcpu : Element.cpu ∉ vs.map Prod.fst := by
    rw [fst_of_evalFragments heval]
    intro hmem
    obtain ⟨htarget, hkind⟩ := List.mem_filter.mp hmem
    obtain ⟨f, hf, hfe⟩ := List.mem_map.mp htarget
    have := Fragment.materializable_of_isDisciplined (ht rec.op f hf) (by simpa [hfe] using hkind)
    rw [hfe] at this
    cases this
  refine ⟨hshell.trans hp.machine, ?_, fun e he => ?_⟩
  · simp only [Progress.commit, enter_values]
    rw [get_foldl_of_not_mem hcpu Prod.snd]
    exact hp.cpu
  · simp only [Progress.commit, enter_values, enter_written] at he ⊢
    by_cases hmem : e ∈ vs.map Prod.fst
    · rw [get_foldl_true hmem] at he
      cases he
    · rw [get_foldl_of_not_mem hmem fun _ => true] at he
      rw [get_foldl_of_not_mem hmem Prod.snd]
      exact hp.unwritten e he

theorem Progress.Sound.advance {m₀ : Machine} {p q : Progress} (hp : p.Sound m₀) (ht : t.Disciplined)
    {rs : List Record} (h : advance t p rs = some q) : q.Sound m₀ :=
  advance_induct (fun _ _ _ _ hp h => hp.step ht h) hp h

theorem Raises.sameShell {m₀ : Machine} {p : Progress} {rec : Record} {done : List Fragment} {f : Fragment} {x : Fault}
    {c : Context} (h : Raises t p rec done f x c) (ht : t.Disciplined) (hp : p.Sound m₀) : c.machine.SameShell m₀ := by
  obtain ⟨⟨rest, htargets⟩, ⟨vs, c₁, hdone, hx⟩, -⟩ := h
  have hshell := evalFragments_sameShell (ht rec.op) hp.cpu (rec.place p.base) p.context
  rw [htargets, evalFragments_of_error hdone hx] at hshell
  exact hshell.trans hp.machine

theorem writeBack_sameRest (p : Progress) : p.writeBack.machine.SameRest p.context.machine := by
  rw [writeBack_machine]
  exact Machine.foldl_set_sameRest (fun r => p.values.get (.reg r)) _ _

/-- At the end of a run every register holds the last value computed for it. -/
theorem Progress.Sound.getReg_writeBack {m₀ : Machine} {p : Progress} (hp : p.Sound m₀) (hn : m₀.Normalised)
    (r : Register) : p.writeBack.machine.getReg r = r.held (p.values.get (.reg r)) := by
  rw [writeBack_machine, Machine.getReg_foldl_set (fun r => p.values.get (.reg r))]
  split
  · rfl
  · next hr =>
    have hw : p.written.get (.reg r) = false := by simpa [r.mem_all] using hr
    have hv : p.values.get (.reg r) = m₀.getReg r := hp.unwritten _ hw
    rw [hp.machine.regs, hv, hn.held_getReg]

/-! ### How a run ends -/

/-- A run goes to its end, or it meets an op without a lowering, or a record faults. -/
theorem runRecords_cases (ht : t.Disciplined) {m₀ : Machine} {p : Progress} (hp : p.Sound m₀) (route : String)
    (count : Nat) (rs : List Record) :
    (∃ q, advance t p rs = some q ∧ runRecords t .builtin route count rs p = (.ok count, q.writeBack)) ∨
    (∃ before rec after q, rs = before ++ rec :: after ∧ advance t p before = some q ∧ t.targets? rec.op = [] ∧
      runRecords t .builtin route count rs p = (.error (.unimplemented ⟨rec.op, rec.index⟩), q.context)) ∨
    (∃ before rec after q done f x c, rs = before ++ rec :: after ∧ advance t p before = some q ∧
      Raises t q rec done f x c ∧ runRecords t .builtin route count rs p =
        rollback .builtin route (q.enter rec).snapshot (rec.start - (q.enter rec).snapshotBase) x rec.index c) := by
  induction rs generalizing p with
  | nil => exact .inl ⟨p, rfl, rfl⟩
  | cons rec rs ih =>
    by_cases hnil : t.targets? rec.op = []
    · refine .inr (.inl ⟨[], rec, rs, p, rfl, rfl, hnil, ?_⟩)
      simp only [runRecords, hnil]
    rcases evalFragments_cases (ht rec.op) hp.cpu (rec.place p.base) p.context with
      ⟨vs, c, heval⟩ | ⟨done, f, rest, vs, x, c₁, c, htargets, hdone, hx, hcan⟩
    · have hstep := step?_eq_some.mpr ⟨vs, c, hnil, heval, rfl⟩
      rw [runRecords_of_step hstep]
      rcases ih (hp.step ht hstep) with ⟨q, hq, hrun⟩ | ⟨before, rec', after, q, rfl, hq, hrest⟩ |
        ⟨before, rec', after, q, done, f, x, c', rfl, hq, hrest⟩
      · exact .inl ⟨q, advance_cons.mpr ⟨_, hstep, hq⟩, hrun⟩
      · exact .inr (.inl ⟨rec :: before, rec', after, q, rfl, advance_cons.mpr ⟨_, hstep, hq⟩, hrest⟩)
      · exact .inr (.inr ⟨rec :: before, rec', after, q, done, f, x, c', rfl, advance_cons.mpr ⟨_, hstep, hq⟩, hrest⟩)
    · have hraises : Raises t p rec done f x c := ⟨⟨rest, htargets⟩, ⟨vs, c₁, hdone, hx⟩, hcan⟩
      exact .inr (.inr ⟨[], rec, rs, p, done, f, x, c, rfl, rfl, hraises, runRecords_of_raises hraises rs⟩)

/-- Records without effects leave the machine alone. -/
theorem machine_of_advance (ht : t.Disciplined) {m₀ : Machine} {p q : Progress} (hp : p.Sound m₀) {rs : List Record}
    (hrs : ∀ rec ∈ rs, ∀ f ∈ t.targets? rec.op, f.hasEffect = false) (h : advance t p rs = some q) :
    q.context.machine = p.context.machine := by
  refine (advance_induct (P := fun q => q.Sound m₀ ∧ q.context.machine = p.context.machine) ?_ ⟨hp, rfl⟩ h).2
  rintro rec hrec p' q' ⟨hp', hm⟩ hq'
  refine ⟨hp'.step ht hq', ?_⟩
  obtain ⟨vs, c, -, heval, rfl⟩ := step?_eq_some.mp hq'
  obtain ⟨vs', h'⟩ := evalFragments_of_pure (ht rec.op) (hrs rec hrec) hp'.cpu (rec.place p'.base)
  obtain ⟨calls, hc⟩ := h' p'.context
  rw [hc] at heval
  cases heval
  exact hm

/-- Before an instruction the run is in an earlier one. -/
theorem index_of_advance {p q : Progress} {k : Nat} (hp : p.index ≠ some k) {rs : List Record}
    (hrs : ∀ rec ∈ rs, rec.index < k) (h : advance t p rs = some q) : q.index ≠ some k := by
  refine advance_induct (P := fun q => q.index ≠ some k) ?_ hp h
  intro rec hrec p' q' _ hq'
  obtain ⟨vs, c, -, -, rfl⟩ := step?_eq_some.mp hq'
  have hindex : (p'.enter rec).index ≠ some k := by
    rw [enter_index, ne_eq, Option.some.injEq]
    exact (hrs rec hrec).ne
  exact hindex

/-! ### The base of EIP -/

/-- The offset that some records bring EIP up to: the position of the last of them that folds EIP. -/
def foldBase (t : Table) (base : Int64) (rs : List Record) : Int64 :=
  rs.foldl (fun base rec => if (t.targets? rec.op).any Fragment.foldsEip then rec.position else base) base

theorem base_of_advance {p q : Progress} {rs : List Record} (h : advance t p rs = some q) :
    q.base = foldBase t p.base rs := by
  induction rs generalizing p with
  | nil => rw [advance_nil.mp h]; rfl
  | cons rec rs ih =>
    obtain ⟨p', hp', h⟩ := advance_cons.mp h
    rw [ih h]
    obtain ⟨vs, c, -, -, rfl⟩ := step?_eq_some.mp hp'
    simp only [Progress.commit, enter_base]
    rfl

end Records
end Interpreter
end MicroBlock
