import Mathlib
import MicroBlock.Proofs.Prefixes
import MicroBlock.Proofs.Refinement
import MicroBlock.Proofs.Shapes

/-! Block boundaries do not matter.

Two blocks drawn as one run as they do one after the other. Past the seam, the run of the joined block is
ahead of the run of the second block alone by the offset and the number of the instructions of the first
one. It sees the registers that the first block computed as values not yet written back, and no record
tells the difference. -/

namespace MicroBlock

/-! ### The records of a block that stands behind another -/

/-- The record behind a block of the given length and number of instructions. -/
def Record.shift (length : Int64) (count : Nat) (rec : Record) : Record :=
  { rec with position := rec.position + length, start := rec.start + length, index := rec.index + count }

theorem Stream.recordsOf_shift {start position : Int64} {index : Nat} {ws : List Int32} {rs : List Record}
    (h : recordsOf start position index ws = .ok rs) (length : Int64) (count : Nat) :
    recordsOf (start + length) (position + length) (index + count) ws = .ok (rs.map (·.shift length count)) := by
  fun_induction recordsOf start position index ws generalizing rs with
  | case1 => cases h; rfl
  | case2 | case3 | case5 | case7 => cases h
  | case4 _ _ _ _ _ _ _ hrs ih | case6 _ _ _ _ _ _ hrs ih | case8 _ _ _ _ hrs ih =>
    cases h
    simp_all [recordsOf, Record.shift]

theorem Stream.recordsFrom_shift {start : Int64} {index : Nat} {b : Block} {rs : List Record}
    (h : recordsFrom start index b = .ok rs) (length : Int64) (count : Nat) :
    recordsFrom (start + length) (index + count) b = .ok (rs.map (·.shift length count)) := by
  fun_induction recordsFrom start index b generalizing rs with
  | case1 => cases h; rfl
  | case2 | case3 => cases h
  | case4 start index i is first hfirst rest hrest ih =>
    cases h
    have hend : start + length + i.length = start + i.length + length := by
      rw [Int64.add_assoc, Int64.add_comm length, ← Int64.add_assoc]
    have hindex : index + count + 1 = index + 1 + count := by omega
    rw [recordsFrom, hend, recordsOf_shift hfirst, hindex, ih hrest, List.map_append]

/-! ### Fragments that see their record only -/

namespace Fragment

/-- Whether a fragment leaves the descriptor tables and the privilege level alone, reads no element without
    a value, and does not ask where in its block it stands. -/
def isLocal (f : Fragment) : Bool :=
  (match f.target with
    | .reg (.table _) | .reg .cpl => false
    | _ => true) &&
  (f.inputs.all fun
    | .reg _ | .temp _ | .cpu => true
    | _ => false) &&
  !f.steps.contains (.literal .x86Position)

/-- Two places that are the same but for the offset in the block. -/
structure Alike (p p' : Place) : Prop where
  immediate : p.immediate = p'.immediate
  x86Length : p.x86Length = p'.x86Length

theorem resolve_of_isLocal {f : Fragment} (hf : f.isLocal = true) {p p' : Place} (hp : Alike p p') :
    ∀ l, .literal l ∈ f.steps → l.resolve p = l.resolve p' := by
  intro l hl
  cases l with
  | const v => rfl
  | immediate => simp only [Literal.resolve, hp.immediate]
  | x86Length => simp only [Literal.resolve, hp.x86Length]
  | x86Position => simp [isLocal, hl] at hf

end Fragment

theorem Lowering.isLocal_of_mem {mode : Mode} {op : Option Op} {f : Fragment}
    (hf : f ∈ (Lowering.table mode).targets? op) : f.isLocal = true :=
  of_mem (P := fun _ f => f.isLocal = true) (by decide +kernel) hf

namespace Interpreter

section Fronts
variable {place place' : Place} {values values' : Values} {n : Machine}

/-- A fragment does the same on a machine with another front, at a place alike, over values that agree where
    it looks. -/
theorem eval_withFront {f : Fragment} (hf : f.isDisciplined = true ∧ f.isLocal = true)
    (hp : Fragment.Alike place place') (hv : ∀ e ∈ f.inputs, values'.get e = values.get e) {c c' c₁ : Context}
    (hc : c'.machine = c.machine.withFront n) {r : Except Fragment.EvalError Value}
    (h : f.eval .builtin (f.inputs.map values.get) place c = (r, c₁)) :
    ∃ c₁', f.eval .builtin (f.inputs.map values'.get) place' c' = (r, c₁') ∧
      c₁'.machine = c₁.machine.withFront n := by
  have hfront := Fragment.outcome_withFront hf.1 (Fragment.resolve_of_isLocal hf.2 hp) (f.inputs.map values.get) c.machine n
  obtain ⟨calls, heval⟩ := f.eval_eq_outcome (f.inputs.map values.get) place c
  obtain ⟨calls', heval'⟩ := f.eval_eq_outcome (f.inputs.map values.get) place' c'
  rw [hc, hfront] at heval'
  rw [h, Prod.mk.injEq] at heval
  obtain ⟨rfl, rfl⟩ := heval
  rw [List.map_congr_left hv]
  exact ⟨_, heval', rfl⟩

theorem evalFragments_withFront {fs : List Fragment} (hfs : ∀ f ∈ fs, f.isDisciplined = true ∧ f.isLocal = true)
    (hp : Fragment.Alike place place') (hv : ∀ f ∈ fs, ∀ e ∈ f.inputs, values'.get e = values.get e)
    {c c' c₁ : Context} (hc : c'.machine = c.machine.withFront n)
    {r : Except (Fragment × Fragment.EvalError) (List (Element × Value))}
    (h : evalFragments .builtin values place fs c = (r, c₁)) :
    ∃ c₁', evalFragments .builtin values' place' fs c' = (r, c₁') ∧ c₁'.machine = c₁.machine.withFront n := by
  induction fs generalizing c c' c₁ r with
  | nil =>
    cases h
    exact ⟨c', rfl, hc⟩
  | cons f fs ih =>
    simp only [evalFragments] at h
    split at h
    · next e c₂ he =>
      obtain ⟨c₂', he', hc₂⟩ := eval_withFront (hfs f List.mem_cons_self) hp (hv f List.mem_cons_self) hc he
      cases h
      exact ⟨c₂', by simp only [evalFragments, he'], hc₂⟩
    · next v c₂ he =>
      obtain ⟨c₂', he', hc₂⟩ := eval_withFront (hfs f List.mem_cons_self) hp (hv f List.mem_cons_self) hc he
      have hrest := @ih (fun g hg => hfs g (List.mem_cons_of_mem f hg)) fun g hg => hv g (List.mem_cons_of_mem f hg)
      split at h
      · next e c₃ hvs =>
        obtain ⟨c₃', hvs', hc₃⟩ := hrest hc₂ hvs
        cases h
        exact ⟨c₃', by simp only [evalFragments, he', hvs'], hc₃⟩
      · next vs c₃ hvs =>
        obtain ⟨c₃', hvs', hc₃⟩ := hrest hc₂ hvs
        cases h
        exact ⟨c₃', by simp only [evalFragments, he', hvs'], hc₃⟩

end Fronts

/-! ### Working values -/

/-- Some record computes an element. -/
def Computed (t : Table) (rs : List Record) (e : Element) : Prop := ∃ rec ∈ rs, ∃ f ∈ t.targets? rec.op, f.target = e

/-- Every record that reads a working value comes after one that computes it. -/
def WritesFirst (t : Table) (rs : List Record) : Prop :=
  ∀ i (h : i < rs.length), ∀ f ∈ t.targets? rs[i].op, ∀ e ∈ f.inputs, e.isTemp = true → Computed t (rs.take i) e

instance (t : Table) (rs : List Record) (e : Element) : Decidable (Computed t rs e) :=
  inferInstanceAs (Decidable (∃ rec ∈ rs, ∃ f ∈ t.targets? rec.op, f.target = e))

instance (t : Table) (rs : List Record) : Decidable (WritesFirst t rs) :=
  inferInstanceAs (Decidable (∀ i (h : i < rs.length), ∀ f ∈ t.targets? rs[i].op, ∀ e ∈ f.inputs, e.isTemp = true →
    Computed t (rs.take i) e))

theorem WritesFirst.computed {t : Table} {before after : List Record} {rec : Record}
    (h : WritesFirst t (before ++ rec :: after)) {f : Fragment} (hf : f ∈ t.targets? rec.op) {e : Element}
    (he : e ∈ f.inputs) (ht : e.isTemp = true) : Computed t before e := by
  have := h before.length (by simp) f (by simpa using hf) e he ht
  rwa [List.take_left] at this

theorem get_foldl_of_mem {vs : List (Element × Value)} {e : Element} (he : e ∈ vs.map Prod.fst) (b b' : Values) :
    (vs.foldl (fun b v => b.set v.1 v.2) b).get e = (vs.foldl (fun b v => b.set v.1 v.2) b').get e := by
  induction vs generalizing b b' with
  | nil => cases he
  | cons v vs ih =>
    rw [List.foldl_cons, List.foldl_cons]
    by_cases hvs : e ∈ vs.map Prod.fst
    · exact ih hvs _ _
    · have hv : e = v.1 := by simpa [hvs] using he
      rw [get_foldl_of_not_mem hvs Prod.snd, get_foldl_of_not_mem hvs Prod.snd, hv, Bank.get_set_self, Bank.get_set_self]

/-- The elements whose values are known past some records of the second block: the registers, and the
    working values that these records compute. -/
def Settled (t : Table) (before : List Record) : Element → Prop
  | .reg _ | .cpu => True
  | .temp x => Computed t before (.temp x)
  | _ => False

/-- What a record does not compute was settled before it. -/
theorem Settled.of_append {t : Table} {before : List Record} {rec : Record} {e : Element}
    (h : Settled t (before ++ [rec]) e) (hrec : ∀ f ∈ t.targets? rec.op, f.target = e → e.kind = .void) :
    Settled t before e := by
  cases e with
  | reg r | cpu => trivial
  | temp x =>
    obtain ⟨r, hr, f, hf, htarget⟩ := h
    rcases List.mem_append.mp hr with hr | hr
    · exact ⟨r, hr, f, hf, htarget⟩
    · obtain rfl := List.mem_singleton.mp hr
      have := hrec f hf htarget
      cases x <;> cases this
  | zero | marker _ => cases h

/-! ### Past the seam -/

/-- The progress of a joined block past its seam, and that of the second block alone. -/
structure Seam (t : Table) (length : Int64) (count : Nat) (before : List Record) (p q : Progress) : Prop where
  values : ∀ e, Settled t before e → p.values.get e = q.values.get e
  base : p.base = q.base + length
  index : ∀ i, p.index = some (i + count) ↔ q.index = some i
  snapshot : ∀ i, q.index = some i → ∀ r, p.snapshot.get (.reg r) = q.snapshot.get (.reg r)
  snapshotBase : ∀ i, q.index = some i → p.snapshotBase = q.snapshotBase + length
  machine : p.context.machine = q.context.machine.withFront p.context.machine

namespace Seam
variable {t : Table} {length : Int64} {count : Nat} {before : List Record} {p q : Progress}

theorem enter (h : Seam t length count before p q) (rec : Record) :
    Seam t length count before (p.enter (rec.shift length count)) (q.enter rec) := by
  have hindex : p.index = some (rec.shift length count).index ↔ q.index = some rec.index := h.index rec.index
  unfold Progress.enter
  by_cases hq : q.index = some rec.index
  · rw [if_pos hq, if_pos (hindex.mpr hq)]
    exact h
  · rw [if_neg hq, if_neg (fun hp => hq (hindex.mp hp))]
    refine ⟨h.values, h.base, fun i => ?_, fun i _ r => h.values (.reg r) trivial, fun _ _ => h.base, h.machine⟩
    simp [Record.shift]

theorem alike (h : Seam t length count before p q) (rec : Record) :
    Fragment.Alike (rec.place q.base) ((rec.shift length count).place p.base) where
  immediate := rfl
  x86Length := by
    simp only [Record.place, Record.shift, h.base]
    grind

end Seam

section Mode
variable {mode : Mode} {length : Int64} {count : Nat} {before : List Record} {p q q' : Progress}

theorem disciplined_and_local {op : Option Op} :
    ∀ f ∈ (Lowering.table mode).targets? op, f.isDisciplined = true ∧ f.isLocal = true :=
  fun f hf => ⟨Lowering.table_disciplined mode op f hf, Lowering.isLocal_of_mem hf⟩

/-- A record of the second block does the same past the seam. -/
theorem Seam.step (h : Seam (Lowering.table mode) length count before p q) {rec : Record}
    (hin : ∀ f ∈ (Lowering.table mode).targets? rec.op, ∀ e ∈ f.inputs, Settled (Lowering.table mode) before e)
    (hq : step? (Lowering.table mode) q rec = some q') :
    ∃ p', step? (Lowering.table mode) p (rec.shift length count) = some p' ∧
      Seam (Lowering.table mode) length count (before ++ [rec]) p' q' := by
  obtain ⟨vs, c, hne, heval, rfl⟩ := step?_eq_some.mp hq
  obtain ⟨c', heval', hm⟩ := evalFragments_withFront disciplined_and_local (h.alike rec)
    (fun f hf e he => h.values e (hin f hf e he)) h.machine heval
  refine ⟨_, step?_eq_some.mpr ⟨vs, c', hne, heval', rfl⟩, ?_⟩
  have he := h.enter rec
  refine ⟨fun e hs => ?_, ?_, he.index, he.snapshot, he.snapshotBase, ?_⟩
  · simp only [Progress.commit, enter_values]
    by_cases hmem : e ∈ vs.map Prod.fst
    · exact get_foldl_of_mem hmem _ _
    · rw [get_foldl_of_not_mem hmem Prod.snd, get_foldl_of_not_mem hmem Prod.snd]
      refine h.values e (hs.of_append fun f hf htarget => ?_)
      rw [fst_of_evalFragments heval, List.mem_filter, not_and] at hmem
      simpa using hmem (List.mem_map.mpr ⟨f, hf, htarget⟩)
  · simp only [Progress.commit, enter_base, h.base, Record.shift]
    split <;> rfl
  · have hself : c'.machine = c.machine.withFront c'.machine := by rw [hm]; rfl
    exact hself

theorem Seam.advance (h : Seam (Lowering.table mode) length count before p q) {rs : List Record}
    (hin : ∀ l rec l', rs = l ++ rec :: l' → ∀ f ∈ (Lowering.table mode).targets? rec.op, ∀ e ∈ f.inputs,
      Settled (Lowering.table mode) (before ++ l) e)
    (hq : advance (Lowering.table mode) q rs = some q') :
    ∃ p', advance (Lowering.table mode) p (rs.map (·.shift length count)) = some p' ∧
      Seam (Lowering.table mode) length count (before ++ rs) p' q' := by
  induction rs generalizing before p q with
  | nil =>
    obtain rfl := advance_nil.mp hq
    exact ⟨p, advance_nil.mpr rfl, by rwa [List.append_nil]⟩
  | cons rec rs ih =>
    obtain ⟨q₁, hq₁, hq⟩ := advance_cons.mp hq
    obtain ⟨p₁, hp₁, h₁⟩ := h.step (by simpa using hin [] rec rs rfl) hq₁
    obtain ⟨p', hp', h'⟩ := ih h₁ (fun l rec' l' hl => by simpa using hin (rec :: l) rec' l' (by simp [hl])) hq
    exact ⟨p', advance_cons.mpr ⟨p₁, hp₁, hp'⟩, by simpa using h'⟩

/-- A record of the second block that faults does so past the seam. -/
theorem Seam.raises (h : Seam (Lowering.table mode) length count before p q) {rec : Record}
    (hin : ∀ f ∈ (Lowering.table mode).targets? rec.op, ∀ e ∈ f.inputs, Settled (Lowering.table mode) before e)
    {done : List Fragment} {f : Fragment} {x : Fault} {c : Context}
    (hq : Raises (Lowering.table mode) q rec done f x c) :
    ∃ c', Raises (Lowering.table mode) p (rec.shift length count) done f x c' ∧
      c'.machine = c.machine.withFront p.context.machine := by
  obtain ⟨⟨rest, htargets⟩, ⟨vs, c₁, hdone, hx⟩, hcan⟩ := hq
  have hvalues : ∀ g ∈ done ++ f :: rest, ∀ e ∈ g.inputs, p.values.get e = q.values.get e :=
    fun g hg e he => h.values e (hin g (htargets ▸ hg) e he)
  have hboth : ∀ g ∈ done ++ f :: rest, g.isDisciplined = true ∧ g.isLocal = true :=
    fun g hg => disciplined_and_local g (htargets ▸ hg)
  obtain ⟨c₁', hdone', hm⟩ := evalFragments_withFront (fun g hg => hboth g (List.mem_append_left _ hg)) (h.alike rec)
    (fun g hg => hvalues g (List.mem_append_left _ hg)) h.machine hdone
  have hf : f ∈ done ++ f :: rest := by simp
  obtain ⟨c', hx', hm'⟩ := eval_withFront (hboth f hf) (h.alike rec) (hvalues f hf) hm hx
  exact ⟨c', ⟨⟨rest, htargets⟩, ⟨vs, c₁', hdone', hx'⟩, hcan⟩, hm'⟩

end Mode

/-! ### At the seam -/

section Values
variable {mode : Mode} {rs : List Record} {p q : Progress}

theorem holds_of_evalFragments {values : Values} {place : Place} {fs : List Fragment} (hfs : ∀ f ∈ fs, f.isShapely = true)
    (hv : ∀ e : Element, e.shape.Holds (values.get e)) {c c' : Context} {vs : List (Element × Value)}
    (h : evalFragments .builtin values place fs c = (.ok vs, c')) : ∀ v ∈ vs, v.1.shape.Holds v.2 := by
  induction fs generalizing c vs with
  | nil =>
    cases h
    simp
  | cons f fs ih =>
    simp only [evalFragments] at h
    split at h
    · cases h
    next v c₁ hf =>
    split at h
    · cases h
    next vs' c₂ hvs =>
    cases h
    have hrest := ih (fun g hg => hfs g (List.mem_cons_of_mem f hg)) hvs
    split
    · exact hrest
    · next hk =>
      intro w hw
      rcases List.mem_cons.mp hw with rfl | hw
      · exact Fragment.holds_of_eval (hfs f List.mem_cons_self) hk hv hf
      · exact hrest w hw

theorem holds_get_foldl {vs : List (Element × Value)} (hvs : ∀ v ∈ vs, v.1.shape.Holds v.2) {b : Values}
    (hb : ∀ e : Element, e.shape.Holds (b.get e)) (e : Element) :
    e.shape.Holds ((vs.foldl (fun b v => b.set v.1 v.2) b).get e) := by
  induction vs generalizing b with
  | nil => exact hb e
  | cons v vs ih =>
    refine ih (fun w hw => hvs w (List.mem_cons_of_mem v hw)) fun e => ?_
    rw [Bank.get_set]
    split
    · next he => exact he ▸ hvs v List.mem_cons_self
    · exact hb e

/-- Every value of a run is of the shape of its element. -/
def Progress.Shaped (p : Progress) : Prop := ∀ e : Element, e.shape.Holds (p.values.get e)

theorem Progress.shaped_start {c : Context} (hn : c.machine.Normalised) : (Progress.start c).Shaped := fun e => by
  rw [show (Progress.start c).values = initialValues c.machine from rfl, get_initialValues]
  exact hn.holds_get e

theorem Progress.Shaped.advance (hp : p.Shaped) (h : advance (Lowering.table mode) p rs = some q) : q.Shaped := by
  refine advance_induct (P := Progress.Shaped) ?_ hp h
  intro rec _ p' q' hp' hq' e
  obtain ⟨vs, c, -, heval, rfl⟩ := step?_eq_some.mp hq'
  have hvs := holds_of_evalFragments (fun f hf => Lowering.isShapely_of_mem hf) hp' heval
  simp only [Progress.commit, enter_values]
  exact holds_get_foldl hvs hp' e

/-- What no record computes keeps its value. -/
theorem get_of_advance {t : Table} {e : Element} (he : ∀ rec ∈ rs, ∀ f ∈ t.targets? rec.op, f.target ≠ e)
    (h : advance t p rs = some q) : q.values.get e = p.values.get e := by
  refine advance_induct (P := fun q => q.values.get e = p.values.get e) ?_ rfl h
  intro rec hrec p' q' hp' hq'
  obtain ⟨vs, c, -, heval, rfl⟩ := step?_eq_some.mp hq'
  have hmem : e ∉ vs.map Prod.fst := by
    rw [fst_of_evalFragments heval, List.mem_filter]
    rintro ⟨htarget, -⟩
    obtain ⟨f, hf, rfl⟩ := List.mem_map.mp htarget
    exact he rec hrec f hf rfl
  simp only [Progress.commit, enter_values]
  rw [get_foldl_of_not_mem hmem Prod.snd, hp']

theorem normalised_of_holds {m : Machine} (h : ∀ r : Register, (Element.reg r).shape.Holds (m.getReg r)) :
    m.Normalised := by
  refine ⟨fun f => ?_, ?_⟩
  · obtain ⟨k, hk, heq⟩ := h (.flag f)
    rwa [Value.ofUInt32_inj heq]
  · obtain ⟨k, hk, heq⟩ := h .cpl
    rwa [Value.ofUInt32_inj heq]

/-- At the end of a run the registers hold the values computed for them. -/
theorem getReg_writeBack_of_advance {c : Context} (hn : c.machine.Normalised)
    (hp : advance (Lowering.table mode) (.start c) rs = some p) (r : Register) :
    p.writeBack.machine.getReg r = p.values.get (.reg r) := by
  have hsound := (Progress.sound_start c).advance (Lowering.table_disciplined mode) hp
  rw [hsound.getReg_writeBack hn, Register.held_of_holds ((Progress.shaped_start hn).advance hp (.reg r))]

/-- A run leaves the descriptor tables and the privilege level alone. -/
theorem getReg_of_local {c : Context} (hp : advance (Lowering.table mode) (.start c) rs = some p) {r : Register}
    (hr : r = .cpl ∨ ∃ t, r = .table t) : p.values.get (.reg r) = c.machine.getReg r := by
  refine (get_of_advance (fun rec _ f hf htarget => ?_) hp).trans (get_initialValues c.machine (.reg r))
  have hlocal := Lowering.isLocal_of_mem hf
  rcases hr with rfl | ⟨t, rfl⟩ <;> simp [Fragment.isLocal, htarget] at hlocal

end Values

theorem seam_start {mode : Mode} {c : Context} (hn : c.machine.Normalised) {rs : List Record} {p : Progress}
    (hp : advance (Lowering.table mode) (.start c) rs = some p) {count : Nat} (hrs : ∀ rec ∈ rs, rec.index < count) :
    Seam (Lowering.table mode) p.base count [] p (.start p.writeBack) := by
  have hregs := getReg_writeBack_of_advance hn hp
  have hsound := (Progress.sound_start c).advance (Lowering.table_disciplined mode) hp
  have hrest := writeBack_sameRest p
  have hvalues (e : Element) : (Progress.start p.writeBack).values.get e = p.writeBack.machine.get e :=
    get_initialValues p.writeBack.machine e
  have hnone : (Progress.start p.writeBack).index = none := rfl
  refine ⟨fun e he => ?_, (Int64.zero_add _).symm, fun i => ?_, fun i hi => ?_, fun i hi => ?_, ?_⟩
  · rw [hvalues]
    cases e with
    | reg r => exact (hregs r).symm
    | cpu => exact hsound.cpu
    | temp x =>
      obtain ⟨rec, hrec, -⟩ := he
      cases hrec
    | zero | marker _ => cases he
  · have hne : p.index ≠ some (i + count) :=
      index_of_advance (by simp [Progress.start]) (fun rec hrec => Nat.lt_add_left i (hrs rec hrec)) hp
    simp [hnone, hne]
  · cases hi
  · cases hi
  · refine Machine.eq_of_same (fun r => ?_) ⟨hrest.memory.symm, hrest.ports.symm, rfl, rfl, hrest.retired.symm⟩
    cases r with
    | gpr _ | eip | flag _ | seg _ => rfl
    | table t =>
      have h₁ := hregs (.table t)
      rw [getReg_of_local hp (.inr ⟨t, rfl⟩)] at h₁
      exact (hsound.machine.regs _).trans h₁.symm
    | cpl =>
      have h₁ := hregs .cpl
      rw [getReg_of_local hp (.inl rfl)] at h₁
      exact (hsound.machine.regs _).trans h₁.symm

theorem sameRest_of_withFront {m m' n : Machine} (h : m' = m.withFront n) (hr : n.router = m.router)
    (hd : n.delivered = m.delivered) : m'.SameRest m := by
  subst h
  exact ⟨rfl, rfl, hr, hd, rfl⟩

/-- A run that completes goes through all of its records. -/
theorem exists_advance {mode : Mode} {b : Block} {s : Stream} (hs : Stream.ofBlock b = .ok s) {c c' : Context}
    (h : runMode mode .builtin s c = (.ok s.count, c')) :
    ∃ p, advance (Lowering.table mode) (.start c) s.records = some p ∧ c' = p.writeBack := by
  rcases runRecords_cases (Lowering.table_disciplined mode) (Progress.sound_start c) (mode : ModeNumber).routeHelper
    s.count s.records with ⟨p, hp, hrun⟩ | ⟨before, rec, after, q, -, -, -, hrun⟩ |
      ⟨before, rec, after, q, done, f, x, c₁, hrs, -, -, hrun⟩ <;> rw [← run, ← runMode, h] at hrun
  · cases hrun
    exact ⟨p, hp, rfl⟩
  · cases hrun
  · obtain ⟨hrecords, -, heq⟩ := Stream.eq_of_ofBlock hs
    have hlt := Stream.index_lt_of_recordsFrom hrecords rec (by simp [hrs])
    have hcount : s.count = b.length := by rw [heq]
    have := rollback_index hrun.symm
    omega

section Past
variable {mode : Mode} {length : Int64} {count : Nat} {m₀ m₁ : Machine} {p q : Progress}

/-- Two runs that have come to the same values write back the same machine. -/
theorem Seam.writeBack {before : List Record} (h : Seam (Lowering.table mode) length count before p q) (hp : p.Sound m₀)
    (hq : q.Sound m₁) (hn₀ : m₀.Normalised) (hn₁ : m₁.Normalised) (hr : m₀.router = m₁.router)
    (hd : m₀.delivered = m₁.delivered) : p.writeBack.machine = q.writeBack.machine := by
  have hrest := sameRest_of_withFront h.machine (hp.machine.router.trans (hr.trans hq.machine.router.symm))
    (hp.machine.delivered.trans (hd.trans hq.machine.delivered.symm))
  refine Machine.eq_of_same (fun r => ?_) ((writeBack_sameRest p).trans (hrest.trans (writeBack_sameRest q).symm))
  rw [hp.getReg_writeBack hn₀, hq.getReg_writeBack hn₁, h.values (.reg r) trivial]

/-- What a rollback does is decided by the registers of its snapshot and by the rest of the machine. -/
theorem rollback_congr {snapshot snapshot' : Values} (hs : ∀ r, snapshot'.get (.reg r) = snapshot.get (.reg r))
    (delta : Int64) (x : Fault) (index : Nat) {c c' : Context} (hc : c'.machine.SameRest c.machine) :
    (rollback .builtin (mode : ModeNumber).routeHelper snapshot' delta x (index + count) c').1 =
        (rollback .builtin (mode : ModeNumber).routeHelper snapshot delta x index c).1.map (count + ·) ∧
      (rollback .builtin (mode : ModeNumber).routeHelper snapshot' delta x (index + count) c').2.machine =
        (rollback .builtin (mode : ModeNumber).routeHelper snapshot delta x index c).2.machine := by
  have hrestored : restored snapshot' delta c'.machine = restored snapshot delta c.machine := by
    refine Machine.eq_of_same (fun r => ?_)
      ((restored_sameRest _ _ _).trans (hc.trans (restored_sameRest _ _ _).symm))
    rw [getReg_restored, getReg_restored, hs r, show snapshot'.get .eip = snapshot.get .eip from hs .eip]
  rw [rollback_eq, rollback_eq, hrestored]
  rcases (Builtin.route mode).body [.cpu, .fault (some x)] (restored snapshot delta c.machine) with e | ⟨v, m⟩
  · exact ⟨rfl, rfl⟩
  · exact ⟨by simp [Except.map, Nat.add_comm], rfl⟩

/-- Past the seam the joined block runs as the second block does alone. -/
theorem Seam.runRecords (h : Seam (Lowering.table mode) length count [] p q) (hp : p.Sound m₀) (hq : q.Sound m₁)
    (hn₀ : m₀.Normalised) (hn₁ : m₁.Normalised) (hr : m₀.router = m₁.router) (hd : m₀.delivered = m₁.delivered)
    {rs : List Record} (hlowered : ∀ rec ∈ rs, (Lowering.table mode).targets? rec.op ≠ [])
    (hfirst : WritesFirst (Lowering.table mode) rs) (n : Nat) :
    (runRecords (Lowering.table mode) .builtin (mode : ModeNumber).routeHelper (count + n)
        (rs.map (·.shift length count)) p).1 =
      (runRecords (Lowering.table mode) .builtin (mode : ModeNumber).routeHelper n rs q).1.map (count + ·) ∧
    (runRecords (Lowering.table mode) .builtin (mode : ModeNumber).routeHelper (count + n)
        (rs.map (·.shift length count)) p).2.machine =
      (runRecords (Lowering.table mode) .builtin (mode : ModeNumber).routeHelper n rs q).2.machine := by
  have ht := Lowering.table_disciplined mode
  -- A fragment reads registers, the processor, and working values that the second block has computed.
  have hsettled : ∀ l rec l', rs = l ++ rec :: l' → ∀ f ∈ (Lowering.table mode).targets? rec.op, ∀ e ∈ f.inputs,
      Settled (Lowering.table mode) l e := by
    intro l rec l' hl f hf e he
    have hlocal := Lowering.isLocal_of_mem hf
    cases e with
    | reg r | cpu => trivial
    | temp x =>
      subst hl
      exact hfirst.computed hf he rfl
    | zero | marker _ =>
      simp only [Fragment.isLocal, Bool.and_eq_true, List.all_eq_true] at hlocal
      exact absurd (hlocal.1.2 _ he) (by simp)
  rcases runRecords_cases ht hq (mode : ModeNumber).routeHelper n rs with ⟨q', hq', hrun⟩ |
    ⟨before, rec, after, q', rfl, -, hnil, -⟩ | ⟨before, rec, after, q', done, f, x, c, rfl, hq', hraises, hrun⟩
  · -- No record faults.
    obtain ⟨p', hp', h'⟩ := h.advance hsettled hq'
    rw [hrun, runRecords_of_advance hp']
    exact ⟨rfl, h'.writeBack (hp.advance ht hp') (hq.advance ht hq') hn₀ hn₁ hr hd⟩
  · exact absurd hnil (hlowered rec (by simp))
  · -- The same record faults on both sides, and both roll back to the same registers.
    have hbefore : ∀ l rec' l', before = l ++ rec' :: l' → ∀ f ∈ (Lowering.table mode).targets? rec'.op, ∀ e ∈ f.inputs,
        Settled (Lowering.table mode) ([] ++ l) e :=
      fun l rec' l' hl => hsettled l rec' (l' ++ rec :: after) (by simp [hl])
    obtain ⟨p', hp', h'⟩ := h.advance hbefore hq'
    obtain ⟨c', hraises', hm⟩ := h'.raises (hsettled before rec after rfl) hraises
    have hp'' := (hp.advance ht hp').machine
    have hc := hraises.sameShell ht (hq.advance ht hq')
    have hrest := sameRest_of_withFront hm (hp''.router.trans (hr.trans hc.router.symm))
      (hp''.delivered.trans (hd.trans hc.delivered.symm))
    have he := h'.enter rec
    have hi := enter_index q' rec
    have hdelta : (rec.shift length count).start - (p'.enter (rec.shift length count)).snapshotBase =
        rec.start - (q'.enter rec).snapshotBase := by
      rw [he.snapshotBase _ hi]
      simp only [Record.shift]
      grind
    rw [hrun, List.map_append, List.map_cons, runRecords_append hp', runRecords_of_raises hraises', hdelta]
    exact rollback_congr (he.snapshot _ hi) _ x rec.index hrest

end Past

/-- Block boundaries do not matter: where the first block completes with EIP brought up to its end, and the
    second computes the working values that it reads, the joined block does what the two do one after the
    other. The counts add up, and the machine is the same, also when the second block faults. -/
theorem runMode_append (mode : Mode) {a b : Block} {sa sb : Stream} (ha : Stream.ofBlock a = .ok sa)
    (hb : Stream.ofBlock b = .ok sb) (hlowered : ∀ rec ∈ sb.records, (Lowering.table mode).targets? rec.op ≠ [])
    {c c₁ : Context} (hn : c.machine.Normalised) (hrun : runMode mode .builtin sa c = (.ok sa.count, c₁))
    (hbase : foldBase (Lowering.table mode) 0 sa.records = sa.length)
    (hfirst : WritesFirst (Lowering.table mode) sb.records) :
    ∃ s, Stream.ofBlock (a ++ b) = .ok s ∧ s.count = sa.count + sb.count ∧
      (runMode mode .builtin s c).1 = (runMode mode .builtin sb c₁).1.map (sa.count + ·) ∧
      (runMode mode .builtin s c).2.machine = (runMode mode .builtin sb c₁).2.machine := by
  obtain ⟨hra, hane, hsa⟩ := Stream.eq_of_ofBlock ha
  obtain ⟨hrb, -, hsb⟩ := Stream.eq_of_ofBlock hb
  have hcount : sa.count = a.length := by rw [hsa]
  have hcount' : sb.count = b.length := by rw [hsb]
  have hlength : sa.length = Stream.lengthOf a := by rw [hsa]
  have hrb' := Stream.recordsFrom_shift hrb sa.length sa.count
  rw [hlength, hcount] at hrb'
  have hjoined := Stream.recordsFrom_append.mpr ⟨_, _, hra, hrb', rfl⟩
  refine ⟨_, Stream.ofBlock_of_recordsFrom hjoined (by simp [hane]), by simp [hcount, hcount'], ?_⟩
  -- The run of the first block ends at the seam.
  obtain ⟨p, hp, rfl⟩ := exists_advance ha hrun
  have hsound := (Progress.sound_start c).advance (Lowering.table_disciplined mode) hp
  have hseam := seam_start hn hp fun rec hrec => by simpa using Stream.index_lt_of_recordsFrom hra rec hrec
  rw [base_of_advance hp, show (Progress.start c).base = 0 from rfl, hbase, hlength] at hseam
  have hback := writeBack_sameRest p
  have hn₁ : p.writeBack.machine.Normalised := normalised_of_holds fun r => by
    rw [getReg_writeBack_of_advance hn hp]
    exact (Progress.shaped_start hn).advance hp (.reg r)
  have hpast := hseam.runRecords hsound (Progress.sound_start p.writeBack) hn hn₁
    (hsound.machine.router.symm.trans hback.router.symm) (hsound.machine.delivered.symm.trans hback.delivered.symm)
    hlowered hfirst sb.count
  rw [runMode, run, runRecords_append hp, List.length_append, ← hcount', hcount]
  exact hpast

/-- An EIP update joined with two instructions in protected mode, the second of which may not clear the interrupt
    flag. Its fault comes after two completed instructions, and after one without the update. -/
theorem runMode_append_fault :
    ∃ sa sb s c₁, Stream.ofBlock [⟨2, [156]⟩] = .ok sa ∧ Stream.ofBlock [⟨1, [0, 121, 17]⟩, ⟨1, [141]⟩] = .ok sb ∧
      WritesFirst (Lowering.table .protected_) sb.records ∧
      runMode .protected_ .builtin sa ⟨{ Machine.reset (.ofSize 0) with cpl := 3 }, []⟩ = (.ok 1, c₁) ∧
      (runMode .protected_ .builtin sb c₁).1 = .ok 1 ∧
      Stream.ofBlock [⟨2, [156]⟩, ⟨1, [0, 121, 17]⟩, ⟨1, [141]⟩] = .ok s ∧
      (runMode .protected_ .builtin s ⟨{ Machine.reset (.ofSize 0) with cpl := 3 }, []⟩).1 = .ok 2 ∧
      (runMode .protected_ .builtin s ⟨{ Machine.reset (.ofSize 0) with cpl := 3 }, []⟩).2.machine =
        (runMode .protected_ .builtin sb c₁).2.machine := by
  have hboth : (Stream.ofBlock [⟨2, [156]⟩]).toOption.any (fun sa =>
      (Stream.ofBlock [⟨1, [0, 121, 17]⟩, ⟨1, [141]⟩]).toOption.any fun sb =>
        let r := runMode .protected_ .builtin sa ⟨{ Machine.reset (.ofSize 0) with cpl := 3 }, []⟩
        sa.count = 1 ∧ r.1 = .ok 1 ∧ foldBase (Lowering.table .protected_) 0 sa.records = sa.length ∧
          WritesFirst (Lowering.table .protected_) sb.records ∧
          (∀ rec ∈ sb.records, (Lowering.table .protected_).targets? rec.op ≠ []) ∧
          (runMode .protected_ .builtin sb r.2).1 = .ok 1) = true := by
    decide
  obtain ⟨sa, ha, hrest⟩ := exists_ok_of_any hboth
  obtain ⟨sb, hb, hdecide⟩ := exists_ok_of_any hrest
  obtain ⟨hcount, hresult, hbase, hfirst, hlowered, hresult'⟩ := of_decide_eq_true hdecide
  have hrun : runMode .protected_ .builtin sa ⟨{ Machine.reset (.ofSize 0) with cpl := 3 }, []⟩ =
      (.ok sa.count, _) := Prod.ext (hresult.trans (by rw [hcount])) rfl
  obtain ⟨s, hs, -, hfst, hsnd⟩ :=
    runMode_append .protected_ ha hb hlowered ⟨fun f => by cases f <;> decide, by decide⟩ hrun hbase hfirst
  rw [hresult', hcount] at hfst
  exact ⟨sa, sb, s, _, ha, hb, hfirst, hcount ▸ hrun, hresult', hs, hfst, hsnd⟩

end Interpreter
end MicroBlock
