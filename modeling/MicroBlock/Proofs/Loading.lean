import Mathlib
import MicroBlock.Compile.Compiler
import MicroBlock.Proofs.Containers
import MicroBlock.Proofs.Refinement
import MicroBlock.Proofs.Safety

/-! What becomes of a unit when it is loaded.

A unit whose block has few enough words comes out of its container as it went in; its routines are the methods
that were written, and its accessors tell the numbers and the arrays of the block. -/

namespace MicroBlock

theorem Stream.length_positionsFrom (start : Int64) (b : Block) :
    (positionsFrom start b).length = (b.flatMap (·.words)).length := by
  induction b generalizing start with
  | nil => rfl
  | cons i is ih => simp only [positionsFrom, List.length_append, List.length_map, List.flatMap_cons, ih]

theorem Stream.length_positions {b : Block} {s : Stream} (h : ofBlock b = .ok s) :
    s.positions.length = s.microcodes.length := by
  obtain ⟨-, -, heq⟩ := eq_of_ofBlock h
  rw [heq]
  exact length_positionsFrom 0 b

namespace Target
open MicroBlock.Module

/-! ### Sizes -/

section Sizes
variable {mode : Mode} {name : String} {s : Stream} {g : Graph} {P : Fragment → Prop} [Fragment.Writable P]
  (hg : g.Valid P) {slots : Slots} (hs : slots.Sound g)
  {m : Module} {fin : Emission} {guards : List Guard} (h : Contains mode name s g slots m fin guards)
include hg hs h

theorem Contains.guards_sized (hkeep : slots.KeepsEffects g) :
    Method.Sized ⟨.ofString executeMethod, fin.bytes, guards⟩ := by
  obtain ⟨hsize, hlength, -⟩ := h.bounds hg hs
  have hfenced := Emission.fenced_main (m := described name slots.kinds s) hg hs hkeep s.count
  have hgrow := (Emission.grows_main_execute hs h.execute).size_le
  obtain ⟨hlen, hmem⟩ := Emission.guards_rollbacks hs (Builtin.route mode).name
    (g.rollbacks.toList.zip (Emission.main_ g slots s.count (Emission.start g (described name slots.kinds s))).extents.toList)
    (Emission.main_ g slots s.count (Emission.start g (described name slots.kinds s)))
  have hexec := h.execute
  simp only [Emission.execute] at hexec
  rw [hexec] at hlen hmem
  simp only [maxMethodBytes] at hsize hlength hlen hmem
  refine ⟨show guards.length < 2 ^ 29 by omega, fun gd hgd => ?_⟩
  obtain ⟨e, he, sρ, -, -, htarget, hempty, rfl⟩ := hmem gd hgd
  obtain ⟨ρ, hρ⟩ := List.mem_iff_getElem?.mp he
  have hlast := (hfenced ρ e.2 (by simpa using (List.getElem?_zip_eq_some.mp hρ).2)).1
  simp only [Extent.isEmpty, Bool.or_eq_false_iff, decide_eq_false_iff_not] at hempty
  simp only [Guard.Fits, Operand.fits_iff, Emission.toInt_ofNat (show sρ.size < 2 ^ 29 by omega)]
  rw [Int32.toInt_ofInt_of_le (by omega) (by omega), Int32.toInt_ofInt_of_le (by omega) (by omega)]
  omega

omit [Fragment.Writable P] in
theorem Contains.constants : pool s <+: m.constants := by
  rw [h.eq]
  exact (Emission.grows_execute hg hs h.execute).constants

theorem Contains.sized (hkeep : slots.KeepsEffects g) (hlength : s.positions.length = s.microcodes.length)
    (hwords : s.microcodes.length < 2 ^ 29) : m.Sized := by
  obtain ⟨-, -, hc, hl, hu⟩ := h.bounds hg hs
  have hexecute := h.guards_sized hg hs hkeep
  have hgrow := Emission.grows_execute hg hs h.execute
  refine ⟨by rw [h.eq]; rfl, by rw [h.eq]; exact hu, ⟨hc, fun c hc => ?_⟩, hl, ?_, fun me hme => ?_⟩
  · rintro a rfl
    rw [h.eq] at hc
    rcases hgrow.numbers _ hc with hc | ⟨w, hw⟩
    · rcases mem_pool.mp hc with hc | hc <;> cases hc
      · exact hwords
      · rwa [hlength]
    · cases hw
  · rw [h.eq]
    simp [descriptions]
  · rw [h.eq] at hme
    rcases List.mem_append.mp hme with hme | hme
    · have hguards : me.guards = [] := by
        simp only [descriptions, List.mem_cons, List.not_mem_nil, or_false] at hme
        rcases hme with rfl | rfl | rfl | rfl <;> rfl
      rw [Method.Sized, hguards]
      exact ⟨by simp, fun _ hg => absurd hg List.not_mem_nil⟩
    · rw [List.mem_singleton.mp hme]
      exact hexecute

end Sizes

/-! ### Routines -/

/-- The routine of a method that pushes one thing and returns it. -/
def accessorRoutine (name : String) (i : Instr) : Routine := ⟨.ofString name, Emission.place 0 [i, .ret], []⟩

/-- The routines of the unit of a stream. -/
def routines (s : Stream) (fin : Emission) (guards : List Guard) : List Routine :=
  [accessorRoutine countMethod (.push (.ofNat s.count)), accessorRoutine lengthMethod (.push s.length.toInt32),
    accessorRoutine microcodesMethod (.const (.ofNat 0)),
    accessorRoutine positionsMethod (.const (.ofNat (if s.microcodes = s.positions then 0 else 1))),
    ⟨.ofString executeMethod, Emission.place 0 fin.instrs, guards⟩]

end Target

theorem Loader.verify_error {m : Module} {helpers : List Helper} {name : String} {mes : List Method} {e : LoadError}
    (h : verify m helpers name mes = .error e) : ∃ me x, e = .method name me x := by
  fun_induction verify m helpers name mes with
  | case1 => cases h
  | case2 =>
    cases h
    exact ⟨_, _, rfl⟩
  | case3 me rest r hr e' he ih =>
    cases h
    exact ih he
  | case4 => cases h

namespace Target
open MicroBlock.Module

theorem fits_const {k : Nat} (hk : k < 2 ^ 29) : Code.Fits (.const (.ofNat k)) := by
  rintro v ⟨⟩
  rw [Operand.fits_iff, Emission.toInt_ofNat hk]
  omega

theorem decode_accessorMethod {i : Instr} (hi : Code.Fits i) (name : String) :
    Code.decode (accessorMethod name i).code = .ok (Emission.place 0 [i, .ret]) := by
  have hfits : ∀ j ∈ [i, .ret], Code.Fits j := by
    simp only [List.mem_cons, List.not_mem_nil, or_false, forall_eq_or_imp, forall_eq]
    exact ⟨hi, nofun⟩
  simpa [accessorMethod] using Code.decode_encode hfits

theorem ofMethod_accessor {m : Module} {helpers : List Helper} {name : String} {i : Instr} (hi : Code.Fits i)
    {r : Routine} (h : Routine.ofMethod m helpers (accessorMethod name i) = .ok r) : r = accessorRoutine name i := by
  obtain ⟨code, hcode, rfl, -⟩ := Routine.ofMethod_eq_ok h
  rw [decode_accessorMethod hi name] at hcode
  cases hcode
  rfl

section Routines
variable {mode : Mode} {name : String} {s : Stream} {g : Graph} {P : Fragment → Prop}
  (hg : g.Valid P) {slots : Slots} (hs : slots.Sound g)
  {m : Module} {fin : Emission} {guards : List Guard} (h : Contains mode name s g slots m fin guards)
include hg hs h

/-- The routines of a unit that passes verification are the methods that were written. -/
theorem Contains.verify {helpers : List Helper} {rs : List Routine}
    (hrs : Loader.verify m helpers name m.methods = .ok rs) : rs = routines s fin guards := by
  have hmethods : m.methods = descriptions s ++ [⟨.ofString executeMethod, fin.bytes, guards⟩] := by rw [h.eq]
  rw [hmethods] at hrs
  obtain ⟨r₁, rs₁, h₁, hrs₁, rfl⟩ := Loader.verify_cons hrs
  obtain ⟨r₂, rs₂, h₂, hrs₂, rfl⟩ := Loader.verify_cons hrs₁
  obtain ⟨r₃, rs₃, h₃, hrs₃, rfl⟩ := Loader.verify_cons hrs₂
  obtain ⟨r₄, rs₄, h₄, hrs₄, rfl⟩ := Loader.verify_cons hrs₃
  obtain ⟨r₅, rs₅, h₅, hrs₅, rfl⟩ := Loader.verify_cons hrs₄
  cases hrs₅
  obtain ⟨code, hcode, rfl, -⟩ := Routine.ofMethod_eq_ok h₅
  rw [h.decode hg hs] at hcode
  cases hcode
  rw [ofMethod_accessor h.describable.1 h₁, ofMethod_accessor h.describable.2 h₂, ofMethod_accessor (fits_const (by omega)) h₃,
    ofMethod_accessor (fits_const (by split <;> omega)) h₄]
  rfl

end Routines

theorem routine?_routines (s : Stream) (fin : Emission) (guards : List Guard) :
    CodeBlock.routine? (routines s fin guards) countMethod =
        some (accessorRoutine countMethod (.push (.ofNat s.count))) ∧
      CodeBlock.routine? (routines s fin guards) lengthMethod =
        some (accessorRoutine lengthMethod (.push s.length.toInt32)) ∧
      CodeBlock.routine? (routines s fin guards) microcodesMethod =
        some (accessorRoutine microcodesMethod (.const (.ofNat 0))) ∧
      CodeBlock.routine? (routines s fin guards) positionsMethod =
        some (accessorRoutine positionsMethod (.const (.ofNat (if s.microcodes = s.positions then 0 else 1)))) ∧
      CodeBlock.routine? (routines s fin guards) executeMethod =
        some ⟨.ofString executeMethod, Emission.place 0 fin.instrs, guards⟩ := by
  simp [CodeBlock.routine?, routines, accessorRoutine, ByteString.ofString_eq_iff, countMethod, lengthMethod,
    microcodesMethod, positionsMethod, executeMethod]

/-! ### Accessors -/

theorem run_push (l : Linkage) (name : String) (w : Int32) (c : Context) :
    Execution.run l (accessorRoutine name (.push w)) false c = (.ok (.ofUInt32 w.toUInt32), c) := by
  have hle : 2 ≤ Execution.stepLimit := by decide
  refine Execution.run_eq_ok hle fun n => ?_
  rw [Nat.add_comm]
  rfl

theorem run_const {l : Linkage} {k : Int32} {v : Constant} (h : Routine.nth? l.constants k = some v) (name : String)
    (c : Context) : Execution.run l (accessorRoutine name (.const k)) false c = (.ok (Execution.constantValue v), c) := by
  have hle : 2 ≤ Execution.stepLimit := by decide
  refine Execution.run_eq_ok hle fun n => ?_
  rw [Nat.add_comm]
  simp only [Execution.runFor, Execution.start, accessorRoutine, Emission.place, Execution.step, Execution.State.next, h]

/-- What the accessors of the unit of a stream tell. -/
def summaryOf (s : Stream) : Loader.Summary where
  count := (Int32.ofNat s.count).toUInt32.toNat
  length := s.length.toInt32.toUInt32.toNat
  microcodes := s.microcodes
  positions := s.positions

/-- The numbers of a block that fit into the operands of its accessors. -/
def Measured (s : Stream) : Prop := s.count < 2 ^ 29 ∧ 0 ≤ s.length.toInt ∧ s.length.toInt < 2 ^ 29

theorem Measured.toInt_eq {s : Stream} (h : Measured s) :
    (Int32.ofNat s.count).toInt = s.count ∧ s.length.toInt32.toInt = s.length.toInt := by
  obtain ⟨hcount, hlength, hlength'⟩ := h
  refine ⟨Emission.toInt_ofNat hcount, ?_⟩
  rw [Int64.toInt_toInt32, Int.bmod_eq_of_le (by omega) (by omega)]

theorem Measured.describable {s : Stream} (h : Measured s) : Describable s := by
  obtain ⟨hcount₁, hlength₁⟩ := h.toInt_eq
  obtain ⟨hcount, hlength, hlength'⟩ := h
  constructor <;> rintro v ⟨⟩ <;> rw [Operand.fits_iff] <;> omega

theorem toNat_toUInt32 {v : Int32} (h : 0 ≤ v.toInt) : (v.toUInt32.toNat : Int) = v.toInt := by
  have hv : v.toInt = v.toBitVec.toInt := rfl
  have hn : v.toUInt32.toNat = v.toBitVec.toNat := rfl
  have hlt := v.toBitVec.isLt
  rw [hv, BitVec.toInt_eq_toNat_cond] at h
  rw [hv, hn, BitVec.toInt_eq_toNat_cond]
  split at h <;> omega

theorem Measured.summaryOf_eq {s : Stream} (h : Measured s) :
    (summaryOf s).count = s.count ∧ ((summaryOf s).length : Int) = s.length.toInt := by
  obtain ⟨hcount₁, hlength₁⟩ := h.toInt_eq
  obtain ⟨hcount, hlength, -⟩ := h
  have hcount₂ : ((Int32.ofNat s.count).toUInt32.toNat : Int) = _ := toNat_toUInt32 (by omega)
  have hlength₂ : (s.length.toInt32.toUInt32.toNat : Int) = _ := toNat_toUInt32 (by omega)
  simp only [summaryOf]
  omega

theorem summary_routines {l : Linkage} {s : Stream} (hpool : pool s <+: l.constants) (fin : Emission) (guards : List Guard)
    (name : String) (calls : List String) :
    Loader.summary l (routines s fin guards) name calls = (.ok (summaryOf s), calls) := by
  obtain ⟨hcount, hlength, hmicro, hpos, -⟩ := routine?_routines s fin guards
  obtain ⟨cs, hcs⟩ := hpool
  have hfirst : Routine.nth? l.constants (.ofNat 0) = some (.ints s.microcodes) := by
    rw [Emission.nth?_ofNat _ (by decide), ← hcs, pool]
    split <;> rfl
  have hsecond : Routine.nth? l.constants (.ofNat (if s.microcodes = s.positions then 0 else 1)) =
      some (.ints s.positions) := by
    rw [Emission.nth?_ofNat _ (by split <;> decide), ← hcs, pool]
    split
    · next h => rw [h]; rfl
    · rfl
  simp only [Loader.summary, Loader.runArrayAccessor, Loader.runAccessor, hcount, hlength, hmicro, hpos, run_push,
    run_const hfirst, run_const hsecond, Execution.constantValue, Value.toUInt32_ofUInt32, summaryOf]

/-! ### Loading -/

/-- The block that the unit of a stream is loaded as. -/
def block (name : String) (s : Stream) (m : Module) (data : Bytes) (helpers : List Helper) (fin : Emission)
    (guards : List Guard) : CodeBlock where
  name
  module := m
  bytes := data
  helpers
  routines := routines s fin guards
  count := (summaryOf s).count
  length := (summaryOf s).length
  microcodes := s.microcodes
  positions := s.positions

section Loading
variable {mode : Mode} {name : String} {s : Stream} {g : Graph} {P : Fragment → Prop} [Fragment.Writable P]
  (hg : g.Valid P) {slots : Slots} (hs : slots.Sound g)
  (hkeep : slots.KeepsEffects g) {m : Module} {fin : Emission} {guards : List Guard}
  (h : Contains mode name s g slots m fin guards) {data : Bytes} (hdata : m.encode = .ok data)
  (hlength : s.positions.length = s.microcodes.length) {helpers : List Helper}
  (hh : Loader.resolve .builtin name m.links = .ok helpers)
include hg hs hkeep h hdata hlength hh

/-- Linking a unit comes down to the verification of its methods. -/
theorem Contains.link (hwords : s.microcodes.length < 2 ^ 29) :
    Loader.link .builtin name data = (Loader.verify m helpers name m.methods).map fun rs => (m, helpers, rs) := by
  have hname : m.name = .ofString name := by rw [h.eq]; rfl
  simp only [Loader.link, decode_encode hdata (h.sized hg hs hkeep hlength hwords), hname, ne_eq, not_true_eq_false,
    if_false, hh]
  cases hrs : Loader.verify m helpers name m.methods with
  | error e => rfl
  | ok rs =>
    rw [h.verify hg hs hrs]
    obtain ⟨hcount, hlength, hmicro, hpos, hexecute⟩ := routine?_routines s fin guards
    simp [blockMethods, hcount, hlength, hmicro, hpos, hexecute, Except.map]

omit [Fragment.Writable P] hkeep hlength hh in
/-- A unit with more words than its container can count is turned down. -/
theorem Contains.link_error (hlo : 2 ^ 29 ≤ s.microcodes.length) (hhi : s.microcodes.length < 2 ^ 30) :
    ∃ e, Loader.link .builtin name data = .error (.container name e) := by
  obtain ⟨-, -, hc, -, hu⟩ := h.bounds hg hs
  obtain ⟨cs, hcs⟩ := h.constants hg hs
  have hfirst : ∃ cs, m.constants = .ints s.microcodes :: cs := by
    rw [← hcs, pool]
    split <;> exact ⟨_, rfl⟩
  obtain ⟨cs', hcs'⟩ := hfirst
  obtain ⟨e, he⟩ := decode_encode_error hdata (by rw [h.eq]; rfl) (by rw [h.eq]; exact hu) hc hcs' hlo hhi
  refine ⟨e, ?_⟩
  simp only [Loader.link, he]

/-- Loading a unit gives the block of its stream, if the unit passes verification. -/
theorem Contains.load_eq (hwords : s.microcodes.length < 2 ^ 29) {l : Loader} (hhelpers : l.helpers = .builtin)
    (hclosed : l.closed = none) (hnone : l.find? name = none) :
    l.load name data = match Loader.verify m helpers name m.methods with
      | .error e => (.error e, l)
      | .ok _ => (.ok (block name s m data helpers fin guards),
          { l with blocks := l.blocks ++ [block name s m data helpers fin guards] }) := by
  simp only [Loader.load, hclosed, hnone, Option.isSome_none, Bool.false_eq_true, if_false, hhelpers,
    h.link hg hs hkeep hdata hlength hh hwords]
  cases hrs : Loader.verify m helpers name m.methods with
  | error e => rfl
  | ok rs =>
    have hsummary := summary_routines (l := CodeBlock.linkage m helpers) (h.constants hg hs) fin guards name l.calls
    simp only [h.verify hg hs hrs, Except.map, hsummary]
    rfl

end Loading
end Target

/-! ### Compiled blocks -/

/-- What building a unit that succeeds went through. -/
structure Compiler.Builds (limits : CompileLimits) (mode : Mode) (s : Stream) (name : String) (data : Bytes) (g : Graph)
    (slots : Slots) (m : Module) : Prop where
  drawn : Graph.build (Lowering.table mode) true s = .ok g
  allocated : Slots.allocate g limits.slotUnits = (.ok (), slots)
  unit : (Target.ofMode mode).unit name s g slots limits.methodBytes = .ok m
  encoded : m.encode = .ok data

theorem Compiler.build_eq_ok_iff {limits : CompileLimits} {t : Target} {s : Stream} {name : String} {data : Bytes} :
    build limits t s name = .ok data ↔ ∃ g slots m, Graph.build t.table true s = .ok g ∧
      Slots.allocate g limits.slotUnits = (.ok (), slots) ∧ t.unit name s g slots limits.methodBytes = .ok m ∧
      m.encode = .ok data := by
  unfold build
  constructor
  · intro h
    split at h
    · cases h
    next g hg =>
    split at h
    · cases h
    next slots hs =>
    split at h
    · cases h
    next m hm =>
    split at h
    · cases h
    next data' hdata =>
    cases h
    exact ⟨g, slots, m, hg, hs, hm, hdata⟩
  · rintro ⟨g, slots, m, hg, hs, hm, hdata⟩
    simp only [hg, hs, hm, hdata]

theorem Compiler.build_eq_ok {limits : CompileLimits} {mode : Mode} {s : Stream} {name : String} {data : Bytes} :
    build limits (.ofMode mode) s name = .ok data ↔ ∃ g slots m, Builds limits mode s name data g slots m := by
  rw [build_eq_ok_iff]
  constructor
  · rintro ⟨g, slots, m, hg, hs, hm, hdata⟩
    exact ⟨g, slots, m, hg, hs, hm, hdata⟩
  · rintro ⟨g, slots, m, hg, hs, hm, hdata⟩
    exact ⟨g, slots, m, hg, hs, hm, hdata⟩

/-- A block that a new loader makes of the unit of a stream. -/
def CodeBlock.Compiled (limits : CompileLimits) (mode : Mode) (s : Stream) (u : CodeBlock) : Prop :=
  ∃ data, Compiler.build limits (.ofMode mode) s u.name = .ok data ∧
    (({ helpers := .builtin } : Loader).load u.name data).1 = .ok u

section Compiled
variable {limits : CompileLimits} {mode : Mode} {b : Block} {s : Stream} (hb : Stream.ofBlock b = .ok s)
  (hwords : s.microcodes.length < 2 ^ 30)
include hb hwords

open Target in
theorem Loader.load_cases {name : String} {data : Bytes} (hdata : Compiler.build limits (.ofMode mode) s name = .ok data) :
    ∃ g slots m fin guards helpers, Compiler.Builds limits mode s name data g slots m ∧
      Contains mode name s g slots m fin guards ∧ resolve .builtin name m.links = .ok helpers ∧
      ((∃ e, (∀ name' method x, e ≠ .accessor name' method x) ∧
          ∀ l : Loader, l.helpers = .builtin → l.closed = none → l.find? name = none →
            l.load name data = (.error e, l)) ∨
        s.microcodes.length < 2 ^ 29 ∧ verify m helpers name m.methods = .ok (routines s fin guards) ∧
          ∀ l : Loader, l.helpers = .builtin → l.closed = none → l.find? name = none →
            l.load name data = (.ok (block name s m data helpers fin guards),
              { l with blocks := l.blocks ++ [block name s m data helpers fin guards] })) := by
  obtain ⟨g, slots, m, hbuilds⟩ := Compiler.build_eq_ok.mp hdata
  have hg := Graph.build_valid (Lowering.table_disciplined mode) hb hbuilds.drawn
  obtain ⟨hs, hkeep⟩ := Slots.allocate_sound hg hbuilds.allocated
  obtain ⟨fin, guards, h⟩ := unit_contains hg hs hbuilds.unit
  obtain ⟨helpers, hh, -⟩ := h.layout hg hs
  refine ⟨g, slots, m, fin, guards, helpers, hbuilds, h, hh, ?_⟩
  rcases Nat.lt_or_ge s.microcodes.length (2 ^ 29) with hlo | hlo
  · have hload := fun l => h.load_eq hg hs hkeep hbuilds.encoded (Stream.length_positions hb) hh hlo (l := l)
    cases hrs : verify m helpers name m.methods with
    | error e =>
      rw [hrs] at hload
      obtain ⟨me, x, rfl⟩ := verify_error hrs
      exact .inl ⟨_, (fun _ _ _ h => by cases h), hload⟩
    | ok rs =>
      rw [hrs] at hload
      rw [h.verify hg hs hrs]
      exact .inr ⟨hlo, rfl, hload⟩
  · obtain ⟨e, he⟩ := h.link_error hg hs hbuilds.encoded hlo hwords
    refine .inl ⟨.container name e, (fun _ _ _ h => by cases h), fun l hhelpers hclosed hnone => ?_⟩
    simp only [load, hclosed, hnone, Option.isSome_none, Bool.false_eq_true, if_false, hhelpers, he]

/-- What a loader makes of the unit of a stream does not depend on what it has loaded before. -/
theorem Loader.load_build {name : String} {data : Bytes} (hdata : Compiler.build limits (.ofMode mode) s name = .ok data)
    {l : Loader} (hhelpers : l.helpers = .builtin) (hclosed : l.closed = none) (hnone : l.find? name = none) :
    (∃ e, (∀ name' method x, e ≠ .accessor name' method x) ∧ l.load name data = (.error e, l)) ∨
      ∃ u, u.name = name ∧ CodeBlock.Compiled limits mode s u ∧
        l.load name data = (.ok u, { l with blocks := l.blocks ++ [u] }) := by
  obtain ⟨g, slots, m, fin, guards, helpers, -, -, -, ⟨e, hne, hload⟩ | ⟨-, -, hload⟩⟩ := load_cases hb hwords hdata
  · exact .inl ⟨e, hne, hload l hhelpers hclosed hnone⟩
  · have hnew := hload { helpers := .builtin } rfl rfl rfl
    exact .inr ⟨Target.block name s m data helpers fin guards, rfl, ⟨data, hdata, congrArg Prod.fst hnew⟩,
      hload l hhelpers hclosed hnone⟩

namespace CodeBlock

open Target in
theorem Compiled.exists_unit {u : CodeBlock} (h : u.Compiled limits mode s) :
    ∃ data g slots m fin guards helpers, Compiler.Builds limits mode s u.name data g slots m ∧
      Contains mode u.name s g slots m fin guards ∧ Loader.resolve .builtin u.name m.links = .ok helpers ∧
      s.microcodes.length < 2 ^ 29 ∧ Loader.verify m helpers u.name m.methods = .ok (Target.routines s fin guards) ∧
      u = block u.name s m data helpers fin guards := by
  obtain ⟨data, hdata, hu⟩ := h
  obtain ⟨g, slots, m, fin, guards, helpers, hbuilds, hcontains, hh, ⟨e, -, hload⟩ | ⟨hlo, hverify, hload⟩⟩ :=
    Loader.load_cases hb hwords hdata
  · rw [hload { helpers := .builtin } rfl rfl rfl] at hu
    cases hu
  · rw [hload { helpers := .builtin } rfl rfl rfl] at hu
    exact ⟨data, g, slots, m, fin, guards, helpers, hbuilds, hcontains, hh, hlo, hverify, (Except.ok.inj hu).symm⟩

/-- A compiled block tells the arrays of its stream, and its numbers as far as 32 bits hold them. -/
theorem Compiled.describes {u : CodeBlock} (h : u.Compiled limits mode s) :
    u.microcodes = s.microcodes ∧ u.positions = s.positions ∧ u.count = (Target.summaryOf s).count ∧
      u.length = (Target.summaryOf s).length := by
  obtain ⟨data, g, slots, m, fin, guards, helpers, -, -, -, -, -, hu⟩ := h.exists_unit hb hwords
  rw [hu]
  exact ⟨rfl, rfl, rfl, rfl⟩

/-- A compiled block does what the interpreter does with its stream. -/
theorem Compiled.execute_eq {u : CodeBlock} (h : u.Compiled limits mode s) (hcount : s.count < 2 ^ 32) {c : Context}
    (hr : c.machine.router ≠ .reject) (hn : c.machine.Normalised) :
    ∃ n c₁ c₂, Interpreter.runMode mode .builtin s c = (.ok n, c₁) ∧ u.execute c = (.ok n, c₂) ∧
      c₂.machine = c₁.machine := by
  obtain ⟨data, g, slots, m, fin, guards, helpers, hbuilds, hcontains, hh, -, -, hu⟩ := h.exists_unit hb hwords
  obtain ⟨n, c₁, c₂, hint, hrun, hmachine⟩ := hcontains.run hb hbuilds.drawn hbuilds.allocated hh c hr hn
  refine ⟨n, c₁, c₂, hint, ?_, hmachine⟩
  obtain ⟨-, -, -, -, hroutine⟩ := Target.routine?_routines s fin guards
  have hlt := (Interpreter.runMode_le hb hint).trans_lt hcount
  rw [hu]
  simp only [execute, Target.block, hroutine, hrun, Value.toUInt32_ofUInt32, UInt32.toNat_ofNat', Nat.mod_eq_of_lt hlt]

/-- Whether a run returns or fails, a compiled block leaves the machine that the interpreter leaves. -/
theorem Compiled.execute_machine {u : CodeBlock} (h : u.Compiled limits mode s) {c : Context} (hn : c.machine.Normalised) :
    (u.execute c).2.machine = (Interpreter.runMode mode .builtin s c).2.machine := by
  obtain ⟨data, g, slots, m, fin, guards, helpers, hbuilds, hcontains, hh, -, -, hu⟩ := h.exists_unit hb hwords
  rw [← hcontains.run_machine hb hbuilds.drawn hbuilds.allocated hh c hn]
  obtain ⟨-, -, -, -, hroutine⟩ := Target.routine?_routines s fin guards
  rw [hu]
  simp only [execute, Target.block, hroutine]
  split <;> next hrun => rw [hrun]

end CodeBlock
end Compiled
end MicroBlock
