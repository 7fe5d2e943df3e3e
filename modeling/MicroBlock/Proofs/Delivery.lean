import Mathlib
import MicroBlock.Proofs.Acceptance
import MicroBlock.Proofs.Accounting
import MicroBlock.Proofs.Readers
import MicroBlock.Proofs.Recovery

/-! Units arrive.

What is written for a block can be stored, and a loader takes it and reports the numbers and the arrays of the block. Of
the table it was lowered by only the checks of its definitions are needed. A compiler that loads what it has written is
therefore never turned down. -/

namespace MicroBlock
open Relation

/-! ### Writing a unit -/

theorem Builtin.nul_not_mem_name (b : Builtin) : 0 ∉ (ByteString.ofString b.name).bytes := by
  have hall : ∀ b ∈ all, 0 ∉ (ByteString.ofString b.name).bytes := by decide +kernel
  exact hall b b.mem_all

theorem Instr.size_le (i : Instr) : i.size ≤ 5 := by
  unfold size encode Operand.encode
  split
  · split
    · simp
    · split <;> simp
  · simp

namespace Module

theorem names_updateMethod {f : Method → Method} (hf : ∀ me, (f me).name = me.name) (name : ByteString)
    (ms : List Method) : (updateMethod name f ms).map (·.name) = ms.map (·.name) := by
  induction ms with
  | nil => rfl
  | cons me ms ih =>
    rw [updateMethod]
    split
    · rw [List.map_cons, List.map_cons, hf]
    · rw [List.map_cons, List.map_cons, ih]

theorem setBody_of_mem {m : Module} {name : String} {code : Bytes} (hname : .ofString name ∈ m.methods.map (·.name))
    (hsize : code.length ≤ maxMethodBytes) (guards : List Guard) :
    ∃ m', m.setBody name code guards = .ok m' ∧ m'.methods.map (·.name) = m.methods.map (·.name) := by
  have hsome : (m.method? name).isNone = false := by
    obtain ⟨me, hme, heq⟩ := List.mem_map.mp hname
    rw [← Option.not_isSome, Bool.not_eq_false', method?, List.find?_isSome]
    exact ⟨me, hme, beq_iff_eq.mpr heq⟩
  have hle : ¬ maxMethodBytes < code.length := Nat.not_lt.mpr hsize
  simp only [setBody, hsome, Bool.false_eq_true, hle, if_false]
  refine ⟨_, rfl, names_updateMethod (fun me => ?_) _ _⟩
  rfl

/-- A skeleton shows its target in its name only. -/
theorem skeleton_renamed (target target' : String) (name : ByteString) (slots : List Kind) :
    { skeleton target [] with name, slots } = { skeleton target' [] with name, slots } := rfl

end Module

namespace Target
open MicroBlock.Module

/-- A unit is that of a mode, whatever the table. -/
theorem unit_ofTable (n : ModeNumber) (t : Table) : (ofTable n t).unit = (ofMode (n.mode?.getD .real)).unit := by
  have hroute : (ofTable n t).route = (ofMode (n.mode?.getD .real)).route := by
    rw [ofMode, ofTable, ofTable, Interpreter.routeHelper_eq, ModeNumber.routeHelper]
  have hskeleton (name : ByteString) (slots : List Kind) : { (ofTable n t).skeleton with name, slots } =
      { (ofMode (n.mode?.getD .real)).skeleton with name, slots } := skeleton_renamed _ _ name slots
  funext name s g slots limit
  rw [unit, unit, hroute, hskeleton]

theorem length_accessor_le (i : Instr) : (i.encode ++ Instr.ret.encode).length ≤ maxMethodBytes := by
  have h₁ : i.encode.length ≤ 5 := i.size_le
  have h₂ : Instr.ret.encode.length ≤ 5 := Instr.ret.size_le
  rw [List.length_append, maxMethodBytes]
  omega

theorem accessor_of_fits {m : Module} {method : String} (hm : .ofString method ∈ m.methods.map (·.name)) {i : Instr}
    (hi : Code.Fits i) : ∃ m', accessor m method i = .ok m' ∧ m'.methods.map (·.name) = m.methods.map (·.name) := by
  obtain ⟨m', hm', hnames⟩ := setBody_of_mem hm (length_accessor_le i) []
  refine ⟨m', ?_, hnames⟩
  simp only [accessor, Code.emitInstr_eq_ok.mpr ⟨rfl, hi⟩, hm']

theorem accessors_of_describable {s : Stream} (h : Describable s) (mode : Mode) (name : String) (kinds : List Kind) :
    accessors s { (ofMode mode).skeleton with name := .ofString name, slots := kinds } = .ok (described name kinds s) := by
  obtain ⟨hmicro, hpos⟩ := intern_pool s { (ofMode mode).skeleton with name := .ofString name, slots := kinds } rfl
  have hnames : ∀ method ∈ blockMethods, ByteString.ofString method ∈ (ofMode mode).skeleton.methods.map (·.name) := by
    intro method hmethod
    have heq : (ofMode mode).skeleton.methods.map (·.name) = blockMethods.map ByteString.ofString := rfl
    rw [heq]
    exact List.mem_map_of_mem hmethod
  have hplace : (if s.microcodes = s.positions then 0 else 1) < 2 ^ 29 := by split <;> decide
  suffices hok : ∃ m, accessors s { (ofMode mode).skeleton with name := .ofString name, slots := kinds } = .ok m by
    obtain ⟨m, hm⟩ := hok
    rw [hm, (accessors_eq hm).1]
  simp only [accessors, hmicro, hpos, bind, Except.bind]
  -- An accessor keeps the names of the methods, so the next one finds its own.
  obtain ⟨m₁, h₁, hm₁⟩ := accessor_of_fits (m := { (ofMode mode).skeleton with
    name := .ofString name, slots := kinds, constants := pool s }) (hnames countMethod (by simp [blockMethods])) h.1
  obtain ⟨m₂, h₂, hm₂⟩ := accessor_of_fits (m := m₁) (hm₁ ▸ hnames lengthMethod (by simp [blockMethods])) h.2
  obtain ⟨m₃, h₃, hm₃⟩ := accessor_of_fits (m := m₂) (hm₂ ▸ hm₁ ▸ hnames microcodesMethod (by simp [blockMethods]))
    (fits_const (k := 0) (by decide))
  obtain ⟨m₄, h₄, -⟩ := accessor_of_fits (m := m₃) (hm₃ ▸ hm₂ ▸ hm₁ ▸ hnames positionsMethod (by simp [blockMethods]))
    (fits_const hplace)
  simp only [h₁, h₂, h₃]
  exact ⟨m₄, h₄⟩

/-- The code that executes a block, as its unit has it, in bytes. -/
def executeSize (n : ModeNumber) (name : String) (s : Stream) (g : Graph) (slots : Slots) : Nat :=
  (Emission.execute g slots n.routeHelper s.count (described name slots.kinds s)).2.size

section Unit
variable {mode : Mode} {name : String} {s : Stream} {g : Graph} {P : Fragment → Prop}
  (hg : g.Valid P) {slots : Slots} (hs : slots.Sound g)
include hg hs

/-- A unit is written if its numbers have operands and its code is no longer than a method may be. -/
theorem exists_unit (hd : Describable s) {n : ModeNumber} {limit : Int} (hlimit : executeSize n name s g slots ≤ limit)
    (hmax : executeSize n name s g slots ≤ maxMethodBytes) (t : Table) :
    ∃ m, (ofTable n t).unit name s g slots limit = .ok m := by
  rw [unit_ofTable]
  generalize hmode : n.mode?.getD .real = mode
  have hroute : (ofMode mode).route = (Builtin.route mode).name := Interpreter.routeHelper_eq mode
  rw [executeSize, ModeNumber.routeHelper, hmode] at hlimit hmax
  rcases hexec : Emission.execute g slots (Builtin.route mode).name s.count (described name slots.kinds s) with
    ⟨guards, fin⟩
  rw [hexec] at hlimit hmax
  have hheader := (Emission.grows_execute hg hs hexec).header
  have hname : ByteString.ofString executeMethod ∈ fin.module.methods.map (·.name) := by
    rw [hheader]
    simp [Emission.start, described]
  rw [(Emission.execute_bounds hg hs hexec).1] at hmax
  obtain ⟨m, hm, -⟩ := setBody_of_mem hname hmax guards
  refine ⟨m, ?_⟩
  simp only [unit, accessors_of_describable hd, bind, Except.bind, hroute, hexec, Int.not_lt.mpr hlimit, if_false, hm]
  rfl

variable {m : Module} {fin : Emission} {guards : List Guard} (h : Contains mode name s g slots m fin guards)
include h

/-- A unit can be stored under a name that has a written form. -/
theorem Contains.exists_encode [Fragment.Linkable P] (hname : 0 ∉ (ByteString.ofString name).bytes) : ∃ data, m.encode = .ok data := by
  have hgrows := Emission.grows_execute hg hs h.execute
  have hnames : ∀ method ∈ blockMethods, 0 ∉ (ByteString.ofString method).bytes := by decide +kernel
  rw [h.eq]
  refine Module.exists_encode hname (fun c hc index => ?_) (fun l hl => ?_) fun me hme => ?_
  · rcases hgrows.numbers c hc with hpool | ⟨w, rfl⟩
    · rcases mem_pool.mp hpool with rfl | rfl <;> exact ⟨_, rfl⟩
    · exact ⟨_, rfl⟩
  · rcases Emission.links_execute hg hs h.execute hl with hnil | ⟨b, rfl⟩
    · cases hnil
    · exact b.nul_not_mem_name
  · rcases List.mem_append.mp hme with hme | hme
    · simp only [descriptions, List.mem_cons, List.not_mem_nil, or_false] at hme
      rcases hme with rfl | rfl | rfl | rfl <;>
        exact exists_encodeMethod (hnames _ (by simp [blockMethods])) (length_accessor_le _)
    · rw [List.mem_singleton.mp hme]
      exact exists_encodeMethod (hnames _ (by simp [blockMethods])) h.length_le

end Unit
end Target

/-! ### Loading a unit -/

/-- A block has the numbers and the arrays of a stream. -/
structure CodeBlock.Reports (u : CodeBlock) (s : Stream) : Prop where
  count : u.count = s.count
  length : (u.length : Int) = s.length.toInt
  microcodes : u.microcodes = s.microcodes
  positions : u.positions = s.positions

/-- A loader that takes units registers these bytes under their name as one more block. -/
def Loader.Takes (name : String) (data : Bytes) (u : CodeBlock) : Prop :=
  ∀ l : Loader, l.helpers = .builtin → l.closed = none → l.find? name = none →
    l.load name data = (.ok u, { l with blocks := l.blocks ++ [u] })

theorem Target.Contains.exists_block {mode : Mode} {name : String} {s : Stream} {g : Graph}
    (hg : g.Valid Fragment.Accepted) {slots : Slots} (hs : slots.Sound g) (hkeep : slots.KeepsEffects g) {m : Module}
    {fin : Emission} {guards : List Guard} (h : Contains mode name s g slots m fin guards) {data : Bytes}
    (hdata : m.encode = .ok data) (hlength : s.positions.length = s.microcodes.length)
    (hwords : s.microcodes.length < 2 ^ 29) (hm : Measured s) : ∃ u : CodeBlock, u.Reports s ∧ Loader.Takes name data u := by
  obtain ⟨helpers, hh, -⟩ := h.layout hg hs
  obtain ⟨hcount, hbytes⟩ := hm.summaryOf_eq
  refine ⟨block name s m data helpers fin guards, ⟨hcount, hbytes, rfl, rfl⟩, fun l hhelpers hclosed hnone => ?_⟩
  rw [h.load_eq hg hs hkeep hdata hlength hh hwords hhelpers hclosed hnone, h.verify_eq_ok hg hs hkeep hh]

/-! ### Slots -/

namespace Slots

theorem units_allocateFrom_le {g : Graph} {counts : Array Nat} {limit : Int} {ids : List Nat} {s s' : Slots} {k : Nat}
    (hlimit : limit ≤ k) (h : allocateFrom g counts limit ids s = (.ok (), s')) (hs : s.units ≤ k) :
    s'.units ≤ k := by
  fun_induction allocateFrom g counts limit ids s with
  | case1 s =>
    cases h
    exact hs
  | case2 id rest s hn ih => exact ih h hs
  | case3 id rest s n hn hkeep kind hexceeds => cases h
  | case4 id rest s n hn hkeep kind hfits ih =>
    refine ih h ?_
    have hk : kind ≠ .void := Element.kind_ne_void (Bool.and_eq_true_iff.mp hkeep).1
    rw [units_assign_eq s id hk]
    omega
  | case5 id rest s n hn hkeep ih => exact ih h hs

theorem units_allocate_lt {g : Graph} {limit : Int} (hlimit : limit < 2 ^ 29) {s : Slots}
    (h : allocate g limit = (.ok (), s)) : s.units < 2 ^ 29 := by
  have hle := units_allocateFrom_le (k := 2 ^ 29 - 1) (by omega) h (Nat.zero_le _)
  omega

end Slots

/-! ### Compiling -/

namespace Compiler

/-- What no call changes. -/
structure SameSetting (cl cl' : Compiler × Loader) : Prop where
  limits : cl'.1.limits = cl.1.limits
  helpers : cl'.2.helpers = cl.2.helpers
  closed : cl'.2.closed = cl.2.closed

theorem Exit.sameSetting {c : Compiler} {l : Loader} {key : ContentKey} {name : String}
    {r : Except CompileFailure CodeBlock} {c' : Compiler} {l' : Loader} (h : Exit c l key name r c' l') :
    SameSetting (c, l) (c', l') := by
  have hcontent : ∀ (c : Compiler) (b : CodeBlock), (c.enterContent key b).limits = c.limits := by
    intro c b
    unfold enterContent
    split <;> rfl
  cases h with
  | failed | cached | aliased => exact ⟨rfl, rfl, rfl⟩
  | adopted => exact ⟨hcontent _ _, rfl, rfl⟩
  | loaded => exact ⟨hcontent _ _, rfl, rfl⟩

theorem Called.sameSetting {cl cl' : Compiler × Loader} (h : Called cl cl') : SameSetting cl cl' := by
  obtain ⟨x, hx, rfl⟩ := h
  rcases hx.cases with ⟨e, reported, calls, -, hc, hl⟩ | ⟨b, key, name, -, hexit⟩
  · rw [hc, hl]
    exact ⟨rfl, rfl, rfl⟩
  · exact hexit.sameSetting

theorem sameSetting_of_calls {cl cl' : Compiler × Loader} (h : ReflTransGen Called cl cl') : SameSetting cl cl' := by
  induction h with
  | refl => exact ⟨rfl, rfl, rfl⟩
  | tail _ hcall ih =>
    have hstep := hcall.sameSetting
    exact ⟨hstep.limits.trans ih.limits, hstep.helpers.trans ih.helpers, hstep.closed.trans ih.closed⟩

theorem failure_ne_loadFailure {name : String} {e : BuildError} {x : CompileError} (h : e.failure name = .error x) :
    x.kind ≠ .loadFailure := by
  unfold BuildError.failure at h
  split at h <;> cases h <;> simp

theorem load_ne_loadFailure {c : Compiler} {l : Loader} {t : Target} {s : Stream} {key : ContentKey} {name : String}
    (hload : ∀ data, build c.limits t s name = .ok data → ∃ u l', l.load name data = (.ok u, l')) {e : CompileError}
    (h : (c.load l t s key name).result = .error (.error e)) : e.kind ≠ .loadFailure := by
  unfold Compiler.load at h
  split at h
  · exact failure_ne_loadFailure (Except.error.inj h)
  next data hdata =>
  obtain ⟨u, l', hu⟩ := hload data hdata
  rw [hu] at h
  cases h

theorem compileStream_ne_loadFailure {c : Compiler} {l : Loader} {t : Target} {s : Stream} {name : String}
    (hload : ∀ name data, l.find? name = none → build c.limits t s name = .ok data →
      ∃ u l', l.load name data = (.ok u, l')) {e : CompileError}
    (h : (c.compileStream l t s name).result = .error (.error e)) : e.kind ≠ .loadFailure := by
  rw [compileStream, result_countFailure] at h
  rcases find_eq_error h with ⟨which, hwhich⟩ | ⟨hnone, hfailed⟩
  · cases hwhich
    simp
  · exact load_ne_loadFailure (fun data => hload _ data hnone) hfailed

end Compiler

/-! ### Units of a table -/

theorem Table.ofFragments_eq {fs : List Fragment} (h : fs.Pairwise fun a b => a.target.number ≤ b.target.number)
    (name : String) : ofFragments name fs = ⟨name, fun op => fs.filter (·.op == op)⟩ := by
  unfold ofFragments
  congr 1
  funext op
  refine List.mergeSort_of_pairwise ((h.filter _).imp ?_)
  intro a b hab
  simpa using hab

theorem Table.build_of_sorted {r : Registry} {ds : List Definition} {fs : List Fragment} (hfs : addAll r [] ds = .ok fs)
    (hsorted : fs.Pairwise fun a b => a.target.number ≤ b.target.number) (name : String) :
    build name ds r = .ok ⟨name, fun op => fs.filter (·.op == op)⟩ := by
  rw [build_of_addAll hfs, ofFragments_eq hsorted]

namespace Target
open MicroBlock.Module

theorem sound_of_build {tname : String} {ds : List Definition} {t : Table} (ht : Table.build tname ds .builtin = .ok t)
    {b : Block} {s : Stream} (hb : Stream.ofBlock b = .ok s) {g : Graph} (hg : Graph.build t true s = .ok g) {a : Int}
    {slots : Slots} (ha : Slots.allocate g a = (.ok (), slots)) :
    g.Valid Fragment.Accepted ∧ slots.Sound g ∧ slots.KeepsEffects g := by
  have hvalid := Graph.build_valid (Table.build_accepted ht) hb hg
  exact ⟨hvalid, Slots.allocate_sound hvalid ha⟩

/-- Counts up in one register and doubles it into another. The first fragment has an input that it never reads. -/
def doubling : List Definition :=
  [⟨"pure_CLC_EAX_EAX_EBX", some [.input 0, .call "inc32"], ""⟩, ⟨"pure_CLC_ECX_EAX_EAX", none, "add32"⟩]

end Target
end MicroBlock
