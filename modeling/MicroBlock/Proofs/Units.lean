import Mathlib
import MicroBlock.Compile.Unit
import MicroBlock.Loader.Basic
import MicroBlock.Proofs.Scripts
import MicroBlock.Proofs.Operands

/-! What a unit is made of.

The accessors and the constants they push are known before any code is written; the code adds constants and
links, and its bytes and guards become the last method. All that the operands of the code refer to is
there, and there is little enough of it that every operand fits. -/

namespace MicroBlock

/-! ### Accessors -/

theorem ByteString.ofString_eq_iff {a b : String} : ofString a = ofString b ↔ a = b :=
  ⟨ofString_inj, congrArg ofString⟩

/-- An instruction is written if its operand comes back as it was. -/
theorem Code.emitInstr_eq_ok {i : Instr} {bs : Bytes} : emitInstr i = .ok bs ↔ bs = i.encode ∧ Fits i := by
  have hop : (⟨i.opcode.code⟩ : OpcodeByte).hasOperand = i.operand?.isSome := by
    rw [OpcodeByte.hasOperand, OpcodeByte.opcode?, Opcode.ofCode?_code]
    cases i with
    | load c | store c => cases c <;> rfl
    | _ => rfl
  simp only [emitInstr, emit, Instr.encode, Fits, hop, @eq_comm _ bs]
  cases hv : i.operand? with
  | none => simp
  | some v =>
    by_cases hfits : Operand.fits v.toInt = true
    · simp [hfits]
    · simp [hfits]

namespace Target
open MicroBlock.Module

/-- The constants of a unit before its code is written. -/
def pool (s : Stream) : List Constant :=
  if s.microcodes = s.positions then [.ints s.microcodes] else [.ints s.microcodes, .ints s.positions]

theorem length_pool_le (s : Stream) : (pool s).length ≤ 2 := by
  unfold pool
  split <;> simp

theorem mem_pool {s : Stream} {c : Constant} : c ∈ pool s ↔ c = .ints s.microcodes ∨ c = .ints s.positions := by
  unfold pool
  split
  · next h => rw [List.mem_singleton, ← h, or_self]
  · exact List.mem_pair

/-- The method that pushes one thing and returns it. -/
def accessorMethod (name : String) (i : Instr) : Method := ⟨.ofString name, i.encode ++ Instr.ret.encode, []⟩

/-- The methods that describe a block. -/
def descriptions (s : Stream) : List Method :=
  [accessorMethod countMethod (.push (.ofNat s.count)), accessorMethod lengthMethod (.push s.length.toInt32),
    accessorMethod microcodesMethod (.const (.ofNat 0)),
    accessorMethod positionsMethod (.const (.ofNat (if s.microcodes = s.positions then 0 else 1)))]

/-- A unit before its code is written. -/
def described (name : String) (kinds : List Kind) (s : Stream) : Module where
  name := .ofString name
  magic := standardMagic
  slots := kinds
  constants := pool s
  links := []
  methods := descriptions s ++ [⟨.ofString executeMethod, [], []⟩]

/-- Whether the numbers of a block fit into the operands of its accessors. -/
def Describable (s : Stream) : Prop :=
  Code.Fits (.push (.ofNat s.count)) ∧ Code.Fits (.push s.length.toInt32)

theorem accessor_eq {m m' : Module} {method : String} {i : Instr} (h : accessor m method i = .ok m') :
    Code.Fits i ∧ m' =
      { m with
        methods := updateMethod (.ofString method)
          (fun me => { me with code := i.encode ++ Instr.ret.encode, guards := [] }) m.methods } := by
  unfold accessor at h
  split at h
  · cases h
  next code hcode =>
  obtain ⟨rfl, hfits⟩ := Code.emitInstr_eq_ok.mp hcode
  unfold setBody at h
  split at h
  · cases h
  next m₁ hm₁ =>
  cases h
  split at hm₁
  · cases hm₁
  split at hm₁
  · cases hm₁
  cases hm₁
  exact ⟨hfits, rfl⟩

theorem intern_pool (s : Stream) (m : Module) (hm : m.constants = []) :
    m.intern (.ints s.microcodes) = (0, { m with constants := [.ints s.microcodes] }) ∧
      ({ m with constants := [.ints s.microcodes] } : Module).intern (.ints s.positions) =
        (if s.microcodes = s.positions then 0 else 1, { m with constants := pool s }) := by
  refine ⟨by simp [intern, hm, lastIndex?], ?_⟩
  by_cases h : s.microcodes = s.positions
  · simp [intern, lastIndex?, Constant.shares, pool, h]
  · simp [intern, lastIndex?, Constant.shares, pool, h]

theorem accessors_eq {mode : Mode} {name : String} {kinds : List Kind} {s : Stream} {m : Module}
    (h : accessors s { (ofMode mode).skeleton with name := .ofString name, slots := kinds } = .ok m) :
    m = described name kinds s ∧ Describable s := by
  obtain ⟨hmicro, hpos⟩ := intern_pool s { (ofMode mode).skeleton with name := .ofString name, slots := kinds } rfl
  simp only [accessors, hmicro, hpos, bind, Except.bind] at h
  split at h
  · cases h
  next m₁ h₁ =>
  split at h
  · cases h
  next m₂ h₂ =>
  split at h
  · cases h
  next m₃ h₃ =>
  obtain ⟨hfits₁, rfl⟩ := accessor_eq h₁
  obtain ⟨hfits₂, rfl⟩ := accessor_eq h₂
  obtain ⟨-, rfl⟩ := accessor_eq h₃
  obtain ⟨-, rfl⟩ := accessor_eq h
  refine ⟨?_, hfits₁, hfits₂⟩
  have hmethods : (ofMode mode).skeleton.methods = blockMethods.map fun n => ⟨.ofString n, [], []⟩ := rfl
  simp only [hmethods, blockMethods, List.map_cons, List.map_nil, updateMethod, ByteString.ofString_eq_iff,
    countMethod, lengthMethod, microcodesMethod, positionsMethod, executeMethod, String.reduceEq, if_true, if_false]
  rfl

/-- A unit, and the emission that its code was taken from. -/
structure Filled (mode : Mode) (name : String) (s : Stream) (g : Graph) (slots : Slots) (m : Module)
    (fin : Emission) (guards : List Guard) : Prop where
  execute : Emission.execute g slots (Builtin.route mode).name s.count (described name slots.kinds s) = (guards, fin)
  eq : m =
    { described name slots.kinds s with
      constants := fin.module.constants
      links := fin.module.links
      methods := descriptions s ++ [⟨.ofString executeMethod, fin.bytes, guards⟩] }
  length_le : fin.bytes.length ≤ maxMethodBytes
  describable : Describable s

/-- A unit with few enough slots to number them. -/
structure Contains (mode : Mode) (name : String) (s : Stream) (g : Graph) (slots : Slots) (m : Module)
    (fin : Emission) (guards : List Guard) : Prop extends Filled mode name s g slots m fin guards where
  units_lt : slots.units < 2 ^ 29

end Target

namespace Emission

theorem length_bytes (fin : Emission) : fin.bytes.length = sizeOf fin.code := by
  rw [bytes, List.length_flatMap, ← sizeOf_reverse]
  rfl

theorem length_le_sizeOf (is : List Instr) : is.length ≤ sizeOf is := by
  induction is with
  | nil => exact le_rfl
  | cons i is ih =>
    have := i.size_pos
    rw [sizeOf_cons, List.length_cons]
    omega

section Execute
variable {g : Graph} {slots : Slots} {P : Fragment → Prop} (hg : g.Valid P) (hs : slots.Sound g)
  {route : String} {count : Nat} {m : Module} {guards : List Guard} {fin : Emission}
  (h : execute g slots route count m = (guards, fin))
include hg hs h

omit hg in
theorem grows_main_execute : Grows slots.units 0 (main_ g slots count (start g m)) fin := by
  have := grows_rollbacks hs route
    (g.rollbacks.toList.zip (main_ g slots count (start g m)).extents.toList) (main_ g slots count (start g m))
  rwa [show (rollbacks g slots route (g.rollbacks.toList.zip (main_ g slots count (start g m)).extents.toList)
    (main_ g slots count (start g m))).2 = fin from congrArg Prod.snd h] at this

theorem grows_execute : Grows slots.units g.nodes.size (start g m) fin := by
  have := grows_afterEffects_main (m := m) hg hs (Nat.zero_le _) count
  rw [afterEffects_zero] at this
  exact this.trans ((grows_main_execute hs h).mono (Nat.zero_le _))

/-- The sizes of what was written all follow from the size of the code. -/
theorem execute_bounds : fin.size = fin.bytes.length ∧ fin.code.length ≤ fin.bytes.length ∧
    fin.module.constants.length + fin.module.links.length ≤ m.constants.length + m.links.length + fin.code.length := by
  have hgrow := grows_execute hg hs h
  obtain ⟨is, hcode, hsize, -⟩ := hgrow.code
  have hstart : (start g m).code = [] := rfl
  rw [hstart, List.append_nil] at hcode
  refine ⟨?_, ?_, ?_⟩
  · rw [hsize, length_bytes, hcode]
    exact Nat.zero_add _
  · rw [length_bytes]
    exact length_le_sizeOf _
  · have := hgrow.entries
    simp only [start, List.length_nil] at this
    omega

theorem execute_refers {i : Instr} (hi : i ∈ fin.instrs) : i.Refers slots.units fin.module := by
  obtain ⟨is, hcode, -, hrefers⟩ := (grows_execute hg hs h).code
  rw [show (start g m).code = [] from rfl, List.append_nil] at hcode
  rw [instrs, List.mem_reverse, hcode] at hi
  exact hrefers i hi

omit hg in
/-- Where fragments use all of their inputs, every slot costs code. -/
theorem execute_units (hg : g.Valid) : slots.units ≤ 2 * (fin.code.length + Element.count) :=
  units_le hg hs ((grows_main hg count).trans ((grows_main_execute hs h).mono (Nat.zero_le _)))

end Execute

end Emission

namespace Target
open MicroBlock.Module

theorem updateMethod_descriptions (s : Stream) (code : Bytes) (guards : List Guard) :
    updateMethod (.ofString executeMethod) (fun me => { me with code, guards })
      (descriptions s ++ [⟨.ofString executeMethod, [], []⟩]) =
        descriptions s ++ [⟨.ofString executeMethod, code, guards⟩] := by
  simp only [descriptions, accessorMethod, List.cons_append, List.nil_append, updateMethod, ByteString.ofString_eq_iff,
    countMethod, lengthMethod, microcodesMethod, positionsMethod, executeMethod, String.reduceEq, if_true, if_false]

/-- What a unit was made of. -/
theorem unit_filled {mode : Mode} {name : String} {s : Stream} {g : Graph} {P : Fragment → Prop} (hg : g.Valid P)
    {slots : Slots} (hs : slots.Sound g) {limit : Int} {m : Module}
    (h : (ofMode mode).unit name s g slots limit = .ok m) : ∃ fin guards, Filled mode name s g slots m fin guards := by
  have hroute : (ofMode mode).route = (Builtin.route mode).name := Interpreter.routeHelper_eq mode
  simp only [unit, bind, Except.bind] at h
  split at h
  · cases h
  next m₁ hacc =>
  obtain ⟨rfl, hdesc⟩ := accessors_eq hacc
  rw [hroute] at h
  rcases hexec : Emission.execute g slots (Builtin.route mode).name s.count (described name slots.kinds s) with
    ⟨guards, fin⟩
  simp only [hexec] at h
  split at h
  · cases h
  split at h
  · cases h
  next m₂ hbody =>
  cases h
  have hheader := (Emission.grows_execute hg hs hexec).header
  unfold setBody at hbody
  split at hbody
  · cases hbody
  split at hbody
  · cases hbody
  next hle =>
  cases hbody
  refine ⟨fin, guards, hexec, ?_, Nat.le_of_not_lt hle, hdesc⟩
  have hmethods : fin.module.methods = descriptions s ++ [⟨.ofString executeMethod, [], []⟩] := by rw [hheader]; rfl
  rw [hmethods, updateMethod_descriptions]
  rw [hheader]
  rfl

theorem unit_contains_of_lt {mode : Mode} {name : String} {s : Stream} {g : Graph} {P : Fragment → Prop}
    (hg : g.Valid P) {slots : Slots} (hs : slots.Sound g)
    (hunits : ∀ {guards : List Guard} {fin : Emission}, Emission.execute g slots (Builtin.route mode).name s.count
      (described name slots.kinds s) = (guards, fin) → fin.bytes.length ≤ maxMethodBytes → slots.units < 2 ^ 29)
    {limit : Int} {m : Module} (h : (ofMode mode).unit name s g slots limit = .ok m) :
    ∃ fin guards, Contains mode name s g slots m fin guards := by
  obtain ⟨fin, guards, hfilled⟩ := unit_filled hg hs h
  exact ⟨fin, guards, hfilled, hunits hfilled.execute hfilled.length_le⟩

theorem unit_contains {mode : Mode} {name : String} {s : Stream} {g : Graph} (hg : g.Valid) {slots : Slots}
    (hs : slots.Sound g) {limit : Int} {m : Module} (h : (ofMode mode).unit name s g slots limit = .ok m) :
    ∃ fin guards, Contains mode name s g slots m fin guards := by
  refine unit_contains_of_lt hg hs (fun hexec hle => ?_) h
  have h₁ := (Emission.execute_bounds hg hs hexec).2.1
  have h₂ := Emission.execute_units hs hexec hg
  simp only [maxMethodBytes, Element.count] at hle h₂
  omega

end Target

/-! ### Operands and helpers -/

theorem Instr.Refers.fits {units : Nat} {m : Module} {i : Instr} (h : i.Refers units m) (hu : units < 2 ^ 29)
    (hc : m.constants.length < 2 ^ 29) (hl : m.links.length < 2 ^ 29) : Code.Fits i := by
  have hnat : ∀ {k : Nat} {v : Int32}, k < 2 ^ 29 → v = .ofNat k → Operand.fits v.toInt = true := by
    rintro k v hk rfl
    rw [Operand.fits_iff, Emission.toInt_ofNat hk]
    omega
  intro v hv
  cases i with
  | push w => cases hv; exact h
  | const w =>
    cases hv
    obtain ⟨k, hk, hw⟩ := h
    exact hnat (hk.trans hc) hw
  | call w =>
    cases hv
    obtain ⟨k, hk, hw⟩ := h
    exact hnat (hk.trans hl) hw
  | load _ w | store _ w =>
    cases hv
    obtain ⟨k, hk, hw⟩ := h
    exact hnat (hk.trans hu) hw
  | get w =>
    cases hv
    obtain ⟨e, hw⟩ := h
    exact hnat (e.number_lt.trans (by decide)) hw
  | set w =>
    cases hv
    obtain ⟨r, hw⟩ := h
    exact hnat ((Element.reg r).number_lt.trans (by decide)) hw
  | nop | dup | pop | fault | ret => cases hv

/-- Links that name built-in helpers are resolved to them. -/
theorem Loader.resolve_builtin {links : List ByteString} (h : ∀ l ∈ links, ∃ b : Builtin, l = .ofString b.name)
    (name : String) : ∃ bs : List Builtin, links = bs.map (fun b => .ofString b.name) ∧
      resolve .builtin name links = .ok (bs.map Builtin.helper) := by
  induction links with
  | nil => exact ⟨[], rfl, rfl⟩
  | cons l links ih =>
    obtain ⟨b, rfl⟩ := h l List.mem_cons_self
    obtain ⟨bs, rfl, hbs⟩ := ih fun l' hl' => h l' (List.mem_cons_of_mem _ hl')
    refine ⟨b :: bs, rfl, ?_⟩
    have hfind : Registry.builtin.helpers.find? (fun h => ByteString.ofString h.name == .ofString b.name) =
        some b.helper := by
      have := Builtin.lookup_name b
      simp only [Registry.lookup] at this
      rw [← this]
      congr 1
      funext h
      rw [Bool.eq_iff_iff, beq_iff_eq, beq_iff_eq, ByteString.ofString_eq_iff]
    simp only [resolve, hfind, hbs, List.map_cons]

namespace Target
open MicroBlock.Module

section Contains
variable {mode : Mode} {name : String} {s : Stream} {g : Graph} {P : Fragment → Prop}
  (hg : g.Valid P) {slots : Slots} (hs : slots.Sound g) {m : Module} {fin : Emission} {guards : List Guard}
  (h : Contains mode name s g slots m fin guards)
include hg hs h

theorem Contains.bounds : fin.size ≤ maxMethodBytes ∧ fin.code.length ≤ maxMethodBytes ∧
    m.constants.length < 2 ^ 29 ∧ m.links.length < 2 ^ 29 ∧ slots.units < 2 ^ 29 := by
  obtain ⟨h₁, h₂, h₃⟩ := Emission.execute_bounds hg hs h.execute
  have hle := h.length_le
  have hunits := h.units_lt
  have hpool := length_pool_le s
  have hconst : (described name slots.kinds s).constants = pool s := rfl
  have hlinks : (described name slots.kinds s).links = [] := rfl
  rw [hconst, hlinks] at h₃
  rw [h.eq]
  simp only [maxMethodBytes, List.length_nil] at *
  omega

/-- The code of a unit comes back as it was written. -/
theorem Contains.decode : Code.decode fin.bytes = .ok (Emission.place 0 fin.instrs) := by
  obtain ⟨-, -, hc, hl, hu⟩ := h.bounds hg hs
  rw [h.eq] at hc hl
  exact Code.decode_encode fun i hi => (Emission.execute_refers hg hs h.execute hi).fits hu hc hl

/-- The helpers of a unit are there, and its code runs against them. -/
theorem Contains.layout [Fragment.Linkable P] : ∃ helpers, Loader.resolve .builtin name m.links = .ok helpers ∧
    Emission.Layout slots.units fin (CodeBlock.linkage m helpers)
      ⟨.ofString executeMethod, Emission.place 0 fin.instrs, guards⟩ := by
  obtain ⟨-, -, hc, hl, hu⟩ := h.bounds hg hs
  have hlinks : m.links = fin.module.links := by rw [h.eq]
  have hconstants : m.constants = fin.module.constants := by rw [h.eq]
  have hbuiltin : ∀ l ∈ m.links, ∃ b : Builtin, l = .ofString b.name := by
    intro l hl
    rw [hlinks] at hl
    rcases Emission.links_execute hg hs h.execute hl with hmem | hb
    · cases hmem
    · exact hb
  obtain ⟨bs, hbs, hresolve⟩ := Loader.resolve_builtin hbuiltin name
  refine ⟨_, hresolve, rfl, hconstants, ?_, hconstants ▸ hc, hlinks ▸ hl, hu⟩
  intro i b hi
  rw [← hlinks, hbs, List.getElem?_map] at hi
  obtain ⟨b', hb', hname⟩ := Option.map_eq_some_iff.mp hi
  rw [Builtin.name_inj (ByteString.ofString_inj hname)] at hb'
  show (bs.map Builtin.helper)[i]? = some b.helper
  rw [List.getElem?_map, hb']
  rfl

end Contains

end Target
end MicroBlock
