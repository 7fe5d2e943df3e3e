import Mathlib
import MicroBlock.Proofs.Caches

/-! The name of a unit is a name only.

A unit under another name has the same slots, constants, links and methods, and it loads under any name that can
be written. So the code that a compiler hands out for a block is that of a first compile, whatever the name, as
long as it was compiled for the mode that asks for it. -/

namespace MicroBlock

/-! ### Writing under another name -/

namespace Module

def rename (n : ByteString) (m : Module) : Module := { m with name := n }

variable (n : ByteString) (m : Module)

theorem intern_rename (c : Constant) : (m.rename n).intern c = ((m.intern c).1, (m.intern c).2.rename n) := by
  unfold intern rename
  simp only
  split <;> rfl

theorem link_rename (helper : String) : (m.rename n).link helper = ((m.link helper).1, (m.link helper).2.rename n) := by
  unfold link rename
  simp only
  split <;> rfl

theorem setBody_rename (method : String) (code : Bytes) (guards : List Guard) :
    (m.rename n).setBody method code guards = (m.setBody method code guards).map (rename n) := by
  unfold setBody
  have hmethod : (m.rename n).method? method = m.method? method := rfl
  rw [hmethod]
  split
  · rfl
  · split <;> rfl

end Module

namespace Emission

def rename (n : ByteString) (s : Emission) : Emission := { s with module := s.module.rename n }

section Rename
variable (n : ByteString)

theorem emit_rename (s : Emission) (i : Instr) : (s.rename n).emit i = (s.emit i).rename n := rfl

theorem pushInt_rename (s : Emission) (v : Int) : (s.rename n).pushInt v = (s.pushInt v).rename n := by
  simp only [pushInt]
  split
  · rfl
  · have hintern := Module.intern_rename n s.module (.int (Int32.ofInt v))
    simp only [rename, hintern]
    rfl

theorem call_rename (s : Emission) (helper : String) : (s.rename n).call helper = (s.call helper).rename n := by
  have hlink := Module.link_rename n s.module helper
  simp only [call, rename, hlink]
  rfl

theorem load_rename (slots : Slots) (s : Emission) (id : Nat) (node : Node) :
    (s.rename n).load slots id node = (s.load slots id node).rename n := by
  unfold load
  split <;> rfl

theorem cover_rename (s : Emission) (rollback : Option Nat) (pc : Nat) :
    (s.rename n).cover rollback pc = (s.cover rollback pc).rename n := by
  unfold cover
  split <;> rfl

theorem keep_rename (slots : Slots) (id : Nat) (node : Node) (statement : Bool) (s : Emission) :
    keep slots id node statement (s.rename n) = (keep slots id node statement s).rename n := by
  unfold keep
  split
  · cases statement <;> rfl
  · split <;> rfl

section Steps
variable {node : Node} {input : Nat → Emission → Emission} (hinput : ∀ id s, input id (s.rename n) = (input id s).rename n)
include hinput

theorem step_rename (s : Emission) (st : Step) : step node input (s.rename n) st = (step node input s st).rename n := by
  cases st with
  | input i =>
    simp only [step]
    split
    · exact hinput _ s
    · rfl
  | literal l => exact pushInt_rename n s _
  | dup | pop | unknown => rfl
  | call helper =>
    simp only [step, call_rename]
    split
    · exact cover_rename n _ _ _
    · rfl

theorem steps_rename (o : Origin) (s : Emission) : steps node o input (s.rename n) = (steps node o input s).rename n :=
  List.foldl_hom (rename n) (step_rename n hinput)

end Steps

variable (g : Graph) (slots : Slots)

theorem value_rename (depth id : Nat) (s : Emission) :
    value g slots depth id (s.rename n) = (value g slots depth id s).rename n := by
  induction depth generalizing id s with
  | zero => rfl
  | succ depth ih =>
    have hstored : (s.rename n).storedAt? id = s.storedAt? id := rfl
    simp only [value, hstored]
    split
    · rfl
    split
    · exact load_rename n slots s id _
    split
    · rfl
    · rw [steps_rename n ih, keep_rename]

theorem effect_rename (s : Emission) (id : Nat) : effect g slots (s.rename n) id = (effect g slots s id).rename n := by
  unfold effect
  split
  · split
    · rw [steps_rename n (value_rename n g slots id), keep_rename]
    · rfl
  · rfl

theorem recompute_rename (guarded : Int) (depth id : Nat) (s : Emission) :
    recompute g slots guarded depth id (s.rename n) = (recompute g slots guarded depth id s).rename n := by
  induction depth generalizing id s with
  | zero => rfl
  | succ depth ih =>
    have hstored : (s.rename n).storedAt? id = s.storedAt? id := rfl
    simp only [recompute, hstored]
    split
    · rfl
    split
    · exact load_rename n slots s id _
    split
    · rfl
    · exact steps_rename n ih _ s

theorem rollback_rename (route : String) (rb : Rollback) (guarded : Int) (s : Emission) :
    rollback g slots route rb guarded (s.rename n) =
      ((rollback g slots route rb guarded s).1, (rollback g slots route rb guarded s).2.rename n) := by
  have hrestored : ∀ s, pushRestored g slots rb guarded (s.rename n) = (pushRestored g slots rb guarded s).rename n :=
    fun s => List.foldl_hom (rename n) fun s e => recompute_rename n g slots guarded (e.2 + 1) e.2 s
  have heip : ∀ s, pushEip g slots rb guarded (s.rename n) = (pushEip g slots rb guarded s).rename n := by
    intro s
    unfold pushEip
    cases rb.eip? <;> simp only [recompute_rename] <;> split
    · rfl
    · rw [pushInt_rename, call_rename]
    · rfl
    · rw [pushInt_rename, call_rename]
  have hset : ∀ s, setRestored g rb (s.rename n) = (setRestored g rb s).rename n :=
    fun s => List.foldl_hom (rename n) fun _ _ => rfl
  simp only [rollback_eq, getElement, setRegister, hrestored, heip, hset, emit_rename, call_rename, pushInt_rename]
  rfl

theorem rollbacks_rename (route : String) (rs : List (Rollback × Extent)) (s : Emission) :
    rollbacks g slots route rs (s.rename n) =
      ((rollbacks g slots route rs s).1, (rollbacks g slots route rs s).2.rename n) := by
  induction rs generalizing s with
  | nil => rfl
  | cons e rs ih =>
    obtain ⟨rb, x⟩ := e
    simp only [rollbacks]
    split
    · exact ih s
    · simp only [rollback_rename, ih]

theorem main_rename (count : Nat) (s : Emission) : main_ g slots count (s.rename n) = (main_ g slots count s).rename n := by
  have heffects : ∀ s, g.effects.foldl (effect g slots) (s.rename n) = (g.effects.foldl (effect g slots) s).rename n := by
    intro s
    rw [← Array.foldl_toList, ← Array.foldl_toList]
    exact List.foldl_hom (rename n) (effect_rename n g slots)
  have hvalues : ∀ s, g.changed.foldl (fun s r => value g slots (g.final.get (.reg r) + 1) (g.final.get (.reg r)) s) (s.rename n) =
      (g.changed.foldl (fun s r => value g slots (g.final.get (.reg r) + 1) (g.final.get (.reg r)) s) s).rename n :=
    fun s => List.foldl_hom (rename n) fun s r => value_rename n g slots _ _ s
  have hset : ∀ s, g.changed.reverse.foldl setRegister (s.rename n) = (g.changed.reverse.foldl setRegister s).rename n :=
    fun s => List.foldl_hom (rename n) fun _ _ => rfl
  simp only [main_, heffects, hvalues, hset, pushInt_rename, emit_rename]

/-- Code does not depend on the name of the unit that it is written for. -/
theorem execute_rename (route : String) (count : Nat) (m : Module) :
    execute g slots route count (m.rename n) =
      ((execute g slots route count m).1, (execute g slots route count m).2.rename n) := by
  have hmain : main_ g slots count (start g (m.rename n)) = _ := main_rename n g slots count (start g m)
  simp only [execute, hmain, rollbacks_rename]
  rfl

end Rename
end Emission

namespace Target
open MicroBlock.Module

theorem accessor_rename (n : ByteString) (m : Module) (method : String) (i : Instr) :
    accessor (m.rename n) method i = (accessor m method i).map (rename n) := by
  unfold accessor
  cases Code.emitInstr i with
  | error e => rfl
  | ok code =>
    simp only [setBody_rename]
    cases m.setBody method (code ++ Instr.ret.encode) [] <;> rfl

/-- What goes on in the same way under another name. -/
theorem bind_rename (n : ByteString) {x : Except UnitError Module} {k : Module → Except UnitError Module}
    (hk : ∀ m, k (m.rename n) = (k m).map (rename n)) : (x.map (rename n) >>= k) = (x >>= k).map (rename n) := by
  cases x with
  | error e => rfl
  | ok m => exact hk m

theorem accessors_rename (n : ByteString) (s : Stream) (m : Module) :
    accessors s (m.rename n) = (accessors s m).map (rename n) := by
  simp only [accessors, intern_rename, accessor_rename]
  refine bind_rename n fun m => ?_
  rw [accessor_rename]
  refine bind_rename n fun m => ?_
  rw [accessor_rename]
  refine bind_rename n fun m => ?_
  exact accessor_rename n m _ _

theorem unit_rename (n : String) (t : Target) (name : String) (s : Stream) (g : Graph) (slots : Slots) (limit : Int) :
    t.unit n s g slots limit = (t.unit name s g slots limit).map (rename (.ofString n)) := by
  have hstart : ({ t.skeleton with name := .ofString n, slots := slots.kinds } : Module) =
      ({ t.skeleton with name := .ofString name, slots := slots.kinds } : Module).rename (.ofString n) := rfl
  simp only [unit, hstart, accessors_rename]
  refine bind_rename _ fun m => ?_
  rw [Emission.execute_rename]
  have hsize : ∀ e : Emission, (e.rename (.ofString n)).size = e.size := fun _ => rfl
  have hbytes : ∀ e : Emission, (e.rename (.ofString n)).bytes = e.bytes := fun _ => rfl
  have hmodule : ∀ e : Emission, (e.rename (.ofString n)).module = e.module.rename (.ofString n) := fun _ => rfl
  simp only [hsize, hbytes, hmodule, setBody_rename]
  split
  · rfl
  · generalize setBody _ executeMethod _ _ = body
    cases body <;> rfl

end Target

/-! ### Loading under another name -/

theorem Module.encode_rename {n : ByteString} (hn : 0 ∉ n.bytes) {m : Module} {data : Bytes}
    (h : m.encode = .ok data) : ∃ data', (m.rename n).encode = .ok data' := by
  obtain ⟨name, constants, links, methods, -, hconstants, hlinks, hmethods, -⟩ := encode_eq_ok h
  have hname : encodeText "module name" n = .ok (Write.string n.bytes) := by
    rw [encodeText, if_neg (by simpa using hn)]
  simp only [encode, rename, hname, hconstants, hlinks, hmethods, bind, Except.bind]
  exact ⟨_, rfl⟩

theorem Routine.checkCode_rename (n : ByteString) (m : Module) (helpers : List Helper) (targets : List Int32) (p : Position)
    (code : List Code.Placed) : checkCode (m.rename n) helpers targets p code = checkCode m helpers targets p code := by
  induction code generalizing p with
  | nil => cases p <;> rfl
  | cons i code ih =>
    have hinstr : checkInstr (m.rename n) helpers targets p i = checkInstr m helpers targets p i := rfl
    simp only [checkCode, hinstr, ih]

theorem Routine.ofMethod_rename (n : ByteString) (m : Module) (helpers : List Helper) (me : Method) :
    ofMethod (m.rename n) helpers me = ofMethod m helpers me := by
  simp only [ofMethod, checkCode_rename]

namespace Loader

theorem verify_rename {n : ByteString} {m : Module} {helpers : List Helper} {name : String} {mes : List Method}
    {rs : List Routine} (h : verify m helpers name mes = .ok rs) (name' : String) :
    verify (m.rename n) helpers name' mes = .ok rs := by
  induction mes generalizing rs with
  | nil => exact h
  | cons me mes ih =>
    obtain ⟨r, rs', hr, hrs, rfl⟩ := verify_cons h
    simp only [verify, Routine.ofMethod_rename, hr, ih hrs]

theorem resolve_rename {r : Registry} {name : String} {links : List ByteString} {helpers : List Helper}
    (h : resolve r name links = .ok helpers) (name' : String) : resolve r name' links = .ok helpers := by
  fun_induction resolve r name links generalizing helpers with
  | case1 => exact h
  | case2 | case3 => cases h
  | case4 s rest helper hfind hs hrest ih =>
    cases h
    simp only [resolve, hfind, ih hrest]

end Loader

/-- A block that can be compiled can be compiled under any name that can be written, and its methods are the same. -/
theorem CodeBlock.Compiled.rename {limits : CompileLimits} {mode : Mode} {b : Block} {s : Stream}
    (hb : Stream.ofBlock b = .ok s) (hwords : s.microcodes.length < 2 ^ 30) {u : CodeBlock}
    (h : u.Compiled limits mode s) {name : String} (hname : 0 ∉ (ByteString.ofString name).bytes) :
    ∃ u' : CodeBlock, u'.name = name ∧ u'.Compiled limits mode s ∧ u'.module.methods = u.module.methods := by
  obtain ⟨data, g, slots, m, fin, guards, helpers, hbuilds, hcontains, hh, hlo, hverify, hu⟩ := h.exists_unit hb hwords
  have hunit := Target.unit_rename name (.ofMode mode) u.name s g slots limits.methodBytes
  rw [hbuilds.unit] at hunit
  obtain ⟨data', hdata'⟩ := Module.encode_rename hname hbuilds.encoded
  have hbuilds' : Compiler.Builds limits mode s name data' g slots (m.rename (.ofString name)) :=
    ⟨hbuilds.drawn, hbuilds.allocated, hunit, hdata'⟩
  have hg := Graph.build_valid (Lowering.table_disciplined mode) hb hbuilds.drawn
  obtain ⟨hs, hkeep⟩ := Slots.allocate_sound hg hbuilds.allocated
  obtain ⟨fin', guards', hcontains'⟩ := Target.unit_contains hg hs hunit
  have hload := hcontains'.load_eq hg hs hkeep hdata' (Stream.length_positions hb) (Loader.resolve_rename hh name) hlo
    (l := { helpers := .builtin }) rfl rfl rfl
  have hverify' := Loader.verify_rename (n := .ofString name) hverify name
  have hmethods : (m.rename (.ofString name)).methods = m.methods := rfl
  rw [hmethods, hverify'] at hload
  have hcompiled : (Target.block name s (m.rename (.ofString name)) data' helpers fin' guards').Compiled limits mode s :=
    ⟨data', Compiler.build_eq_ok.mpr ⟨g, slots, _, hbuilds'⟩, congrArg Prod.fst hload⟩
  refine ⟨_, rfl, hcompiled, ?_⟩
  rw [hu]
  rfl

/-! ### Default names -/

theorem ByteString.bytes_ofString (s : String) : (ofString s).bytes = s.toByteArray.data.toList := by
  simp only [ofString, ByteArray.toList, toList_loop_eq, String.toUTF8_eq_toByteArray]
  rfl

theorem ByteString.bytes_append (a b : String) : (ofString (a ++ b)).bytes = (ofString a).bytes ++ (ofString b).bytes := by
  simp only [bytes_ofString, String.toByteArray_append, ByteArray.data_append, Array.toList_append]

theorem ByteString.bytes_ofList (cs : List Char) : (ofString (String.ofList cs)).bytes = cs.flatMap String.utf8EncodeChar := by
  simp only [bytes_ofString, String.toByteArray_ofList, List.utf8Encode, List.toList_data_toByteArray]

theorem Text.nul_notMem_hexBytes (bytes : Bytes) : 0 ∉ (ByteString.ofString (hexBytes bytes)).bytes := by
  have hdigit : ∀ n < 16, 0 ∉ String.utf8EncodeChar (hexDigit n) := by decide
  rw [hexBytes, ByteString.bytes_ofList]
  intro h
  obtain ⟨c, hc, h0⟩ := List.mem_flatMap.mp h
  obtain ⟨b, -, hb⟩ := List.mem_flatMap.mp hc
  have hlt := b.toNat_lt
  simp only [hexByte, List.mem_cons, List.not_mem_nil, or_false] at hb
  rcases hb with rfl | rfl
  · exact hdigit _ (by omega) h0
  · exact hdigit _ (by omega) h0

theorem Target.nul_notMem_defaultName (mode : Mode) (sum : Bytes) :
    0 ∉ (ByteString.ofString ((ofMode mode).defaultName sum)).bytes := by
  have hmode : 0 ∉ (ByteString.ofString mode.name).bytes := by cases mode <;> decide +kernel
  have hdash : 0 ∉ (ByteString.ofString "-").bytes := by decide +kernel
  simp only [defaultName, name_ofMode, ByteString.bytes_append, List.mem_append]
  rintro ((h | h) | h)
  · exact hmode h
  · exact hdash h
  · exact Text.nul_notMem_hexBytes _ h

namespace Compiler
open MicroBlock.Module

theorem nul_notMem_nameFor (mode : Mode) (s : Stream) {name : String} (h : 0 ∉ (ByteString.ofString name).bytes) :
    0 ∉ (ByteString.ofString (nameFor (.ofMode mode) s name)).bytes := by
  unfold nameFor
  split
  · exact Target.nul_notMem_defaultName mode _
  · exact h

/-! ### First compiles -/

/-- A new compiler hands out what a new loader makes of the unit. -/
theorem answer_new {limits : CompileLimits} {mode : Mode} {b : Block} {s : Stream} (hb : Stream.ofBlock b = .ok s)
    {u : CodeBlock} (hu : u.Compiled limits mode s) {name : String} (hname : u.name = nameFor (.ofMode mode) s name) :
    (Request.answer ⟨mode, b, name⟩ (after limits [])).result = .ok u := by
  obtain ⟨data, hdata, hload⟩ := hu
  rw [hname] at hdata hload
  rcases hloaded : ({ helpers := .builtin } : Loader).load (nameFor (.ofMode mode) s name) data with ⟨result, l⟩
  rw [hloaded] at hload
  simp only at hload
  subst hload
  have hfind : ({ helpers := .builtin } : Loader).find? (nameFor (.ofMode mode) s name) = none := rfl
  simp only [Request.answer, after, List.foldl_nil, compile, hb, compileStream, find, lookup, List.lookup_nil, hfind, load,
    hdata, hloaded, countFailure]

/-- Unless another mode asked for the name before, a unit has the execute method of a first compile of the block in
    the mode, under whatever name; default names are never shared by two modes. -/
theorem code_of_first_compile (limits : CompileLimits) (history : List Request) (r : Request)
    (hblocks : ∀ q ∈ history ++ [r], q.block.Bounded (2 ^ 32) ∧ q.block.Worded)
    (hmodes : ∀ q ∈ history, ∀ o o', q.origin? = some o → r.origin? = some o' → q.name ≠ "" ∨ r.name ≠ "" →
      o.name = o'.name → q.mode = r.mode)
    {u : CodeBlock} (hu : (r.answer (after limits history)).result = .ok u) (name : String)
    (hname : 0 ∉ (ByteString.ofString name).bytes) :
    ∃ u' me, (Request.answer { r with name } (after limits [])).result = .ok u' ∧
      u'.module.method? executeMethod = some me ∧ u.module.method? executeMethod = some me := by
  obtain ⟨o, o₁, o₂, horigin, ho₁, ho₂, hsame, hmode, harrays, hcompiled⟩ :=
    exists_origin (fun q hq => (hblocks q hq).1.words_lt) hu
  obtain ⟨hs, homode, honame⟩ := origin?_eq_some horigin
  obtain ⟨q₁, hq₁, horigin₁⟩ := List.mem_filterMap.mp ho₁
  obtain ⟨q₂, hq₂, horigin₂⟩ := List.mem_filterMap.mp ho₂
  obtain ⟨-, hmode₁, hname₁⟩ := origin?_eq_some horigin₁
  obtain ⟨hs₂, -⟩ := origin?_eq_some horigin₂
  have hr : r ∈ history ++ [r] := by simp
  -- Default names tell the mode.
  have hmodes₁ : q₁.mode = r.mode := by
    rcases List.mem_append.mp hq₁ with hq₁ | hq₁
    · by_cases hnames : q₁.name ≠ "" ∨ r.name ≠ ""
      · exact hmodes q₁ hq₁ o₁ o horigin₁ horigin hnames hsame
      · rw [not_or, not_not, not_not] at hnames
        rw [hname₁, honame, hnames.1, hnames.2] at hsame
        exact Target.defaultName_inj hsame
    · rw [List.mem_singleton.mp hq₁]
  -- The two arrays tell the block, so the unit was compiled from this stream.
  have hstream : o₂.stream = o.stream :=
    Stream.eq_of_arrays hs₂ hs le_rfl (hblocks q₂ hq₂).1 (hblocks r hr).1 (hblocks q₂ hq₂).2 (hblocks r hr).2 harrays.1
      harrays.2
  rw [hmode, hmode₁, hmodes₁, hstream] at hcompiled
  have hwords : o.stream.microcodes.length < 2 ^ 30 := by
    rw [(Stream.eq_of_ofBlock hs).2.2]
    exact (hblocks r hr).1.words_lt
  obtain ⟨data, g, slots, m, fin, guards, helpers, -, hcontains, -, -, -, hblock⟩ := hcompiled.exists_unit hs hwords
  obtain ⟨u', hname', hcompiled', hmethods⟩ := hcompiled.rename hs hwords (nul_notMem_nameFor r.mode o.stream hname)
  have hexecute : u.module.method? executeMethod = some ⟨.ofString executeMethod, fin.bytes, guards⟩ := by
    rw [hblock]
    exact hcontains.method?_execute
  refine ⟨u', _, answer_new hs hcompiled' hname', ?_, hexecute⟩
  rw [← hexecute, method?, method?, hmethods]

/-- A name that protected mode has not used: the unit has the code of the first compile under the default name. -/
theorem code_of_first_compile_jump :
    ∃ u u' me, (Request.answer ⟨.real, [⟨1, [157]⟩], "x"⟩ (after {} [⟨.protected_, [⟨1, [157]⟩], "p"⟩])).result = .ok u ∧
      (Request.answer ⟨.real, [⟨1, [157]⟩], ""⟩ (after {} [])).result = .ok u' ∧
      u'.module.method? executeMethod = some me ∧ u.module.method? executeMethod = some me := by
  have hok : (Request.answer ⟨.real, [⟨1, [157]⟩], "x"⟩
      (after {} [⟨.protected_, [⟨1, [157]⟩], "p"⟩])).result.toOption.any (fun _ => true) = true := by
    decide +kernel
  obtain ⟨u, hu, -⟩ := exists_ok_of_any hok
  have hblocks : ∀ q ∈ [⟨.protected_, [⟨1, [157]⟩], "p"⟩] ++ [(⟨.real, [⟨1, [157]⟩], "x"⟩ : Request)],
      q.block.Bounded (2 ^ 32) ∧ q.block.Worded := by decide
  have hmodes : ∀ q ∈ [(⟨.protected_, [⟨1, [157]⟩], "p"⟩ : Request)], ∀ o o', q.origin? = some o →
      Request.origin? ⟨.real, [⟨1, [157]⟩], "x"⟩ = some o' → q.name ≠ "" ∨ "x" ≠ "" → o.name = o'.name →
        q.mode = .real := by
    intro q hq o o' ho ho' _ hname
    rw [List.mem_singleton.mp hq] at ho
    rw [(origin?_eq_some ho).2.2, (origin?_eq_some ho').2.2] at hname
    exact absurd hname (by simp [nameFor])
  obtain ⟨u', me, hu', hme', hme⟩ := code_of_first_compile {} _ _ hblocks hmodes hu "" (by decide +kernel)
  exact ⟨u, u', me, hu, hu', hme', hme⟩

/-- The execute method of the unit that an answer holds. -/
def executeOf (r : Compilation) : Option Method :=
  r.result.toOption.bind fun u => u.module.method? executeMethod

/-- Protected mode is handed the jump that real mode compiled under the name, which cuts EIP to 16 bits; and two blocks
    whose offsets agree modulo 2 ^ 32 share a unit though they have two instructions and one. -/
theorem name_shared_by_modes :
    (executeOf (Request.answer ⟨.protected_, [⟨1, [157]⟩], "x"⟩ (after {} [⟨.real, [⟨1, [157]⟩], "x"⟩])) =
        executeOf (Request.answer ⟨.real, [⟨1, [157]⟩], "x"⟩ (after {} [])) ∧
      executeOf (Request.answer ⟨.protected_, [⟨1, [157]⟩], "x"⟩ (after {} [⟨.real, [⟨1, [157]⟩], "x"⟩])) ≠
        executeOf (Request.answer ⟨.protected_, [⟨1, [157]⟩], "x"⟩ (after {} []))) ∧
    executeOf (Request.answer ⟨.real, [⟨1, [136, 136]⟩], "x"⟩
        (after {} [⟨.real, [⟨1, [136]⟩, ⟨2 ^ 32, [136]⟩], "x"⟩])) ≠
      executeOf (Request.answer ⟨.real, [⟨1, [136, 136]⟩], "x"⟩ (after {} [])) := by
  decide +kernel

end Compiler
end MicroBlock
