import Mathlib
import MicroBlock.Proofs.Digests
import MicroBlock.Proofs.Loading
import MicroBlock.Proofs.Positions

/-! Where the units come from that a compiler hands out.

A compiler finds units by name and by content, and it takes a unit for the one of a stream if both have the same
arrays. So what it hands out was compiled from some stream with these arrays, in the mode of some call with the
name. The stream is the one of the call if every instruction has words; the mode is that of the call if no name
is used in two modes, and default names never are. -/

namespace MicroBlock

/-! ### Names -/

namespace Target

theorem name_ofMode (m : Mode) : (ofMode m).name = m.name := by cases m <;> rfl

theorem name_inj {m m' : Mode} (h : (ofMode m).name = (ofMode m').name) : m = m' := by
  rw [name_ofMode, name_ofMode] at h
  cases m <;> cases m' <;> first | rfl | exact absurd h (by decide)

/-- The default names of different modes differ in their first letter. -/
theorem defaultName_inj {m m' : Mode} {sum sum' : Bytes} (h : (ofMode m).defaultName sum = (ofMode m').defaultName sum') :
    m = m' := by
  have hhead := congrArg (fun n : String => n.toList.head?) h
  simp only [defaultName, name_ofMode, String.toList_append] at hhead
  cases m <;> cases m' <;> first | rfl | simp [Mode.name] at hhead

end Target

/-! ### Numbers that have no operand -/

theorem Code.emitInstr_push {v : Int32} {e : EmitError} (h : emitInstr (.push v) = .error e) :
    e = .range ⟨Opcode.pushi.code⟩ v ∧ Operand.fits v.toInt = false := by
  have hop : (⟨Opcode.pushi.code⟩ : OpcodeByte).hasOperand = true := by decide
  cases hfits : Operand.fits v.toInt with
  | true => simp [emitInstr, emit, Instr.operand?, Instr.opcode, hop, hfits] at h
  | false => simpa [emitInstr, emit, Instr.operand?, Instr.opcode, hop, hfits, eq_comm] using h

namespace Target

theorem accessor_eq_emit {m : Module} {method : String} {i : Instr} {e : EmitError}
    (h : accessor m method i = .error (.emit e)) : Code.emitInstr i = .error e := by
  unfold accessor at h
  split at h
  · next hemit =>
    cases h
    exact hemit
  · split at h <;> cases h

theorem accessor_ne_emit {m : Module} {method : String} {i : Instr} (hi : Code.Fits i) (e : EmitError) :
    accessor m method i ≠ .error (.emit e) := by
  intro h
  have hemit := accessor_eq_emit h
  rw [Code.emitInstr_eq_ok.mpr ⟨rfl, hi⟩] at hemit
  cases hemit

/-- A number of a stream that an accessor pushes and that has no operand. -/
def Unwritable (s : Stream) (v : Int32) : Prop :=
  (v = .ofNat s.count ∨ v = s.length.toInt32) ∧ Operand.fits v.toInt = false

theorem accessors_eq_emit {mode : Mode} {name : ByteString} {kinds : List Kind} {s : Stream} {e : EmitError}
    (h : accessors s { (ofMode mode).skeleton with name, slots := kinds } = .error (.emit e)) :
    ∃ v, Unwritable s v ∧ e = .range ⟨Opcode.pushi.code⟩ v := by
  obtain ⟨hmicro, hpos⟩ := intern_pool s { (ofMode mode).skeleton with name, slots := kinds } rfl
  simp only [accessors, hmicro, hpos, bind, Except.bind] at h
  split at h
  · next h₁ =>
    cases h
    obtain ⟨rfl, hfits⟩ := Code.emitInstr_push (accessor_eq_emit h₁)
    exact ⟨_, ⟨.inl rfl, hfits⟩, rfl⟩
  split at h
  · next h₂ =>
    cases h
    obtain ⟨rfl, hfits⟩ := Code.emitInstr_push (accessor_eq_emit h₂)
    exact ⟨_, ⟨.inr rfl, hfits⟩, rfl⟩
  split at h
  · next h₃ =>
    cases h
    exact absurd h₃ (accessor_ne_emit (fits_const (by omega)) e)
  · exact absurd h (accessor_ne_emit (fits_const (by split <;> omega)) e)

/-- Of the numbers in a unit only those of the stream can lack an operand. -/
theorem unit_eq_emit {mode : Mode} {name : String} {s : Stream} {g : Graph} {slots : Slots} {limit : Int} {e : EmitError}
    (h : (ofMode mode).unit name s g slots limit = .error (.emit e)) :
    ∃ v, Unwritable s v ∧ e = .range ⟨Opcode.pushi.code⟩ v := by
  simp only [unit, bind, Except.bind] at h
  split at h
  · next hacc =>
    cases h
    exact accessors_eq_emit hacc
  split at h
  · cases h
  split at h <;> cases h

theorem Unwritable.not_describable {s : Stream} {v : Int32} (h : Unwritable s v) : ¬ Describable s := by
  rintro ⟨hcount, hlength⟩
  obtain ⟨rfl | rfl, hfits⟩ := h
  · rw [hcount _ rfl] at hfits
    cases hfits
  · rw [hlength _ rfl] at hfits
    cases hfits

end Target

namespace Compiler

/-- A stream that was compiled, for which mode and under which name. -/
structure Origin where
  mode : Mode
  stream : Stream
  name : String

/-- A stream that comes from a block with no more words than a container can count. -/
def Origin.Readable (o : Origin) : Prop := ∃ b, Stream.ofBlock b = .ok o.stream ∧ o.stream.microcodes.length < 2 ^ 30

/-- Two streams with the same arrays. -/
def SameArrays (s s' : Stream) : Prop := s.microcodes = s'.microcodes ∧ s.positions = s'.positions

/-- A unit that was compiled, in a mode, from a stream with the arrays of another. -/
def Serves (limits : CompileLimits) (log : List Origin) (mode : Mode) (s : Stream) (u : CodeBlock) : Prop :=
  ∃ o ∈ log, o.mode = mode ∧ SameArrays o.stream s ∧ u.Compiled limits mode o.stream

/-- All that a compiler and its loader hold goes back to a list of streams. -/
structure Traced (limits : CompileLimits) (log : List Origin) (c : Compiler) (l : Loader) : Prop where
  readable : ∀ o ∈ log, o.Readable
  limits_eq : c.limits = limits
  helpers_eq : l.helpers = .builtin
  closed_eq : l.closed = none
  cached : ∀ n u, (n, u) ∈ c.cache → ∃ o ∈ log, o.name = n ∧ Serves limits log o.mode o.stream u
  indexed : ∀ k u, (k, u) ∈ c.byContent → ∃ o ∈ log, k.target = (Target.ofMode o.mode).name ∧
    u.Compiled limits o.mode o.stream
  loaded : ∀ u ∈ l.blocks, (c.lookup u.name).isSome = true

/-- What a call of the compiler for a stream under a name may give. -/
structure Answers (limits : CompileLimits) (log : List Origin) (s : Stream) (name : String)
    (result : Except CompileFailure CodeBlock) : Prop where
  crash : result ≠ .error .crash
  unwritable : ∀ e, result = .error (.unwritable e) → ¬ Target.Describable s
  unit : ∀ u, result = .ok u → ∃ o ∈ log, o.name = name ∧ Serves limits log o.mode s u

theorem traced_start (limits : CompileLimits) : Traced limits [] { limits } { helpers := .builtin } :=
  ⟨nofun, rfl, rfl, rfl, nofun, nofun, nofun⟩

theorem Serves.mono {limits : CompileLimits} {log log' : List Origin} {mode : Mode} {s : Stream} {u : CodeBlock}
    (h : Serves limits log mode s u) (hsub : log ⊆ log') : Serves limits log' mode s u := by
  obtain ⟨o, ho, rest⟩ := h
  exact ⟨o, hsub ho, rest⟩

theorem Traced.mono {limits : CompileLimits} {log log' : List Origin} {c : Compiler} {l : Loader}
    (h : Traced limits log c l) (hsub : log ⊆ log') (hread : ∀ o ∈ log', o.Readable) : Traced limits log' c l where
  readable := hread
  limits_eq := h.limits_eq
  helpers_eq := h.helpers_eq
  closed_eq := h.closed_eq
  cached n u hu := by
    obtain ⟨o, ho, hname, hserves⟩ := h.cached n u hu
    exact ⟨o, hsub ho, hname, hserves.mono hsub⟩
  indexed k u hu := by
    obtain ⟨o, ho, rest⟩ := h.indexed k u hu
    exact ⟨o, hsub ho, rest⟩
  loaded := h.loaded

/-- A unit with the arrays of one stream serves another that it was found to match. -/
theorem Serves.of_sameBlock {limits : CompileLimits} {log : List Origin} {mode : Mode} {s s' : Stream} {u : CodeBlock}
    (h : Serves limits log mode s' u) (hread : ∀ o ∈ log, o.Readable) (hsame : sameBlock u s = true) :
    Serves limits log mode s u := by
  obtain ⟨o, ho, rfl, -, hu⟩ := h
  obtain ⟨b, hb, hwords⟩ := hread o ho
  obtain ⟨hmicro, hpos, -⟩ := hu.describes hb hwords
  simp only [sameBlock, Bool.and_eq_true, beq_iff_eq, hmicro, hpos] at hsame
  exact ⟨o, ho, rfl, hsame, hu⟩

theorem mem_of_lookup {α β : Type} [BEq α] [LawfulBEq α] {l : List (α × β)} {a : α} {b : β} (h : l.lookup a = some b) :
    (a, b) ∈ l := by
  obtain ⟨before, after, rfl, -⟩ := List.lookup_eq_some_iff.mp h
  simp

/-! ### Steps -/

section Steps
variable {limits : CompileLimits} {log : List Origin} {c : Compiler} {l : Loader}

/-- Entering a unit under the name of the stream that it serves. -/
theorem Traced.enter (h : Traced limits log c l) {o : Origin} (ho : o ∈ log) {u : CodeBlock}
    (hu : Serves limits log o.mode o.stream u) : Traced limits log (c.enter o.name u) l where
  readable := h.readable
  limits_eq := h.limits_eq
  helpers_eq := h.helpers_eq
  closed_eq := h.closed_eq
  cached n u' hu' := by
    rcases List.mem_append.mp hu' with hu' | hu'
    · exact h.cached n u' hu'
    · cases List.mem_singleton.mp hu'
      exact ⟨o, ho, rfl, hu⟩
  indexed := h.indexed
  loaded u' hu' := by
    have := h.loaded u' hu'
    simp only [lookup, Compiler.enter, List.lookup_append] at this ⊢
    simp [this]

/-- Entering a unit as the first of its content. -/
theorem Traced.enterContent (h : Traced limits log c l) {o : Origin} (ho : o ∈ log) {k : ContentKey}
    (hk : k.target = (Target.ofMode o.mode).name) {u : CodeBlock} (hu : u.Compiled limits o.mode o.stream) :
    Traced limits log (c.enterContent k u) l := by
  unfold Compiler.enterContent
  split
  · exact h
  · refine { h with indexed := fun k' u' hu' => ?_ }
    rcases List.mem_append.mp hu' with hu' | hu'
    · exact h.indexed k' u' hu'
    · cases List.mem_singleton.mp hu'
      exact ⟨o, ho, hk, hu⟩

/-- Registering a unit whose name is in the cache. -/
theorem Traced.register (h : Traced limits log c l) {u : CodeBlock} (hu : (c.lookup u.name).isSome = true) :
    Traced limits log c { l with blocks := l.blocks ++ [u] } :=
  { h with
    loaded := fun u' hu' => by
      rcases List.mem_append.mp hu' with hu' | hu'
      · exact h.loaded u' hu'
      · rw [List.mem_singleton.mp hu']
        exact hu }

theorem Traced.noteBuildError (h : Traced limits log c l) (t : Target) (name : String) (e : BuildError) :
    Traced limits log (c.noteBuildError t name e).2 l := by
  unfold Compiler.noteBuildError
  split
  · unfold report
    split
    · exact h
    · exact { h with }
  all_goals exact h

theorem failure_eq_unwritable {name : String} {e : BuildError} {x : EmitError} (h : e.failure name = .unwritable x) :
    e = .unit (.emit x) := by
  unfold BuildError.failure at h
  split at h <;> cases h
  rfl

theorem failure_ne_crash (name : String) (e : BuildError) : e.failure name ≠ .crash := by
  unfold BuildError.failure
  split <;> nofun

theorem build_eq_emit {limits : CompileLimits} {mode : Mode} {s : Stream} {name : String} {e : EmitError}
    (h : build limits (.ofMode mode) s name = .error (.unit (.emit e))) :
    ∃ v, Target.Unwritable s v ∧ e = .range ⟨Opcode.pushi.code⟩ v := by
  unfold build at h
  split at h
  · cases h
  split at h
  · cases h
  split at h
  · next hunit =>
    cases h
    exact Target.unit_eq_emit hunit
  split at h <;> cases h

/-- Compiling and loading a stream that was not found. -/
theorem Traced.load (h : Traced limits log c l) {o : Origin} (ho : o ∈ log)
    (hnone : l.find? o.name = none) {k : ContentKey} (hk : k.target = (Target.ofMode o.mode).name) :
    Traced limits log (c.load l (.ofMode o.mode) o.stream k o.name).compiler
        (c.load l (.ofMode o.mode) o.stream k o.name).loader ∧
      Answers limits log o.stream o.name (c.load l (.ofMode o.mode) o.stream k o.name).result := by
  generalize hr : c.load l (.ofMode o.mode) o.stream k o.name = r
  obtain ⟨b, hb, hwords⟩ := h.readable o ho
  unfold Compiler.load at hr
  rw [h.limits_eq] at hr
  split at hr
  · next e he =>
    subst hr
    refine ⟨h.noteBuildError _ _ e, fun hx => ?_, fun x hx hdesc => ?_, nofun⟩
    · exact failure_ne_crash o.name e (Except.error.inj hx)
    · rw [failure_eq_unwritable (Except.error.inj hx)] at he
      obtain ⟨v, hv, -⟩ := build_eq_emit he
      exact hv.not_describable hdesc
  next data hdata =>
  -- Loading turns the unit down, or registers it; no accessor fails.
  rcases Loader.load_build hb hwords hdata h.helpers_eq h.closed_eq hnone with ⟨e, hne, hload⟩ | ⟨u, hname, hu, hload⟩
  · rw [hload] at hr
    split at hr
    · next heq =>
      cases heq
      exact absurd rfl (hne _ _ _)
    · next heq =>
      cases heq
      subst hr
      exact ⟨h, nofun, nofun, nofun⟩
    · next heq => cases heq
  · rw [hload] at hr
    subst hr
    have hserves : Serves limits log o.mode o.stream u := ⟨o, ho, rfl, ⟨rfl, rfl⟩, hu⟩
    have hfound : ((c.enter o.name u).lookup u.name).isSome = true := by
      simp [lookup, Compiler.enter, List.lookup_append, hname]
    have hentered := ((h.enter ho hserves).register hfound).enterContent ho hk hu
    refine ⟨{ hentered with }, nofun, nofun, fun u' hu' => ?_⟩
    cases hu'
    exact ⟨o, ho, rfl, hserves⟩

/-- Looking for a stream, and compiling it if it is not found. -/
theorem Traced.find (h : Traced limits log c l) {o : Origin} (ho : o ∈ log) (sum : Bytes) :
    Traced limits log (c.find l (.ofMode o.mode) o.stream sum o.name).compiler
        (c.find l (.ofMode o.mode) o.stream sum o.name).loader ∧
      Answers limits log o.stream o.name (c.find l (.ofMode o.mode) o.stream sum o.name).result := by
  generalize hr : c.find l (.ofMode o.mode) o.stream sum o.name = r
  unfold Compiler.find at hr
  simp only at hr
  split at hr
  · next u hu =>
    split at hr
    · next hsame =>
      subst hr
      obtain ⟨o', ho', hname, hserves⟩ := h.cached o.name u (mem_of_lookup hu)
      refine ⟨{ h with }, nofun, nofun, fun u' hu' => ?_⟩
      cases hu'
      exact ⟨o', ho', hname, hserves.of_sameBlock h.readable hsame⟩
    · subst hr
      exact ⟨h, nofun, nofun, nofun⟩
  next hnone =>
  split at hr
  · next u hu =>
    -- What is loaded is in the cache under its name.
    simp only [Loader.find?, h.closed_eq, Option.isSome_none, Bool.false_eq_true, if_false] at hu
    have hname : u.name = o.name := by simpa using List.find?_some hu
    have hfound := h.loaded u (List.mem_of_find?_eq_some hu)
    rw [hname, hnone] at hfound
    cases hfound
  next hnone' =>
  split at hr
  · next u hu =>
    split at hr
    · next hsame =>
      subst hr
      -- The content is indexed by its mode, so the unit is of this one.
      obtain ⟨o', ho', hkey, hu'⟩ := h.indexed _ u (mem_of_lookup hu)
      have hmode := Target.name_inj hkey
      have hserves : Serves limits log o'.mode o'.stream u := ⟨o', ho', rfl, ⟨rfl, rfl⟩, hu'⟩
      have hserves := hserves.of_sameBlock h.readable hsame
      rw [← hmode] at hserves
      refine ⟨{ h.enter ho hserves with }, nofun, nofun, fun u' hu' => ?_⟩
      cases hu'
      exact ⟨o, ho, rfl, hserves⟩
    · subst hr
      exact h.load ho hnone' rfl
  · subst hr
    exact h.load ho hnone' rfl

theorem result_countFailure (r : Compilation) : (Compiler.countFailure r).result = r.result := by
  unfold Compiler.countFailure
  split <;> rfl

theorem Traced.countFailure {s : Stream} {name : String} {r : Compilation}
    (h : Traced limits log r.compiler r.loader ∧ Answers limits log s name r.result) :
    Traced limits log (Compiler.countFailure r).compiler (Compiler.countFailure r).loader ∧
      Answers limits log s name (Compiler.countFailure r).result := by
  unfold Compiler.countFailure
  split
  · exact ⟨{ h.1 with }, h.2⟩
  · exact h

theorem Traced.compileStream (h : Traced limits log c l) {mode : Mode} {s : Stream} {name : String}
    (ho : ⟨mode, s, nameFor (.ofMode mode) s name⟩ ∈ log) :
    Traced limits log (c.compileStream l (.ofMode mode) s name).compiler (c.compileStream l (.ofMode mode) s name).loader ∧
      Answers limits log s (nameFor (.ofMode mode) s name) (c.compileStream l (.ofMode mode) s name).result :=
  Traced.countFailure (h.find ho _)

end Steps

/-! ### Histories -/

/-- A call of a compiler. -/
structure Request where
  mode : Mode
  block : Block
  name : String

namespace Request

/-- The stream that a request is about, unless its block is faulty. -/
def origin? (r : Request) : Option Origin :=
  match Stream.ofBlock r.block with
  | .error _ => none
  | .ok s => some ⟨r.mode, s, nameFor (.ofMode r.mode) s r.name⟩

/-- What a compiler and its loader make of a request. -/
def answer (r : Request) (cl : Compiler × Loader) : Compilation :=
  cl.1.compile cl.2 (some (.ofMode r.mode)) r.block r.name

end Request

/-- A new compiler, with its own loader, after some requests. -/
def after (limits : CompileLimits) (rs : List Request) : Compiler × Loader :=
  rs.foldl (fun cl r => ((r.answer cl).compiler, (r.answer cl).loader)) ({ limits }, { helpers := .builtin })

theorem origin?_eq_some {r : Request} {o : Origin} (h : r.origin? = some o) :
    Stream.ofBlock r.block = .ok o.stream ∧ o.mode = r.mode ∧ o.name = nameFor (.ofMode r.mode) o.stream r.name := by
  unfold Request.origin? at h
  split at h
  · cases h
  · next hs =>
    cases h
    exact ⟨hs, rfl, rfl⟩

section Histories
variable {limits : CompileLimits} {log : List Origin}

theorem Traced.answer {c : Compiler} {l : Loader} (h : Traced limits log c l) {r : Request}
    (hr : ∀ o, r.origin? = some o → o ∈ log) :
    Traced limits log (r.answer (c, l)).compiler (r.answer (c, l)).loader ∧
      ∀ o, r.origin? = some o → Answers limits log o.stream o.name (r.answer (c, l)).result := by
  cases hs : Stream.ofBlock r.block with
  | error e =>
    refine ⟨?_, fun o ho => ?_⟩
    · simp only [Request.answer, compile, hs, Compiler.countFailure]
      exact { h with }
    · rw [(origin?_eq_some ho).1] at hs
      cases hs
  | ok s =>
    have horigin : r.origin? = some ⟨r.mode, s, nameFor (.ofMode r.mode) s r.name⟩ := by simp only [Request.origin?, hs]
    simp only [Request.answer, compile, hs]
    obtain ⟨htraced, hanswers⟩ := h.compileStream (hr _ horigin)
    refine ⟨htraced, fun o ho => ?_⟩
    rw [horigin] at ho
    cases ho
    exact hanswers

/-- All that a compiler holds goes back to the requests it was given. -/
theorem traced_after (hread : ∀ o ∈ log, o.Readable) {rs : List Request} (hrs : ∀ r ∈ rs, ∀ o, r.origin? = some o → o ∈ log) :
    Traced limits log (after limits rs).1 (after limits rs).2 := by
  refine List.foldlRecOn (motive := fun cl : Compiler × Loader => Traced limits log cl.1 cl.2) rs _ ?_ fun cl h r hr => ?_
  · exact (traced_start limits).mono (List.nil_subset log) hread
  · exact (Traced.answer h (hrs r hr)).1

theorem readable_of_mem {rs : List Request} (hwords : ∀ q ∈ rs, (q.block.flatMap (·.words)).length < 2 ^ 30) {o : Origin}
    (ho : o ∈ rs.filterMap Request.origin?) : o.Readable := by
  obtain ⟨q, hq, horigin⟩ := List.mem_filterMap.mp ho
  obtain ⟨hs, -⟩ := origin?_eq_some horigin
  refine ⟨q.block, hs, ?_⟩
  rw [(Stream.eq_of_ofBlock hs).2.2]
  exact hwords q hq

/-- A unit that a compiler hands out was compiled from a stream with the arrays of the request, in the mode of a
    request with its name. -/
theorem exists_origin {history : List Request} {r : Request}
    (hwords : ∀ q ∈ history ++ [r], (q.block.flatMap (·.words)).length < 2 ^ 30) {u : CodeBlock}
    (hu : (r.answer (after limits history)).result = .ok u) :
    ∃ o o₁ o₂, r.origin? = some o ∧ o₁ ∈ (history ++ [r]).filterMap Request.origin? ∧
      o₂ ∈ (history ++ [r]).filterMap Request.origin? ∧ o₁.name = o.name ∧ o₂.mode = o₁.mode ∧
      SameArrays o₂.stream o.stream ∧ u.Compiled limits o₂.mode o₂.stream := by
  have hlog : ∀ q ∈ history ++ [r], ∀ o, q.origin? = some o → o ∈ (history ++ [r]).filterMap Request.origin? :=
    fun q hq o ho => List.mem_filterMap.mpr ⟨q, hq, ho⟩
  have htraced : Traced limits _ (after limits history).1 (after limits history).2 :=
    traced_after (fun o => readable_of_mem hwords) fun q hq => hlog q (List.mem_append_left [r] hq)
  obtain ⟨-, hanswers⟩ := htraced.answer (hlog r (by simp))
  cases hs : Stream.ofBlock r.block with
  | error e => simp [Request.answer, compile, hs, Compiler.countFailure] at hu
  | ok s =>
    have horigin : r.origin? = some ⟨r.mode, s, nameFor (.ofMode r.mode) s r.name⟩ := by simp only [Request.origin?, hs]
    obtain ⟨o₁, ho₁, hname, o₂, ho₂, hmode, harrays, hcompiled⟩ := (hanswers _ horigin).unit u hu
    rw [← hmode] at hcompiled
    exact ⟨_, o₁, o₂, horigin, ho₁, ho₂, hname, hmode, harrays, hcompiled⟩

end Histories

/-! ### What a unit tells -/

theorem measured {b : Block} {s : Stream} (hs : Stream.ofBlock b = .ok s) (hb : b.Bounded (2 ^ 29)) :
    Target.Measured s := by
  obtain ⟨-, -, heq⟩ := Stream.eq_of_ofBlock hs
  have hle := Block.length_le_size hb.positive
  have hsize := hb.size_lt
  have hlength : s.length.toInt = b.size := by
    rw [heq]
    exact Stream.toInt_lengthOf hb.positive (by omega)
  have hcount : s.count = b.length := by rw [heq]
  refine ⟨?_, ?_, ?_⟩ <;> omega

/-- The unit that a request gives has the arrays of its block. Its numbers are those of some request with the same
    arrays, so they are right if in every such block all instructions have words. -/
theorem describes_request (limits : CompileLimits) (history : List Request) (r : Request)
    (hbounded : ∀ q ∈ history ++ [r], q.block.Bounded (2 ^ 29)) {u : CodeBlock}
    (hu : (r.answer (after limits history)).result = .ok u) :
    ∃ s, Stream.ofBlock r.block = .ok s ∧ u.microcodes = s.microcodes ∧ u.positions = s.positions ∧
      (∃ q ∈ history ++ [r], ∃ s', Stream.ofBlock q.block = .ok s' ∧ SameArrays s' s ∧ u.count = s'.count ∧
        (u.length : Int) = s'.length.toInt) ∧
      ((∀ q ∈ history ++ [r], ∀ s', Stream.ofBlock q.block = .ok s' → SameArrays s' s → q.block.Worded) →
        u.count = s.count ∧ (u.length : Int) = s.length.toInt) := by
  obtain ⟨o, o₁, o₂, horigin, -, ho₂, -, -, harrays, hcompiled⟩ := exists_origin (fun q hq => (hbounded q hq).words_lt) hu
  obtain ⟨q, hq, hq'⟩ := List.mem_filterMap.mp ho₂
  obtain ⟨hs, -⟩ := origin?_eq_some horigin
  obtain ⟨hs₂, -⟩ := origin?_eq_some hq'
  obtain ⟨b, hb, hwords⟩ := readable_of_mem (fun q hq => (hbounded q hq).words_lt) ho₂
  obtain ⟨hmicro, hpos, hcount, hlength⟩ := hcompiled.describes hb hwords
  obtain ⟨hcount₂, hlength₂⟩ := (measured hs₂ (hbounded q hq)).summaryOf_eq
  refine ⟨o.stream, hs, hmicro.trans harrays.1, hpos.trans harrays.2,
    ⟨q, hq, o₂.stream, hs₂, harrays, hcount.trans hcount₂, by rw [hlength, hlength₂]⟩, fun hworded => ?_⟩
  have hsame : o₂.stream = o.stream :=
    Stream.eq_of_arrays hs₂ hs (by decide) (hbounded q hq) (hbounded r (by simp)) (hworded q hq _ hs₂ harrays)
      (hworded r (by simp) _ hs ⟨rfl, rfl⟩) harrays.1 harrays.2
  rw [← hsame, hcount, hlength]
  exact ⟨hcount₂, hlength₂⟩

/-- A unit that protected mode left under the name describes the block for real mode too. -/
theorem describes_request_clc :
    ∃ u s, (Request.answer ⟨.real, [⟨2, [136]⟩], "x"⟩ (after {} [⟨.protected_, [⟨2, [136]⟩], "x"⟩])).result = .ok u ∧
      Stream.ofBlock [⟨2, [136]⟩] = .ok s ∧ u.microcodes = s.microcodes ∧ u.positions = s.positions ∧
      u.count = s.count ∧ (u.length : Int) = s.length.toInt := by
  have hok : (Request.answer ⟨.real, [⟨2, [136]⟩], "x"⟩
      (after {} [⟨.protected_, [⟨2, [136]⟩], "x"⟩])).result.toOption.any (fun _ => true) = true := by
    decide +kernel
  obtain ⟨u, hu, -⟩ := exists_ok_of_any hok
  have hbounded : ∀ q ∈ [⟨.protected_, [⟨2, [136]⟩], "x"⟩] ++ [(⟨.real, [⟨2, [136]⟩], "x"⟩ : Request)],
      q.block.Bounded (2 ^ 29) ∧ q.block.Worded := by decide
  obtain ⟨s, hs, hmicro, hpos, -, hnumbers⟩ := describes_request {} _ _ (fun q hq => (hbounded q hq).1) hu
  obtain ⟨hcount, hlength⟩ := hnumbers fun q hq _ _ _ => (hbounded q hq).2
  exact ⟨u, s, hu, hs, hmicro, hpos, hcount, hlength⟩

/-! ### Known digests -/

/-- The answer to a request, from the content hash of its words. -/
def Request.answerWith (r : Request) (sum : Bytes) (cl : Compiler × Loader) : Compilation :=
  countFailure <| match Stream.ofBlock r.block with
    | .error e => { result := .error (.error (streamError r.name e)), compiler := cl.1, loader := cl.2 }
    | .ok s => cl.1.find cl.2 (.ofMode r.mode) s sum
        (if r.name = "" then (Target.ofMode r.mode).defaultName sum else r.name)

theorem Request.answer_eq_answerWith {r : Request} {sum : Bytes} (hsum : contentSum (r.block.flatMap (·.words)) = sum)
    (cl : Compiler × Loader) : r.answer cl = r.answerWith sum cl := by
  unfold Request.answer Request.answerWith compile
  cases hs : Stream.ofBlock r.block with
  | error e => rfl
  | ok s =>
    obtain ⟨-, -, heq⟩ := Stream.eq_of_ofBlock hs
    have hwords : s.microcodes = r.block.flatMap (·.words) := congrArg Stream.microcodes heq
    simp only [compileStream, nameFor, hwords, hsum]

theorem contentSum_clc : contentSum [136] = [179, 224, 235, 23, 174, 93, 15, 11, 129, 17, 76, 133, 226, 22, 163, 113, 46,
    105, 179, 71, 230, 5, 17, 251, 129, 61, 225, 247, 172, 219, 125, 83] := by
  rw [contentSum, Digest.blake2b256_of_short (by decide)]
  decide +kernel

/-- An instruction without words leaves no mark on the arrays: with it a block is taken for the same block without
    it, and the unit tells one instruction and one byte where there are two. -/
theorem wordless_instruction_missed :
    (Request.answer ⟨.real, [⟨1, [136]⟩, ⟨1, []⟩], ""⟩ (after {} [⟨.real, [⟨1, [136]⟩], ""⟩])).result.toOption.map
        (fun u => (u.count, u.length)) = some (1, 1) ∧
      (Stream.ofBlock [⟨1, [136]⟩, ⟨1, []⟩]).toOption.map (fun s => (s.count, s.length)) = some (2, 2) := by
  rw [after, List.foldl_cons, List.foldl_nil, Request.answer_eq_answerWith (r := ⟨.real, [⟨1, [136]⟩], ""⟩) contentSum_clc,
    Request.answer_eq_answerWith (r := ⟨.real, [⟨1, [136]⟩, ⟨1, []⟩], ""⟩) contentSum_clc]
  decide +kernel

end Compiler
end MicroBlock
