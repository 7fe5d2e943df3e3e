import Mathlib
import MicroBlock.Proofs.Caches
import MicroBlock.Proofs.Rejections

/-! What an engine does with a call, whatever it was called for before.

An engine that compiles on the spot runs a unit only if it has the arrays of the stream, so that every call does what
the interpreter does. An engine that compiles in the background finds units by their default name alone, which is
part of a hash over the words: a call may run the unit of the first stream that was called under that name. -/

namespace MicroBlock

theorem Mode.mode?_coe (mode : Mode) : (mode : ModeNumber).mode? = some mode := by cases mode <;> rfl

theorem Target.ofNumber?_coe (mode : Mode) : Target.ofNumber? (mode : ModeNumber) = some (.ofMode mode) := by
  rw [ofNumber?, Mode.mode?_coe, Option.map_some]

theorem Machine.normalised_reset (memory : Memory) : (Machine.reset memory).Normalised :=
  ⟨fun f => by cases f <;> exact Nat.zero_le _, Nat.zero_le 3⟩

namespace Engine
open Compiler Interpreter

/-- A call of an engine. -/
structure Call where
  mode : Mode
  block : Block
  context : Context

namespace Call

/-- The compile that a call asks for. -/
def request (q : Call) : Request := ⟨q.mode, q.block, ""⟩

def run (q : Call) (e : Engine) : Run := e.run q.mode q.block q.context

end Call

/-- An engine after some calls. -/
def after (e : Engine) (qs : List Call) : Engine := qs.foldl (fun e q => (q.run e).engine) e

/-- The streams of some calls, under their default names. -/
def origins (qs : List Call) : List Compiler.Origin := qs.filterMap fun q => q.request.origin?

/-- A run gives the count or the error of the interpreter and leaves the same machine. -/
def Run.Agrees (r : Run) (mode : Mode) (s : Stream) (c : Context) : Prop :=
  r.result = (runMode mode .builtin s c).1.mapError Error.ofInterpreter ∧
    r.context.machine = (runMode mode .builtin s c).2.machine

/-! ### One way or the other -/

theorem Run.Agrees.after {r : Run} {mode : Mode} {s : Stream} {c : Context} (h : r.Agrees mode s c) (k : Compilation) :
    (r.after k).Agrees mode s c := h

theorem agrees_interpret {e : Engine} {mode : Mode} {s : Stream} {c : Context} (he : e.helpers = .builtin) :
    (e.interpret mode s c).Agrees mode s c := by
  rw [Run.Agrees, interpret_result (Mode.mode?_coe mode), interpret_context (Mode.mode?_coe mode), he]
  exact ⟨rfl, rfl⟩

theorem agrees_executeBlock (e : Engine) {limits : CompileLimits} {mode : Mode} {b : Block} {s : Stream} {u : CodeBlock}
    (hs : Stream.ofBlock b = .ok s) (hb : b.Bounded (2 ^ 29)) (hu : u.Compiled limits mode s) {c : Context}
    (hr : c.machine.router ≠ .reject) (hn : c.machine.Normalised) : (e.executeBlock u c).Agrees mode s c := by
  have hwords : s.microcodes.length < 2 ^ 30 := by
    rw [(Stream.eq_of_ofBlock hs).2.2]
    exact hb.words_lt
  have hcount := (measured hs hb).1
  obtain ⟨n, c₁, c₂, hint, hexec, hmachine⟩ := hu.execute_eq hs hwords (by omega) hr hn
  rw [Run.Agrees, hint, executeBlock, hexec]
  exact ⟨rfl, hmachine⟩

/-- If all instructions have words, two calls with the same arrays have the same stream. -/
theorem stream_of_arrays {qs : List Call} (hblocks : ∀ q ∈ qs, q.block.Bounded (2 ^ 29) ∧ q.block.Worded)
    {o o' : Compiler.Origin} (ho : o ∈ origins qs) (ho' : o' ∈ origins qs) (h : SameArrays o.stream o'.stream) :
    o.stream = o'.stream := by
  obtain ⟨q, hq, horigin⟩ := List.mem_filterMap.mp ho
  obtain ⟨q', hq', horigin'⟩ := List.mem_filterMap.mp ho'
  obtain ⟨hs, -⟩ := origin?_eq_some horigin
  obtain ⟨hs', -⟩ := origin?_eq_some horigin'
  exact Stream.eq_of_arrays hs hs' (by decide) (hblocks q hq).1 (hblocks q' hq').1 (hblocks q hq).2 (hblocks q' hq').2
    h.1 h.2

theorem compiled_of_serves {limits : CompileLimits} {qs : List Call} {log : List Compiler.Origin} (hlog : log ⊆ origins qs)
    (hblocks : ∀ q ∈ qs, q.block.Bounded (2 ^ 29) ∧ q.block.Worded) {o : Compiler.Origin} (ho : o ∈ origins qs) {mode : Mode}
    {u : CodeBlock} (h : Serves limits log mode o.stream u) : u.Compiled limits mode o.stream := by
  obtain ⟨o', ho', -, harrays, hu⟩ := h
  rwa [stream_of_arrays hblocks (hlog ho') ho harrays] at hu

/-! ### Steps -/

/-- An engine that compiles, with the default helpers, and whose units go back to a list of streams. -/
structure Running (limits : CompileLimits) (log : List Compiler.Origin) (pool : Option Pool) (e : Engine) : Prop where
  mode_eq : e.mode = .compiled
  helpers_eq : e.helpers = .builtin
  pool_eq : e.pool = pool
  traced : Traced limits log e.compiler e.loader

section Steps
variable {limits : CompileLimits} {log : List Compiler.Origin} {pool : Option Pool} {e : Engine}

theorem Running.interpret {mode : Mode} {s : Stream} {c : Context} (h : Running limits log pool e) :
    Running limits log pool (e.interpret mode s c).engine := by
  simp only [Engine.interpret, Mode.mode?_coe]
  exact ⟨h.mode_eq, h.helpers_eq, h.pool_eq, h.traced⟩

theorem Running.executeBlock (h : Running limits log pool e) (u : CodeBlock) (c : Context) :
    Running limits log pool (e.executeBlock u c).engine := by
  unfold Engine.executeBlock
  simp only
  split <;> exact ⟨h.mode_eq, h.helpers_eq, h.pool_eq, h.traced⟩

/-- Compiling on the spot. -/
theorem Running.runCompiling (h : Running limits log pool e) {mode : Mode} {s : Stream}
    (ho : ⟨mode, s, nameFor (.ofMode mode) s ""⟩ ∈ log) (c : Context) :
    Running limits log pool (e.runCompiling (.ofMode mode) mode s c).engine := by
  obtain ⟨htraced, -⟩ := h.traced.compileStream ho
  have hafter : Running limits log pool
      { e with
        compiler := (e.compiler.compileStream e.loader (.ofMode mode) s "").compiler
        loader := (e.compiler.compileStream e.loader (.ofMode mode) s "").loader } :=
    ⟨h.mode_eq, h.helpers_eq, h.pool_eq, htraced⟩
  unfold Engine.runCompiling
  simp only
  split
  · exact hafter.executeBlock _ c
  · exact Running.interpret ⟨h.mode_eq, h.helpers_eq, h.pool_eq, htraced⟩
  · exact hafter
  · exact hafter

end Steps

/-! ### Calls -/

section Calls
variable {limits : CompileLimits} {qs : List Call} {log : List Compiler.Origin} {e : Engine} {q : Call} {o : Compiler.Origin}

theorem mem_origins (hq : q ∈ qs) (ho : q.request.origin? = some o) : o ∈ origins qs :=
  List.mem_filterMap.mpr ⟨q, hq, ho⟩

theorem origin_eq (ho : q.request.origin? = some o) : o = ⟨q.mode, o.stream, nameFor (.ofMode q.mode) o.stream ""⟩ := by
  obtain ⟨-, hmode, hname⟩ := origin?_eq_some ho
  cases o
  simp only [Call.request] at hmode hname
  rw [hmode, hname]

theorem name_of_origin (ho : q.request.origin? = some o) :
    o.name = (Target.ofMode q.mode).defaultName (contentSum o.stream.microcodes) := by
  rw [(origin?_eq_some ho).2.2, nameFor, Call.request, if_pos rfl]

/-- Calls under one default name are of one mode. -/
theorem mode_of_name {qs' : List Call} {o' : Compiler.Origin} (ho : o ∈ origins qs) (ho' : o' ∈ origins qs')
    (h : o.name = o'.name) : o.mode = o'.mode := by
  obtain ⟨q, -, horigin⟩ := List.mem_filterMap.mp ho
  obtain ⟨q', -, horigin'⟩ := List.mem_filterMap.mp ho'
  rw [name_of_origin horigin, name_of_origin horigin'] at h
  rw [(origin?_eq_some horigin).2.1, (origin?_eq_some horigin').2.1]
  exact Target.defaultName_inj h

theorem readable_of_mem_origins (hblocks : ∀ q ∈ qs, q.block.Bounded (2 ^ 29) ∧ q.block.Worded) (ho : o ∈ origins qs) :
    o.Readable := by
  have ho' : o ∈ (qs.map Call.request).filterMap Request.origin? := by
    rw [List.filterMap_map]
    exact ho
  refine readable_of_mem (fun r hr => ?_) ho'
  obtain ⟨q, hq, rfl⟩ := List.mem_map.mp hr
  exact (hblocks q hq).1.words_lt

theorem exists_origin_of_stream {s : Stream} (hs : Stream.ofBlock q.block = .ok s) :
    ∃ o, q.request.origin? = some o ∧ o.stream = s :=
  ⟨⟨q.mode, s, nameFor (.ofMode q.mode) s ""⟩, by simp only [Request.origin?, Call.request, hs], rfl⟩

theorem run_of_origin (ho : q.request.origin? = some o) : q.run e = e.runStream q.mode o.stream q.context := by
  have hs : Stream.ofBlock q.block = .ok o.stream := (origin?_eq_some ho).1
  rw [Call.run, run, hs]

theorem run_of_faulty (ho : q.request.origin? = none) : (q.run e).engine = e := by
  rw [Request.origin?] at ho
  split at ho
  · next x hx =>
    have hs : Stream.ofBlock q.block = .error x := hx
    rw [Call.run, run, hs]
  · cases ho

/-- A unit that was found or compiled on the spot is that of the stream, and all else is interpreted. -/
theorem Running.runCompiling_agrees {pool : Option Pool} (h : Running limits (origins qs) pool e)
    (hblocks : ∀ q ∈ qs, q.block.Bounded (2 ^ 29) ∧ q.block.Worded) (hq : q ∈ qs) (ho : q.request.origin? = some o)
    (hr : q.context.machine.router ≠ .reject) (hn : q.context.machine.Normalised) :
    (e.runCompiling (.ofMode q.mode) q.mode o.stream q.context).Agrees q.mode o.stream q.context := by
  obtain ⟨hs, hmode, hname⟩ := origin?_eq_some ho
  have hmem : o ∈ origins qs := mem_origins hq ho
  obtain ⟨-, hanswers⟩ := h.traced.compileStream (origin_eq ho ▸ hmem)
  unfold Engine.runCompiling
  simp only
  split
  · next u hu =>
    obtain ⟨o', ho', hname', hserves⟩ := hanswers.unit u hu
    rw [mode_of_name ho' hmem (hname'.trans hname.symm), hmode] at hserves
    have hu' := compiled_of_serves (List.Subset.refl _) hblocks hmem hserves
    exact (agrees_executeBlock _ hs (hblocks q hq).1 hu' hr hn).after _
  · refine Run.Agrees.after ?_ _
    exact agrees_interpret h.helpers_eq
  · next x hx => exact absurd (measured hs (hblocks q hq).1).describable (hanswers.unwritable x hx)
  · next hx => exact absurd hx hanswers.crash

end Calls

/-! ### Compiling on the spot -/

section Synchronous
variable {limits : CompileLimits} {log : List Compiler.Origin} {e : Engine}

theorem Running.runStream_eq (h : Running limits log none e) (mode : Mode) (s : Stream) (c : Context) :
    e.runStream mode s c = e.runCompiling (.ofMode mode) mode s c := by
  rw [runStream, if_neg (by rw [h.mode_eq]; nofun), Target.ofNumber?_coe]
  simp only [h.pool_eq]

theorem Running.run (h : Running limits log none e) {q : Call} (hq : ∀ o, q.request.origin? = some o → o ∈ log) :
    Running limits log none (q.run e).engine := by
  cases ho : q.request.origin? with
  | none =>
    rw [run_of_faulty ho]
    exact h
  | some o =>
    rw [run_of_origin ho, h.runStream_eq]
    exact h.runCompiling (origin_eq ho ▸ hq o ho) q.context

/-- An engine without workers after some calls. -/
theorem running_after {workers : Int} (hworkers : workers ≤ 0) {history : List Call} (hread : ∀ o ∈ log, o.Readable)
    (hlog : origins history ⊆ log) : Running limits log none (after (new .compiled .builtin workers limits) history) := by
  refine List.foldlRecOn history _ ?_ fun e h q hq => ?_
  · exact ⟨rfl, rfl, if_neg (by omega), (traced_start limits).mono (List.nil_subset log) hread⟩
  · exact h.run fun o ho => hlog (mem_origins hq ho)

end Synchronous

/-- The first of some calls under a name. -/
def first? (qs : List Call) (name : String) : Option Compiler.Origin := (origins qs).find? (·.name == name)

section Background
variable {limits : CompileLimits} {history : List Call} {log : List Compiler.Origin} {e : Engine} {q : Call}
  {o : Compiler.Origin}

theorem first?_append (qs qs' : List Call) (name : String) :
    first? (qs ++ qs') name = (first? qs name).or (first? qs' name) := by
  simp only [first?, origins, List.filterMap_append, List.find?_append]

theorem mem_of_first? {name : String} (h : first? history name = some o) : o ∈ origins history ∧ o.name = name :=
  ⟨List.mem_of_find?_eq_some h, by simpa using List.find?_some h⟩

/-- What a background engine does with a stream: it runs the unit that it holds under the name, or it interprets the
    stream, and then the compile was asked for before or it is asked for now. -/
theorem runBackground_cases (e : Engine) (mode : Mode) (s : Stream) (c : Context) {name : String}
    (hname : name = (Target.ofMode mode).defaultName (contentSum s.microcodes)) :
    (∃ u, e.compiler.lookup name = some u ∧ e.runBackground {} (.ofMode mode) mode s c = e.executeBlock u c) ∨
    (name ∈ e.pending ∧ e.runBackground {} (.ofMode mode) mode s c = e.interpret mode s c) ∨
    (name ∉ e.pending ∧ ∃ k, e.runBackground {} (.ofMode mode) mode s c =
      ({ e with
          pending := e.pending ++ [name]
          compiler := (e.compiler.compileStream e.loader (.ofMode mode) s name).compiler
          loader := (e.compiler.compileStream e.loader (.ofMode mode) s name).loader
          fallbacks := k }.interpret mode s c).after (e.compiler.compileStream e.loader (.ofMode mode) s name)) := by
  have hnameFor : nameFor (.ofMode mode) s name = name := by rw [nameFor, ← hname, ite_self]
  simp only [runBackground, ← hname, Pool.submitStream, hnameFor, Bool.false_eq_true, if_false]
  split
  · next u hu => exact .inl ⟨u, hu, rfl⟩
  split
  · next hmem => exact .inr (.inl ⟨by simpa using hmem, rfl⟩)
  · next hmem => exact .inr (.inr ⟨by simpa using hmem, _, rfl⟩)

/-- An engine with workers after some calls: its units go back to the first calls under their names, and it has asked
    for the compile of every name. -/
structure Submitted (limits : CompileLimits) (history : List Call) (log : List Compiler.Origin) (e : Engine) : Prop
    extends Running limits log (some {}) e where
  first : ∀ o ∈ log, first? history o.name = some o
  pending : ∀ o ∈ origins history, o.name ∈ e.pending

theorem Submitted.runStream_eq (h : Submitted limits history log e) (mode : Mode) (s : Stream) (c : Context) :
    e.runStream mode s c = e.runBackground {} (.ofMode mode) mode s c := by
  rw [runStream, if_neg (by rw [h.mode_eq]; nofun), Target.ofNumber?_coe]
  simp only [h.pool_eq]

/-- A call runs the unit that is held under its name. -/
theorem Submitted.run_of_lookup (h : Submitted limits history log e) (ho : q.request.origin? = some o) {u : CodeBlock}
    (hu : e.compiler.lookup o.name = some u) : q.run e = e.executeBlock u q.context := by
  rw [name_of_origin ho] at hu
  rw [run_of_origin ho, h.runStream_eq, runBackground]
  simp only [hu]

/-- A name that a unit is found under was called before. -/
theorem Submitted.first_of_lookup (h : Submitted limits history log e) {name : String} {u : CodeBlock}
    (hu : e.compiler.lookup name = some u) :
    ∃ o ∈ log, first? history name = some o ∧ Serves limits log o.mode o.stream u := by
  obtain ⟨o, ho, rfl, hserves⟩ := h.traced.cached name u (mem_of_lookup hu)
  exact ⟨o, ho, h.first o ho, hserves⟩

theorem Submitted.first_append (h : Submitted limits history log e) (q : Call) :
    ∀ o ∈ log, first? (history ++ [q]) o.name = some o := by
  intro o ho
  rw [first?_append, h.first o ho, Option.some_or]

theorem pending_append {names : List String} (h : ∀ o ∈ origins history, o.name ∈ names)
    (hq : ∀ o, q.request.origin? = some o → o.name ∈ names) : ∀ o ∈ origins (history ++ [q]), o.name ∈ names := by
  intro o ho
  rw [origins, List.filterMap_append, List.mem_append] at ho
  rcases ho with ho | ho
  · exact h o ho
  · obtain ⟨q', hq', ho⟩ := List.mem_filterMap.mp ho
    rw [List.mem_singleton.mp hq'] at ho
    exact hq o ho

theorem pending_executeBlock (u : CodeBlock) (c : Context) : (e.executeBlock u c).engine.pending = e.pending := by
  unfold executeBlock
  simp only
  split <;> rfl

theorem pending_interpret (mode : Mode) (s : Stream) (c : Context) : (e.interpret mode s c).engine.pending = e.pending := by
  simp only [interpret, Mode.mode?_coe]

/-- Asking for the compile of a name that was not called before. -/
theorem Submitted.submit (h : Submitted limits history log e) (ho : q.request.origin? = some o) (hread : o.Readable)
    (hfresh : o.name ∉ e.pending) (k : Nat) :
    Submitted limits (history ++ [q]) (log ++ [o])
      { e with
        pending := e.pending ++ [o.name]
        compiler := (e.compiler.compileStream e.loader (.ofMode q.mode) o.stream o.name).compiler
        loader := (e.compiler.compileStream e.loader (.ofMode q.mode) o.stream o.name).loader
        fallbacks := k } := by
  have hnone : first? history o.name = none := by
    cases hfirst : first? history o.name with
    | none => rfl
    | some o' =>
      obtain ⟨ho', hname⟩ := mem_of_first? hfirst
      exact absurd (hname ▸ h.pending o' ho') hfresh
  have hreads : ∀ o' ∈ log ++ [o], o'.Readable := by
    intro o' ho'
    rcases List.mem_append.mp ho' with ho' | ho'
    · exact h.traced.readable o' ho'
    · rw [List.mem_singleton.mp ho']
      exact hread
  have hmem : ⟨q.mode, o.stream, nameFor (.ofMode q.mode) o.stream o.name⟩ ∈ log ++ [o] := by
    have hnameFor : nameFor (.ofMode q.mode) o.stream o.name = o.name := by rw [nameFor, ← name_of_origin ho, ite_self]
    have hmode : o.mode = q.mode := (origin?_eq_some ho).2.1
    rw [hnameFor, ← hmode]
    simp
  obtain ⟨htraced, -⟩ := (h.traced.mono (List.subset_append_left log [o]) hreads).compileStream hmem
  refine ⟨⟨h.mode_eq, h.helpers_eq, h.pool_eq, htraced⟩, fun o' ho' => ?_, ?_⟩
  · rcases List.mem_append.mp ho' with ho' | ho'
    · exact h.first_append q o' ho'
    · rw [List.mem_singleton.mp ho', first?_append, hnone, Option.none_or]
      simp [first?, origins, ho]
  · refine pending_append (fun o' ho' => List.mem_append_left _ (h.pending o' ho')) fun o' ho' => ?_
    rw [ho] at ho'
    cases ho'
    simp

theorem Submitted.run (h : Submitted limits history log e) (hread : ∀ o, q.request.origin? = some o → o.Readable) :
    ∃ log', Submitted limits (history ++ [q]) log' (q.run e).engine := by
  cases ho : q.request.origin? with
  | none =>
    rw [run_of_faulty ho]
    exact ⟨log, h.toRunning, h.first_append q, pending_append h.pending (by rw [ho]; nofun)⟩
  | some o =>
    -- A name that was called before needs no more than that the rest of the engine stays.
    have hcalled : o.name ∈ e.pending → ∀ o', q.request.origin? = some o' → o'.name ∈ e.pending := by
      intro hmem o' ho'
      rw [ho] at ho'
      cases ho'
      exact hmem
    rw [run_of_origin ho, h.runStream_eq]
    rcases runBackground_cases e q.mode o.stream q.context (name_of_origin ho) with
      ⟨u, hu, hrun⟩ | ⟨hmem, hrun⟩ | ⟨hfresh, k, hrun⟩
    · obtain ⟨o', -, hfirst, -⟩ := h.first_of_lookup hu
      obtain ⟨ho', hname⟩ := mem_of_first? hfirst
      refine ⟨log, ?_, h.first_append q, ?_⟩
      · rw [hrun]
        exact h.executeBlock u q.context
      · rw [hrun, pending_executeBlock]
        exact pending_append h.pending (hcalled (hname ▸ h.pending o' ho'))
    · refine ⟨log, ?_, h.first_append q, ?_⟩
      · rw [hrun]
        exact h.interpret
      · rw [hrun, pending_interpret]
        exact pending_append h.pending (hcalled hmem)
    · have hsubmitted := h.submit ho (hread o ho) hfresh k
      rw [hrun]
      refine ⟨log ++ [o], hsubmitted.interpret, hsubmitted.first, ?_⟩
      rw [Run.after, pending_interpret]
      exact hsubmitted.pending

/-- A unit that is found is that of the first stream under the name. -/
theorem Submitted.runBackground_agrees (h : Submitted limits history log e)
    (hblocks : ∀ p ∈ history ++ [q], p.block.Bounded (2 ^ 29) ∧ p.block.Worded) (ho : q.request.origin? = some o)
    (hr : q.context.machine.router ≠ .reject) (hn : q.context.machine.Normalised) :
    (e.runBackground {} (.ofMode q.mode) q.mode o.stream q.context).Agrees q.mode o.stream q.context ∨
      ∃ o', first? history o.name = some o' ∧ o'.mode = q.mode ∧
        (e.runBackground {} (.ofMode q.mode) q.mode o.stream q.context).Agrees q.mode o'.stream q.context := by
  rcases runBackground_cases e q.mode o.stream q.context (name_of_origin ho) with
    ⟨u, hu, hrun⟩ | ⟨-, hrun⟩ | ⟨-, k, hrun⟩
  · obtain ⟨o', -, hfirst, hserves⟩ := h.first_of_lookup hu
    obtain ⟨ho', hname⟩ := mem_of_first? hfirst
    obtain ⟨q', hq', horigin'⟩ := List.mem_filterMap.mp ho'
    have hmode : o'.mode = q.mode :=
      (mode_of_name ho' (mem_origins (List.mem_singleton_self q) ho) hname).trans (origin?_eq_some ho).2.1
    have hbefore : ∀ p ∈ history, p.block.Bounded (2 ^ 29) ∧ p.block.Worded :=
      fun p hp => hblocks p (List.mem_append_left [q] hp)
    rw [hmode] at hserves
    have hu' := compiled_of_serves (fun o ho => (mem_of_first? (h.first o ho)).1) hbefore ho' hserves
    rw [hrun]
    exact .inr ⟨o', hfirst, hmode, agrees_executeBlock e (origin?_eq_some horigin').1 (hbefore q' hq').1 hu' hr hn⟩
  · rw [hrun]
    exact .inl (agrees_interpret h.helpers_eq)
  · rw [hrun]
    refine .inl (Run.Agrees.after ?_ _)
    exact agrees_interpret h.helpers_eq

/-- A background engine after some calls. -/
theorem submitted_after (limits : CompileLimits) {workers : Int} (hworkers : 0 < workers) (hread : ∀ o ∈ origins history, o.Readable) :
    ∃ log, Submitted limits history log (after (new .compiled .builtin workers limits) history) := by
  induction history using List.reverseRecOn with
  | nil => exact ⟨[], ⟨rfl, rfl, if_pos ⟨hworkers, rfl⟩, traced_start limits⟩, nofun, nofun⟩
  | append_singleton history q ih =>
    obtain ⟨log, h⟩ := ih fun o ho => hread o (by simp [origins] at ho ⊢; exact .inl ho)
    rw [after, List.foldl_append, List.foldl_cons, List.foldl_nil]
    exact h.run fun o ho => hread o (mem_origins (by simp) ho)

/-- The first call of a background engine compiles what it asks for. -/
theorem compiler_after_first (limits : CompileLimits) {workers : Int} (hworkers : 0 < workers)
    (ho : q.request.origin? = some o) :
    (after (new .compiled .builtin workers limits) [q]).compiler = (Compiler.after limits [q.request]).1 := by
  obtain ⟨log, h⟩ : ∃ log, Submitted limits [] log (new .compiled .builtin workers limits) :=
    submitted_after limits hworkers fun o ho => by cases ho
  have hnameFor : nameFor (.ofMode q.mode) o.stream o.name = nameFor (.ofMode q.mode) o.stream "" := by
    rw [nameFor, ← name_of_origin ho, ite_self]
    exact (origin?_eq_some ho).2.2
  have hrun : q.run (new .compiled .builtin workers limits) =
      (new .compiled .builtin workers limits).runBackground {} (.ofMode q.mode) q.mode o.stream q.context := by
    rw [run_of_origin ho, h.runStream_eq]
  have hanswer : (Compiler.after limits [q.request]).1 =
      (compileStream { limits } { helpers := .builtin } (.ofMode q.mode) o.stream o.name).compiler := by
    have hs : Stream.ofBlock q.block = .ok o.stream := (origin?_eq_some ho).1
    simp only [Compiler.after, List.foldl_cons, List.foldl_nil, Request.answer, compile, hs, compileStream, hnameFor,
      Call.request]
  rw [hanswer, after, List.foldl_cons, List.foldl_nil, hrun]
  rcases runBackground_cases (new .compiled .builtin workers limits) q.mode o.stream q.context (name_of_origin ho) with
    ⟨u, hu, -⟩ | ⟨hpending, -⟩ | ⟨-, k, heq⟩
  · cases hu
  · cases hpending
  · rw [heq]
    simp only [Run.after, interpret, Mode.mode?_coe]
    rfl

end Background

/-- An engine with workers does with every call what the interpreter does with its stream, or with the stream that was
    called first in the mode under the same default name. So it does what the interpreter does if these two have the
    same arrays. -/
theorem background_interprets_first (limits : CompileLimits) {workers : Int} (hworkers : 0 < workers)
    (history : List Call) (q : Call) (hblocks : ∀ p ∈ history ++ [q], p.block.Bounded (2 ^ 29) ∧ p.block.Worded)
    (hr : q.context.machine.router ≠ .reject) (hn : q.context.machine.Normalised) {o : Compiler.Origin}
    (ho : q.request.origin? = some o) :
    ((q.run (after (new .compiled .builtin workers limits) history)).Agrees q.mode o.stream q.context ∨
      ∃ o', first? history o.name = some o' ∧ o'.mode = q.mode ∧
        (q.run (after (new .compiled .builtin workers limits) history)).Agrees q.mode o'.stream q.context) ∧
    ((∀ o', first? history o.name = some o' → SameArrays o'.stream o.stream) →
      (q.run (after (new .compiled .builtin workers limits) history)).Agrees q.mode o.stream q.context) := by
  have hmem : o ∈ origins (history ++ [q]) := mem_origins (by simp) ho
  have hsub : origins history ⊆ origins (history ++ [q]) := by simp [origins]
  obtain ⟨log, h⟩ := submitted_after limits hworkers fun o ho => readable_of_mem_origins hblocks (hsub ho)
  rw [run_of_origin ho, h.runStream_eq]
  have key := h.runBackground_agrees hblocks ho hr hn
  refine ⟨key, fun harrays => ?_⟩
  rcases key with hagrees | ⟨o', hfirst, -, hagrees⟩
  · exact hagrees
  · rwa [stream_of_arrays hblocks (hsub (mem_of_first? hfirst).1) hmem (harrays o' hfirst)] at hagrees

/-- A block that was called before: its second call runs the unit. -/
theorem background_interprets_first_again :
    ∃ o, Request.origin? ⟨.real, [⟨2, [156]⟩], ""⟩ = some o ∧
      (Call.run ⟨.real, [⟨2, [156]⟩], ⟨Machine.reset (.ofSize 0), []⟩⟩ (after (new .compiled .builtin 1 {})
        [⟨.real, [⟨2, [156]⟩], ⟨Machine.reset (.ofSize 0), []⟩⟩])).Agrees .real o.stream ⟨Machine.reset (.ofSize 0), []⟩ := by
  obtain ⟨s, hs, -⟩ := exists_ok_of_any (show (Stream.ofBlock [⟨2, [156]⟩]).toOption.any (fun _ => true) = true by decide)
  obtain ⟨o, ho, -⟩ := exists_origin_of_stream (q := ⟨.real, [⟨2, [156]⟩], ⟨Machine.reset (.ofSize 0), []⟩⟩) hs
  have hblocks : ∀ p ∈ [⟨.real, [⟨2, [156]⟩], ⟨Machine.reset (.ofSize 0), []⟩⟩] ++
      [(⟨.real, [⟨2, [156]⟩], ⟨Machine.reset (.ofSize 0), []⟩⟩ : Call)], p.block.Bounded (2 ^ 29) ∧ p.block.Worded := by
    intro p hp
    simp only [List.cons_append, List.nil_append, List.mem_cons, List.not_mem_nil, or_false, or_self] at hp
    subst hp
    decide
  have hr : (Machine.reset (.ofSize 0)).router ≠ .reject := by decide
  obtain ⟨-, hagrees⟩ := background_interprets_first {} Int.one_pos _ _ hblocks hr (Machine.normalised_reset _) ho
  refine ⟨o, ho, hagrees fun o' ho' => ?_⟩
  obtain ⟨q, hq, horigin⟩ := List.mem_filterMap.mp (mem_of_first? ho').1
  rw [List.mem_singleton.mp hq, ho] at horigin
  cases horigin
  exact ⟨rfl, rfl⟩

/-- Of two blocks with the same words the second runs the unit of the first: EIP moves by 1 where it should by 2. -/
theorem background_runs_other_length :
    (Call.run ⟨.real, [⟨2, [156]⟩], ⟨Machine.reset (.ofSize 0), []⟩⟩ (after (new .compiled .builtin 1 {})
      [⟨.real, [⟨1, [156]⟩], ⟨Machine.reset (.ofSize 0), []⟩⟩])).context.machine.eip = 1 ∧
    (Stream.ofBlock [⟨2, [156]⟩]).toOption.map
      (fun s => (runMode .real .builtin s ⟨Machine.reset (.ofSize 0), []⟩).2.machine.eip) = some 2 := by
  have hsum : contentSum [156] = [64, 200, 91, 255, 146, 56, 25, 155, 88, 186, 164, 33, 95, 76, 124, 222, 255, 254, 104, 97,
      78, 84, 56, 233, 77, 242, 14, 137, 103, 7, 193, 171] := by
    rw [contentSum, Digest.blake2b256_of_short (by decide)]
    decide +kernel
  have hunit : ((Compiler.after {} [Call.request ⟨.real, [⟨1, [156]⟩], ⟨Machine.reset (.ofSize 0), []⟩⟩]).1.lookup
      ((Target.ofMode .real).defaultName (contentSum [156]))).any
        (fun u => (u.execute ⟨Machine.reset (.ofSize 0), []⟩).2.machine.eip = 1) = true := by
    rw [Compiler.after, List.foldl_cons, List.foldl_nil, Call.request,
      Request.answer_eq_answerWith (r := ⟨.real, [⟨1, [156]⟩], ""⟩) hsum, hsum]
    decide +kernel
  obtain ⟨u, hu, heip⟩ := (Option.any_eq_true _ _).mp hunit
  obtain ⟨s₁, hs₁, -⟩ := exists_ok_of_any (show (Stream.ofBlock [⟨1, [156]⟩]).toOption.any (fun _ => true) = true by decide)
  obtain ⟨s₂, hs₂, hwords⟩ := exists_ok_of_any
    (show (Stream.ofBlock [⟨2, [156]⟩]).toOption.any (fun s => s.microcodes = [156]) = true by decide)
  obtain ⟨o₁, ho₁, -⟩ := exists_origin_of_stream (q := ⟨.real, [⟨1, [156]⟩], ⟨Machine.reset (.ofSize 0), []⟩⟩) hs₁
  obtain ⟨o₂, ho₂, rfl⟩ := exists_origin_of_stream (q := ⟨.real, [⟨2, [156]⟩], ⟨Machine.reset (.ofSize 0), []⟩⟩) hs₂
  have hread : ∀ o ∈ origins [⟨.real, [⟨1, [156]⟩], ⟨Machine.reset (.ofSize 0), []⟩⟩], o.Readable := fun o ho =>
    readable_of_mem_origins (List.forall_mem_singleton.mpr (by decide)) ho
  obtain ⟨log, h⟩ := submitted_after {} Int.one_pos hread
  refine ⟨?_, by decide⟩
  -- Both names come from the same words, so the second call finds the unit of the first.
  rw [h.run_of_lookup ho₂ (u := u), executeBlock_context]
  · exact of_decide_eq_true heip
  · rw [compiler_after_first {} Int.one_pos ho₁, name_of_origin ho₂, of_decide_eq_true hwords]
    exact hu

end Engine
end MicroBlock
