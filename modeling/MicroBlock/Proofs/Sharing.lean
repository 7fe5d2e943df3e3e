import Mathlib
import MicroBlock.Proofs.Accounting
import MicroBlock.Proofs.Caches

/-! Which requests share a unit.

A compiler finds a unit under the name of a request, or under its content: the hash of the microcode, within a mode.
The index of contents holds one unit for each, the first that was loaded, and what has its microcode at other
positions is not found there. So the requests for a block share a unit as long as they have the name in common, or as
long as the first block with their microcode had their positions too. -/

namespace MicroBlock.Compiler

/-- A request that was answered with a unit. -/
structure Served where
  origin : Origin
  unit : CodeBlock

/-- The content of a request, within a mode. -/
def Served.sum (x : Served) : Bytes := contentSum x.origin.stream.microcodes

def Request.served? (r : Request) (cl : Compiler × Loader) : Option Served :=
  r.origin?.bind fun o => (r.answer cl).result.toOption.map fun u => ⟨o, u⟩

/-- The requests that are answered with units, in order. -/
def serve (cl : Compiler × Loader) : List Request → List Served
  | [] => []
  | r :: rs => (r.served? cl).toList ++ serve ((r.answer cl).compiler, (r.answer cl).loader) rs

/-- The requests that a new compiler, with its own loader, answers with units. -/
def served (limits : CompileLimits) (rs : List Request) : List Served := serve ({ limits }, { helpers := .builtin }) rs

/-- The mode that a name belongs to: the one in which it was first served. -/
def owner (log : List Served) (name : String) : Option Mode :=
  (log.find? (·.origin.name == name)).map (·.origin.mode)

/-- The first request that was served for a content, under a name that belongs to the mode. -/
def first? (log : List Served) (mode : Mode) (sum : Bytes) : Option Served :=
  log.find? fun x => owner log x.origin.name == some mode && x.sum == sum

/-- The request whose unit the compiler offers to one: the first for its content, in the mode its name belongs to. -/
def leader (log : List Served) (x : Served) : Option Served :=
  (owner log x.origin.name).bind fun mode => first? log mode x.sum

/-! ### Logs -/

section Log
variable {log : List Served} {e : Served}

theorem forall_served {P : Served → Prop} (hlog : ∀ x ∈ log, P x) (he : P e) : ∀ x ∈ log ++ [e], P x :=
  List.forall_mem_append.mpr ⟨hlog, List.forall_mem_singleton.mpr he⟩

theorem owner_append (log : List Served) (e : Served) (name : String) :
    owner (log ++ [e]) name = (owner log name).or (if e.origin.name = name then some e.origin.mode else none) := by
  simp only [owner, List.find?_append, Option.map_or, List.find?_singleton]
  split <;> simp_all

theorem owner_isSome {x : Served} (hx : x ∈ log) : (owner log x.origin.name).isSome = true := by
  simp only [owner, Option.isSome_map, List.find?_isSome]
  exact ⟨x, hx, beq_self_eq_true _⟩

theorem exists_of_owner {name : String} {mode : Mode} (h : owner log name = some mode) : ∃ x ∈ log, x.origin.name = name := by
  obtain ⟨x, hx, -⟩ := Option.map_eq_some_iff.mp h
  exact ⟨x, List.mem_of_find?_eq_some hx, by simpa using List.find?_some hx⟩

theorem owner_append_of_mem {x : Served} (hx : x ∈ log) : owner (log ++ [e]) x.origin.name = owner log x.origin.name := by
  obtain ⟨mode, hmode⟩ := Option.isSome_iff_exists.mp (owner_isSome hx)
  rw [owner_append, hmode, Option.some_or]

theorem first?_eq_some {mode : Mode} {sum : Bytes} {z : Served} (h : first? log mode sum = some z) :
    z ∈ log ∧ owner log z.origin.name = some mode ∧ z.sum = sum := by
  have hz := List.find?_some h
  simp only [Bool.and_eq_true, beq_iff_eq] at hz
  exact ⟨List.mem_of_find?_eq_some h, hz⟩

theorem exists_first? {x : Served} (hx : x ∈ log) {mode : Mode} (hmode : owner log x.origin.name = some mode) :
    ∃ z, first? log mode x.sum = some z := by
  rw [← Option.isSome_iff_exists, first?, List.find?_isSome]
  exact ⟨x, hx, by simp [hmode]⟩

theorem first?_append (log : List Served) (e : Served) (mode : Mode) (sum : Bytes) :
    first? (log ++ [e]) mode sum = (first? log mode sum).or
      (if owner (log ++ [e]) e.origin.name = some mode ∧ e.sum = sum then some e else none) := by
  have hlog : log.find? (fun x => owner (log ++ [e]) x.origin.name == some mode && x.sum == sum) = first? log mode sum := by
    refine List.find?_congr fun x hx => ?_
    rw [owner_append_of_mem hx]
  rw [first?, List.find?_append, hlog, List.find?_singleton]
  simp only [Bool.and_eq_true, beq_iff_eq]

end Log

/-! ### Answers -/

section Answers
variable {c : Compiler} {l : Loader}

theorem countFailure_keeps (r : Compilation) :
    (countFailure r).compiler.cache = r.compiler.cache ∧ (countFailure r).compiler.byContent = r.compiler.byContent ∧
      (countFailure r).loader = r.loader := by
  unfold countFailure
  split <;> exact ⟨rfl, rfl, rfl⟩

theorem lookup_append_singleton {α β : Type} [BEq α] [LawfulBEq α] [DecidableEq α] (xs : List (α × β)) (a : α) (b : β)
    (k : α) : (xs ++ [(a, b)]).lookup k = (xs.lookup k).or (if k = a then some b else none) := by
  rw [List.lookup_append, List.lookup_cons, List.lookup_nil]
  by_cases hk : k = a
  · simp [hk]
  · simp [hk, beq_eq_false_iff_ne.mpr hk]

/-- The index of contents keeps the first unit of each. -/
theorem lookup_enterContent (c : Compiler) (key : ContentKey) (u : CodeBlock) (k : ContentKey) :
    (c.enterContent key u).byContent.lookup k = (c.byContent.lookup k).or (if k = key then some u else none) := by
  unfold enterContent
  split
  · next h =>
    obtain ⟨b, hb⟩ := Option.isSome_iff_exists.mp h
    by_cases hk : k = key
    · rw [hk, hb, Option.some_or]
    · rw [if_neg hk, Option.or_none]
  · exact lookup_append_singleton c.byContent key u k

theorem load_result_ok {t : Target} {s : Stream} {key : ContentKey} {name : String} {u : CodeBlock} {r : Compilation}
    (hr : c.load l t s key name = r) (hu : r.result = .ok u) :
    u.name = name ∧ l.find? name = none ∧ r.compiler.cache = c.cache ++ [(name, u)] ∧
      (∀ k, r.compiler.byContent.lookup k = (c.byContent.lookup k).or (if k = key then some u else none)) ∧
      ∃ calls, r.loader = { l with blocks := l.blocks ++ [u], calls } := by
  unfold Compiler.load at hr
  split at hr
  · subst hr
    cases hu
  next data hdata =>
  rcases l.load_spec name data with ⟨e, calls, heq⟩ | ⟨b, calls, heq, hname, -, -, hfind⟩
  · rw [heq] at hr
    split at hr
    · subst hr
      cases hu
    · subst hr
      cases hu
    · next h => cases h
  · rw [heq] at hr
    subst hr
    cases hu
    exact ⟨hname, hfind, by simp [enter], fun k => lookup_enterContent _ key u k, calls, rfl⟩

/-- How looking for a stream finds a unit: under its name, under its content, or not at all, and then it is loaded. -/
theorem find_result_ok {limits : CompileLimits} {origins : List Origin} (h : Traced limits origins c l) {t : Target}
    {s : Stream} {sum : Bytes} {name : String} {u : CodeBlock} {r : Compilation} (hr : c.find l t s sum name = r)
    (hu : r.result = .ok u) :
    (c.lookup name = some u ∧ r.compiler.cache = c.cache ∧ r.compiler.byContent = c.byContent ∧ r.loader = l) ∨
      c.lookup name = none ∧ r.compiler.cache = c.cache ++ [(name, u)] ∧
        ((c.byContent.lookup ⟨t.name, sum⟩ = some u ∧ r.compiler.byContent = c.byContent ∧ r.loader = l) ∨
          (∀ b, c.byContent.lookup ⟨t.name, sum⟩ = some b → sameBlock b s = false) ∧ u.name = name ∧
            l.find? name = none ∧
            (∀ k, r.compiler.byContent.lookup k =
              (c.byContent.lookup k).or (if k = ⟨t.name, sum⟩ then some u else none)) ∧
            ∃ calls, r.loader = { l with blocks := l.blocks ++ [u], calls }) := by
  unfold Compiler.find at hr
  simp only at hr
  split at hr
  · next b hb =>
    split at hr
    · subst hr
      cases hu
      exact .inl ⟨hb, rfl, rfl, rfl⟩
    · subst hr
      cases hu
  next hnone =>
  refine .inr ⟨hnone, ?_⟩
  split at hr
  · next b hb =>
    -- What is loaded is in the cache under its name.
    simp only [Loader.find?, h.closed_eq, Option.isSome_none, Bool.false_eq_true, if_false] at hb
    have hname : b.name = name := by simpa using List.find?_some hb
    have hfound := h.loaded b (List.mem_of_find?_eq_some hb)
    rw [hname, hnone] at hfound
    cases hfound
  split at hr
  · next b hb =>
    split at hr
    · subst hr
      cases hu
      exact ⟨rfl, .inl ⟨hb, rfl, rfl⟩⟩
    · next hsame =>
      obtain ⟨hname, hfind, hcache, hindex, hloader⟩ := load_result_ok hr hu
      refine ⟨hcache, .inr ⟨fun b' hb' => ?_, hname, hfind, hindex, hloader⟩⟩
      rw [hb] at hb'
      cases hb'
      simpa using hsame
  · next hb =>
    obtain ⟨hname, hfind, hcache, hindex, hloader⟩ := load_result_ok hr hu
    refine ⟨hcache, .inr ⟨fun b' hb' => ?_, hname, hfind, hindex, hloader⟩⟩
    rw [hb] at hb'
    cases hb'

end Answers

/-! ### The law -/

/-- What the cache, the index of contents and the loader hold, in terms of the requests served so far. -/
structure Shared (log : List Served) (c : Compiler) (l : Loader) : Prop where
  named : ∀ x ∈ log, c.lookup x.origin.name = some x.unit
  known : ∀ n u, c.lookup n = some u → (owner log n).isSome = true
  indexed : ∀ mode sum, c.byContent.lookup ⟨(Target.ofMode mode).name, sum⟩ = (first? log mode sum).map (·.unit)
  same : ∀ x ∈ log, sameBlock x.unit x.origin.stream = true
  loaded : ∀ x ∈ log, l.find? x.unit.name = some x.unit
  /-- The name of a unit belongs to the mode that the names of its requests belong to. -/
  owner_unit : ∀ x ∈ log, owner log x.unit.name = owner log x.origin.name
  /-- A request has the unit that the index offers it, if that has its arrays, and else the one of its own name. -/
  offered : ∀ x ∈ log, ∀ mode u, owner log x.origin.name = some mode →
    c.byContent.lookup ⟨(Target.ofMode mode).name, x.sum⟩ = some u →
    if sameBlock u x.origin.stream then x.unit = u else x.unit.name = x.origin.name

theorem shared_start (limits : CompileLimits) : Shared [] { limits } { helpers := .builtin } :=
  ⟨nofun, nofun, fun _ _ => rfl, nofun, nofun, nofun, nofun⟩

section Law
variable {log : List Served} {c c' : Compiler} {l l' : Loader} {e : Served}

theorem sameBlock_iff {u : CodeBlock} {s : Stream} :
    sameBlock u s = true ↔ u.microcodes = s.microcodes ∧ u.positions = s.positions := by
  simp only [sameBlock, Bool.and_eq_true, beq_iff_eq]

theorem Shared.owner_eq_none (h : Shared log c l) {n : String} (hn : c.lookup n = none) : owner log n = none := by
  rw [← Option.not_isSome_iff_eq_none]
  intro hsome
  obtain ⟨mode, hmode⟩ := Option.isSome_iff_exists.mp hsome
  obtain ⟨f, hf, hname⟩ := exists_of_owner hmode
  rw [← hname, h.named f hf] at hn
  cases hn

theorem Shared.congr (h : Shared log c l) (hcache : c'.cache = c.cache) (hindex : c'.byContent = c.byContent)
    (hfind : ∀ n, l'.find? n = l.find? n) : Shared log c' l' := by
  have hlookup : ∀ n, c'.lookup n = c.lookup n := fun n => by rw [Compiler.lookup, hcache, Compiler.lookup]
  exact ⟨fun x hx => (hlookup _).trans (h.named x hx), fun n u hu => h.known n u ((hlookup n).symm.trans hu),
    fun mode sum => hindex ▸ h.indexed mode sum, h.same, fun x hx => (hfind _).trans (h.loaded x hx), h.owner_unit,
    fun x hx mode u hmode hu => h.offered x hx mode u hmode (hindex ▸ hu)⟩

theorem Shared.append_cached (h : Shared log c l) (hu : c.lookup e.origin.name = some e.unit)
    (hsame : sameBlock e.unit e.origin.stream = true) : Shared (log ++ [e]) c l := by
  obtain ⟨mode, hmode⟩ := Option.isSome_iff_exists.mp (h.known _ _ hu)
  obtain ⟨f, hf, hname⟩ := exists_of_owner hmode
  have hunit : f.unit = e.unit := by
    have hf' := h.named f hf
    rw [hname, hu] at hf'
    exact (Option.some.inj hf').symm
  have hmicro : f.origin.stream.microcodes = e.origin.stream.microcodes := by
    rw [← (sameBlock_iff.mp (h.same f hf)).1, ← (sameBlock_iff.mp hsame).1, hunit]
  have hpos : f.origin.stream.positions = e.origin.stream.positions := by
    rw [← (sameBlock_iff.mp (h.same f hf)).2, ← (sameBlock_iff.mp hsame).2, hunit]
  have hsum : f.sum = e.sum := congrArg contentSum hmicro
  have howner : ∀ n, owner (log ++ [e]) n = owner log n := by
    intro n
    rw [owner_append]
    split
    · next hn =>
      rw [← hn, hmode]
      rfl
    · exact Option.or_none
  -- An earlier request has the name and the content, so this one is not the first.
  have hfirst : ∀ mode sum, first? (log ++ [e]) mode sum = first? log mode sum := by
    intro mode' sum
    rw [first?_append]
    split
    · next hq =>
      rw [howner, ← hname] at hq
      obtain ⟨z, hz⟩ := exists_first? hf hq.1
      rw [hsum, hq.2] at hz
      rw [hz, Option.some_or]
    · exact Option.or_none
  refine ⟨forall_served h.named hu, fun n u hn => ?_, fun mode sum => ?_, forall_served h.same hsame,
    forall_served h.loaded ?_, ?_, ?_⟩
  · rw [howner]
    exact h.known n u hn
  · rw [hfirst]
    exact h.indexed mode sum
  · exact hunit ▸ h.loaded f hf
  · simp only [howner]
    exact forall_served h.owner_unit (by rw [← hunit, ← hname]; exact h.owner_unit f hf)
  · simp only [howner]
    refine forall_served h.offered fun mode u hmode hu => ?_
    have hf' := h.offered f hf mode u (hname ▸ hmode) (hsum ▸ hu)
    rwa [hunit, hname, sameBlock, hmicro, hpos, ← sameBlock] at hf'

/-- A new name takes the unit that the index offers, or the one loaded for it; what is common to both. -/
theorem Shared.append_new (h : Shared log c l) (hnone : c.lookup e.origin.name = none)
    (hcache : c'.cache = c.cache ++ [(e.origin.name, e.unit)])
    (hindex : ∀ k, c'.byContent.lookup k = (c.byContent.lookup k).or
      (if k = ⟨(Target.ofMode e.origin.mode).name, e.sum⟩ then some e.unit else none))
    (hsame : sameBlock e.unit e.origin.stream = true) (hloaded : ∀ x ∈ log ++ [e], l'.find? x.unit.name = some x.unit)
    (howner : owner (log ++ [e]) e.unit.name = some e.origin.mode)
    (hoffered : ∀ u, c'.byContent.lookup ⟨(Target.ofMode e.origin.mode).name, e.sum⟩ = some u →
      if sameBlock u e.origin.stream then e.unit = u else e.unit.name = e.origin.name) :
    Shared (log ++ [e]) c' l' := by
  have hmode : owner (log ++ [e]) e.origin.name = some e.origin.mode := by
    rw [owner_append, h.owner_eq_none hnone, if_pos rfl, Option.none_or]
  have hkeep {n : String} {mode : Mode} (hn : owner log n = some mode) : owner (log ++ [e]) n = some mode := by
    rw [owner_append, hn, Option.some_or]
  have hlookup : ∀ n, c'.lookup n = (c.lookup n).or (if n = e.origin.name then some e.unit else none) := by
    intro n
    rw [Compiler.lookup, hcache, lookup_append_singleton, Compiler.lookup]
  refine ⟨?_, ?_, fun mode sum => ?_, ?_, hloaded, ?_, ?_⟩
  · refine forall_served (fun x hx => ?_) ?_
    · rw [hlookup, h.named x hx, Option.some_or]
    · rw [hlookup, hnone, if_pos rfl, Option.none_or]
  · intro n u hn
    rw [hlookup] at hn
    rw [owner_append]
    cases hold : c.lookup n with
    | some u' =>
      obtain ⟨mode, hmode⟩ := Option.isSome_iff_exists.mp (h.known n u' hold)
      rw [hmode]
      rfl
    | none =>
      rw [hold, Option.none_or] at hn
      split at hn
      · next heq => simp [heq]
      · cases hn
  · -- An earlier request with the content stays the one that the index offers.
    rw [hindex, h.indexed, first?_append, Option.map_or, hmode]
    congr 1
    by_cases hk : e.origin.mode = mode ∧ e.sum = sum
    · simp [hk.1, hk.2]
    · have hne : (⟨(Target.ofMode mode).name, sum⟩ : ContentKey) ≠ ⟨(Target.ofMode e.origin.mode).name, e.sum⟩ := by
        intro heq
        obtain ⟨htarget, hsum⟩ := ContentKey.mk.inj heq
        exact hk ⟨(Target.name_inj htarget).symm, hsum.symm⟩
      rw [if_neg hne, if_neg (by simpa using hk), Option.map_none]
  · exact forall_served h.same hsame
  · refine forall_served (fun x hx => ?_) (howner.trans hmode.symm)
    obtain ⟨mode, hx'⟩ := Option.isSome_iff_exists.mp (owner_isSome hx)
    rw [hkeep hx', hkeep ((h.owner_unit x hx).trans hx')]
  · refine forall_served (fun x hx mode u hx' hu => ?_) fun mode u he hu => ?_
    · rw [owner_append_of_mem hx] at hx'
      obtain ⟨z, hz⟩ := exists_first? hx hx'
      have hold : c.byContent.lookup ⟨(Target.ofMode mode).name, x.sum⟩ = some z.unit := by rw [h.indexed, hz]; rfl
      rw [hindex, hold, Option.some_or] at hu
      cases hu
      exact h.offered x hx mode _ hx' hold
    · rw [hmode] at he
      cases he
      exact hoffered u hu

theorem Shared.append_aliased (h : Shared log c l) (hnone : c.lookup e.origin.name = none)
    (hcache : c'.cache = c.cache ++ [(e.origin.name, e.unit)]) (hcontent : c'.byContent = c.byContent)
    (hu : c.byContent.lookup ⟨(Target.ofMode e.origin.mode).name, e.sum⟩ = some e.unit)
    (hsame : sameBlock e.unit e.origin.stream = true) : Shared (log ++ [e]) c' l := by
  have hfirst := h.indexed e.origin.mode e.sum
  rw [hu] at hfirst
  obtain ⟨z, hz, hunit⟩ := Option.map_eq_some_iff.mp hfirst.symm
  obtain ⟨hmem, howner, -⟩ := first?_eq_some hz
  refine h.append_new hnone hcache (fun k => ?_) hsame ?_ ?_ fun u hu' => ?_
  · rw [hcontent]
    split
    · next hk => rw [hk, hu, Option.some_or]
    · rw [Option.or_none]
  · exact forall_served h.loaded (hunit ▸ h.loaded z hmem)
  · rw [owner_append, ← hunit, h.owner_unit z hmem, howner, Option.some_or]
  · rw [hcontent, hu] at hu'
    cases hu'
    rw [if_pos hsame]

theorem Shared.append_loaded (h : Shared log c l) (hnone : c.lookup e.origin.name = none)
    (hcache : c'.cache = c.cache ++ [(e.origin.name, e.unit)])
    (hindex : ∀ k, c'.byContent.lookup k = (c.byContent.lookup k).or
      (if k = ⟨(Target.ofMode e.origin.mode).name, e.sum⟩ then some e.unit else none))
    (hother : ∀ u, c.byContent.lookup ⟨(Target.ofMode e.origin.mode).name, e.sum⟩ = some u →
      sameBlock u e.origin.stream = false)
    (hname : e.unit.name = e.origin.name) (hclosed : l.closed = none) (hfind : l.find? e.origin.name = none)
    (hsame : sameBlock e.unit e.origin.stream = true) (calls : List String) :
    Shared (log ++ [e]) c' { l with blocks := l.blocks ++ [e.unit], calls } := by
  have hfind' : ∀ n, ({ l with blocks := l.blocks ++ [e.unit], calls } : Loader).find? n =
      if n = e.unit.name then some e.unit else l.find? n := Loader.find?_append hclosed (hname ▸ hfind)
  refine h.append_new hnone hcache hindex hsame ?_ ?_ fun u hu => ?_
  · refine forall_served (fun x hx => ?_) ?_
    · have hx' := h.loaded x hx
      rw [hfind', if_neg, hx']
      intro heq
      rw [heq, hname, hfind] at hx'
      cases hx'
    · rw [hfind', if_pos rfl]
  · rw [owner_append, hname, h.owner_eq_none hnone, if_pos rfl, Option.none_or]
  · rw [hindex, if_pos rfl] at hu
    cases hold : c.byContent.lookup ⟨(Target.ofMode e.origin.mode).name, e.sum⟩ with
    | some b =>
      rw [hold, Option.some_or] at hu
      cases hu
      rw [if_neg (by simp [hother u hold])]
      exact hname
    | none =>
      rw [hold, Option.none_or] at hu
      cases hu
      rw [if_pos hsame]

/-! ### Histories -/

theorem Serves.sameBlock {limits : CompileLimits} {origins : List Origin} {mode : Mode} {s : Stream} {u : CodeBlock}
    (h : Serves limits origins mode s u) (hread : ∀ o ∈ origins, o.Readable) : Compiler.sameBlock u s = true := by
  obtain ⟨o, ho, -, harrays, hu⟩ := h
  obtain ⟨b, hb, hwords⟩ := hread o ho
  obtain ⟨hmicro, hpos, -⟩ := hu.describes hb hwords
  exact sameBlock_iff.mpr ⟨hmicro.trans harrays.1, hpos.trans harrays.2⟩

theorem answer_of_origin {r : Request} {o : Origin} (h : r.origin? = some o) :
    r.answer (c, l) = countFailure
      (c.find l (.ofMode o.mode) o.stream (contentSum o.stream.microcodes) o.name) := by
  obtain ⟨hs, hmode, hname⟩ := origin?_eq_some h
  simp only [Request.answer, compile, hs, compileStream, hmode, hname]

theorem exit_error {key : ContentKey} {name : String} {e : CompileFailure} (h : Exit c l key name (.error e) c' l') :
    ∃ reported calls, c' = { c with reported } ∧ l' = { l with calls } := by
  cases h with
  | failed reported calls => exact ⟨reported, calls, rfl, rfl⟩

theorem Shared.answer {limits : CompileLimits} {origins : List Origin} (h : Shared log c l) (ht : Traced limits origins c l)
    {r : Request} (hr : ∀ o, r.origin? = some o → o ∈ origins) :
    Shared (log ++ (r.served? (c, l)).toList) (r.answer (c, l)).compiler (r.answer (c, l)).loader := by
  cases ho : r.origin? with
  | none =>
    have hs : ∃ e, Stream.ofBlock r.block = .error e := by
      unfold Request.origin? at ho
      split at ho
      · next e he => exact ⟨e, he⟩
      · cases ho
    -- A block without a stream only counts as a failure.
    obtain ⟨e, hs⟩ := hs
    simp only [Request.served?, ho, Option.bind_none, Option.toList_none, List.append_nil]
    simp only [Request.answer, compile, hs, countFailure]
    exact h.congr rfl rfl fun _ => rfl
  | some o =>
    have hexit := c.find_exit l (.ofMode o.mode) o.stream (contentSum o.stream.microcodes) o.name
    obtain ⟨-, hanswers⟩ := ht.find (hr o ho) (contentSum o.stream.microcodes)
    simp only [Request.served?, ho, Option.bind_some, answer_of_origin ho]
    generalize hfind : c.find l (.ofMode o.mode) o.stream (contentSum o.stream.microcodes) o.name = R at hexit hanswers ⊢
    obtain ⟨hcache, hcontent, hloader⟩ := countFailure_keeps R
    rw [result_countFailure, hloader]
    refine Shared.congr (c := R.compiler) (l := R.loader) ?_ hcache hcontent fun _ => rfl
    cases hu : R.result with
    | error e =>
      simp only [Except.toOption, Option.map_none, Option.toList_none, List.append_nil]
      obtain ⟨reported, calls, hc, hl⟩ := exit_error (hu ▸ hexit)
      rw [hc, hl]
      exact h.congr rfl rfl fun _ => rfl
    | ok u =>
      simp only [Except.toOption, Option.map_some, Option.toList_some]
      obtain ⟨o', -, -, hserves⟩ := hanswers.unit u hu
      have hsame := hserves.sameBlock ht.readable
      rcases find_result_ok ht hfind hu with ⟨hlookup, hc, hi, hl⟩ | ⟨hnone, hc, ⟨hindex, hi, hl⟩ |
        ⟨hother, hname, hfree, hi, calls, hl⟩⟩
      · rw [hl]
        exact (h.append_cached (e := ⟨o, u⟩) hlookup hsame).congr hc hi fun _ => rfl
      · rw [hl]
        exact h.append_aliased (e := ⟨o, u⟩) hnone hc hi hindex hsame
      · rw [hl]
        exact h.append_loaded (e := ⟨o, u⟩) hnone hc hi hother hname ht.closed_eq hfree hsame calls

theorem Shared.leader_cases (h : Shared log c l) {x : Served} (hx : x ∈ log) :
    ∃ z, leader log x = some z ∧
      if sameBlock z.unit x.origin.stream then x.unit = z.unit else x.unit.name = x.origin.name := by
  obtain ⟨mode, hmode⟩ := Option.isSome_iff_exists.mp (owner_isSome hx)
  obtain ⟨z, hz⟩ := exists_first? hx hmode
  refine ⟨z, by rw [leader, hmode]; exact hz, h.offered x hx mode z.unit hmode ?_⟩
  rw [h.indexed, hz]
  rfl

theorem mem_of_leader {x z : Served} (h : leader log x = some z) : z ∈ log := by
  obtain ⟨mode, -, hz⟩ := Option.bind_eq_some_iff.mp h
  exact (first?_eq_some hz).1

/-- Requests for the same arrays get the same unit exactly if they have the same name, or the same leader and it has
    their arrays. -/
theorem Shared.unit_eq_iff (h : Shared log c l) {x y : Served} (hx : x ∈ log) (hy : y ∈ log)
    (harrays : SameArrays x.origin.stream y.origin.stream) :
    x.unit = y.unit ↔ x.origin.name = y.origin.name ∨
      ∃ z, leader log x = some z ∧ leader log y = some z ∧ SameArrays z.origin.stream x.origin.stream := by
  obtain ⟨z, hz, hzx⟩ := h.leader_cases hx
  obtain ⟨z', hz', hzy⟩ := h.leader_cases hy
  have hsum : x.sum = y.sum := congrArg contentSum harrays.1
  have hsame : ∀ s, sameBlock z.unit s = true ↔ SameArrays z.origin.stream s := by
    intro s
    obtain ⟨hmicro, hpos⟩ := sameBlock_iff.mp (h.same z (mem_of_leader hz))
    rw [sameBlock_iff, hmicro, hpos]
    rfl
  constructor
  · intro heq
    have hleader : leader log y = some z := by
      rw [leader, ← h.owner_unit y hy, ← heq, h.owner_unit x hx, ← hsum]
      exact hz
    rw [hz'] at hleader
    cases hleader
    -- If the leader has other arrays, each unit bears the name of its own request.
    by_cases hs : SameArrays z.origin.stream x.origin.stream
    · exact .inr ⟨z, hz, hz', hs⟩
    · have hs' : ¬ SameArrays z.origin.stream y.origin.stream :=
        fun h' => hs ⟨h'.1.trans harrays.1.symm, h'.2.trans harrays.2.symm⟩
      rw [if_neg (mt (hsame _).mp hs)] at hzx
      rw [if_neg (mt (hsame _).mp hs')] at hzy
      exact .inl (by rw [← hzx, heq, hzy])
  · rintro (hname | ⟨w, hw, hw', hs⟩)
    · have hx' := h.named x hx
      rw [hname, h.named y hy] at hx'
      exact (Option.some.inj hx').symm
    · cases hz.symm.trans hw
      cases hz'.symm.trans hw'
      rw [if_pos ((hsame _).mpr hs)] at hzx
      rw [if_pos ((hsame _).mpr ⟨hs.1.trans harrays.1, hs.2.trans harrays.2⟩)] at hzy
      rw [hzx, hzy]

theorem leader_of_owner {x : Served} (hx : owner log x.origin.name = some x.origin.mode) :
    leader log x = first? log x.origin.mode x.sum := by
  rw [leader, hx, Option.bind_some]

theorem Shared.unit_eq (h : Shared log c l) {x y : Served} (hx : x ∈ log) (hy : y ∈ log)
    (harrays : SameArrays x.origin.stream y.origin.stream) (hmode : x.origin.mode = y.origin.mode)
    (hox : owner log x.origin.name = some x.origin.mode) (hoy : owner log y.origin.name = some y.origin.mode)
    (hsame : ∀ z ∈ log, z.sum = x.sum → SameArrays z.origin.stream x.origin.stream) : x.unit = y.unit := by
  obtain ⟨z, hz⟩ := exists_first? hx hox
  obtain ⟨hmem, -, hsum⟩ := first?_eq_some hz
  have hsum' : x.sum = y.sum := congrArg contentSum harrays.1
  refine (h.unit_eq_iff hx hy harrays).mpr (.inr ⟨z, ?_, ?_, hsame z hmem hsum⟩)
  · rw [leader_of_owner hox, hz]
  · rw [leader_of_owner hoy, ← hmode, ← hsum', hz]

end Law

theorem Shared.serve {limits : CompileLimits} {origins : List Origin} (rs : List Request)
    (hrs : ∀ r ∈ rs, ∀ o, r.origin? = some o → o ∈ origins) {log : List Served} (cl : Compiler × Loader)
    (h : Shared log cl.1 cl.2) (ht : Traced limits origins cl.1 cl.2) :
    Shared (log ++ Compiler.serve cl rs)
      (rs.foldl (fun cl r => ((r.answer cl).compiler, (r.answer cl).loader)) cl).1
      (rs.foldl (fun cl r => ((r.answer cl).compiler, (r.answer cl).loader)) cl).2 := by
  induction rs generalizing log cl with
  | nil => simpa [Compiler.serve] using h
  | cons r rs ih =>
    obtain ⟨hr, hrs⟩ := List.forall_mem_cons.mp hrs
    rw [Compiler.serve, ← List.append_assoc, List.foldl_cons]
    exact ih hrs _ (h.answer ht hr) (ht.answer hr).1

theorem shared_after (limits : CompileLimits) {rs : List Request}
    (hwords : ∀ q ∈ rs, (q.block.flatMap (·.words)).length < 2 ^ 30) :
    Shared (served limits rs) (after limits rs).1 (after limits rs).2 := by
  have hrs : ∀ r ∈ rs, ∀ o, r.origin? = some o → o ∈ rs.filterMap Request.origin? :=
    fun r hr o ho => List.mem_filterMap.mpr ⟨r, hr, ho⟩
  exact Shared.serve rs hrs ({ limits }, { helpers := .builtin }) (shared_start limits)
    ((traced_start limits).mono (List.nil_subset _) fun o => readable_of_mem hwords)

/-- Every unit stays loaded, and requests for the same arrays share it exactly if they have the same name, or if the
    compiler offers both the unit of one request and that has their arrays. So they share it if their names belong to
    their mode and no other arrays have their content. -/
theorem requests_share_unit_iff (limits : CompileLimits) (rs : List Request)
    (hwords : ∀ q ∈ rs, (q.block.flatMap (·.words)).length < 2 ^ 30) {x y : Served} (hx : x ∈ served limits rs)
    (hy : y ∈ served limits rs) (harrays : SameArrays x.origin.stream y.origin.stream) :
    (after limits rs).2.find? x.unit.name = some x.unit ∧
      (x.unit = y.unit ↔ x.origin.name = y.origin.name ∨ ∃ z, leader (served limits rs) x = some z ∧
        leader (served limits rs) y = some z ∧ SameArrays z.origin.stream x.origin.stream) ∧
      (x.origin.mode = y.origin.mode → owner (served limits rs) x.origin.name = some x.origin.mode →
        owner (served limits rs) y.origin.name = some y.origin.mode →
        (∀ z ∈ served limits rs, z.sum = x.sum → SameArrays z.origin.stream x.origin.stream) → x.unit = y.unit) := by
  have h := shared_after limits hwords
  exact ⟨h.loaded x hx, h.unit_eq_iff hx hy harrays, h.unit_eq hx hy harrays⟩

/-- Two names for a block share its unit, with a block of the same microcode at another position between them. -/
theorem requests_share_unit_iff_clc :
    ∃ x y z, served {} [⟨.real, [⟨1, [136]⟩], "a"⟩, ⟨.real, [⟨2, [136]⟩], "b"⟩, ⟨.real, [⟨1, [136]⟩], "c"⟩] = [x, y, z] ∧
      x.origin.name = "a" ∧ z.origin.name = "c" ∧ x.unit = z.unit := by
  generalize hrs : [⟨.real, [⟨1, [136]⟩], "a"⟩, ⟨.real, [⟨2, [136]⟩], "b"⟩, (⟨.real, [⟨1, [136]⟩], "c"⟩ : Request)] = rs
  have horigins : (served {} rs).map (fun x => (x.origin.mode, x.origin.name, x.origin.stream.microcodes,
      x.origin.stream.positions)) = [(.real, "a", [136], [1]), (.real, "b", [136], [2]), (.real, "c", [136], [1])] := by
    subst hrs
    simp only [served, serve, Request.served?]
    rw [Request.answer_eq_answerWith (r := ⟨.real, [⟨1, [136]⟩], "a"⟩) contentSum_clc,
      Request.answer_eq_answerWith (r := ⟨.real, [⟨2, [136]⟩], "b"⟩) contentSum_clc,
      Request.answer_eq_answerWith (r := ⟨.real, [⟨1, [136]⟩], "c"⟩) contentSum_clc]
    decide +kernel
  have hwords : ∀ q ∈ rs, (q.block.flatMap (·.words)).length < 2 ^ 30 := by
    subst hrs
    decide
  obtain ⟨x, l₁, hserved, hx, h₁⟩ := List.map_eq_cons_iff.mp horigins
  obtain ⟨y, l₂, rfl, hy, h₂⟩ := List.map_eq_cons_iff.mp h₁
  obtain ⟨z, l₃, rfl, hz, h₃⟩ := List.map_eq_cons_iff.mp h₂
  cases List.map_eq_nil_iff.mp h₃
  simp only [Prod.mk.injEq] at hx hy hz
  obtain ⟨hxm, hxn, hxw, hxp⟩ := hx
  obtain ⟨hym, hyn, hyw, hyp⟩ := hy
  obtain ⟨hzm, hzn, hzw, hzp⟩ := hz
  have harrays : SameArrays x.origin.stream z.origin.stream := ⟨hxw.trans hzw.symm, hxp.trans hzp.symm⟩
  obtain ⟨-, hiff, -⟩ := requests_share_unit_iff {} rs hwords (x := x) (y := z) (by simp [hserved]) (by simp [hserved]) harrays
  refine ⟨x, y, z, hserved, hxn, hzn, hiff.mpr (.inr ⟨x, ?_, ?_, rfl, rfl⟩)⟩
  · simp [hserved, leader, owner, first?, hxn, hxm]
  · simp [hserved, leader, owner, first?, hxn, hxm, hzn, hzm, hyn, Served.sum, hxw, hzw]

/-- The index keeps the first block of a content, so the same block at another position is loaded under each name. -/
theorem requests_load_unit_twice :
    (served {} [⟨.real, [⟨1, [136]⟩], "a"⟩, ⟨.real, [⟨2, [136]⟩], "b"⟩, ⟨.real, [⟨2, [136]⟩], "c"⟩]).map
        (fun x => (x.origin.stream.microcodes, x.origin.stream.positions, x.unit.name)) =
      [([136], [1], "a"), ([136], [2], "b"), ([136], [2], "c")] := by
  simp only [served, serve, Request.served?]
  rw [Request.answer_eq_answerWith (r := ⟨.real, [⟨1, [136]⟩], "a"⟩) contentSum_clc,
    Request.answer_eq_answerWith (r := ⟨.real, [⟨2, [136]⟩], "b"⟩) contentSum_clc,
    Request.answer_eq_answerWith (r := ⟨.real, [⟨2, [136]⟩], "c"⟩) contentSum_clc]
  decide +kernel

end MicroBlock.Compiler
