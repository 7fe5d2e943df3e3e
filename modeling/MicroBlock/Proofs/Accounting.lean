import Mathlib
import MicroBlock.Compile.Compiler
import MicroBlock.Proofs.Admission

/-! What a compiler keeps and counts.

A call has five exits: it fails, or it finds a unit in the cache, in the loader or under its content, or it loads a new
one. None of them changes what a name already stands for, in the cache or in the loader. A failure changes nothing but a
counter; of the others only the last counts a unit, and it is the one that loads it. -/

namespace MicroBlock.Compiler
open Relation

/-! ### Names -/

theorem nameFor_ne_empty (t : Target) (s : Stream) (name : String) : nameFor t s name ≠ "" := by
  unfold nameFor
  split
  · intro h
    have hlength := congrArg String.length h
    simp [Target.defaultName] at hlength
  · assumption

theorem nameFor_nameFor (t : Target) (s : Stream) (name : String) : nameFor t s (nameFor t s name) = nameFor t s name :=
  if_neg (nameFor_ne_empty t s name)

/-! ### Exits -/

/-- How looking for a stream under a name ends, and what it makes of the compiler and the loader. -/
inductive Exit (c : Compiler) (l : Loader) (key : ContentKey) (name : String) :
    Except CompileFailure CodeBlock → Compiler → Loader → Prop
  | failed {e : CompileFailure} (reported : List (String × Option Op)) (calls : List String) :
    Exit c l key name (.error e) { c with reported } { l with calls }
  | cached {b : CodeBlock} : c.lookup name = some b → Exit c l key name (.ok b) c.hit l
  | adopted {b : CodeBlock} : c.lookup name = none → l.find? name = some b →
    Exit c l key name (.ok b) ((c.enter name b).enterContent key b).hit l
  | aliased {b : CodeBlock} : c.lookup name = none → Exit c l key name (.ok b) (c.enter name b).hit l
  | loaded {b : CodeBlock} (calls : List String) : c.lookup name = none → l.find? name = none → l.closed = none →
    b.name = name →
    Exit c l key name (.ok b)
      { (c.enter name b).enterContent key b with
        compiled := c.compiled + 1, codeBytes := c.codeBytes + b.bytes.length }
      { l with blocks := l.blocks ++ [b], calls }

section Exits
variable {c : Compiler} {l : Loader} {t : Target} {s : Stream} {key : ContentKey} {name : String}

theorem noteBuildError_eq (c : Compiler) (t : Target) (name : String) (e : BuildError) :
    ∃ reported, (c.noteBuildError t name e).2 = { c with reported } := by
  unfold noteBuildError
  split
  · unfold report
    split
    · exact ⟨c.reported, rfl⟩
    · exact ⟨_, rfl⟩
  all_goals exact ⟨c.reported, rfl⟩

@[simp] theorem enterContent_counts (c : Compiler) (key : ContentKey) (b : CodeBlock) :
    (c.enterContent key b).compiled = c.compiled ∧ (c.enterContent key b).hits = c.hits ∧
      (c.enterContent key b).failures = c.failures ∧ (c.enterContent key b).codeBytes = c.codeBytes ∧
      (c.enterContent key b).cache = c.cache := by
  unfold enterContent
  split <;> simp

theorem load_exit (hlookup : c.lookup name = none) (hfind : l.find? name = none) :
    Exit c l key name (c.load l t s key name).result (c.load l t s key name).compiler (c.load l t s key name).loader := by
  generalize hr : c.load l t s key name = r
  unfold Compiler.load at hr
  split at hr
  · next e he =>
    subst hr
    obtain ⟨reported, heq⟩ := c.noteBuildError_eq t name e
    simp only [heq]
    exact .failed reported l.calls
  next data hdata =>
  rcases l.load_spec name data with ⟨e, calls, heq⟩ | ⟨b, calls, heq, hname, hbytes, hclosed, -⟩
  · rw [heq] at hr
    split at hr
    · next h =>
      cases h
      subst hr
      exact .failed c.reported calls
    · next h =>
      cases h
      subst hr
      exact .failed c.reported calls
    · next h => cases h
  · rw [heq] at hr
    subst hr
    have hexit : Exit c l key name (.ok b) _ _ := .loaded calls hlookup hfind hclosed hname
    simpa [hbytes, enter] using hexit

theorem find_exit (c : Compiler) (l : Loader) (t : Target) (s : Stream) (sum : Bytes) (name : String) :
    Exit c l ⟨t.name, sum⟩ name (c.find l t s sum name).result (c.find l t s sum name).compiler
      (c.find l t s sum name).loader := by
  unfold Compiler.find
  simp only
  split
  · next b hb =>
    split
    · exact .cached hb
    · exact .failed c.reported l.calls
  next hlookup =>
  split
  · next b hb =>
    split
    · exact .adopted hlookup hb
    · exact .failed c.reported l.calls
  next hfind =>
  split
  · split
    · exact .aliased hlookup
    · exact load_exit hlookup hfind
  · exact load_exit hlookup hfind

end Exits

/-! ### Calls -/

/-- A call of a compiler. Without a target only a faulty block is told. -/
structure Call where
  target : Option Target
  block : Block
  name : String

namespace Call

/-- What a compiler and its loader make of a call. -/
def answer (x : Call) (cl : Compiler × Loader) : Compilation := cl.1.compile cl.2 x.target x.block x.name

/-- The call comes back, with a block or an error. -/
def Returns (x : Call) (cl : Compiler × Loader) : Prop := ∀ e, (x.answer cl).result = .error e → ∃ e', e = .error e'

end Call

/-- One call that comes back. -/
def Called (cl cl' : Compiler × Loader) : Prop :=
  ∃ x : Call, x.Returns cl ∧ cl' = ((x.answer cl).compiler, (x.answer cl).loader)

/-- The three counters of calls. -/
def tally (c : Compiler) : Nat × Nat × Nat := (c.compiled, c.hits, c.failures)

section Calls
variable {c : Compiler} {l : Loader} {x : Call}

/-- A call that comes back fails, and nothing but a counter and the notes on ops changes, or it has one of the other
    exits. -/
theorem Call.Returns.cases (h : x.Returns (c, l)) :
    (∃ e reported calls, (x.answer (c, l)).result = .error e ∧
        (x.answer (c, l)).compiler = { c with reported, failures := c.failures + 1 } ∧
        (x.answer (c, l)).loader = { l with calls }) ∨
      ∃ b key name, (x.answer (c, l)).result = .ok b ∧
        Exit c l key name (.ok b) (x.answer (c, l)).compiler (x.answer (c, l)).loader := by
  generalize hr : x.answer (c, l) = r at *
  simp only [Call.Returns, hr] at h
  unfold Call.answer compile at hr
  split at hr
  · subst hr
    exact .inl ⟨_, c.reported, l.calls, rfl, rfl, rfl⟩
  next s hs =>
  split at hr
  · subst hr
    obtain ⟨e', he'⟩ := h _ rfl
    cases he'
  next t ht =>
  have hexit := c.find_exit l t s (contentSum s.microcodes) (nameFor t s x.name)
  unfold compileStream at hr
  generalize hfind : c.find l t s (contentSum s.microcodes) (nameFor t s x.name) = r' at *
  obtain ⟨result, c', l', log, fresh⟩ := r'
  cases result with
  | ok b =>
    subst hr
    exact .inr ⟨b, _, _, rfl, hexit⟩
  | error e =>
    cases e with
    | error e =>
      subst hr
      cases hexit with
      | failed reported calls => exact .inl ⟨_, reported, calls, rfl, rfl, rfl⟩
    | unwritable | crash =>
      subst hr
      obtain ⟨e', he'⟩ := h _ rfl
      cases he'

/-! ### What a call keeps -/

/-- All names stand for the same units later. -/
structure Keeps (cl cl' : Compiler × Loader) : Prop where
  lookup : ∀ {n : String} {u : CodeBlock}, cl.1.lookup n = some u → cl'.1.lookup n = some u
  find? : ∀ {n : String} {u : CodeBlock}, cl.2.find? n = some u → cl'.2.find? n = some u

theorem lookup_of_cache {c c' : Compiler} (es : List (String × CodeBlock)) (h : c'.cache = c.cache ++ es) {n : String}
    {u : CodeBlock} (hu : c.lookup n = some u) : c'.lookup n = some u := by
  rw [Compiler.lookup] at hu ⊢
  rw [h, List.lookup_append, hu, Option.some_or]

/-- A unit that is found has an exit that adds to the cache and the loader at most at their ends. -/
theorem Exit.keeps {key : ContentKey} {name : String} {r : Except CompileFailure CodeBlock} {c' : Compiler} {l' : Loader}
    (h : Exit c l key name r c' l') : Keeps (c, l) (c', l') := by
  cases h with
  | failed | cached => exact ⟨id, id⟩
  | @adopted b _ _ => exact ⟨lookup_of_cache [(name, b)] (by simp [hit, enter]), id⟩
  | @aliased b _ => exact ⟨lookup_of_cache [(name, b)] rfl, id⟩
  | @loaded b calls _ hfind hclosed hname =>
    refine ⟨lookup_of_cache [(name, b)] (by simp [enter]), fun {n u} hu => ?_⟩
    subst hname
    rw [Loader.find?_append hclosed hfind]
    split
    · next hn =>
      rw [hn, hfind] at hu
      cases hu
    · exact hu

/-- The counters of a compiler tell what is in its loader, and every name is in its cache once. -/
structure Accounted (cl : Compiler × Loader) : Prop where
  names : (cl.1.cache.map Prod.fst).Nodup
  compiled : cl.1.compiled = cl.2.size
  codeBytes : cl.1.codeBytes = (cl.2.blocks.map (·.bytes.length)).sum

theorem nodup_enter (hnames : (c.cache.map Prod.fst).Nodup) {name : String} (hnone : c.lookup name = none) (b : CodeBlock) :
    ((c.enter name b).cache.map Prod.fst).Nodup := by
  have hfresh : name ∉ c.cache.map Prod.fst := by
    intro hmem
    obtain ⟨p, hp, rfl⟩ := List.mem_map.mp hmem
    have := List.lookup_eq_none_iff.mp hnone p hp
    simp at this
  rw [enter, List.map_append, List.nodup_append]
  refine ⟨hnames, by simp, fun n hn n' hn' heq => hfresh ?_⟩
  rw [List.map_singleton, List.mem_singleton] at hn'
  rwa [heq, hn'] at hn

theorem Exit.accounted {key : ContentKey} {name : String} {r : Except CompileFailure CodeBlock} {c' : Compiler}
    {l' : Loader} (h : Exit c l key name r c' l') (ha : Accounted (c, l)) : Accounted (c', l') := by
  obtain ⟨hnames, hcompiled, hbytes⟩ := ha
  cases h with
  | failed | cached => exact ⟨hnames, hcompiled, hbytes⟩
  | @adopted b hnone _ =>
    have hnames' := nodup_enter hnames hnone b
    exact ⟨by simpa [hit] using hnames', by simpa [hit, enter] using hcompiled, by simpa [hit, enter] using hbytes⟩
  | @aliased b hnone => exact ⟨nodup_enter hnames hnone b, hcompiled, hbytes⟩
  | @loaded b calls hnone _ _ _ =>
    have hnames' := nodup_enter hnames hnone b
    refine ⟨by simpa using hnames', ?_, ?_⟩
    · simpa [Loader.size] using hcompiled
    · simpa [Loader.size] using hbytes

theorem Called.keeps {cl cl' : Compiler × Loader} (h : Called cl cl') : Keeps cl cl' := by
  obtain ⟨x, hx, rfl⟩ := h
  rcases hx.cases with ⟨e, reported, calls, -, hc, hl⟩ | ⟨b, key, name, -, hexit⟩
  · rw [hc, hl]
    exact ⟨id, id⟩
  · exact hexit.keeps

theorem Called.accounted {cl cl' : Compiler × Loader} (h : Called cl cl') (ha : Accounted cl) : Accounted cl' := by
  obtain ⟨x, hx, rfl⟩ := h
  rcases hx.cases with ⟨e, reported, calls, -, hc, hl⟩ | ⟨b, key, name, -, hexit⟩
  · rw [hc, hl]
    exact ⟨ha.names, ha.compiled, ha.codeBytes⟩
  · exact hexit.accounted ha

theorem keeps_of_calls {cl cl' : Compiler × Loader} (h : ReflTransGen Called cl cl') : Keeps cl cl' := by
  induction h with
  | refl => exact ⟨id, id⟩
  | tail _ hcall ih => exact ⟨fun hu => hcall.keeps.lookup (ih.lookup hu), fun hu => hcall.keeps.find? (ih.find? hu)⟩

theorem accounted_of_calls {cl cl' : Compiler × Loader} (h : ReflTransGen Called cl cl') (ha : Accounted cl) :
    Accounted cl' := by
  induction h with
  | refl => exact ha
  | tail _ hcall ih => exact hcall.accounted ih

/-- The cache has as many entries as names that are found in it. -/
theorem ncard_lookup (hnames : (c.cache.map Prod.fst).Nodup) : {n | (c.lookup n).isSome = true}.ncard = c.cache.length := by
  classical
  have hset : {n | (c.lookup n).isSome = true} = ((c.cache.map Prod.fst).toFinset : Set String) := by
    ext n
    have hmem : (c.lookup n).isSome = true ↔ n ∈ c.cache.map Prod.fst := by
      rw [Option.isSome_iff_ne_none, Compiler.lookup, ne_eq, List.lookup_eq_none_iff, List.mem_map]
      simp only [bne_iff_ne, not_forall, ne_eq, not_not, exists_prop, @eq_comm _ n]
    simpa using hmem
  rw [hset, Set.ncard_coe_finset, List.toFinset_card_of_nodup hnames, List.length_map]

/-- Each exit with a unit counts one hit or one compiled unit. -/
theorem Exit.tally {key : ContentKey} {name : String} {b : CodeBlock} {c' : Compiler} {l' : Loader}
    (h : Exit c l key name (.ok b) c' l') :
    c'.tally = (c.compiled + 1, c.hits, c.failures) ∨ c'.tally = (c.compiled, c.hits + 1, c.failures) := by
  cases h with
  | cached | aliased => exact .inr rfl
  | adopted => exact .inr (by simp [Compiler.tally, hit, enter])
  | loaded => exact .inl (by simp [Compiler.tally, enter])

end Calls

/-- Along all calls that come back, names keep their units in the cache and in the loader, and the counters tell how many
    units are loaded, how long their containers are, and how many names are known. One more call counts once: as a failure,
    which leaves the cache, the contents and the loaded units as they were, or as a hit or a compiled unit. -/
theorem calls_accounted (limits : CompileLimits) (archiving : Bool) (helpers : Registry) {cl : Compiler × Loader}
    (hcl : ReflTransGen Called ({ limits, archiving }, { helpers }) cl) :
    (cl.1.stats.compiled = cl.2.size ∧ cl.1.stats.codeBytes = (cl.2.blocks.map (·.bytes.length)).sum ∧
        cl.1.stats.cached = {n | (cl.1.lookup n).isSome = true}.ncard) ∧
      (∀ cl', ReflTransGen Called cl cl' → ∀ n u, (cl.1.lookup n = some u → cl'.1.lookup n = some u) ∧
        (cl.2.find? n = some u → cl'.2.find? n = some u)) ∧
      ∀ x : Call, x.Returns cl →
        (∀ e, (x.answer cl).result = .error e → (x.answer cl).compiler.cache = cl.1.cache ∧
          (x.answer cl).compiler.byContent = cl.1.byContent ∧ (∃ calls, (x.answer cl).loader = { cl.2 with calls }) ∧
          (x.answer cl).compiler.tally = (cl.1.compiled, cl.1.hits, cl.1.failures + 1)) ∧
        ∀ b, (x.answer cl).result = .ok b →
          (x.answer cl).compiler.tally = (cl.1.compiled + 1, cl.1.hits, cl.1.failures) ∨
          (x.answer cl).compiler.tally = (cl.1.compiled, cl.1.hits + 1, cl.1.failures) := by
  have ha := accounted_of_calls hcl ⟨List.nodup_nil, rfl, rfl⟩
  refine ⟨⟨ha.compiled, ha.codeBytes, (ncard_lookup ha.names).symm⟩, fun cl' hcl' n u => ?_, fun x hx => ?_⟩
  · have hkeeps := keeps_of_calls hcl'
    exact ⟨hkeeps.lookup, hkeeps.find?⟩
  · rcases hx.cases with ⟨e, reported, calls, he, hc, hl⟩ | ⟨b, key, name, hb, hexit⟩
    · refine ⟨fun _ _ => ?_, fun b hb => ?_⟩
      · rw [hc, hl]
        exact ⟨rfl, rfl, ⟨calls, rfl⟩, rfl⟩
      · rw [he] at hb
        cases hb
    · refine ⟨fun e he => ?_, fun _ _ => hexit.tally⟩
      rw [hb] at he
      cases he

/-- A unit is compiled and found again; then a call with an empty block fails. -/
theorem calls_accounted_clc : ∃ cl : Compiler × Loader, ReflTransGen Called ({}, { helpers := .builtin }) cl ∧
    cl.2.size = 1 ∧ {n | (cl.1.lookup n).isSome = true}.ncard = 1 ∧
    ∃ x : Call, x.Returns cl ∧ (x.answer cl).compiler.cache = cl.1.cache ∧ (x.answer cl).compiler.tally = (1, 1, 1) := by
  let clc : Call := ⟨some (.ofMode .real), [⟨2, [136]⟩], "x"⟩
  let cl₁ := ((clc.answer ({}, { helpers := .builtin })).compiler, (clc.answer ({}, { helpers := .builtin })).loader)
  let cl₂ := ((clc.answer cl₁).compiler, (clc.answer cl₁).loader)
  have hreturns {x : Call} {cl : Compiler × Loader} (h : (x.answer cl).result.toOption.isSome = true) : x.Returns cl := by
    intro e he
    rw [he] at h
    cases h
  have h₁ : Called ({}, { helpers := .builtin }) cl₁ := ⟨clc, hreturns (by decide +kernel), rfl⟩
  have h₂ : Called cl₁ cl₂ := ⟨clc, hreturns (by decide +kernel), rfl⟩
  have hcalls := (ReflTransGen.single h₁).tail h₂
  have hcounts : cl₂.1.tally = (1, 1, 0) ∧ cl₂.1.stats.cached = 1 := by decide +kernel
  obtain ⟨⟨hsize, -, hcached⟩, -, hnext⟩ := calls_accounted {} false .builtin hcalls
  have hempty : (⟨none, [], "y"⟩ : Call).Returns cl₂ := by
    rintro _ ⟨⟩
    exact ⟨_, rfl⟩
  obtain ⟨hcache, -, -, hfailed⟩ := (hnext _ hempty).1 _ rfl
  simp only [tally, Prod.mk.injEq] at hcounts hfailed
  refine ⟨cl₂, hcalls, ?_, hcached.symm.trans hcounts.2, _, hempty, hcache, ?_⟩
  · rw [← hsize]
    exact hcounts.1.1
  · simp only [tally, hfailed, hcounts]

end MicroBlock.Compiler
