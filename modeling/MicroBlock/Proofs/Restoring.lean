import MicroBlock.Proofs.ArchiveHistory
import MicroBlock.Proofs.Delivery
import MicroBlock.Proofs.Sharing

/-! A compiler that archives the units it loads: a restore from its archive rebuilds its loader. -/

namespace MicroBlock

/-! ### Units can be archived -/

theorem ByteString.nul_mem_bytes {s : String} (h : Char.ofNat 0 ∈ s.toList) : 0 ∈ (ofString s).bytes := by
  rw [← String.ofList_toList (s := s), bytes_ofList]
  exact List.mem_flatMap.mpr ⟨_, h, by decide⟩

theorem Module.encode_accepts {m : Module} {data : Bytes} (h : m.encode = .ok data) : 0 ∉ m.name.bytes ∧ data ≠ [] := by
  obtain ⟨name, constants, links, methods, hname, -, -, -, hdata⟩ := encode_eq_ok h
  refine ⟨?_, ?_⟩
  · intro hnul
    rw [encodeText, if_pos (List.contains_iff_mem.mpr hnul)] at hname
    cases hname
  · rw [hdata]
    exact List.append_ne_nil_of_right_ne_nil _ (List.append_ne_nil_of_left_ne_nil (reads_text hname).1 _)

theorem Loader.find?_eq_some_iff {l : Loader} (hclosed : l.closed = none) (hnames : (l.blocks.map (·.name)).Nodup)
    {name : String} {u : CodeBlock} : l.find? name = some u ↔ u ∈ l.blocks ∧ u.name = name := by
  simp only [find?, hclosed, Option.isSome_none, Bool.false_eq_true, if_false]
  constructor
  · intro h
    exact ⟨List.mem_of_find?_eq_some h, by simpa using List.find?_some h⟩
  · rintro ⟨hu, rfl⟩
    have hsome : (l.blocks.find? (·.name == u.name)).isSome := List.find?_isSome.mpr ⟨u, hu, beq_self_eq_true u.name⟩
    obtain ⟨v, hv⟩ := Option.isSome_iff_exists.mp hsome
    have hname : v.name = u.name := by simpa using List.find?_some hv
    rw [hv, List.inj_on_of_nodup_map hnames (List.mem_of_find?_eq_some hv) hu hname]

theorem CodeBlock.Compiled.takes {limits : CompileLimits} {mode : Mode} {b : Block} {s : Stream} {u : CodeBlock}
    (hb : Stream.ofBlock b = .ok s) (hwords : s.microcodes.length < 2 ^ 30) (h : u.Compiled limits mode s) :
    Loader.Takes u.name u.bytes u := by
  obtain ⟨data, hdata, hu⟩ := h
  obtain ⟨g, slots, m, fin, guards, helpers, -, -, -, ⟨e, -, hload⟩ | ⟨-, -, hload⟩⟩ := Loader.load_cases hb hwords hdata
  · rw [hload { helpers := .builtin } rfl rfl rfl] at hu
    cases hu
  · rw [hload { helpers := .builtin } rfl rfl rfl] at hu
    have hbytes : u.bytes = data := by
      rw [← Except.ok.inj hu]
      rfl
    rw [Except.ok.inj hu] at hload
    exact hbytes ▸ hload

theorem CodeBlock.Compiled.accepts {limits : CompileLimits} {mode : Mode} {b : Block} {s : Stream} {u : CodeBlock}
    (hb : Stream.ofBlock b = .ok s) (hwords : s.microcodes.length < 2 ^ 30) (h : u.Compiled limits mode s)
    (hname : u.name ≠ "") : Archive.Accepts u.name u.bytes := by
  obtain ⟨data, g, slots, m, fin, guards, helpers, hbuilds, hcontains, -, -, -, hu⟩ := h.exists_unit hb hwords
  obtain ⟨hnul, hdata⟩ := Module.encode_accepts hbuilds.encoded
  have hmodule : m.name = .ofString u.name := by
    rw [hcontains.eq]
    rfl
  rw [hmodule] at hnul
  refine ⟨hname, fun hmem => hnul (ByteString.nul_mem_bytes hmem), ?_⟩
  rw [hu]
  exact hdata

/-! ### Restoring by names -/

namespace Archive

theorem restoreFrom_ok {a : Archive} {us : List CodeBlock} (hread : ∀ u ∈ us, a.read u.name = .ok u.bytes)
    (htakes : ∀ u ∈ us, Loader.Takes u.name u.bytes u) (hnames : (us.map (·.name)).Nodup) {l : Loader}
    (hhelpers : l.helpers = .builtin) (hclosed : l.closed = none) (hnone : ∀ u ∈ us, l.find? u.name = none) (n : Nat) :
    a.restoreFrom (us.map (·.name)) n l = (.ok (), n + us.length, { l with blocks := l.blocks ++ us }) := by
  induction us generalizing n l with
  | nil => simp [restoreFrom]
  | cons u us ih =>
    obtain ⟨hread, hreads⟩ := List.forall_mem_cons.mp hread
    obtain ⟨htake, htakes⟩ := List.forall_mem_cons.mp htakes
    obtain ⟨hnone, hnones⟩ := List.forall_mem_cons.mp hnone
    obtain ⟨hu, hnames⟩ := List.nodup_cons.mp hnames
    simp only [List.map_cons, restoreFrom, hnone, Option.isSome_none, Bool.false_eq_true, if_false, hread,
      htake l hhelpers hclosed hnone]
    have hfree : ∀ v ∈ us, ({ l with blocks := l.blocks ++ [u] } : Loader).find? v.name = none := by
      intro v hv
      have hne : v.name ≠ u.name := fun heq => hu (List.mem_map.mpr ⟨v, hv, heq⟩)
      rw [Loader.find?_append hclosed hnone, if_neg hne, hnones v hv]
    refine (ih hreads htakes hnames (l := { l with blocks := l.blocks ++ [u] }) hhelpers hclosed hfree (n + 1)).trans ?_
    simp [Nat.add_assoc, Nat.add_comm 1]

theorem restoreFrom_found (a : Archive) {names : List String} {l : Loader} (h : ∀ name ∈ names, (l.find? name).isSome)
    (n : Nat) : a.restoreFrom names n l = (.ok (), n, l) := by
  induction names with
  | nil => rfl
  | cons name names ih =>
    obtain ⟨hname, hnames⟩ := List.forall_mem_cons.mp h
    rw [restoreFrom, if_pos hname, ih hnames]

end Archive

namespace Compiler

/-! ### What a call hands on -/

section Fresh
variable {limits : CompileLimits} {log : List Origin} {c : Compiler} {l : Loader}

/-- A call loads no unit and hands none on, or it hands on the unit that it loads. -/
inductive Hands (limits : CompileLimits) (log : List Origin) (l : Loader) (r : Compilation) : Prop
  | nothing : r.fresh = none → r.loader.blocks = l.blocks → Hands limits log l r
  | unit (u : CodeBlock) (o : Origin) : r.fresh = some (u.name, u.bytes) → r.loader.blocks = l.blocks ++ [u] →
    l.find? u.name = none → u.name ≠ "" → o ∈ log → u.Compiled limits o.mode o.stream → Hands limits log l r

theorem Traced.load_hands (h : Traced limits log c l) {o : Origin} (ho : o ∈ log) (hempty : o.name ≠ "")
    (hnone : l.find? o.name = none) (k : ContentKey) :
    Hands limits log l (c.load l (.ofMode o.mode) o.stream k o.name) := by
  generalize hr : c.load l (.ofMode o.mode) o.stream k o.name = r
  obtain ⟨b, hb, hwords⟩ := h.readable o ho
  unfold Compiler.load at hr
  rw [h.limits_eq] at hr
  split at hr
  · subst hr
    exact .nothing rfl rfl
  next data hdata =>
  rcases Loader.load_build hb hwords hdata h.helpers_eq h.closed_eq hnone with ⟨e, hne, hload⟩ | ⟨u, hname, hu, hload⟩
  · rw [hload] at hr
    split at hr
    · next heq =>
      cases heq
      exact absurd rfl (hne _ _ _)
    · next heq =>
      cases heq
      subst hr
      exact .nothing rfl rfl
    · next heq => cases heq
  · have hbytes : u.bytes = data := by
      rcases l.load_spec o.name data with ⟨e, calls, heq⟩ | ⟨b, calls, heq, -, hbytes, -⟩
      · rw [hload] at heq
        cases heq
      · rw [hload] at heq
        cases heq
        exact hbytes
    rw [hload] at hr
    subst hr
    exact .unit u o (by rw [hname, hbytes]) rfl (hname ▸ hnone) (hname ▸ hempty) ho hu

theorem Traced.find_hands (h : Traced limits log c l) {o : Origin} (ho : o ∈ log) (hempty : o.name ≠ "") (sum : Bytes) :
    Hands limits log l (c.find l (.ofMode o.mode) o.stream sum o.name) := by
  generalize hr : c.find l (.ofMode o.mode) o.stream sum o.name = r
  unfold Compiler.find at hr
  simp only at hr
  split at hr
  · split at hr <;> subst hr <;> exact .nothing rfl rfl
  split at hr
  · split at hr <;> subst hr <;> exact .nothing rfl rfl
  next hnone =>
  split at hr
  · split at hr
    · subst hr
      exact .nothing rfl rfl
    · exact hr ▸ h.load_hands ho hempty hnone _
  · exact hr ▸ h.load_hands ho hempty hnone _

theorem Hands.countFailure {r : Compilation} (h : Hands limits log l r) :
    Hands limits log l (Compiler.countFailure r) := by
  unfold Compiler.countFailure
  split
  · cases h with
    | nothing hfresh hblocks => exact .nothing hfresh hblocks
    | unit u o hfresh hblocks hnone hempty ho hu => exact .unit u o hfresh hblocks hnone hempty ho hu
  · exact h

theorem Traced.answer_hands (h : Traced limits log c l) {r : Request} (hr : ∀ o, r.origin? = some o → o ∈ log) :
    Hands limits log l (r.answer (c, l)) := by
  cases hs : Stream.ofBlock r.block with
  | error e =>
    simp only [Request.answer, compile, hs]
    exact Hands.countFailure (.nothing rfl rfl)
  | ok s =>
    have horigin : r.origin? = some ⟨r.mode, s, nameFor (.ofMode r.mode) s r.name⟩ := by simp only [Request.origin?, hs]
    rw [answer_of_origin horigin]
    exact (h.find_hands (hr _ horigin) (nameFor_ne_empty _ s r.name) _).countFailure

end Fresh

theorem Exit.archiving_eq {c : Compiler} {l : Loader} {key : ContentKey} {name : String}
    {r : Except CompileFailure CodeBlock} {c' : Compiler} {l' : Loader} (h : Exit c l key name r c' l') :
    c'.archiving = c.archiving := by
  have hcontent : ∀ (c : Compiler) (b : CodeBlock), (c.enterContent key b).archiving = c.archiving := by
    intro c b
    unfold enterContent
    split <;> rfl
  cases h with
  | failed | cached | aliased => rfl
  | adopted => exact hcontent _ _
  | loaded => exact hcontent _ _

theorem archiving_answer (r : Request) (c : Compiler) (l : Loader) :
    (r.answer (c, l)).compiler.archiving = c.archiving := by
  have hcount : ∀ x : Compilation, (countFailure x).compiler.archiving = x.compiler.archiving := by
    intro x
    unfold countFailure
    split <;> rfl
  unfold Request.answer compile
  split
  · exact hcount _
  · exact (hcount _).trans (find_exit c l _ _ _ _).archiving_eq

/-! ### Archiving -/

/-- A compiler with its loader and the archive it hands its units to. -/
structure Archiver where
  compiler : Compiler
  loader : Loader
  archive : Archive

namespace Archiver

def start (limits : CompileLimits) (session : Bytes) : Archiver :=
  ⟨{ limits, archiving := true }, { helpers := .builtin }, .empty session⟩

/-- What a request makes of it. -/
def request (x : Archiver) (r : Request) : Archiver :=
  let y := (r.answer (x.compiler, x.loader)).archive Archive.accept x.archive
  ⟨y.1.compiler, y.1.loader, y.2⟩

def after (limits : CompileLimits) (session : Bytes) (rs : List Request) : Archiver :=
  rs.foldl request (start limits session)

/-- The stores of some units, the last first. -/
def stores (us : List CodeBlock) : List Archive.Event := us.reverse.map fun u => .store u.name u.bytes

/-- The archive holds the units of the loader, and all goes back to a list of streams. -/
structure Kept (limits : CompileLimits) (log : List Origin) (session : Bytes) (x : Archiver) : Prop where
  traced : Traced limits log x.compiler x.loader
  archiving : x.compiler.archiving = true
  names : (x.loader.blocks.map (·.name)).Nodup
  compiled : ∀ u ∈ x.loader.blocks, ∃ o ∈ log, u.Compiled limits o.mode o.stream
  accepted : ∀ u ∈ x.loader.blocks, Archive.Accepts u.name u.bytes
  archive : x.archive = Archive.after session (stores x.loader.blocks)

section Kept
variable {limits : CompileLimits} {log : List Origin} {session : Bytes} {x : Archiver}

variable (limits session) in
theorem kept_start (hread : ∀ o ∈ log, o.Readable) : Kept limits log session (start limits session) where
  traced := { (traced_start limits).mono (List.nil_subset log) hread with }
  archiving := rfl
  names := List.nodup_nil
  compiled _ h := absurd h List.not_mem_nil
  accepted _ h := absurd h List.not_mem_nil
  archive := rfl

theorem archive_of_none {r : Compilation} (h : r.fresh = none) (a : Archive) : r.archive Archive.accept a = (r, a) := by
  unfold Compilation.archive
  rw [h]

theorem archive_of_fresh {r : Compilation} {name : String} {data : Bytes} (h : r.fresh = some (name, data))
    (harchiving : r.compiler.archiving = true) (haccepts : Archive.Accepts name data) (a : Archive) :
    r.archive Archive.accept a = (r, a.stored name data) := by
  unfold Compilation.archive
  rw [h]
  simp only [harchiving, if_true, Archive.accept, Archive.store_of_accepts a haccepts]
  rfl

theorem stores_append (us : List CodeBlock) (u : CodeBlock) :
    stores (us ++ [u]) = .store u.name u.bytes :: stores us := by
  simp [stores]

theorem notMem_of_find? {l : Loader} (hclosed : l.closed = none) {name : String} (h : l.find? name = none) :
    name ∉ l.blocks.map (·.name) := by
  simp only [Loader.find?, hclosed, Option.isSome_none, Bool.false_eq_true, if_false, List.find?_eq_none] at h
  intro hmem
  obtain ⟨u, hu, hname⟩ := List.mem_map.mp hmem
  exact h u hu (beq_iff_eq.mpr hname)

theorem Kept.request (h : Kept limits log session x) {r : Request} (hr : ∀ o, r.origin? = some o → o ∈ log) :
    Kept limits log session (x.request r) := by
  obtain ⟨htraced, -⟩ := h.traced.answer hr
  have harchiving := (archiving_answer r x.compiler x.loader).trans h.archiving
  cases h.traced.answer_hands hr with
  | nothing hfresh hblocks =>
    simp only [Archiver.request, archive_of_none hfresh]
    exact ⟨htraced, harchiving, hblocks ▸ h.names, hblocks ▸ h.compiled, hblocks ▸ h.accepted, hblocks ▸ h.archive⟩
  | unit u o hfresh hblocks hnone hempty ho hu =>
    obtain ⟨b, hb, hwords⟩ := h.traced.readable o ho
    have haccepts := hu.accepts hb hwords hempty
    simp only [Archiver.request, archive_of_fresh hfresh harchiving haccepts]
    refine ⟨htraced, harchiving, ?_, ?_, ?_, ?_⟩
    · rw [hblocks, List.map_append, List.map_singleton]
      exact List.Nodup.append h.names (List.nodup_singleton _)
        (List.disjoint_singleton.mpr (notMem_of_find? h.traced.closed_eq hnone))
    · rw [hblocks]
      exact List.forall_mem_append.mpr ⟨h.compiled, List.forall_mem_singleton.mpr ⟨o, ho, hu⟩⟩
    · rw [hblocks]
      exact List.forall_mem_append.mpr ⟨h.accepted, List.forall_mem_singleton.mpr haccepts⟩
    · rw [hblocks, stores_append, Archive.after, Archive.apply_store_of_accepts _ haccepts, h.archive]

variable (limits session) in
theorem kept_after (hread : ∀ o ∈ log, o.Readable) {rs : List Request}
    (hrs : ∀ r ∈ rs, ∀ o, r.origin? = some o → o ∈ log) : Kept limits log session (after limits session rs) := by
  refine List.foldlRecOn (motive := Kept limits log session) rs _ (kept_start limits session hread) ?_
  exact fun x h r hr => h.request (hrs r hr)

/-! ### What the archive holds -/

theorem lastStored_stores {us : List CodeBlock} (hnames : (us.map (·.name)).Nodup)
    (haccepts : ∀ u ∈ us, Archive.Accepts u.name u.bytes) {u : CodeBlock} (hu : u ∈ us) :
    Archive.lastStored u.name (stores us) = some u.bytes ∧
      ∀ i, Archive.current u.name i (stores us) = (Shards.split u.bytes)[i]? := by
  induction us using List.reverseRecOn with
  | nil => cases hu
  | append_singleton us v ih =>
    obtain ⟨haccepts, hv⟩ := List.forall_mem_append.mp haccepts
    have hv := List.forall_mem_singleton.mp hv
    rw [List.map_append, List.map_singleton] at hnames
    obtain ⟨hnames, -, hne⟩ := List.nodup_append.mp hnames
    rw [stores_append]
    simp only [Archive.lastStored, Archive.current]
    rcases List.mem_append.mp hu with hu | hu
    · have hother : ¬ (v.name = u.name ∧ Archive.Accepts v.name v.bytes) := fun h =>
        hne u.name (List.mem_map_of_mem hu) v.name List.mem_cons_self h.1.symm
      simp only [if_neg hother]
      exact ih hnames haccepts hu
    · cases List.mem_singleton.mp hu
      exact ⟨if_pos ⟨rfl, hv⟩, fun _ => if_pos ⟨rfl, hv⟩⟩

theorem mem_of_lastStored {us : List CodeBlock} {name : String} {data : Bytes}
    (h : Archive.lastStored name (stores us) = some data) : ∃ u ∈ us, u.name = name := by
  obtain ⟨hmem, -⟩ := Archive.exists_store h
  obtain ⟨u, hu, heq⟩ := List.mem_map.mp hmem
  cases heq
  exact ⟨u, List.mem_reverse.mp hu, rfl⟩

section Restore
variable (hsession : session.length = 16) (h : Kept limits log session x)
  (hsize : ∀ u ∈ x.loader.blocks, u.bytes.length < 2 ^ 32)
include hsession h hsize

theorem Kept.read_eq {u : CodeBlock} (hu : u ∈ x.loader.blocks) : x.archive.read u.name = .ok u.bytes := by
  obtain ⟨hstored, hcurrent⟩ := lastStored_stores h.names h.accepted hu
  have hheader := Archive.get?_after_header session (stores x.loader.blocks) u.name
  rw [hstored, ← h.archive] at hheader
  have hshard : ∀ i < Shards.total, x.archive.get? (.shard u.name i) = (Shards.split u.bytes)[i]? := by
    intro i hi
    rw [h.archive, Archive.get?_after_shard session _ u.name hi, hcurrent i]
  have htelling : x.archive.Telling u.name u.bytes := by
    intro i b s hb hs _
    rw [hshard i (List.getElem?_eq_some_iff.mp hs).1, hs] at hb
    exact (Option.some.inj hb).symm
  have hlost : x.archive.lost u.name u.bytes = 0 := by
    rw [Archive.lost, List.length_eq_zero_iff, List.filter_eq_nil_iff]
    intro i hi
    simp [Archive.kept, hshard i (List.mem_range.mp hi)]
  have hread := Archive.read_eq hsession (hsize u hu) (h.accepted u hu).2.2 hheader htelling
  rw [hread, hlost]
  rfl

/-- The archive lists the names of the loaded units. -/
theorem Kept.names_eq : ∃ us : List CodeBlock, x.archive.names = .ok (us.map (·.name)) ∧ us.Perm x.loader.blocks := by
  have hstores : ∀ name data, .store name data ∈ stores x.loader.blocks → data.length < 2 ^ 32 := by
    intro name data hmem
    obtain ⟨u, hu, heq⟩ := List.mem_map.mp hmem
    cases heq
    exact hsize u (List.mem_reverse.mp hu)
  obtain ⟨names, hnames, hmem, horder⟩ := Archive.names_after hsession hstores
  have hnodup : names.Nodup := by
    have := horder.imp (S := (· ≠ ·)) fun hlt heq => absurd (heq ▸ hlt) (List.lt_irrefl _)
    exact List.Nodup.of_map _ this
  have hperm : names.Perm (x.loader.blocks.map (·.name)) := by
    refine (List.perm_ext_iff_of_nodup hnodup h.names).mpr fun name => ?_
    rw [hmem, Option.isSome_iff_exists]
    constructor
    · rintro ⟨data, hdata⟩
      obtain ⟨u, hu, rfl⟩ := mem_of_lastStored hdata
      exact List.mem_map_of_mem hu
    · intro hmem
      obtain ⟨u, hu, rfl⟩ := List.mem_map.mp hmem
      exact ⟨_, (lastStored_stores h.names h.accepted hu).1⟩
  have hrelated : List.Forall₂ (fun name u => name = CodeBlock.name u) (x.loader.blocks.map (·.name)) x.loader.blocks := by
    rw [List.forall₂_map_left_iff]
    exact List.forall₂_same.mpr fun _ _ => rfl
  obtain ⟨us, hus, husperm⟩ := List.perm_comp_forall₂ hperm hrelated
  have heq : names = us.map (·.name) := by
    rw [← List.forall₂_eq_eq_eq, List.forall₂_map_right_iff]
    exact hus
  exact ⟨us, heq ▸ h.archive ▸ hnames, husperm⟩

theorem Kept.restore_eq : ∃ us : List CodeBlock, us.Perm x.loader.blocks ∧
    x.archive.restore { helpers := .builtin } = (.ok (), x.loader.size, { helpers := .builtin, blocks := us }) ∧
    x.archive.restore { helpers := .builtin, blocks := us } = (.ok (), 0, { helpers := .builtin, blocks := us }) := by
  obtain ⟨us, hnames, hperm⟩ := h.names_eq hsession hsize
  have hnodup : (us.map (·.name)).Nodup := (hperm.map _).nodup_iff.mpr h.names
  have hread : ∀ u ∈ us, x.archive.read u.name = .ok u.bytes := fun u hu =>
    h.read_eq hsession hsize (hperm.mem_iff.mp hu)
  have htakes : ∀ u ∈ us, Loader.Takes u.name u.bytes u := by
    intro u hu
    obtain ⟨o, ho, hcompiled⟩ := h.compiled u (hperm.mem_iff.mp hu)
    obtain ⟨b, hb, hwords⟩ := h.traced.readable o ho
    exact hcompiled.takes hb hwords
  refine ⟨us, hperm, ?_, ?_⟩
  · have hrestore := Archive.restoreFrom_ok hread htakes hnodup (l := { helpers := .builtin }) rfl rfl (fun _ _ => rfl) 0
    rw [Archive.restore, hnames]
    simp only [hrestore, Nat.zero_add, List.nil_append, Loader.size, hperm.length_eq]
  · rw [Archive.restore, hnames]
    refine Archive.restoreFrom_found _ (fun name hname => ?_) 0
    obtain ⟨u, hu, rfl⟩ := List.mem_map.mp hname
    exact Option.isSome_iff_exists.mpr ⟨u, (Loader.find?_eq_some_iff rfl hnodup).mpr ⟨hu, rfl⟩⟩

end Restore

theorem Kept.find?_eq (h : Kept limits log session x) {us : List CodeBlock} (hperm : us.Perm x.loader.blocks)
    (name : String) : ({ helpers := .builtin, blocks := us } : Loader).find? name = x.loader.find? name := by
  have hnodup : (us.map (·.name)).Nodup := (hperm.map _).nodup_iff.mpr h.names
  refine Option.ext fun u => ?_
  rw [Loader.find?_eq_some_iff rfl hnodup, Loader.find?_eq_some_iff h.traced.closed_eq h.names, hperm.mem_iff]

end Kept
end Archiver

/-! ### Requests for restored units -/

/-- A unit that the loader holds is a hit for a compiler that does not know its name. -/
theorem answer_of_loaded {c : Compiler} {l : Loader} {r : Request} {s : Stream} {u : CodeBlock}
    (hs : Stream.ofBlock r.block = .ok s) (hname : r.name ≠ "") (hlookup : c.lookup r.name = none)
    (hfind : l.find? r.name = some u) (hsame : sameBlock u s = true) :
    ∃ key, r.answer (c, l) =
      { result := .ok u, compiler := ((c.enter r.name u).enterContent key u).hit, loader := l } := by
  refine ⟨⟨(Target.ofMode r.mode).name, contentSum s.microcodes⟩, ?_⟩
  simp only [Request.answer, compile, hs, compileStream, nameFor, if_neg hname, find, hlookup, hfind, hsame, if_true,
    countFailure]

theorem serve_append (cl : Compiler × Loader) (rs rs' : List Request) :
    serve cl (rs ++ rs') =
      serve cl rs ++ serve (rs.foldl (fun cl r => ((r.answer cl).compiler, (r.answer cl).loader)) cl) rs' := by
  induction rs generalizing cl with
  | nil => rfl
  | cons r rs ih => rw [List.cons_append, serve, serve, ih, List.foldl_cons, List.append_assoc]

theorem exists_origin_of_ok {cl : Compiler × Loader} {r : Request} {u : CodeBlock} (h : (r.answer cl).result = .ok u) :
    ∃ o, r.origin? = some o ∧ Stream.ofBlock r.block = .ok o.stream := by
  cases hs : Stream.ofBlock r.block with
  | error e =>
    simp only [Request.answer, compile, hs] at h
    cases h
  | ok s => exact ⟨⟨r.mode, s, nameFor (.ofMode r.mode) s r.name⟩, by simp only [Request.origin?, hs], rfl⟩

namespace Archiver

theorem archive_keeps (r : Compilation) (a : Archive) :
    (r.archive Archive.accept a).1.compiler = r.compiler ∧ (r.archive Archive.accept a).1.loader = r.loader := by
  unfold Compilation.archive
  split
  · split
    · split <;> exact ⟨rfl, rfl⟩
    · exact ⟨rfl, rfl⟩
  · exact ⟨rfl, rfl⟩

/-- Archiving has no part in what the compiler and the loader do. -/
theorem after_eq (limits : CompileLimits) (session : Bytes) (rs : List Request) :
    ((after limits session rs).compiler, (after limits session rs).loader) =
      rs.foldl (fun cl r => ((r.answer cl).compiler, (r.answer cl).loader))
        ({ limits, archiving := true }, { helpers := .builtin }) := by
  refine (List.foldl_hom (fun x : Archiver => (x.compiler, x.loader)) fun x r => ?_).symm
  obtain ⟨hc, hl⟩ := archive_keeps (r.answer (x.compiler, x.loader)) x.archive
  simp only [request, hc, hl]

theorem shared_after (limits : CompileLimits) (session : Bytes) {rs : List Request}
    (hwords : ∀ q ∈ rs, (q.block.flatMap (·.words)).length < 2 ^ 30) :
    Shared (serve ({ limits, archiving := true }, { helpers := .builtin }) rs) (after limits session rs).compiler
      (after limits session rs).loader := by
  have hrs : ∀ r ∈ rs, ∀ o, r.origin? = some o → o ∈ rs.filterMap Request.origin? :=
    fun r hr o ho => List.mem_filterMap.mpr ⟨r, hr, ho⟩
  have hshared := Shared.serve rs hrs ({ limits, archiving := true }, { helpers := .builtin })
    ((shared_start limits).congr rfl rfl fun _ => rfl) (kept_start limits session fun o => readable_of_mem hwords).traced
  rw [← after_eq limits session rs] at hshared
  exact hshared

/-- The unit that a request was answered with stays loaded, and has the arrays of the request. -/
theorem loaded_of_answer {limits : CompileLimits} {session : Bytes} {earlier later : List Request} {r : Request}
    (hwords : ∀ q ∈ earlier ++ r :: later, (q.block.flatMap (·.words)).length < 2 ^ 30) {u : CodeBlock}
    (hu : (r.answer ((after limits session earlier).compiler, (after limits session earlier).loader)).result = .ok u) :
    ∃ s, Stream.ofBlock r.block = .ok s ∧ sameBlock u s = true ∧
      (after limits session (earlier ++ r :: later)).loader.find? u.name = some u := by
  obtain ⟨o, ho, hs⟩ := exists_origin_of_ok hu
  have hshared := shared_after limits session hwords
  have hmem : ⟨o, u⟩ ∈ serve ({ limits, archiving := true }, { helpers := .builtin }) (earlier ++ r :: later) := by
    rw [serve_append, ← after_eq limits session earlier, serve, Request.served?, ho, hu]
    exact List.mem_append_right _ (List.mem_append_left _ List.mem_cons_self)
  exact ⟨o.stream, hs, hshared.same _ hmem, hshared.loaded _ hmem⟩

end Archiver

/-- A block for two modes. The unit that is loaded first comes last in the order of names. -/
def twoModes : List Request := [⟨.real, [⟨1, [136]⟩], "b"⟩, ⟨.protected_, [⟨1, [136]⟩], "a"⟩]

end Compiler
end MicroBlock
