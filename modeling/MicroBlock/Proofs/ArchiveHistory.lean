import MicroBlock.Proofs.Archives
import MicroBlock.Proofs.Digests

/-! What an archive holds after units were archived and shards were lost or overwritten, in any order. -/

namespace MicroBlock.Archive

open ArchiveKey

/-- What can happen to an archive. -/
inductive Event where
  | store (name : String) (data : Bytes)
  | lose (name : String) (shard : Fin Shards.total)
  | overwrite (name : String) (shard : Fin Shards.total) (bytes : Bytes)

namespace Event

def name : Event → String
  | store name _ => name
  | lose name _ => name
  | overwrite name _ _ => name

/-- A store that fails leaves the archive as it was. -/
def apply (a : Archive) : Event → Archive
  | store name data => (a.store name data).toOption.getD a
  | lose name i => a.erase (.shard name i)
  | overwrite name i bytes => a.put (.shard name i) bytes

/-- The byte strings that an event brings in. -/
def strings : Event → List Bytes
  | store _ data => data :: Shards.split data
  | lose _ _ => []
  | overwrite _ _ bytes => [bytes]

end Event

/-- The archive after a history. Histories start with their latest event. -/
def after (session : Bytes) : List Event → Archive
  | [] => empty session
  | e :: past => e.apply (after session past)

/-- The data of the last store of a name that succeeded. -/
def lastStored (name : String) : List Event → Option Bytes
  | [] => none
  | .store name' data :: past => if name' = name ∧ Accepts name' data then some data else lastStored name past
  | .lose _ _ :: past => lastStored name past
  | .overwrite _ _ _ :: past => lastStored name past

/-- What stands in the place of a shard. -/
def current (name : String) (i : Nat) : List Event → Option Bytes
  | [] => none
  | .store name' data :: past =>
    if name' = name ∧ Accepts name' data then (Shards.split data)[i]? else current name i past
  | .lose name' j :: past => if name' = name ∧ j = i then none else current name i past
  | .overwrite name' j bytes :: past => if name' = name ∧ j = i then some bytes else current name i past

/-- The number of shards of a unit that are missing or different from what was stored. -/
def missing (history : List Event) (name : String) (data : Bytes) : Nat :=
  ((List.range Shards.total).filter fun i => current name i history != (Shards.split data)[i]?).length

/-! ### One event -/

theorem apply_store_of_accepts (a : Archive) {name : String} {data : Bytes} (h : Accepts name data) :
    (Event.store name data).apply a = a.stored name data := by
  rw [Event.apply, store_of_accepts a h]
  rfl

theorem apply_store_of_not_accepts (a : Archive) {name : String} {data : Bytes} (h : ¬ Accepts name data) :
    (Event.store name data).apply a = a := by
  obtain ⟨e, he⟩ := store_of_not_accepts a h
  rw [Event.apply, he]
  rfl

theorem session_apply (e : Event) (a : Archive) : (e.apply a).session = a.session := by
  cases e with
  | store name data =>
    by_cases h : Accepts name data
    · rw [apply_store_of_accepts a h, session_stored]
    · rw [apply_store_of_not_accepts a h]
  | lose name i => rfl
  | overwrite name i bytes => rfl

theorem Keyed.apply {a : Archive} (ha : a.Keyed) (e : Event) : (e.apply a).Keyed := by
  cases e with
  | store name data =>
    by_cases h : Accepts name data
    · exact apply_store_of_accepts a h ▸ ha.stored name data
    · rwa [apply_store_of_not_accepts a h]
  | lose name i => exact ha.erase _
  | overwrite name i bytes => exact ha.put _ _

/-- An event touches the records of its own name only. -/
theorem get?_apply_of_ne (a : Archive) {e : Event} {k : ArchiveKey} (hheader : k.bytes ≠ (header e.name).bytes)
    (hshard : ∀ i, k.bytes ≠ (shard e.name i).bytes) : (e.apply a).get? k = a.get? k := by
  cases e with
  | store name data =>
    by_cases h : Accepts name data
    · rw [apply_store_of_accepts a h, get?_stored_of_ne a name data hheader fun i _ => hshard i]
    · rw [apply_store_of_not_accepts a h]
  | lose name i => exact get?_erase_of_ne a (hshard i)
  | overwrite name i bytes => exact get?_put_of_ne a (hshard i) bytes

theorem read_apply_of_ne (a : Archive) {e : Event} {name : String} (hne : e.name ≠ name) :
    (e.apply a).read name = a.read name := by
  refine read_congr (get?_apply_of_ne a ?_ ?_) fun i => get?_apply_of_ne a ?_ ?_
  · exact fun h => hne (header_inj h).symm
  · exact fun i => header_ne_shard name e.name i
  · exact (header_ne_shard e.name name i).symm
  · exact fun j h => hne (shard_inj h).1.symm

/-! ### Histories -/

theorem session_after (session : Bytes) (history : List Event) : (after session history).session = session := by
  induction history with
  | nil => rfl
  | cons e past ih => rw [after, session_apply, ih]

theorem keyed_after (session : Bytes) (history : List Event) : (after session history).Keyed := by
  induction history with
  | nil => exact .empty session
  | cons e past ih => exact ih.apply e

theorem get?_after_header (session : Bytes) (history : List Event) (name : String) :
    (after session history).get? (.header name) =
      (lastStored name history).map fun data => (headerOf session data).encode := by
  induction history with
  | nil => rfl
  | cons e past ih =>
    cases e with
    | store name' data =>
      rw [after, lastStored]
      by_cases h : Accepts name' data
      · rw [apply_store_of_accepts _ h]
        by_cases hname : name' = name
        · rw [if_pos ⟨hname, h⟩, ← hname, get?_stored_header, session_after]
          rfl
        · rw [if_neg fun h => hname h.1, get?_stored_of_ne _ _ _ (fun h => hname (header_inj h).symm)
            fun i _ => header_ne_shard name name' i, ih]
      · rw [apply_store_of_not_accepts _ h, if_neg fun h' => h h'.2, ih]
    | lose name' i => rw [after, lastStored, Event.apply, get?_erase_of_ne _ (header_ne_shard name name' i), ih]
    | overwrite name' i bytes =>
      rw [after, lastStored, Event.apply, get?_put_of_ne _ (header_ne_shard name name' i), ih]

theorem get?_after_shard (session : Bytes) (history : List Event) (name : String) {i : Nat} (hi : i < Shards.total) :
    (after session history).get? (.shard name i) = current name i history := by
  induction history with
  | nil => rfl
  | cons e past ih =>
    cases e with
    | store name' data =>
      rw [after, current]
      by_cases h : Accepts name' data
      · rw [apply_store_of_accepts _ h]
        by_cases hname : name' = name
        · rw [if_pos ⟨hname, h⟩, ← hname, get?_stored_shard _ _ _ hi]
        · rw [if_neg fun h => hname h.1, get?_stored_of_ne _ _ _ (header_ne_shard name' name i).symm
            fun j _ h => hname (shard_inj h).1.symm, ih]
      · rw [apply_store_of_not_accepts _ h, if_neg fun h' => h h'.2, ih]
    | lose name' j =>
      rw [after, current, Event.apply]
      by_cases h : name' = name ∧ j = i
      · rw [if_pos h, ← h.1, ← h.2, get?_erase_self]
      · rw [if_neg h, get?_erase_of_ne _ fun hk => h ⟨(shard_inj hk).1.symm, (shard_index_inj hi j.isLt hk).symm⟩, ih]
    | overwrite name' j bytes =>
      rw [after, current, Event.apply]
      by_cases h : name' = name ∧ j = i
      · rw [if_pos h, ← h.1, ← h.2, get?_put_self]
      · rw [if_neg h, get?_put_of_ne _ fun hk => h ⟨(shard_inj hk).1.symm, (shard_index_inj hi j.isLt hk).symm⟩, ih]

theorem exists_store {name : String} {history : List Event} {data : Bytes} (h : lastStored name history = some data) :
    .store name data ∈ history ∧ Accepts name data := by
  induction history with
  | nil => cases h
  | cons e past ih =>
    have hpast : lastStored name past = some data → .store name data ∈ e :: past ∧ Accepts name data := fun h =>
      ⟨List.mem_cons_of_mem _ (ih h).1, (ih h).2⟩
    cases e with
    | store name' data' =>
      rw [lastStored] at h
      split at h
      · rename_i haccepts
        obtain ⟨rfl, haccepts⟩ := haccepts
        cases h
        exact ⟨List.mem_cons_self, haccepts⟩
      · exact hpast h
    | lose name' j => exact hpast h
    | overwrite name' j bytes => exact hpast h

theorem mem_strings_of_current {name : String} {i : Nat} {history : List Event} {b : Bytes}
    (h : current name i history = some b) : b ∈ history.flatMap Event.strings := by
  induction history with
  | nil => cases h
  | cons e past ih =>
    rw [List.flatMap_cons]
    cases e with
    | store name' data =>
      rw [current] at h
      split at h
      · exact List.mem_append_left _ (List.mem_cons_of_mem _ (List.mem_of_getElem? h))
      · exact List.mem_append_right _ (ih h)
    | lose name' j =>
      rw [current] at h
      split at h
      · cases h
      · exact ih h
    | overwrite name' j bytes =>
      rw [current] at h
      split at h
      · cases h
        exact List.mem_append_left _ List.mem_cons_self
      · exact List.mem_append_right _ (ih h)

theorem lost_after (session : Bytes) (history : List Event) (name : String) (data : Bytes) :
    (after session history).lost name data = missing history name data := by
  refine congrArg List.length (List.filter_congr fun i hi => ?_)
  rw [kept, get?_after_shard session history name (List.mem_range.mp hi)]
  rfl

/-- Digests tell the shards of a unit from what replaces them, if they tell all byte strings of the history
    apart. -/
theorem telling_after (session : Bytes) {history : List Event} {name : String} {data : Bytes}
    (hdigest : Set.InjOn Digest.blake2b256 {b | b ∈ history.flatMap Event.strings})
    (hstored : lastStored name history = some data) : (after session history).Telling name data := by
  intro i b s hb hs heq
  have hi : i < Shards.total := (List.getElem?_eq_some_iff.mp hs).1
  rw [get?_after_shard session history name hi] at hb
  refine hdigest (mem_strings_of_current hb) ?_ heq
  exact List.mem_flatMap.mpr ⟨_, (exists_store hstored).1, List.mem_cons_of_mem _ (List.mem_of_getElem? hs)⟩

section
variable {session : Bytes} (hsession : session.length = 16) {history : List Event}
  (hsize : ∀ name data, .store name data ∈ history → data.length < 2 ^ 32)
include hsession hsize

theorem read_after (hdigest : Set.InjOn Digest.blake2b256 {b | b ∈ history.flatMap Event.strings}) {name : String}
    {data : Bytes} (hstored : lastStored name history = some data) :
    (after session history).read name = if missing history name data ≤ Shards.parityShards then .ok data
      else .error (.damaged name (.lost (missing history name data))) := by
  obtain ⟨hmem, -, -, hdata⟩ := exists_store hstored
  have hheader := get?_after_header session history name
  rw [hstored] at hheader
  have hread := read_eq hsession (hsize name data hmem) hdata hheader (telling_after session hdigest hstored)
  rwa [lost_after] at hread

theorem names_after : ∃ names, (after session history).names = .ok names ∧
    (∀ name, name ∈ names ↔ (lastStored name history).isSome) ∧ (names.map nameBytes).Pairwise (· < ·) := by
  have hdecode : ∀ name b, (after session history).get? (.header name) = some b → (Header.decode? b).isSome := by
    intro name b hb
    rw [get?_after_header] at hb
    obtain ⟨data, hstored, rfl⟩ := Option.map_eq_some_iff.mp hb
    rw [decode?_encode hsession (hsize name data (exists_store hstored).1)]
    rfl
  obtain ⟨names, hnames, hmem, horder⟩ := (keyed_after session history).names_ok hdecode
  refine ⟨names, hnames, fun name => ?_, horder⟩
  rw [hmem, get?_after_header, Option.isSome_map]

end

/-- A unit is read as it was last archived while at most two of its shards are lost or changed, and is reported
    as damaged otherwise. Units of other names have no part in that. The names are those of the archived
    units. -/
theorem read_after_history {session : Bytes} (hsession : session.length = 16) {history : List Event}
    (hsize : ∀ name data, .store name data ∈ history → data.length < 2 ^ 32)
    (hdigest : Set.InjOn Digest.blake2b256 {b | b ∈ history.flatMap Event.strings}) :
    (∀ name data, (∃ a, (after session history).store name data = .ok a) ↔ Accepts name data) ∧
    (∀ name, lastStored name history = none → (after session history).read name = .error (.notArchived name)) ∧
    (∀ name data, lastStored name history = some data →
      (missing history name data ≤ 2 → (after session history).read name = .ok data) ∧
      (2 < missing history name data →
        (after session history).read name = .error (.damaged name (.lost (missing history name data))))) ∧
    (∀ (e : Event) name, e.name ≠ name →
      (e.apply (after session history)).read name = (after session history).read name) ∧
    ∃ names, (after session history).names = .ok names ∧
      (∀ name, name ∈ names ↔ (lastStored name history).isSome) ∧ (names.map nameBytes).Pairwise (· < ·) := by
  refine ⟨store_ok_iff _, ?_, ?_, fun e name hne => read_apply_of_ne _ hne, names_after hsession hsize⟩
  · intro name hnone
    have hheader := get?_after_header session history name
    rw [hnone] at hheader
    exact read_of_no_header hheader
  · intro name data hstored
    have hread := read_after hsession hsize hdigest hstored
    exact ⟨fun hle => hread.trans (if_pos hle), fun hlt => hread.trans (if_neg (Nat.not_le.mpr hlt))⟩

/-- Two units were archived, then one shard of the first was overwritten and another lost. -/
def twoDamaged : List Event :=
  [.lose "a" ⟨5, by decide⟩, .overwrite "a" ⟨0, by decide⟩ [0], .store "b" [0], .store "a" [7]]

theorem split_seven : Shards.split [7] = [[7], [0], [0], [0], [65], [84]] := by decide +kernel

theorem twoDamaged_injOn : Set.InjOn Digest.blake2b256 {b | b ∈ twoDamaged.flatMap Event.strings} := by
  have hstrings : ∀ b ∈ twoDamaged.flatMap Event.strings, b ∈ [[0], [7], [65], [84]] := by
    simp only [twoDamaged, List.flatMap_cons, List.flatMap_nil, Event.strings, split_seven]
    decide
  have hfirst : ([[0], [7], [65], [84]].map fun b : Bytes => (Digest.blake2b256 b).head?) =
      [some 3, some 135, some 163, some 137] := by
    have hshort : ∀ b ∈ ([[0], [7], [65], [84]] : List Bytes), b.length ≤ 128 := by decide
    rw [List.map_congr_left fun b hb => congrArg List.head? (Digest.blake2b256_of_short (hshort b hb))]
    decide +kernel
  have hnodup : ([[0], [7], [65], [84]].map fun b : Bytes => (Digest.blake2b256 b).head?).Nodup := by
    rw [hfirst]
    decide
  intro x hx y hy h
  exact List.inj_on_of_nodup_map hnodup (hstrings x hx) (hstrings y hy) (congrArg List.head? h)

theorem read_twoDamaged :
    lastStored "a" twoDamaged = some [7] ∧ missing twoDamaged "a" [7] = 2 ∧
      (after (List.replicate 16 0) twoDamaged).read "a" = .ok [7] ∧
      (after (List.replicate 16 0) twoDamaged).read "c" = .error (.notArchived "c") := by
  have hstored : lastStored "a" twoDamaged = some [7] := by decide
  have hmissing : missing twoDamaged "a" [7] = 2 := by
    simp only [missing, twoDamaged, current, split_seven]
    decide
  have hsize : ∀ name data, .store name data ∈ twoDamaged → data.length < 2 ^ 32 := by
    intro name data hmem
    simp only [twoDamaged, List.mem_cons, Event.store.injEq, reduceCtorEq, List.not_mem_nil, false_or, or_false] at hmem
    rcases hmem with ⟨-, rfl⟩ | ⟨-, rfl⟩ <;> decide
  obtain ⟨-, hnone, hsome, -⟩ :=
    read_after_history (List.length_replicate : (List.replicate 16 (0 : UInt8)).length = 16) hsize twoDamaged_injOn
  exact ⟨hstored, hmissing, (hsome "a" [7] hstored).1 (Nat.le_of_eq hmissing), hnone "c" (by decide)⟩

end MicroBlock.Archive
