import MicroBlock.Archive.Basic
import MicroBlock.Proofs.Names
import MicroBlock.Proofs.Shards

/-! The records of an archive: what a store writes, and when a unit is read back. -/

namespace MicroBlock

/-! ### Keys -/

namespace ArchiveKey

theorem nameBytes_inj {name name' : String} (h : nameBytes name = nameBytes name') : name = name' :=
  ByteString.ofString_inj (congrArg ByteString.mk h)

theorem header_inj {name name' : String} (h : (header name).bytes = (header name').bytes) : name = name' :=
  nameBytes_inj (List.append_cancel_left h)

theorem header_ne_shard (name name' : String) (i : Nat) : (header name).bytes ≠ (shard name' i).bytes := by
  intro h
  have : (0x6d : UInt8) = 0x75 := (List.cons.inj h).1
  exact absurd this (by decide)

theorem shard_inj {name name' : String} {i j : Nat} (h : (shard name i).bytes = (shard name' j).bytes) :
    name = name' ∧ UInt8.ofNat i = UInt8.ofNat j := by
  have hlength : ([0x2f, UInt8.ofNat i] : Bytes).length = [0x2f, UInt8.ofNat j].length := rfl
  obtain ⟨hname, hindex⟩ := List.append_inj' h hlength
  exact ⟨nameBytes_inj (List.append_cancel_left hname), (List.cons.inj (List.cons.inj hindex).2).1⟩

theorem shard_index_inj {name name' : String} {i j : Nat} (hi : i < Shards.total) (hj : j < Shards.total)
    (h : (shard name i).bytes = (shard name' j).bytes) : i = j := by
  rw [← Shards.toNat_of_lt hi, (shard_inj h).2, Shards.toNat_of_lt hj]

theorem nameOf_header (name : String) : nameOf (header name).bytes = name := by
  have hdrop : (header name).bytes.drop firstHeader.length = nameBytes name := List.drop_left
  have hname : String.fromUTF8? ⟨(nameBytes name).toArray⟩ = some name := by
    rw [nameBytes, ByteString.bytes_ofString, Array.toArray_toList, String.fromUTF8?, dif_pos name.isValidUTF8]
    rfl
  simp only [nameOf, hdrop, hname, Option.getD_some]

theorem firstHeader_le (name : String) : firstHeader ≤ (header name).bytes := by
  simp [firstHeader, bytes, List.cons_le_cons_iff]

theorem lt_headersEnd (name : String) : (header name).bytes < headersEnd := by
  simp [firstHeader, headersEnd, bytes, List.cons_lt_cons_iff]

theorem not_lt_headersEnd (name : String) (i : Nat) : ¬ (shard name i).bytes < headersEnd := by
  simp [firstShard, headersEnd, bytes, List.cons_lt_cons_iff]

end ArchiveKey

namespace Archive

open ArchiveKey

/-! ### Single records -/

theorem lookup_filter_of_ne {k k' : Bytes} (hne : k' ≠ k) (records : List (Bytes × Bytes)) :
    (records.filter (·.1 != k)).lookup k' = records.lookup k' := by
  induction records with
  | nil => rfl
  | cons r records ih =>
    rcases r with ⟨key, v⟩
    by_cases hkey : key = k
    · simpa [hkey, List.lookup_cons, beq_false_of_ne hne] using ih
    · simp [hkey, List.lookup_cons, ih]

theorem lookup_filter_self (k : Bytes) (records : List (Bytes × Bytes)) :
    (records.filter (·.1 != k)).lookup k = none := by
  rw [List.lookup_eq_none_iff]
  intro r hr
  have hkey : r.1 ≠ k := by simpa using List.of_mem_filter hr
  simpa using hkey.symm

@[simp] theorem get?_put_self (a : Archive) (k : ArchiveKey) (v : Bytes) : (a.put k v).get? k = some v := by
  simp [get?, put]

theorem get?_put_of_ne (a : Archive) {k k' : ArchiveKey} (hne : k'.bytes ≠ k.bytes) (v : Bytes) :
    (a.put k v).get? k' = a.get? k' := by
  simp only [get?, put, List.lookup_cons, beq_false_of_ne hne]
  exact lookup_filter_of_ne hne a.records

@[simp] theorem get?_erase_self (a : Archive) (k : ArchiveKey) : (a.erase k).get? k = none :=
  lookup_filter_self k.bytes a.records

theorem get?_erase_of_ne (a : Archive) {k k' : ArchiveKey} (hne : k'.bytes ≠ k.bytes) :
    (a.erase k).get? k' = a.get? k' :=
  lookup_filter_of_ne hne a.records

/-- Every record has a key of its own, which is that of a header or a shard. -/
structure Keyed (a : Archive) : Prop where
  nodup : (a.records.map (·.1)).Nodup
  key : ∀ r ∈ a.records, ∃ k : ArchiveKey, r.1 = k.bytes

theorem Keyed.empty (session : Bytes) : (empty session).Keyed := ⟨List.nodup_nil, fun _ h => absurd h List.not_mem_nil⟩

theorem Keyed.erase {a : Archive} (ha : a.Keyed) (k : ArchiveKey) : (a.erase k).Keyed where
  nodup := ha.nodup.sublist (List.filter_sublist.map _)
  key r hr := ha.key r (List.mem_of_mem_filter hr)

theorem Keyed.put {a : Archive} (ha : a.Keyed) (k : ArchiveKey) (v : Bytes) : (a.put k v).Keyed where
  nodup := by
    refine List.nodup_cons.mpr ⟨?_, (ha.erase k).nodup⟩
    intro h
    obtain ⟨r, hr, hkey⟩ := List.mem_map.mp h
    have := List.of_mem_filter hr
    simp [hkey] at this
  key r hr := by
    rcases List.mem_cons.mp hr with rfl | hr
    · exact ⟨k, rfl⟩
    · exact (ha.erase k).key r hr

/-! ### A stored unit -/

/-- What a name and a unit must be to be archived. -/
def Accepts (name : String) (data : Bytes) : Prop :=
  name ≠ "" ∧ Char.ofNat 0 ∉ name.toList ∧ data ≠ []

instance (name : String) (data : Bytes) : Decidable (Accepts name data) :=
  inferInstanceAs (Decidable (_ ∧ _ ∧ _))

def headerOf (session data : Bytes) : Header :=
  { session, size := data.length, sum := Digest.blake2b256 data, shardSums := (Shards.split data).map Digest.blake2b256 }

/-- The archive with some shards put under a name, the first of them at an index. -/
def putShards (a : Archive) (name : String) (n : Nat) (shards : List Bytes) : Archive :=
  (shards.zipIdx n).foldl (fun a s => a.put (.shard name s.2) s.1) a

theorem putShards_cons (a : Archive) (name : String) (n : Nat) (s : Bytes) (shards : List Bytes) :
    a.putShards name n (s :: shards) = (a.put (.shard name n) s).putShards name (n + 1) shards := by
  rw [putShards, List.zipIdx_cons, List.foldl_cons]
  rfl

/-- The archive after a unit was stored. -/
def stored (a : Archive) (name : String) (data : Bytes) : Archive :=
  (a.putShards name 0 (Shards.split data)).put (.header name) (headerOf a.session data).encode

theorem store_of_accepts (a : Archive) {name : String} {data : Bytes} (h : Accepts name data) :
    a.store name data = .ok (a.stored name data) := by
  obtain ⟨hname, hnul, hdata⟩ := h
  have hempty : data.isEmpty = false := by simpa using hdata
  simp [store, hname, hnul, hempty, stored, headerOf, putShards]

theorem store_of_not_accepts (a : Archive) {name : String} {data : Bytes} (h : ¬ Accepts name data) :
    ∃ e, a.store name data = .error e := by
  unfold store
  split
  · exact ⟨_, rfl⟩
  · rename_i hname
    split
    · exact ⟨_, rfl⟩
    · rename_i hdata
      rw [Bool.or_eq_true, decide_eq_true_iff, List.contains_iff_mem, not_or] at hname
      exact absurd ⟨hname.1, hname.2, fun hnil => hdata (hnil ▸ rfl)⟩ h

theorem store_ok_iff (a : Archive) (name : String) (data : Bytes) :
    (∃ a', a.store name data = .ok a') ↔ Accepts name data := by
  constructor
  · rintro ⟨a', ha'⟩
    by_contra hnot
    obtain ⟨e, he⟩ := store_of_not_accepts a hnot
    rw [he] at ha'
    cases ha'
  · exact fun h => ⟨_, store_of_accepts a h⟩

theorem get?_putShards_of_ne {k : ArchiveKey} {name : String} {n : Nat} {shards : List Bytes}
    (hne : ∀ i, n ≤ i → i < n + shards.length → k.bytes ≠ (shard name i).bytes) (a : Archive) :
    (a.putShards name n shards).get? k = a.get? k := by
  induction shards generalizing n a with
  | nil => rfl
  | cons s shards ih =>
    rw [List.length_cons] at hne
    rw [putShards_cons, ih (fun i hn hi => hne i (by omega) (by omega)), get?_put_of_ne a (hne n (by omega) (by omega))]

theorem get?_putShards {name : String} {n : Nat} {shards : List Bytes} (hn : n + shards.length ≤ Shards.total)
    (a : Archive) {i : Nat} (hi : i < shards.length) :
    (a.putShards name n shards).get? (.shard name (n + i)) = shards[i]? := by
  induction shards generalizing n a i with
  | nil => exact absurd hi (Nat.not_lt_zero i)
  | cons s shards ih =>
    rw [List.length_cons] at hn hi
    rw [putShards_cons]
    cases i with
    | zero =>
      have hne : ∀ j, n + 1 ≤ j → j < n + 1 + shards.length → (shard name n).bytes ≠ (shard name j).bytes := by
        intro j hj hlt h
        have := shard_index_inj (by omega) (by omega) h
        omega
      exact (get?_putShards_of_ne hne _).trans (get?_put_self a (.shard name n) s)
    | succ i =>
      have hindex : n + (i + 1) = n + 1 + i := by omega
      rw [hindex, ih (by omega) _ (by omega)]
      rfl

theorem Keyed.putShards {a : Archive} (ha : a.Keyed) (name : String) (n : Nat) (shards : List Bytes) :
    (a.putShards name n shards).Keyed := by
  induction shards generalizing n a with
  | nil => exact ha
  | cons s shards ih => exact putShards_cons a name n s shards ▸ ih (ha.put _ _) (n + 1)

theorem Keyed.stored {a : Archive} (ha : a.Keyed) (name : String) (data : Bytes) : (a.stored name data).Keyed :=
  (ha.putShards name 0 _).put _ _

theorem session_putShards (a : Archive) (name : String) (n : Nat) (shards : List Bytes) :
    (a.putShards name n shards).session = a.session := by
  induction shards generalizing n a with
  | nil => rfl
  | cons s shards ih => rw [putShards_cons, ih]; rfl

@[simp] theorem session_stored (a : Archive) (name : String) (data : Bytes) : (a.stored name data).session = a.session :=
  session_putShards a name 0 _

theorem get?_stored_header (a : Archive) (name : String) (data : Bytes) :
    (a.stored name data).get? (.header name) = some (headerOf a.session data).encode :=
  get?_put_self _ _ _

theorem get?_stored_shard (a : Archive) (name : String) (data : Bytes) {i : Nat} (hi : i < Shards.total) :
    (a.stored name data).get? (.shard name i) = (Shards.split data)[i]? := by
  have hshard : (a.putShards name 0 (Shards.split data)).get? (.shard name (0 + i)) = _ :=
    get?_putShards (Nat.le_refl _) a hi
  rw [Nat.zero_add] at hshard
  rw [stored, get?_put_of_ne _ (header_ne_shard name name i).symm, hshard]

/-- A store leaves the records of other names as they are. -/
theorem get?_stored_of_ne (a : Archive) (name : String) (data : Bytes) {k : ArchiveKey}
    (hheader : k.bytes ≠ (header name).bytes) (hshard : ∀ i < Shards.total, k.bytes ≠ (shard name i).bytes) :
    (a.stored name data).get? k = a.get? k := by
  rw [stored, get?_put_of_ne _ hheader]
  refine get?_putShards_of_ne (fun i _ hi => hshard i ?_) a
  rwa [Nat.zero_add] at hi

/-! ### Headers -/

theorem length_flatMap_wordBytes (words : List UInt64) : (words.flatMap Digest.wordBytes).length = 8 * words.length := by
  induction words with
  | nil => rfl
  | cons w words ih => rw [List.flatMap_cons, List.length_append, ih, List.length_cons, Digest.wordBytes,
      List.length_map, List.length_range, Nat.mul_add, Nat.add_comm]

theorem length_blake2b256 (bytes : Bytes) : (Digest.blake2b256 bytes).length = 32 := by
  rw [Digest.blake2b256, List.length_take, length_flatMap_wordBytes, Vector.length_toList]
  rfl

theorem foldr_wordLowFirst {n : Nat} (hn : n < 2 ^ 32) :
    (Write.wordLowFirst (UInt32.ofNat n)).foldr (fun x n => n * 256 + x.toNat) 0 = n := by
  have hword : (UInt32.ofNat n).toNat = n := UInt32.toNat_ofNat_of_lt hn
  have hshifts : (8 : UInt32).toNat % 32 = 8 ∧ (16 : UInt32).toNat % 32 = 16 ∧ (24 : UInt32).toNat % 32 = 24 := by
    decide
  simp only [Write.wordLowFirst, List.foldr_cons, List.foldr_nil, UInt32.toNat_toUInt8, UInt32.toNat_shiftRight, hword,
    hshifts, Nat.shiftRight_eq_div_pow]
  omega

theorem slice_flatten {n : Nat} {ls : List Bytes} (hls : ∀ l ∈ ls, l.length = n) {i : Nat} (hi : i < ls.length) :
    (ls.flatten.drop (n * i)).take n = ls[i] := by
  induction ls generalizing i with
  | nil => exact absurd hi (Nat.not_lt_zero i)
  | cons l ls ih =>
    have hl := hls l List.mem_cons_self
    cases i with
    | zero => rw [Nat.mul_zero, List.drop_zero, List.flatten_cons, ← hl, List.take_left, List.getElem_cons_zero]
    | succ i =>
      rw [Nat.mul_succ, Nat.add_comm, List.flatten_cons, ← List.drop_drop, ← hl, List.drop_left, hl,
        ih (fun l h => hls l (List.mem_cons_of_mem _ h)) (Nat.lt_of_succ_lt_succ hi), List.getElem_cons_succ]

theorem length_flatten_of {n : Nat} {ls : List Bytes} (hls : ∀ l ∈ ls, l.length = n) :
    ls.flatten.length = ls.length * n := by
  rw [List.length_flatten, List.map_congr_left hls, List.map_const', List.sum_replicate_nat]

theorem decode?_parts {session word sum : Bytes} {sums : List Bytes} (hsession : session.length = 16)
    (hword : word.length = 4) (hsum : sum.length = 32) (hsums : ∀ l ∈ sums, l.length = 32)
    (htotal : sums.length = Shards.total) :
    Header.decode? (session ++ (word ++ (sum ++ sums.flatten))) =
      some { session, size := word.foldr (fun x n => n * 256 + x.toNat) 0, sum, shardSums := sums } := by
  have hlength : (session ++ (word ++ (sum ++ sums.flatten))).length = Header.encodedSize := by
    simp only [List.length_append, hsession, hword, hsum, length_flatten_of hsums, htotal]
    rfl
  have hafter : (session ++ (word ++ (sum ++ sums.flatten))).drop 20 = sum ++ sums.flatten := by
    rw [← List.append_assoc, List.drop_left' (by rw [List.length_append, hsession, hword])]
  have hslices : (List.range Shards.total).map (fun i =>
      ((session ++ (word ++ (sum ++ sums.flatten))).drop (52 + 32 * i)).take 32) = sums := by
    refine List.ext_getElem (by rw [List.length_map, List.length_range, htotal]) fun i _ hi => ?_
    rw [List.getElem_map, List.getElem_range, ← slice_flatten hsums hi, show 52 + 32 * i = 20 + (32 + 32 * i) by omega,
      ← List.drop_drop, hafter, ← List.drop_drop, List.drop_left' hsum]
  simp only [Header.decode?, hlength, hafter, hslices, ne_eq, not_true, if_false, List.take_left' hsession,
    List.drop_left' hsession, List.take_left' hword, List.take_left' hsum]

theorem decode?_encode {session data : Bytes} (hsession : session.length = 16) (hsize : data.length < 2 ^ 32) :
    Header.decode? (headerOf session data).encode = some (headerOf session data) := by
  have hsums : ∀ l ∈ (Shards.split data).map Digest.blake2b256, l.length = 32 := by
    intro l hl
    obtain ⟨s, -, rfl⟩ := List.mem_map.mp hl
    exact length_blake2b256 s
  have hparts := decode?_parts hsession (rfl : (Write.wordLowFirst (UInt32.ofNat data.length)).length = 4)
    (length_blake2b256 data) hsums (by rw [List.length_map, Shards.length_split])
  rw [foldr_wordLowFirst hsize, ← List.append_assoc, ← List.append_assoc] at hparts
  exact hparts

/-! ### Listing -/

theorem lookup_eq_some_iff {records : List (Bytes × Bytes)} (hnodup : (records.map (·.1)).Nodup) {k v : Bytes} :
    records.lookup k = some v ↔ (k, v) ∈ records := by
  induction records with
  | nil => simp
  | cons r records ih =>
    rcases r with ⟨key, w⟩
    obtain ⟨hkey, hnodup⟩ := List.nodup_cons.mp hnodup
    by_cases hk : k = key
    · subst hk
      have hnot : (k, v) ∉ records := fun hmem => hkey (List.mem_map.mpr ⟨_, hmem, rfl⟩)
      simp [hnot, eq_comm]
    · simp [List.lookup_cons, beq_false_of_ne hk, ih hnodup, hk]

theorem mem_scan {a : Archive} {low high : Bytes} {r : Bytes × Bytes} :
    r ∈ a.scan low high ↔ r ∈ a.records ∧ low ≤ r.1 ∧ r.1 < high := by
  rw [scan, (sortBy_perm _ _).mem_iff, List.mem_filter]
  simp

/-- The keys of a scan are in order, and no key stands in it twice. -/
theorem Keyed.pairwise_scan {a : Archive} (ha : a.Keyed) (low high : Bytes) :
    (a.scan low high).Pairwise fun x y => x.1 < y.1 := by
  have hsorted : (a.scan low high).Pairwise fun x y => decide (x.1 ≤ y.1) :=
    sortBy_pairwise (fun x y => by simpa using List.le_total x.1 y.1)
      (fun x y z hxy hyz => by simpa using List.le_trans (of_decide_eq_true hxy) (of_decide_eq_true hyz)) _
  have hnodup : ((a.scan low high).map (·.1)).Nodup :=
    ((sortBy_perm _ _).map _).nodup_iff.mpr (ha.nodup.sublist (List.filter_sublist.map _))
  refine (hsorted.and (List.pairwise_map.mp hnodup)).imp fun h => ?_
  exact Std.lt_of_le_of_ne (of_decide_eq_true h.1) h.2

theorem Keyed.mem_headers {a : Archive} (ha : a.Keyed) {r : Bytes × Bytes} :
    r ∈ a.scan firstHeader headersEnd ↔ ∃ name, r.1 = (header name).bytes ∧ a.get? (.header name) = some r.2 := by
  rw [mem_scan]
  constructor
  · rintro ⟨hmem, -, hlt⟩
    obtain ⟨k, hk⟩ := ha.key r hmem
    cases k with
    | header name => exact ⟨name, hk, (lookup_eq_some_iff ha.nodup).mpr (hk ▸ hmem)⟩
    | shard name i => exact absurd (hk ▸ hlt) (not_lt_headersEnd name i)
  · rintro ⟨name, hk, hget⟩
    have hmem := (lookup_eq_some_iff ha.nodup).mp hget
    rw [← hk] at hmem
    exact ⟨hmem, hk ▸ firstHeader_le name, hk ▸ lt_headersEnd name⟩

theorem entry_ok (name : String) {b : Bytes} (h : (Header.decode? b).isSome) :
    ∃ e, entry name b = .ok e ∧ e.name = name := by
  obtain ⟨m, hm⟩ := Option.isSome_iff_exists.mp h
  simp only [entry, readHeader, hm]
  exact ⟨_, rfl, rfl⟩

theorem mapM_entry_ok {headers : List (String × Bytes)} (h : ∀ r ∈ headers, (Header.decode? r.2).isSome) :
    ∃ es : List Entry, (headers.mapM fun r => entry r.1 r.2) = .ok es ∧ es.map (·.name) = headers.map (·.1) := by
  induction headers with
  | nil => exact ⟨[], rfl, rfl⟩
  | cons r headers ih =>
    obtain ⟨e, he, hname⟩ := entry_ok r.1 (h r List.mem_cons_self)
    obtain ⟨es, hes, hnames⟩ := ih fun r hr => h r (List.mem_cons_of_mem _ hr)
    refine ⟨e :: es, ?_, by rw [List.map_cons, List.map_cons, hname, hnames]⟩
    rw [List.mapM_cons, he, hes]
    rfl

/-- The names in an archive whose headers can all be read. -/
theorem Keyed.names_ok {a : Archive} (ha : a.Keyed)
    (h : ∀ name b, a.get? (.header name) = some b → (Header.decode? b).isSome) :
    ∃ names, a.names = .ok names ∧ (∀ name, name ∈ names ↔ (a.get? (.header name)).isSome) ∧
      (names.map nameBytes).Pairwise (· < ·) := by
  have hread : ∀ r ∈ a.headers, (Header.decode? r.2).isSome := by
    intro r hr
    obtain ⟨r, hscan, rfl⟩ := List.mem_map.mp hr
    obtain ⟨name, -, hget⟩ := ha.mem_headers.mp hscan
    exact h name r.2 hget
  obtain ⟨es, hes, hnames⟩ := mapM_entry_ok hread
  refine ⟨a.headers.map (·.1), ?_, ?_, ?_⟩
  · rw [names, entries, hes, ← hnames]
    rfl
  · intro name
    rw [headers, List.map_map]
    constructor
    · intro hmem
      obtain ⟨r, hr, rfl⟩ := List.mem_map.mp hmem
      obtain ⟨name, hkey, hget⟩ := ha.mem_headers.mp hr
      simp only [Function.comp_apply, hkey, nameOf_header, hget, Option.isSome_some]
    · intro hsome
      obtain ⟨b, hget⟩ := Option.isSome_iff_exists.mp hsome
      exact List.mem_map.mpr ⟨((header name).bytes, b), ha.mem_headers.mpr ⟨name, rfl, hget⟩, nameOf_header name⟩
  · rw [headers, List.map_map, List.map_map, List.pairwise_map]
    refine (ha.pairwise_scan _ _).imp_of_mem fun {x y} hx hy hlt => ?_
    obtain ⟨name, hx, -⟩ := ha.mem_headers.mp hx
    obtain ⟨name', hy, -⟩ := ha.mem_headers.mp hy
    simp only [Function.comp_apply, hx, hy, nameOf_header] at hlt ⊢
    simpa [bytes, firstHeader, List.cons_lt_cons_iff] using hlt

/-! ### Reading -/

/-- Reading a unit looks at the records of its name only. -/
theorem read_congr {a a' : Archive} {name : String} (hheader : a.get? (.header name) = a'.get? (.header name))
    (hshard : ∀ i, a.get? (.shard name i) = a'.get? (.shard name i)) : a.read name = a'.read name := by
  have hintact : ∀ sums, a.intact name sums = a'.intact name sums := fun sums => by simp only [intact, hshard]
  unfold read
  rw [hheader]
  simp only [hintact]

/-- Whether a shard of a unit is as it was stored. -/
def kept (a : Archive) (name : String) (data : Bytes) (i : Nat) : Bool :=
  a.get? (.shard name i) == (Shards.split data)[i]?

/-- The number of shards of a unit that are missing or changed. -/
def lost (a : Archive) (name : String) (data : Bytes) : Nat :=
  ((List.range Shards.total).filter fun i => !a.kept name data i).length

/-- No shard in the place of another has its digest. -/
def Telling (a : Archive) (name : String) (data : Bytes) : Prop :=
  ∀ i b s, a.get? (.shard name i) = some b → (Shards.split data)[i]? = some s →
    Digest.blake2b256 b = Digest.blake2b256 s → b = s

theorem intact_eq {a : Archive} {name : String} {data : Bytes} (h : a.Telling name data) :
    a.intact name ((Shards.split data).map Digest.blake2b256) =
      (a.lost name data, Shards.keep (a.kept name data) (Shards.split data)) := by
  have hshards : (((Shards.split data).map Digest.blake2b256).zipIdx.map fun s =>
      (a.get? (.shard name s.2)).filter (Digest.blake2b256 · = s.1)) =
      (Shards.split data).zipIdx.map fun s => if a.kept name data s.2 then some s.1 else none := by
    rw [List.zipIdx_map, List.map_map]
    refine List.map_congr_left fun s hs => ?_
    have hsplit : (Shards.split data)[s.2]? = some s.1 := List.mem_zipIdx_iff_getElem?.mp hs
    simp only [Function.comp_apply, Prod.map_fst, Prod.map_snd, id_eq, kept, hsplit]
    cases hget : a.get? (.shard name s.2) with
    | none => rfl
    | some b =>
      by_cases hb : b = s.1
      · simp [hb]
      · have hdigest : Digest.blake2b256 b ≠ Digest.blake2b256 s.1 := fun heq => hb (h s.2 b s.1 hget hsplit heq)
        simp [hb, hdigest]
  have hrange : (Shards.split data).zipIdx.map (·.2) = List.range Shards.total := by
    rw [List.zipIdx_map_snd, Shards.length_split, List.range_eq_range']
  simp only [intact]
  rw [hshards]
  refine congrArg₂ Prod.mk ?_ ?_
  · rw [lost, ← hrange, List.filter_map, List.filter_map, List.length_map, List.length_map]
    refine congrArg List.length (List.filter_congr fun s _ => ?_)
    simp only [Function.comp_apply]
    cases a.kept name data s.2 <;> rfl
  · rw [Shards.keep, List.map_map]
    refine List.map_congr_left fun s _ => ?_
    simp only [Function.comp_apply]
    cases a.kept name data s.2 <;> rfl

theorem read_of_no_header {a : Archive} {name : String} (h : a.get? (.header name) = none) :
    a.read name = .error (.notArchived name) := by
  simp only [read, h]
  rfl

theorem read_eq {a : Archive} {name : String} {session data : Bytes} (hsession : session.length = 16)
    (hsize : data.length < 2 ^ 32) (hdata : data ≠ [])
    (hheader : a.get? (.header name) = some (headerOf session data).encode) (h : a.Telling name data) :
    a.read name = if a.lost name data ≤ Shards.parityShards then .ok data
      else .error (.damaged name (.lost (a.lost name data))) := by
  have hintact : a.intact name (headerOf session data).shardSums = _ := intact_eq h
  simp only [read, hheader, readHeader, decode?_encode hsession hsize]
  simp only [bind, Except.bind, pure, Except.pure, hintact]
  by_cases hlost : a.lost name data ≤ Shards.parityShards
  · obtain ⟨full, hfull, hpieces⟩ : ∃ full, (if a.lost name data = 0 then
        .ok (Shards.keep (a.kept name data) (Shards.split data))
        else Shards.reconstruct (Shards.keep (a.kept name data) (Shards.split data))) = .ok full ∧
        full.take Shards.dataShards = Shards.pieces data := by
      by_cases hnone : a.lost name data = 0
      · exact ⟨_, if_pos hnone, Shards.take_keep_all hnone⟩
      · rw [if_neg hnone]
        exact Shards.reconstruct_keep hdata hlost
    have hjoin : Shards.join full (headerOf session data).size = .ok data := Shards.join_of_pieces hdata hpieces
    rw [if_neg (Nat.not_lt.mpr hlost), if_pos hlost, hfull]
    simp only [hjoin]
    exact if_pos rfl
  · rw [if_pos (Nat.lt_of_not_le hlost), if_neg hlost]
    rfl

end Archive
end MicroBlock
