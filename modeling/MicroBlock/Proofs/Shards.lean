import MicroBlock.Archive.Shards
import MicroBlock.Proofs.ByteField

/-! Any four of the six shards give the data back. -/

namespace MicroBlock.Shards

open Polynomial Field256

/-- The shard at a point: at every offset the value there of the polynomial of that offset. -/
noncomputable def shardAt (f : Nat → Element[X]) (size : Nat) (p : UInt8) : Bytes :=
  (List.range size).map fun t => ((f t).eval ⟨p⟩).byte

@[simp] theorem length_shardAt (f : Nat → Element[X]) (size : Nat) (p : UInt8) : (shardAt f size p).length = size := by
  simp [shardAt]

/-! ### Interpolation of shards -/

theorem addMultiple_map (n : Nat) (w : Element) (g h : Nat → Element) :
    addMultiple ((List.range n).map fun t => (g t).byte) w.byte ((List.range n).map fun t => (h t).byte) =
      (List.range n).map fun t => (g t + w * h t).byte := by
  rw [addMultiple, List.zipWith_map, List.zipWith_self]
  rfl

theorem foldl_addMultiple (n : Nat) (w : UInt8 → Element) (h : UInt8 → Nat → Element) (points : List UInt8)
    (g : Nat → Element) :
    points.foldl (fun sum p => addMultiple sum (w p).byte ((List.range n).map fun t => (h p t).byte))
        ((List.range n).map fun t => (g t).byte) =
      (List.range n).map fun t => (g t + (points.map fun p => w p * h p t).sum).byte := by
  induction points generalizing g with
  | nil => simp
  | cons p points ih => simp only [List.foldl_cons, addMultiple_map, ih, List.map_cons, List.sum_cons, add_assoc]

theorem interpolate_shardAt {f : Nat → Element[X]} {points : List UInt8} (hpoints : points.Nodup)
    (hf : ∀ t, (f t).degree < points.length) (size : Nat) (x : UInt8) :
    interpolate size (points.map fun p => (p, shardAt f size p)) x = shardAt f size x := by
  have hfst : (points.map fun p => (p, shardAt f size p)).map (·.1) = points := by simp [Function.comp_def]
  have hzero : List.replicate size (0 : UInt8) = (List.range size).map fun t => (0 : Element).byte := by simp
  simp only [interpolate, hfst, weights_eq hpoints, List.zip_map', List.foldl_map]
  rw [hzero]
  refine (foldl_addMultiple size (lagrange points x) (fun p t => (f t).eval ⟨p⟩) points fun _ => 0).trans ?_
  refine List.map_congr_left fun t _ => ?_
  rw [zero_add, sum_lagrange hpoints (hf t)]

theorem atPoints_map_range (n : Nat) (s : Nat → Bytes) :
    atPoints ((List.range n).map s) = (List.range n).map fun i => (UInt8.ofNat i, s i) := by
  refine List.ext_getElem (by simp [atPoints]) fun i _ _ => ?_
  simp [atPoints]

/-! ### The shards of some data are the values of polynomials -/

theorem exists_shardAt {points : List UInt8} (hpoints : points.Nodup) {size : Nat} {s : UInt8 → Bytes}
    (hs : ∀ p ∈ points, (s p).length = size) :
    ∃ f : Nat → Element[X], (∀ t, (f t).degree < points.length) ∧ ∀ p ∈ points, s p = shardAt f size p := by
  have hinj : Set.InjOn Element.mk points.toFinset := Element.mk_injective.injOn
  have hcard : points.toFinset.card = points.length := List.toFinset_card_of_nodup hpoints
  refine ⟨fun t => Lagrange.interpolate points.toFinset Element.mk fun p => ⟨(s p).getD t 0⟩, ?_, ?_⟩
  · intro t
    rw [← hcard]
    exact Lagrange.degree_interpolate_lt _ hinj
  · intro p hp
    have hmem : p ∈ points.toFinset := List.mem_toFinset.mpr hp
    refine List.ext_getElem (by rw [hs p hp, length_shardAt]) fun t ht _ => ?_
    simp only [shardAt, List.getElem_map, List.getElem_range, Lagrange.eval_interpolate_at_node _ hinj hmem]
    rw [List.getD_eq_getElem?_getD, List.getElem?_eq_getElem ht, Option.getD_some]

theorem length_le_size (data : Bytes) : data.length ≤ dataShards * shardSize data := by
  unfold shardSize dataShards
  omega

theorem shardSize_pos {data : Bytes} (hdata : data ≠ []) : 0 < shardSize data := by
  have := List.length_pos_iff.mpr hdata
  unfold shardSize dataShards
  omega

/-- The data up to the end of its last piece. -/
def padded (data : Bytes) : Bytes := data ++ List.replicate (shardSize data * dataShards - data.length) 0

def piece (data : Bytes) (i : Nat) : Bytes := ((padded data).drop (i * shardSize data)).take (shardSize data)

theorem pieces_eq (data : Bytes) : pieces data = (List.range dataShards).map (piece data) := rfl

theorem length_padded (data : Bytes) : (padded data).length = dataShards * shardSize data := by
  have := length_le_size data
  rw [padded, List.length_append, List.length_replicate, Nat.mul_comm (shardSize data)]
  omega

theorem length_piece (data : Bytes) {i : Nat} (hi : i < dataShards) : (piece data i).length = shardSize data := by
  have : (i + 1) * shardSize data ≤ dataShards * shardSize data := Nat.mul_le_mul_right _ hi
  rw [piece, List.length_take, List.length_drop, length_padded]
  rw [Nat.add_mul, Nat.one_mul] at this
  omega

/-- The points of the data shards. -/
def dataPoints : List UInt8 := (List.range dataShards).map UInt8.ofNat

theorem toNat_of_lt {i : Nat} (hi : i < total) : (UInt8.ofNat i).toNat = i :=
  UInt8.toNat_ofNat_of_lt (hi.trans (by decide))

theorem split_eq (data : Bytes) : ∃ f : Nat → Element[X], (∀ t, (f t).degree < dataShards) ∧
    pieces data = (List.range dataShards).map (fun i => shardAt f (shardSize data) (UInt8.ofNat i)) ∧
    split data = (List.range total).map (fun i => shardAt f (shardSize data) (UInt8.ofNat i)) := by
  have hnodup : dataPoints.Nodup := by decide
  have hlength : ∀ p ∈ dataPoints, (piece data p.toNat).length = shardSize data := by
    intro p hp
    obtain ⟨i, hi, rfl⟩ := List.mem_map.mp hp
    have hlt := List.mem_range.mp hi
    rw [toNat_of_lt (hlt.trans (by decide)), length_piece data hlt]
  obtain ⟨f, hdegree, hvalues⟩ := exists_shardAt hnodup hlength
  have hpieces : pieces data = (List.range dataShards).map (fun i => shardAt f (shardSize data) (UInt8.ofNat i)) := by
    rw [pieces_eq]
    refine List.map_congr_left fun i hi => ?_
    rw [← hvalues _ (List.mem_map_of_mem hi), toNat_of_lt ((List.mem_range.mp hi).trans (by decide))]
  refine ⟨f, hdegree, hpieces, ?_⟩
  have hpoints : atPoints (pieces data) = dataPoints.map fun p => (p, shardAt f (shardSize data) p) := by
    rw [hpieces, atPoints_map_range, dataPoints, List.map_map]
    rfl
  simp only [split, hpoints, interpolate_shardAt hnodup hdegree, List.map_cons, List.map_nil]
  rw [hpieces]
  rfl

theorem length_split (data : Bytes) : (split data).length = total := rfl

/-! ### Reconstruction -/

/-- The shards with nothing in the place of those that are not kept. -/
def keep (kept : Nat → Bool) (shards : List Bytes) : List Bytes :=
  shards.zipIdx.map fun s => if kept s.2 then s.1 else []

theorem keep_map_range (kept : Nat → Bool) (n : Nat) (s : Nat → Bytes) :
    keep kept ((List.range n).map s) = (List.range n).map fun i => if kept i then s i else [] := by
  refine List.ext_getElem (by simp [keep]) fun i _ _ => ?_
  simp [keep]

theorem filter_present (kept : Nat → Bool) {s : Nat → Bytes} (hs : ∀ i, s i ≠ []) (n : Nat) :
    (atPoints (keep kept ((List.range n).map s))).filter (!·.2.isEmpty) =
      ((List.range n).filter kept).map fun i => (UInt8.ofNat i, s i) := by
  rw [keep_map_range, atPoints_map_range, List.filter_map]
  have hfilter : (fun x => !x.2.isEmpty) ∘ (fun i => (UInt8.ofNat i, if kept i then s i else [])) = kept := by
    funext i
    cases hi : kept i <;> simp [hi, hs i]
  rw [hfilter]
  refine List.map_congr_left fun i hi => ?_
  rw [if_pos (List.of_mem_filter hi)]

theorem length_kept {kept : Nat → Bool} (hkept : ((List.range total).filter (!kept ·)).length ≤ parityShards) :
    dataShards ≤ ((List.range total).filter kept).length := by
  have hboth : (List.range total).length = _ := List.length_eq_length_filter_add kept
  have htotal : (List.range total).length = dataShards + parityShards := rfl
  omega

theorem reconstruct_eq {shards : List Bytes} {present : List (UInt8 × Bytes)} {size : Nat}
    (hpresent : (atPoints shards).filter (!·.2.isEmpty) = present) (hsizes : ∀ s ∈ present, s.2.length = size)
    (henough : dataShards ≤ present.length) :
    reconstruct shards = .ok (if (shards.take dataShards).all (!·.isEmpty) then shards
      else (atPoints shards).map fun s =>
        if s.2.isEmpty && s.1.toNat < dataShards then interpolate size (present.take dataShards) s.1 else s.2) := by
  unfold reconstruct
  rw [hpresent]
  cases present with
  | nil => exact absurd henough (by decide)
  | cons first present =>
    have hany : ((first :: present).any fun s => s.2.length != size) = false := by
      simpa using hsizes
    simp only [hsizes first List.mem_cons_self, hany, Bool.false_eq_true, if_false,
      if_neg (Nat.not_lt.mpr henough)]
    split <;> rfl

theorem interpolate_kept {f : Nat → Element[X]} (hdegree : ∀ t, (f t).degree < dataShards) {kept : Nat → Bool}
    (henough : dataShards ≤ ((List.range total).filter kept).length) (size : Nat) (x : UInt8) :
    interpolate size ((((List.range total).filter kept).map fun i =>
      (UInt8.ofNat i, shardAt f size (UInt8.ofNat i))).take dataShards) x = shardAt f size x := by
  have hpoints : (((List.range total).filter kept).map UInt8.ofNat).Nodup := by
    refine (List.nodup_range.filter _).map_on fun i hi j hj hij => ?_
    rw [← toNat_of_lt (List.mem_range.mp (List.mem_of_mem_filter hi)), hij,
      toNat_of_lt (List.mem_range.mp (List.mem_of_mem_filter hj))]
  have hfour : ((((List.range total).filter kept).map UInt8.ofNat).take dataShards).length = dataShards := by
    rw [List.length_take, List.length_map, Nat.min_eq_left henough]
  have hvalue := interpolate_shardAt (hpoints.sublist (List.take_sublist dataShards _)) (hfour.symm ▸ hdegree) size x
  rwa [List.map_take, List.map_map] at hvalue

theorem reconstruct_keep {data : Bytes} (hdata : data ≠ []) {kept : Nat → Bool}
    (hkept : ((List.range total).filter (!kept ·)).length ≤ parityShards) :
    ∃ full, reconstruct (keep kept (split data)) = .ok full ∧ full.take dataShards = pieces data := by
  obtain ⟨f, hdegree, hpieces, hsplit⟩ := split_eq data
  have hshard : ∀ i, shardAt f (shardSize data) (UInt8.ofNat i) ≠ [] := fun i =>
    List.length_pos_iff.mp (length_shardAt f _ _ ▸ shardSize_pos hdata)
  have henough := length_kept hkept
  have hreconstruct := reconstruct_eq (filter_present kept hshard total) (fun s hs => by
    obtain ⟨i, -, rfl⟩ := List.mem_map.mp hs
    exact length_shardAt f (shardSize data) _) (by rwa [List.length_map])
  rw [hsplit]
  refine ⟨_, hreconstruct, ?_⟩
  rw [keep_map_range, hpieces]
  split
  · -- The data shards are all there.
    rename_i hall
    rw [← List.map_take, List.take_range, Nat.min_eq_left (by decide)] at hall ⊢
    refine List.map_congr_left fun i hi => ?_
    have hi' := List.all_eq_true.mp hall _ (List.mem_map_of_mem hi)
    by_cases hk : kept i
    · rw [if_pos hk]
    · rw [if_neg hk] at hi'
      exact absurd hi' (by decide)
  · -- Those that are not there are the values of the same polynomials.
    rw [atPoints_map_range, List.map_map, ← List.map_take, List.take_range, Nat.min_eq_left (by decide)]
    refine List.map_congr_left fun i hi => ?_
    by_cases hk : kept i
    · simp [hk, hshard i]
    · have hi' := List.mem_range.mp hi
      simp only [Function.comp_apply, if_neg hk, List.isEmpty_nil, toNat_of_lt (hi'.trans (by decide)), hi', decide_true,
        Bool.and_true, if_true]
      exact interpolate_kept hdegree henough (shardSize data) (UInt8.ofNat i)

theorem take_keep_all {data : Bytes} {kept : Nat → Bool} (hkept : ((List.range total).filter (!kept ·)).length = 0) :
    (keep kept (split data)).take dataShards = pieces data := by
  have hall : ∀ i ∈ List.range total, kept i := by simpa using hkept
  have hkeep : keep kept (split data) = split data := by
    obtain ⟨f, -, -, hsplit⟩ := split_eq data
    rw [hsplit, keep_map_range]
    exact List.map_congr_left fun i hi => if_pos (hall i hi)
  rw [hkeep]
  rfl

/-! ### Joining -/

theorem gather_ok {size n : Nat} {shards : List Bytes} (hne : ∀ s ∈ shards, s ≠ [])
    (henough : size ≤ n + shards.flatten.length) : ∃ m, gather size shards n = .ok m ∧ size ≤ m := by
  induction shards generalizing n with
  | nil => exact ⟨n, rfl, by simpa using henough⟩
  | cons s rest ih =>
    have hs : s.isEmpty = false := by simpa using hne s List.mem_cons_self
    rw [gather, hs, if_neg Bool.false_ne_true]
    split
    · exact ⟨_, rfl, ‹_›⟩
    · refine ih (fun s hs => hne s (List.mem_cons_of_mem _ hs)) ?_
      rwa [List.flatten_cons, List.length_append, ← Nat.add_assoc] at henough

theorem flatten_slices (l : Bytes) (k n : Nat) :
    ((List.range k).map fun i => (l.drop (i * n)).take n).flatten = l.take (k * n) := by
  induction k with
  | zero => simp
  | succ k ih => rw [List.range_succ, List.map_append, List.flatten_append, ih, Nat.add_mul, Nat.one_mul,
      List.take_add, List.map_singleton, List.flatten_singleton]

theorem flatten_pieces (data : Bytes) : (pieces data).flatten = padded data := by
  have h := flatten_slices (padded data) dataShards (shardSize data)
  rw [← length_padded, List.take_length] at h
  exact h

theorem join_of_pieces {data : Bytes} (hdata : data ≠ []) {full : List Bytes}
    (hfull : full.take dataShards = pieces data) : join full data.length = .ok data := by
  have hne : ∀ s ∈ pieces data, s ≠ [] := by
    intro s hs
    obtain ⟨i, hi, rfl⟩ := List.mem_map.mp (pieces_eq data ▸ hs)
    have := length_piece data (List.mem_range.mp hi)
    exact List.length_pos_iff.mp (this ▸ shardSize_pos hdata)
  have henough : data.length ≤ 0 + (pieces data).flatten.length := by
    rw [flatten_pieces, length_padded, Nat.zero_add]
    exact length_le_size data
  obtain ⟨m, hgather, hm⟩ := gather_ok hne henough
  simp only [join, hfull, hgather, if_neg (Nat.not_lt.mpr hm), flatten_pieces]
  rw [padded, List.take_left]

end MicroBlock.Shards
