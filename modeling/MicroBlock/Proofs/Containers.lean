import Mathlib
import MicroBlock.Container.Codec
import MicroBlock.Proofs.Operands

/-! Reading containers back.

Counts are operands, so what has fewer than 2^29 items comes back as it was, and a count of up to 2^30 that does
not fit comes back negative and is turned down. -/

namespace MicroBlock

theorem Kind.ofCode_code (k : Kind) : ofCode k.code = k := by
  cases k with
  | void | int | long | ref => rfl
  | reserved c h =>
    have hne : ∀ d : UInt8, d < 4 → c ≠ d := by
      rintro d hd rfl
      exact absurd hd (UInt8.not_lt.mpr h)
    simp [code, ofCode, hne 0 (by decide), hne 1 (by decide), hne 2 (by decide), hne 3 (by decide), h]

/-- Whether an array of a constant is short enough to be read back. -/
def Constant.Sized (c : Constant) : Prop := ∀ a, c = .ints a → a.length < 2 ^ 29

/-- Whether the offsets of a guard come back as they were. -/
def Guard.Fits (g : Guard) : Prop :=
  Operand.fits g.first.toInt = true ∧ Operand.fits g.last.toInt = true ∧ Operand.fits g.target.toInt = true

/-- Whether the guards of a method come back as they were. -/
def Method.Sized (me : Method) : Prop := me.guards.length < 2 ^ 29 ∧ ∀ g ∈ me.guards, g.Fits

/-- A module whose lists are all short enough for their counts to be read back. -/
structure Module.Short (m : Module) : Prop where
  slots : m.slots.length < 2 ^ 29
  constants : m.constants.length < 2 ^ 29 ∧ ∀ c ∈ m.constants, c.Sized
  links : m.links.length < 2 ^ 29
  methods : m.methods.length < 2 ^ 29 ∧ ∀ me ∈ m.methods, me.guards.length < 2 ^ 29

/-- A module with standard magic whose counts and offsets all fit into operands. -/
structure Module.Sized (m : Module) : Prop where
  magic : m.magic = Module.standardMagic
  slots : m.slots.length < 2 ^ 29
  constants : m.constants.length < 2 ^ 29 ∧ ∀ c ∈ m.constants, c.Sized
  links : m.links.length < 2 ^ 29
  methods : m.methods.length < 2 ^ 29 ∧ ∀ me ∈ m.methods, me.Sized

theorem Module.Sized.short {m : Module} (h : m.Sized) : m.Short :=
  ⟨h.slots, h.constants, h.links, h.methods.1, fun me hme => (h.methods.2 me hme).1⟩

/-! ### Offsets of guards

An offset comes back as the number that its low 30 bits make; all else comes back as it was. -/

theorem map_eq_self_iff {α : Type} {f : α → α} {l : List α} : l.map f = l ↔ ∀ a ∈ l, f a = a := by
  rw [← List.map_inj_left, List.map_id']

def Guard.wrap (g : Guard) : Guard := ⟨Operand.wrap g.first, Operand.wrap g.last, Operand.wrap g.target⟩

def Method.wrap (me : Method) : Method := { me with guards := me.guards.map Guard.wrap }

def Module.wrap (m : Module) : Module := { m with methods := m.methods.map Method.wrap }

theorem Guard.wrap_eq_iff {g : Guard} : g.wrap = g ↔ g.Fits := by
  obtain ⟨first, last, target⟩ := g
  simp only [wrap, Guard.mk.injEq, Fits, Operand.wrap_eq_iff]

theorem Method.wrap_eq_iff {me : Method} : me.wrap = me ↔ ∀ g ∈ me.guards, g.Fits := by
  obtain ⟨name, code, guards⟩ := me
  simp only [wrap, Method.mk.injEq, true_and, map_eq_self_iff, Guard.wrap_eq_iff]

theorem Module.wrap_eq_iff {m : Module} : m.wrap = m ↔ ∀ me ∈ m.methods, ∀ g ∈ me.guards, g.Fits := by
  obtain ⟨name, magic, slots, constants, links, methods⟩ := m
  simp only [wrap, Module.mk.injEq, true_and, map_eq_self_iff, Method.wrap_eq_iff]

namespace Module

/-- A reader takes these bytes for a value, whatever follows them. -/
def Reads {ε α : Type} (r : Reader ε α) (bs : Bytes) (a : α) : Prop := ∀ rest, r (bs ++ rest) = .ok (a, rest)

theorem Reads.onError {ε ε' α : Type} {r : Reader ε α} {bs : Bytes} {a : α} (h : Reads r bs a) (f : ε → ε') :
    Reads (Module.onError f r) bs a := by
  intro rest
  simp only [Module.onError, h rest]

/-! ### Numbers and texts -/

theorem reads_word (v : UInt32) : Reads Read.word (Write.word v) v := by
  intro rest
  have hbits : ((v >>> 24).toUInt8.toUInt32 <<< 24) ||| ((v >>> 16).toUInt8.toUInt32 <<< 16) |||
      ((v >>> 8).toUInt8.toUInt32 <<< 8) ||| v.toUInt8.toUInt32 = v := by
    apply UInt32.toBitVec_inj.mp
    ext i hi
    interval_cases i <;> simp [-UInt32.toUInt32_toUInt8]
  simp only [Write.word, List.cons_append, List.nil_append, Read.word, hbits]

theorem reads_int (v : Int32) : Reads readInt (Write.word v.toUInt32) v := by
  intro rest
  simp only [readInt, reads_word v.toUInt32 rest]
  rfl

theorem reads_long (v : Int64) :
    Reads readLong (Write.word (v.toUInt64 >>> 32).toUInt32 ++ Write.word v.toUInt64.toUInt32) v := by
  intro rest
  have hbits : ((v.toUInt64 >>> 32).toUInt32.toUInt64 <<< 32) ||| v.toUInt64.toUInt32.toUInt64 = v.toUInt64 := by
    apply UInt64.toBitVec_inj.mp
    ext i hi
    interval_cases i <;> simp [-UInt64.toUInt64_toUInt32]
  simp only [readLong, List.append_assoc, reads_word _ _, bind, Except.bind, hbits]
  rfl

theorem reads_text {role : String} {s : ByteString} {bs : Bytes} (h : encodeText role s = .ok bs) :
    bs ≠ [] ∧ Reads readText bs s := by
  unfold encodeText at h
  split at h
  · cases h
  next hnul =>
  cases h
  refine ⟨by simp [Write.string], fun rest => ?_⟩
  have hne : ∀ b ∈ s.bytes, (b != 0) = true := by
    intro b hb
    simp only [bne_iff_ne]
    rintro rfl
    exact hnul (by simpa using hb)
  have hdrop : (s.bytes ++ 0 :: rest).dropWhile (· != 0) = 0 :: rest := by
    rw [List.dropWhile_append_of_pos hne, List.dropWhile_cons_of_neg (by decide)]
  have htake : (s.bytes ++ 0 :: rest).takeWhile (· != 0) = s.bytes := by
    rw [List.takeWhile_append_of_pos hne, List.takeWhile_cons_of_neg (by decide), List.append_nil]
  simp only [readText, Read.string, Write.string, List.append_assoc, List.cons_append, List.nil_append, hdrop, htake]
  rfl

theorem reads_operand {v : Int32} (h : Operand.fits v.toInt = true) : Reads Operand.decode (Operand.encode v) v := by
  intro rest
  rw [Operand.decode_encode, Operand.wrap_of_fits h]

theorem read_count {n limit : Nat} (hn : n < 2 ^ 29) (hlimit : n ≤ limit) (rest : Bytes) :
    Read.count limit (Write.count n ++ rest) = .ok (n, rest) := by
  have hint : (Int32.ofNat n).toInt = n := Emission.toInt_ofNat hn
  have hfits : Operand.fits (Int32.ofNat n).toInt = true := by
    rw [Operand.fits_iff, hint]
    omega
  simp only [Read.count, Write.count, reads_operand hfits rest, hint]
  rw [if_neg (by omega), Int.toNat_natCast]

/-- A count with its 30th bit set is read as a negative number. -/
theorem read_count_error {n : Nat} (limit : Nat) (hn : 2 ^ 29 ≤ n) (hn' : n < 2 ^ 30) (rest : Bytes) :
    ∃ e, Read.count limit (Write.count n ++ rest) = .error e := by
  have hint : (Int32.ofNat n).toInt = n := Int32.toInt_ofNat_of_lt (by omega)
  have hneg : (Operand.wrap (Int32.ofNat n)).toInt < 0 := by
    rw [Operand.toInt_wrap, hint]
    simp only [Int.bmod]
    omega
  refine ⟨.count (Operand.wrap (Int32.ofNat n)).toInt, ?_⟩
  simp only [Read.count, Write.count, Operand.decode_encode]
  rw [if_pos (.inl hneg)]

theorem length_encode (v : Int32) : 0 < (Operand.encode v).length := by
  unfold Operand.encode
  split
  · exact Nat.one_pos
  · split <;> exact Nat.succ_pos _

/-! ### Lists -/

section Lists
variable {α β ε ε' : Type} {f : β → Except EncodeError Bytes} {item : Reader ε α} {value : β → α}

theorem readMany_of_mapM (onItem : Nat → ε → ε') {l : List β} {items : List Bytes} (h : l.mapM f = .ok items)
    (hf : ∀ b ∈ l, ∀ bs, f b = .ok bs → bs ≠ [] ∧ Reads item bs (value b)) (done : List α) (rest : Bytes) :
    l.length ≤ items.flatten.length ∧
      readMany item onItem l.length done (items.flatten ++ rest) = .ok (done.reverse ++ l.map value, rest) := by
  induction l generalizing items done with
  | nil =>
    cases h
    simp [readMany]
  | cons b l ih =>
    simp only [List.mapM_cons, bind, Except.bind] at h
    split at h
    · cases h
    next bs hbs =>
    split at h
    · cases h
    next items' hitems =>
    cases h
    obtain ⟨hne, hreads⟩ := hf b List.mem_cons_self bs hbs
    obtain ⟨hlen, hmany⟩ := ih hitems (fun b' hb' => hf b' (List.mem_cons_of_mem b hb')) (value b :: done)
    have hpos := List.length_pos_iff.mpr hne
    constructor
    · simp only [List.length_cons, List.flatten_cons, List.length_append]
      omega
    · rw [List.length_cons, List.flatten_cons, List.append_assoc, readMany, hreads]
      simp only [hmany, List.reverse_cons, List.append_assoc, List.cons_append, List.nil_append, List.map_cons]

theorem reads_list (onCount : ReadError → ε') (onItem : Nat → ε → ε') {l : List β} {bs : Bytes}
    (h : encodeList f l = .ok bs) (hl : l.length < 2 ^ 29)
    (hf : ∀ b ∈ l, ∀ bs, f b = .ok bs → bs ≠ [] ∧ Reads item bs (value b)) :
    Reads (readList onCount onItem item) bs (l.map value) := by
  simp only [encodeList, bind, Except.bind] at h
  split at h
  · cases h
  next items hitems =>
  cases h
  intro rest
  obtain ⟨hlen, hmany⟩ := readMany_of_mapM onItem hitems hf [] rest
  have hlimit : l.length ≤ (Write.count l.length ++ items.flatten ++ rest).length := by
    simp only [List.length_append]
    omega
  simp only [readList, Read.countWithin, List.append_assoc] at hlimit ⊢
  rw [read_count hl hlimit]
  exact hmany

end Lists

/-! ### Constants -/

theorem mapM_ok {ε α β : Type} (f : α → β) (l : List α) : l.mapM (fun a => (.ok (f a) : Except ε β)) = .ok (l.map f) := by
  induction l with
  | nil => rfl
  | cons a l ih =>
    simp only [List.mapM_cons, bind, Except.bind, ih, List.map_cons]
    rfl

theorem length_words (a : List Int32) : (a.flatMap fun v => Write.word v.toUInt32).length = 4 * a.length := by
  simp [List.length_flatMap, Write.word, Nat.mul_comm]

theorem reads_ints {a : List Int32} (h : a.length < 2 ^ 29) :
    Reads readInts (Write.count a.length ++ a.flatMap fun v => Write.word v.toUInt32) a := by
  intro rest
  have hitems : a.mapM (fun v => (.ok (Write.word v.toUInt32) : Except EncodeError Bytes)) = .ok _ := mapM_ok _ a
  have hread : ∀ v ∈ a, ∀ bs, Except.ok (Write.word v.toUInt32) = (.ok bs : Except EncodeError Bytes) →
      bs ≠ [] ∧ Reads readInt bs (id v) := by
    rintro v - bs ⟨⟩
    exact ⟨nofun, reads_int v⟩
  have hmany := (readMany_of_mapM (fun _ e => e) hitems hread [] rest).2
  have hlimit : a.length ≤ (Write.count a.length ++ ((a.flatMap fun v => Write.word v.toUInt32) ++ rest)).length / 4 := by
    simp only [List.length_append, length_words]
    omega
  rw [List.append_assoc, readInts, read_count h hlimit]
  simpa [bind, Except.bind, List.flatMap] using hmany

theorem reads_constant {c : Constant} {index : Nat} {bs : Bytes} (h : encodeConstant index c = .ok bs)
    (hc : c.Sized) : bs ≠ [] ∧ Reads readConstant bs c := by
  cases c with
  | int v =>
    cases h
    refine ⟨List.cons_ne_nil _ _, fun rest => ?_⟩
    simp [readConstant, Read.byte, Constant.kindCode, reads_int v rest]
  | long v =>
    cases h
    refine ⟨List.cons_ne_nil _ _, fun rest => ?_⟩
    have := reads_long v rest
    simp only [List.append_assoc] at this
    simp [readConstant, Read.byte, Constant.kindCode, this]
  | text s =>
    simp only [encodeConstant] at h
    cases htext : encodeText "string constant" s with
    | error e =>
      rw [htext] at h
      cases h
    | ok ts =>
      rw [htext] at h
      cases h
      refine ⟨List.cons_ne_nil _ _, fun rest => ?_⟩
      simp [readConstant, Read.byte, Constant.kindCode, (reads_text htext).2 rest]
  | ints a =>
    cases h
    refine ⟨List.cons_ne_nil _ _, fun rest => ?_⟩
    have := reads_ints (hc a rfl) rest
    simp only [List.append_assoc] at this
    simp [readConstant, Read.byte, Constant.kindCode, this]
  | unknown kind => cases h

/-! ### Methods -/

theorem reads_guard (g : Guard) : Reads readGuard (encodeGuard g) g.wrap := by
  intro rest
  simp only [readGuard, encodeGuard, List.append_assoc, Operand.decode_encode, bind, Except.bind]
  rfl

theorem reads_method {me : Method} {bs : Bytes} (h : encodeMethod me = .ok bs) (hme : me.guards.length < 2 ^ 29) :
    bs ≠ [] ∧ Reads readMethod bs me.wrap := by
  simp only [encodeMethod, bind, Except.bind] at h
  split at h
  · cases h
  next name hname =>
  split at h
  · cases h
  next hle =>
  cases h
  obtain ⟨hne, hreads⟩ := reads_text hname
  refine ⟨by simp [hne], fun rest => ?_⟩
  have hguards : encodeList (fun g => .ok (encodeGuard g)) me.guards =
      .ok (Write.count me.guards.length ++ me.guards.flatMap encodeGuard) := by
    simp only [encodeList, mapM_ok, bind, Except.bind]
    rfl
  have hguard : ∀ g ∈ me.guards, ∀ bs, Except.ok (encodeGuard g) = (.ok bs : Except EncodeError Bytes) →
      bs ≠ [] ∧ Reads readGuard bs g.wrap := by
    rintro g - bs ⟨⟩
    have := length_encode g.first
    exact ⟨by simp [encodeGuard, ← List.length_pos_iff, this], reads_guard g⟩
  have hsize : Reads (Read.count maxMethodBytes) (Write.count me.code.length) me.code.length :=
    read_count (by simp only [maxMethodBytes] at hle; omega) (Nat.le_of_not_lt hle)
  have hcode : Reads (Read.take me.code.length) me.code me.code := fun rest => by
    rw [Read.take, if_neg (by simp), List.take_left, List.drop_left]
  have hlist : Reads (readList (MethodError.guardCount me.name) (MethodError.guard me.name) readGuard)
      (Write.count me.guards.length ++ me.guards.flatMap encodeGuard) (me.guards.map Guard.wrap) :=
    reads_list (MethodError.guardCount me.name) (MethodError.guard me.name) hguards hme hguard
  have hrest := hlist rest
  simp only [List.append_assoc] at hrest ⊢
  simp only [readMethod, hreads.onError _ _, hsize.onError _ _, hcode.onError _ _, hrest, bind, Except.bind]
  rfl

/-! ### Modules -/

theorem reads_slots {slots : List Kind} (h : slots.length < 2 ^ 29) :
    Reads (readList DecodeError.slotCount DecodeError.slot readKind) (Write.count slots.length ++ slots.map Kind.code)
      slots := by
  have hbytes : encodeList (fun k => .ok [Kind.code k]) slots = .ok (Write.count slots.length ++ slots.map Kind.code) := by
    simp only [encodeList, mapM_ok, bind, Except.bind, ← List.flatMap_def]
    rw [← List.flatMap_pure_eq_map]
    rfl
  have hkind : ∀ k ∈ slots, ∀ bs, Except.ok [Kind.code k] = (.ok bs : Except EncodeError Bytes) →
      bs ≠ [] ∧ Reads readKind bs (id k) := by
    rintro k - bs ⟨⟩
    refine ⟨nofun, fun rest => ?_⟩
    simp only [readKind, Read.byte, List.cons_append, List.nil_append, Except.map, Kind.ofCode_code, id]
  simpa using reads_list DecodeError.slotCount DecodeError.slot hbytes h hkind

theorem reads_magic : Reads Operand.decode (Operand.encode standardMagic) standardMagic :=
  reads_operand (by decide)

/-- The parts of a container. -/
theorem encode_eq_ok {m : Module} {data : Bytes} (h : m.encode = .ok data) : ∃ name constants links methods,
    encodeText "module name" m.name = .ok name ∧
      encodeList (fun c => encodeConstant c.2 c.1) m.constants.zipIdx = .ok constants ∧
      encodeList (encodeText "helper name") m.links = .ok links ∧ encodeList encodeMethod m.methods = .ok methods ∧
      data = Operand.encode m.magic ++ (name ++ (Write.count m.slots.length ++ (m.slots.map Kind.code ++
        (constants ++ (links ++ methods))))) := by
  simp only [encode, bind, Except.bind] at h
  split at h
  · cases h
  next name hname =>
  split at h
  · cases h
  next constants hconstants =>
  split at h
  · cases h
  next links hlinks =>
  split at h
  · cases h
  next methods hmethods =>
  cases h
  exact ⟨name, constants, links, methods, hname, hconstants, hlinks, hmethods, by simp only [List.append_assoc]⟩

/-- A module that can be written and whose counts fit comes back as it was, the offsets of its guards apart. -/
theorem decode_encode_wrap {m : Module} {data : Bytes} (h : m.encode = .ok data) (hmagic : m.magic = standardMagic)
    (hm : m.Short) : decode data = .ok m.wrap := by
  obtain ⟨name, constants, links, methods, hname, hconstants, hlinks, hmethods, rfl⟩ := encode_eq_ok h
  have hconstant : ∀ c ∈ m.constants.zipIdx, ∀ bs, encodeConstant c.2 c.1 = .ok bs →
      bs ≠ [] ∧ Reads readConstant bs c.1 := fun c hc _ hbs =>
    reads_constant hbs (hm.constants.2 c.1 (List.fst_mem_of_mem_zipIdx hc))
  have hlink : ∀ l ∈ m.links, ∀ bs, encodeText "helper name" l = .ok bs → bs ≠ [] ∧ Reads readText bs (id l) :=
    fun _ _ _ hbs => reads_text hbs
  have hmethod : ∀ me ∈ m.methods, ∀ bs, encodeMethod me = .ok bs → bs ≠ [] ∧ Reads readMethod bs me.wrap :=
    fun me hme _ hbs => reads_method hbs (hm.methods.2 me hme)
  have hconstants' : Reads (readList DecodeError.constantCount .constant readConstant) constants m.constants := by
    simpa using reads_list DecodeError.constantCount DecodeError.constant hconstants (by simpa using hm.constants.1)
      hconstant
  have hlinks' : Reads (readList DecodeError.linkCount .link readText) links m.links := by
    simpa using reads_list DecodeError.linkCount DecodeError.link hlinks hm.links hlink
  have hmethods' : Reads (readList DecodeError.methodCount .method readMethod) methods (m.methods.map Method.wrap) :=
    reads_list DecodeError.methodCount DecodeError.method hmethods hm.methods.1 hmethod
  have hslots := reads_slots hm.slots (constants ++ (links ++ methods))
  have hend := hmethods' []
  rw [List.append_nil] at hend
  rw [List.append_assoc] at hslots
  simp only [decode, hmagic, reads_magic.onError _ _, (reads_text hname).2.onError _ _, hslots, hconstants' _,
    hlinks' _, hend, bind, Except.bind]
  rw [if_neg (by simp), ← hmagic]
  rfl

theorem decode_encode {m : Module} {data : Bytes} (h : m.encode = .ok data) (hm : m.Sized) : decode data = .ok m := by
  rw [decode_encode_wrap h hm.magic hm.short, wrap_eq_iff.mpr fun me hme => (hm.methods.2 me hme).2]

theorem readConstant_ints_error {a : List Int32} (hlo : 2 ^ 29 ≤ a.length) (hhi : a.length < 2 ^ 30) {index : Nat}
    {bs : Bytes} (h : encodeConstant index (.ints a) = .ok bs) (rest : Bytes) :
    ∃ e, readConstant (bs ++ rest) = .error e := by
  cases h
  obtain ⟨e, he⟩ := read_count_error
    ((Write.count a.length ++ ((a.flatMap fun v => Write.word v.toUInt32) ++ rest)).length / 4) hlo hhi
    ((a.flatMap fun v => Write.word v.toUInt32) ++ rest)
  refine ⟨.read e, ?_⟩
  have hints : readInts (Write.count a.length ++ ((a.flatMap fun v => Write.word v.toUInt32) ++ rest)) = .error e := by
    simp only [readInts, he, bind, Except.bind]
  simp [readConstant, Read.byte, Constant.kindCode, hints]

/-- A module whose first constant is an array with a count that does not fit is turned down. -/
theorem decode_encode_error {m : Module} {data : Bytes} (h : m.encode = .ok data) (hmagic : m.magic = standardMagic)
    (hslots : m.slots.length < 2 ^ 29) (hlength : m.constants.length < 2 ^ 29) {a : List Int32} {cs : List Constant}
    (ha : m.constants = .ints a :: cs) (hlo : 2 ^ 29 ≤ a.length) (hhi : a.length < 2 ^ 30) :
    ∃ e, decode data = .error e := by
  obtain ⟨name, constants, links, methods, hname, hconstants, -, -, rfl⟩ := encode_eq_ok h
  have herror : ∃ e, readList DecodeError.constantCount .constant readConstant (constants ++ (links ++ methods)) =
      .error e := by
    rw [ha] at hlength
    rw [ha, List.zipIdx_cons] at hconstants
    simp only [encodeList, List.mapM_cons, bind, Except.bind] at hconstants
    split at hconstants
    · cases hconstants
    next items hitems =>
    cases hconstants
    split at hitems
    · cases hitems
    next first hfirst =>
    split at hitems
    · cases hitems
    next others hothers =>
    cases hitems
    obtain ⟨e, he⟩ := readConstant_ints_error hlo hhi hfirst (others.flatten ++ (links ++ methods))
    refine ⟨.constant 0 e, ?_⟩
    have hbytes : 4 * a.length ≤ first.length := by
      cases hfirst
      rw [List.length_cons, List.length_append, length_words]
      omega
    have hcount : (cs.length + 1) ≤ (Write.count (cs.length + 1) ++ (first ++ (others.flatten ++ (links ++ methods)))).length := by
      simp only [List.length_append, List.length_cons] at hlength ⊢
      omega
    simp only [List.length_cons, List.length_zipIdx, List.flatten_cons, List.append_assoc] at hlength hcount ⊢
    simp only [readList, Read.countWithin, read_count hlength hcount, readMany, he, List.length_nil]
  obtain ⟨e, he⟩ := herror
  have hslots' := reads_slots hslots (constants ++ (links ++ methods))
  rw [List.append_assoc] at hslots'
  refine ⟨e, ?_⟩
  simp only [decode, hmagic, reads_magic.onError _ _, (reads_text hname).2.onError _ _, hslots', he, bind, Except.bind]
  rw [if_neg (by simp)]

end Module
end MicroBlock
