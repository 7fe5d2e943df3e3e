import Mathlib
import MicroBlock.Proofs.Containers

/-! What a reader that succeeds tells.

It gives something that can be written again, and bytes after those it took make no difference to it: a limit
on a count that comes from the bytes left only grows with them. Hence a container can be told from any string
that it begins and from any string that begins it, and reading undoes writing in both directions. -/

namespace MicroBlock

/-! ### Operands -/

namespace Operand

theorem fits_of_toNat {u : UInt32} (h : u.toNat < 2 ^ 29 ∨ 7 * 2 ^ 29 ≤ u.toNat) : fits u.toInt32.toInt = true := by
  have hint : u.toInt32.toInt = (u.toNat : Int).bmod (2 ^ 32) := BitVec.toInt_eq_toNat_bmod u.toBitVec
  have hlt := u.toNat_lt
  rw [fits_iff, hint]
  simp only [Int.bmod]
  omega

theorem toNat_or_lt {k : Nat} {u v : UInt32} (hu : u.toNat < 2 ^ k) (hv : v.toNat < 2 ^ k) : (u ||| v).toNat < 2 ^ k := by
  rw [UInt32.toNat_or]
  exact Nat.or_lt_two_pow hu hv

theorem toNat_or_le (u v w : UInt32) : (u ||| w).toNat ≤ (u ||| v ||| w).toNat := by
  rw [UInt32.or_assoc, UInt32.or_comm v, ← UInt32.or_assoc, UInt32.toNat_or (u ||| w)]
  exact Nat.left_le_or

theorem toNat_shiftLeft_lt {u s : UInt32} {j : Nat} (hu : u.toNat < 2 ^ j) : (u <<< s).toNat < 2 ^ (s.toNat + j) := by
  rw [UInt32.toNat_shiftLeft, Nat.shiftLeft_eq, Nat.pow_add, Nat.mul_comm]
  refine (Nat.mod_le _ _).trans_lt ?_
  exact Nat.mul_lt_mul_of_le_of_lt (Nat.pow_le_pow_right (by decide) (Nat.mod_le _ _)) hu (Nat.two_pow_pos _)

/-- The bits of a first byte that go into the number. -/
theorem high_bits (b : UInt8) :
    (b &&& 0x3f).toUInt32.toNat < 2 ^ 6 ∧ (b &&& 0x20 = 0 → (b &&& 0x3f).toUInt32.toNat < 2 ^ 5) ∧
      (b &&& 0x20 ≠ 0 → 7 * 2 ^ 29 ≤ ((b &&& 0x3f).toUInt32 <<< 24 ||| 0xc0000000).toNat) := by
  have key : ∀ b : BitVec 8, (UInt8.ofBitVec b &&& 0x3f).toUInt32.toNat < 2 ^ 6 ∧
      (UInt8.ofBitVec b &&& 0x20 = 0 → (UInt8.ofBitVec b &&& 0x3f).toUInt32.toNat < 2 ^ 5) ∧
      (UInt8.ofBitVec b &&& 0x20 ≠ 0 → 7 * 2 ^ 29 ≤ ((UInt8.ofBitVec b &&& 0x3f).toUInt32 <<< 24 ||| 0xc0000000).toNat) := by
    decide
  exact key b.toBitVec

theorem fits_two (b c : UInt8) :
    fits (if b &&& 0x20 = 0 then (b &&& 0x3f).toUInt32 <<< 8 ||| c.toUInt32
      else (b &&& 0x3f).toUInt32 <<< 8 ||| c.toUInt32 ||| 0xffffc000).toInt32.toInt = true := by
  have hc : c.toUInt32.toNat < 2 ^ 14 := c.toNat_lt.trans (by decide)
  have hb : ((b &&& 0x3f).toUInt32 <<< 8).toNat < 2 ^ 14 := toNat_shiftLeft_lt (high_bits b).1
  apply fits_of_toNat
  split
  · exact .inl ((toNat_or_lt hb hc).trans (by decide))
  · rw [UInt32.toNat_or]
    exact .inr (le_trans (by decide) Nat.right_le_or)

theorem fits_four (b c d e : UInt8) :
    fits (if b &&& 0x20 = 0 then
        (b &&& 0x3f).toUInt32 <<< 24 ||| c.toUInt32 <<< 16 ||| d.toUInt32 <<< 8 ||| e.toUInt32
      else (b &&& 0x3f).toUInt32 <<< 24 ||| c.toUInt32 <<< 16 ||| d.toUInt32 <<< 8 ||| e.toUInt32 ||| 0xc0000000
      ).toInt32.toInt = true := by
  obtain ⟨-, hlow, hhigh⟩ := high_bits b
  have hc : (c.toUInt32 <<< 16).toNat < 2 ^ 29 := (toNat_shiftLeft_lt c.toNat_lt).trans (by decide)
  have hd : (d.toUInt32 <<< 8).toNat < 2 ^ 29 := (toNat_shiftLeft_lt d.toNat_lt).trans (by decide)
  have he : e.toUInt32.toNat < 2 ^ 29 := e.toNat_lt.trans (by decide)
  apply fits_of_toNat
  split
  · next hb => exact .inl (toNat_or_lt (toNat_or_lt (toNat_or_lt (toNat_shiftLeft_lt (hlow hb)) hc) hd) he)
  · next hb =>
    exact .inr ((hhigh hb).trans ((toNat_or_le _ _ _).trans ((toNat_or_le _ _ _).trans (toNat_or_le _ _ _))))

theorem decode_fits {bs rest : Bytes} {v : Int32} (h : decode bs = .ok (v, rest)) : fits v.toInt = true := by
  unfold decode at h
  split at h
  · cases h
  next b bs =>
  simp only at h
  split at h
  · cases h
    exact fits_of_toNat (.inl (b.toNat_lt.trans (by decide)))
  split at h
  · cases h
    refine fits_of_toNat (.inr ?_)
    rw [UInt32.toNat_or]
    exact le_trans (by decide) Nat.right_le_or
  split at h
  · split at h
    · cases h
    · cases h
      exact fits_two b _
  · split at h
    · cases h
      exact fits_four b _ _ _
    · cases h

theorem decode_append {bs rest : Bytes} {v : Int32} (h : decode bs = .ok (v, rest)) (more : Bytes) :
    decode (bs ++ more) = .ok (v, rest ++ more) := by
  unfold decode at h
  split at h
  · cases h
  next b bs =>
  simp only at h
  simp only [List.cons_append, decode]
  split at h
  · next h₀ =>
    cases h
    rw [if_pos h₀]
  next h₀ =>
  rw [if_neg h₀]
  split at h
  · next h₁ =>
    cases h
    rw [if_pos h₁]
  next h₁ =>
  rw [if_neg h₁]
  split at h
  · next h₂ =>
    rw [if_pos h₂]
    split at h
    · cases h
    · cases h
      rfl
  · next h₂ =>
    rw [if_neg h₂]
    split at h
    · cases h
      rfl
    · cases h

end Operand

namespace Module

/-! ### Readers -/

/-- What the reader gives has the property, and more bytes after its input are left over. -/
def Steady {ε α : Type} (P : α → Prop) (r : Reader ε α) : Prop :=
  ∀ bs a rest, r bs = .ok (a, rest) → P a ∧ ∀ more, r (bs ++ more) = .ok (a, rest ++ more)

section Steady
variable {ε ε' α β : Type} {P : α → Prop} {Q : β → Prop}

theorem Steady.ok {b : β} (h : Q b) : Steady Q (fun bs => .ok (b, bs) : Reader ε β) := by
  rintro bs a rest ⟨⟩
  exact ⟨h, fun _ => rfl⟩

theorem Steady.mono {P' : α → Prop} {r : Reader ε α} (hr : Steady P r) (h : ∀ a, P a → P' a) : Steady P' r :=
  fun bs a rest hbs => (hr bs a rest hbs).imp_left (h a)

theorem Steady.bind {r : Reader ε α} {f : α × Bytes → Except ε (β × Bytes)} (hr : Steady P r)
    (hf : ∀ a, P a → Steady Q fun rest => f (a, rest)) : Steady Q fun bs => r bs >>= f := by
  intro bs b rest h
  cases hbs : r bs with
  | error e =>
    simp only [hbs] at h
    cases h
  | ok x =>
    obtain ⟨a, mid⟩ := x
    simp only [hbs] at h
    obtain ⟨ha, hmore⟩ := hr bs a mid hbs
    obtain ⟨hb, hmore'⟩ := hf a ha mid b rest h
    refine ⟨hb, fun more => ?_⟩
    simp only [hmore more]
    exact hmore' more

theorem Steady.ite {c : Prop} [Decidable c] {r r' : Reader ε α} (hr : c → Steady P r) (hr' : ¬ c → Steady P r') :
    Steady P fun bs => if c then r bs else r' bs := by
  split
  · next h => exact hr h
  · next h => exact hr' h

theorem Steady.map {r : Reader ε α} {f : α → β} (hr : Steady P r) (hf : ∀ a, P a → Q (f a)) :
    Steady Q fun bs => (r bs).map fun x => (f x.1, x.2) := by
  intro bs b rest h
  cases hbs : r bs with
  | error e =>
    simp only [hbs] at h
    cases h
  | ok x =>
    obtain ⟨a, mid⟩ := x
    simp only [hbs] at h
    cases h
    obtain ⟨ha, hmore⟩ := hr bs a mid hbs
    exact ⟨hf a ha, fun more => by simp only [hmore more, Except.map]⟩

theorem Steady.onError {r : Reader ε α} (hr : Steady P r) (f : ε → ε') : Steady P (Module.onError f r) := by
  intro bs a rest h
  unfold Module.onError at h
  split at h
  · cases h
  next x hx =>
  cases h
  obtain ⟨ha, hmore⟩ := hr bs a rest hx
  exact ⟨ha, fun more => by simp only [Module.onError, hmore more]⟩

end Steady

/-! ### Numbers and texts -/

theorem steady_operand : Steady (fun v => Operand.fits v.toInt = true) Operand.decode :=
  fun _ _ _ h => ⟨Operand.decode_fits h, Operand.decode_append h⟩

theorem steady_count {limit : Nat → Nat} (hlimit : Monotone limit) :
    Steady (· < 2 ^ 29) fun bs => Read.count (limit bs.length) bs := by
  intro bs n rest h
  simp only [Read.count] at h
  split at h
  · cases h
  next v rest' hv =>
  split at h
  · cases h
  next hle =>
  cases h
  obtain ⟨hfits, hmore⟩ := steady_operand bs v rest hv
  rw [Operand.fits_iff] at hfits
  refine ⟨by omega, fun more => ?_⟩
  have hgrow : limit bs.length ≤ limit (bs ++ more).length := hlimit (by simp)
  simp only [Read.count, hmore more]
  rw [if_neg (by omega)]

theorem steady_byte : Steady (fun _ => True) Read.byte := by
  intro bs b rest h
  cases bs with
  | nil => cases h
  | cons b' bs =>
    cases h
    exact ⟨trivial, fun _ => rfl⟩

theorem steady_word : Steady (fun _ => True) Read.word := by
  intro bs w rest h
  unfold Read.word at h
  split at h
  · cases h
    exact ⟨trivial, fun _ => rfl⟩
  · cases h

theorem steady_take (n : Nat) : Steady (fun s => s.length = n) (Read.take n) := by
  intro bs s rest h
  unfold Read.take at h
  split at h
  · cases h
  next hle =>
  cases h
  have hle : n ≤ bs.length := Nat.le_of_not_lt hle
  refine ⟨List.length_take_of_le hle, fun more => ?_⟩
  rw [Read.take, if_neg (by rw [List.length_append]; omega), List.take_append_of_le_length hle,
    List.drop_append_of_le_length hle]

theorem steady_string : Steady (fun s => 0 ∉ s) Read.string := by
  intro bs s rest h
  unfold Read.string at h
  split at h
  · cases h
  next z rest' hdrop =>
  cases h
  have htake : (bs.takeWhile (· != 0)).length ≠ bs.length := by
    have hlen := congrArg List.length (List.takeWhile_append_dropWhile (p := (· != (0 : UInt8))) (l := bs))
    rw [hdrop, List.length_append, List.length_cons] at hlen
    omega
  refine ⟨fun hmem => by simpa using List.mem_takeWhile_imp hmem, fun more => ?_⟩
  have hdrop' : (bs ++ more).dropWhile (· != 0) = z :: (rest ++ more) := by
    rw [List.dropWhile_append, hdrop]
    rfl
  rw [Read.string, hdrop', List.takeWhile_append, if_neg htake]

theorem steady_text : Steady (fun s => 0 ∉ s.bytes) readText := steady_string.map fun _ h => h

theorem steady_kind : Steady (fun _ => True) readKind := steady_byte.map fun _ h => h

theorem steady_int : Steady (fun _ => True) readInt := steady_word.map fun _ h => h

theorem steady_long : Steady (fun _ => True) readLong :=
  steady_word.bind fun _ _ => steady_word.bind fun _ _ => .ok trivial

/-! ### Lists -/

section Lists
variable {ε ε' α : Type} {P : α → Prop} {item : Reader ε α}

theorem steady_readMany (hitem : Steady P item) (f : Nat → ε → ε') (n : Nat) {done : List α} (hdone : ∀ a ∈ done, P a) :
    Steady (fun l => l.length = done.length + n ∧ ∀ a ∈ l, P a) (readMany item f n done) := by
  induction n generalizing done with
  | zero =>
    rintro bs l rest ⟨⟩
    exact ⟨⟨by simp, by simpa using hdone⟩, fun _ => rfl⟩
  | succ n ih =>
    intro bs l rest h
    simp only [readMany] at h
    split at h
    · cases h
    next a mid ha =>
    obtain ⟨hP, hmore⟩ := hitem bs a mid ha
    have hdone' : ∀ b ∈ a :: done, P b := by
      rintro b (_ | ⟨_, hb⟩)
      · exact hP
      · exact hdone b hb
    obtain ⟨⟨hlen, hall⟩, hmore'⟩ := ih hdone' mid l rest h
    refine ⟨⟨by rw [hlen, List.length_cons]; omega, hall⟩, fun more => ?_⟩
    simp only [readMany, hmore more, hmore' more]

theorem steady_list (onCount : ReadError → ε') (onItem : Nat → ε → ε') (hitem : Steady P item) :
    Steady (fun l => l.length < 2 ^ 29 ∧ ∀ a ∈ l, P a) (readList onCount onItem item) := by
  intro bs l rest h
  simp only [readList, Read.countWithin] at h
  split at h
  · cases h
  next n mid hn =>
  obtain ⟨hlt, hmore⟩ := steady_count monotone_id bs n mid hn
  obtain ⟨⟨hlen, hall⟩, hmore'⟩ := steady_readMany hitem onItem n (fun _ h => absurd h List.not_mem_nil) mid l rest h
  refine ⟨⟨by rw [hlen, List.length_nil]; omega, hall⟩, fun more => ?_⟩
  have hcount : Read.count (bs ++ more).length (bs ++ more) = .ok (n, mid ++ more) := hmore more
  simp only [readList, Read.countWithin, hcount, hmore' more]

end Lists

/-! ### Constants and methods -/

/-- Whether a constant can be written so that it is read back. -/
def ConstantWritable (c : Constant) : Prop := c.Sized ∧ ∀ index, ∃ bs, encodeConstant index c = .ok bs

/-- Whether a method can be written so that it is read back. -/
def MethodWritable (me : Method) : Prop :=
  me.Sized ∧ me.code.length ≤ maxMethodBytes ∧ ∃ bs, encodeMethod me = .ok bs

theorem encodeText_of_not_mem {s : ByteString} (h : 0 ∉ s.bytes) (role : String) :
    encodeText role s = .ok (Write.string s.bytes) := by
  rw [encodeText, if_neg (by simpa using h)]

theorem steady_ints : Steady (fun a => a.length < 2 ^ 29) readInts := by
  have hlimit : Monotone (· / 4 : Nat → Nat) := fun _ _ h => Nat.div_le_div_right h
  refine (steady_count hlimit).bind fun n hn => ?_
  refine (steady_readMany steady_int _ n fun _ h => absurd h List.not_mem_nil).mono fun a ha => ?_
  rw [ha.1, List.length_nil]
  omega

theorem readConstant_eq : readConstant = fun bs => onError .read Read.byte bs >>= fun x =>
    if x.1 = 1 then (onError .read readInt x.2).map fun y => (.int y.1, y.2)
    else if x.1 = 2 then (onError .read readLong x.2).map fun y => (.long y.1, y.2)
    else if x.1 = 3 then (onError .read readText x.2).map fun y => (.text y.1, y.2)
    else if x.1 = 4 then (onError .read readInts x.2).map fun y => (.ints y.1, y.2)
    else .error (.badKind x.1) := by
  funext bs
  cases bs with
  | nil => rfl
  | cons kind rest =>
    simp only [readConstant, Read.byte, onError, bind, Except.bind]
    cases readInt rest <;> cases readLong rest <;> cases readText rest <;> cases readInts rest <;> rfl

theorem steady_constant : Steady ConstantWritable readConstant := by
  rw [readConstant_eq]
  refine (steady_byte.onError _).bind fun kind _ => ?_
  simp only
  split
  · exact (steady_int.onError _).map fun _ _ => ⟨(fun _ h => by cases h), fun _ => ⟨_, rfl⟩⟩
  split
  · exact (steady_long.onError _).map fun _ _ => ⟨(fun _ h => by cases h), fun _ => ⟨_, rfl⟩⟩
  split
  · refine (steady_text.onError _).map fun s hs => ⟨(fun _ h => by cases h), fun index => ?_⟩
    exact ⟨Constant.kindCode (.text s) :: Write.string s.bytes, by rw [encodeConstant, encodeText_of_not_mem hs]; rfl⟩
  split
  · refine (steady_ints.onError _).map fun a ha => ⟨?_, fun _ => ⟨_, rfl⟩⟩
    rintro a' ⟨⟩
    exact ha
  · intro bs a rest h
    cases h

theorem steady_guard : Steady Guard.Fits readGuard :=
  steady_operand.bind fun _ h₁ => steady_operand.bind fun _ h₂ => steady_operand.bind fun _ h₃ => .ok ⟨h₁, h₂, h₃⟩

theorem steady_size : Steady (· ≤ maxMethodBytes) (Read.count maxMethodBytes) := by
  intro bs n rest h
  refine ⟨?_, (steady_count monotone_const bs n rest h).2⟩
  unfold Read.count at h
  split at h
  · cases h
  split at h
  · cases h
  cases h
  omega

theorem exists_encodeMethod {me : Method} (hname : 0 ∉ me.name.bytes) (hsize : me.code.length ≤ maxMethodBytes) :
    ∃ bs, encodeMethod me = .ok bs := by
  refine ⟨Write.string me.name.bytes ++ Write.count me.code.length ++ me.code ++ Write.count me.guards.length ++
    me.guards.flatMap encodeGuard, ?_⟩
  simp only [encodeMethod, encodeText_of_not_mem hname, Nat.not_lt.mpr hsize, if_false, bind, Except.bind]
  rfl

theorem steady_method : Steady MethodWritable readMethod := by
  refine (steady_text.onError _).bind fun name hname => (steady_size.onError _).bind fun size hsize =>
    ((steady_take size).onError _).bind fun code hcode => (steady_list _ _ steady_guard).bind fun guards hguards =>
      .ok ?_
  have hle : code.length ≤ maxMethodBytes := hcode.trans_le hsize
  exact ⟨hguards, hle, exists_encodeMethod hname hle⟩

/-! ### Modules -/

/-- Reads a module and leaves the bytes after it. -/
def readModule : Reader DecodeError Module := fun bs => do
  let (magic, bs) ← onError .magic Operand.decode bs
  if magic ≠ standardMagic then throw (.badMagic magic)
  let (name, bs) ← onError .name readText bs
  let (slots, bs) ← readList .slotCount .slot readKind bs
  let (constants, bs) ← readList .constantCount .constant readConstant bs
  let (links, bs) ← readList .linkCount .link readText bs
  let (methods, bs) ← readList .methodCount .method readMethod bs
  return ({ name, magic, slots, constants, links, methods }, bs)

theorem decode_eq (bs : Bytes) : decode bs =
    readModule bs >>= fun x => if x.2.isEmpty then .ok x.1 else .error (.trailing x.2.length) := by
  simp only [decode, readModule, bind_assoc]
  refine bind_congr fun x => ?_
  split
  · rfl
  · simp only [bind_assoc, pure_bind]
    rfl

theorem mapM_of_forall {α β ε : Type} {f : α → Except ε β} {l : List α} (h : ∀ a ∈ l, ∃ b, f a = .ok b) :
    ∃ bs, l.mapM f = .ok bs := by
  induction l with
  | nil => exact ⟨[], rfl⟩
  | cons a l ih =>
    obtain ⟨b, hb⟩ := h a List.mem_cons_self
    obtain ⟨bs, hbs⟩ := ih fun a' ha' => h a' (List.mem_cons_of_mem a ha')
    exact ⟨b :: bs, by simp only [List.mapM_cons, hb, hbs, bind, Except.bind]; rfl⟩

theorem encodeList_of_forall {α : Type} {f : α → Except EncodeError Bytes} {l : List α} (h : ∀ a ∈ l, ∃ bs, f a = .ok bs) :
    ∃ bs, encodeList f l = .ok bs := by
  obtain ⟨items, hitems⟩ := mapM_of_forall h
  exact ⟨Write.count l.length ++ items.flatten, by simp only [encodeList, hitems, bind, Except.bind]; rfl⟩

/-- A module can be written if each of its parts can. -/
theorem exists_encode {m : Module} (hname : 0 ∉ m.name.bytes)
    (hconstants : ∀ c ∈ m.constants, ∀ index, ∃ bs, encodeConstant index c = .ok bs) (hlinks : ∀ l ∈ m.links, 0 ∉ l.bytes)
    (hmethods : ∀ me ∈ m.methods, ∃ bs, encodeMethod me = .ok bs) : ∃ data, m.encode = .ok data := by
  obtain ⟨cs, hcs⟩ := encodeList_of_forall (f := fun c => encodeConstant c.2 c.1) (l := m.constants.zipIdx) fun c hc =>
    hconstants c.1 (List.fst_mem_of_mem_zipIdx hc) c.2
  obtain ⟨ls, hls⟩ := encodeList_of_forall fun l hl => ⟨_, encodeText_of_not_mem (hlinks l hl) "helper name"⟩
  obtain ⟨ms, hms⟩ := encodeList_of_forall hmethods
  refine ⟨Operand.encode m.magic ++ Write.string m.name.bytes ++ Write.count m.slots.length ++ m.slots.map Kind.code ++
    cs ++ ls ++ ms, ?_⟩
  simp only [encode, encodeText_of_not_mem hname, hcs, hls, hms, bind, Except.bind]
  rfl

/-- A module that was read can be written, and all its counts and offsets fit. -/
theorem steady_module :
    Steady (fun m => m.Sized ∧ (∀ me ∈ m.methods, me.code.length ≤ maxMethodBytes) ∧ ∃ data, m.encode = .ok data)
      readModule := by
  refine (steady_operand.onError _).bind fun magic _ => .ite (fun _ _ _ _ h => by cases h) fun hmagic => ?_
  refine (steady_text.onError _).bind fun name hname => (steady_list _ _ steady_kind).bind fun slots hslots =>
    (steady_list _ _ steady_constant).bind fun constants hconstants => (steady_list _ _ steady_text).bind fun links hlinks =>
      (steady_list _ _ steady_method).bind fun methods hmethods =>
        .ok ⟨?_, fun me hme => (hmethods.2 me hme).2.1, ?_⟩
  · exact ⟨not_not.mp hmagic, hslots.1, ⟨hconstants.1, fun c hc => (hconstants.2 c hc).1⟩, hlinks.1, hmethods.1,
      fun me hme => (hmethods.2 me hme).1⟩
  · exact exists_encode hname (fun c hc => (hconstants.2 c hc).2) hlinks.2 fun me hme => (hmethods.2 me hme).2.2

theorem decode_eq_ok {bs : Bytes} {m : Module} : decode bs = .ok m ↔ readModule bs = .ok (m, []) := by
  rw [decode_eq]
  constructor
  · intro h
    cases hbs : readModule bs with
    | error e =>
      rw [hbs] at h
      cases h
    | ok x =>
      obtain ⟨m', rest⟩ := x
      rw [hbs] at h
      cases rest with
      | nil =>
        cases h
        rfl
      | cons b rest => cases h
  · intro h
    rw [h]
    rfl

/-- Reading undoes writing: a module that can be written and whose lists are short comes back with the offsets of
    its guards cut to 30 bits, and one that was read comes back as it was. -/
theorem decode_undoes_encode :
    (∀ (m : Module) (data : Bytes), m.magic = standardMagic → m.Short → m.encode = .ok data →
      decode data = .ok m.wrap ∧ (decode data = .ok m ↔ ∀ me ∈ m.methods, ∀ g ∈ me.guards, g.Fits)) ∧
    ∀ (d : Bytes) (m : Module), decode d = .ok m → ∃ data, m.encode = .ok data ∧ decode data = .ok m := by
  constructor
  · intro m data hmagic hshort h
    have hwrap := decode_encode_wrap h hmagic hshort
    refine ⟨hwrap, ?_⟩
    rw [hwrap, Except.ok.injEq, wrap_eq_iff]
  · intro d m h
    obtain ⟨⟨hsized, -, data, hdata⟩, -⟩ := steady_module d m [] (decode_eq_ok.mp h)
    exact ⟨data, hdata, decode_encode hdata hsized⟩

/-- A module with one entry of each sort, and a guard that begins past what an operand holds. -/
def farGuarded : Module where
  name := ⟨[120]⟩
  magic := standardMagic
  slots := [.int]
  constants := [.ints [7], .text ⟨[97]⟩]
  links := [⟨[98]⟩]
  methods := [⟨⟨[99]⟩, [15], [⟨0x20000000, 1, -8193⟩]⟩]

theorem decode_undoes_encode_far :
    ∃ data, farGuarded.encode = .ok data ∧ decode data = .ok farGuarded.wrap ∧ decode data ≠ .ok farGuarded ∧
      ∃ data', farGuarded.wrap.encode = .ok data' ∧ decode data' = .ok farGuarded.wrap := by
  have hok : farGuarded.encode.toOption.any (fun _ => true) = true := by decide
  obtain ⟨data, hdata, -⟩ := exists_ok_of_any hok
  have hshort : farGuarded.Short := by
    refine ⟨by decide, ⟨by decide, ?_⟩, by decide, by decide, by decide⟩
    rintro c hc a rfl
    have ha : a = [7] := by simpa [farGuarded] using hc
    rw [ha]
    decide
  obtain ⟨hwrap, hiff⟩ := decode_undoes_encode.1 farGuarded data rfl hshort hdata
  have hfar : ¬ ∀ me ∈ farGuarded.methods, ∀ g ∈ me.guards, g.Fits := fun h =>
    absurd (h _ List.mem_cons_self _ List.mem_cons_self).1 (by decide)
  exact ⟨data, hdata, hwrap, fun h => hfar (hiff.mp h), decode_undoes_encode.2 data farGuarded.wrap hwrap⟩

/-- A container ends where it says: with bytes after it, or without its last ones, it is turned down. -/
theorem decode_self_delimiting {d : Bytes} {m : Module} (h : decode d = .ok m) :
    (∀ more, more ≠ [] → decode (d ++ more) = .error (.trailing more.length)) ∧
      ∀ p, p <+: d → p ≠ d → ∃ e, decode p = .error e := by
  have hmore := (steady_module d m [] (decode_eq_ok.mp h)).2
  constructor
  · intro more hne
    rw [decode_eq, hmore more]
    simp [bind, Except.bind, hne]
  · rintro p ⟨tail, rfl⟩ hne
    cases hp : decode p with
    | error e => exact ⟨e, rfl⟩
    | ok m' =>
      -- The longer string would read as the prefix does and leave the rest over.
      have hlong := (steady_module p m' [] (decode_eq_ok.mp hp)).2 tail
      rw [decode_eq_ok.mp h] at hlong
      obtain ⟨-, htail⟩ := Prod.mk.inj (Except.ok.inj hlong)
      rw [List.nil_append] at htail
      exact absurd (by rw [← htail, List.append_nil]) hne

theorem decode_self_delimiting_guard :
    ∃ d m, decode d = .ok m ∧ decode (d ++ [0, 0]) = .error (.trailing 2) ∧
      ∃ e, decode d.dropLast = .error e := by
  have h : decode [0xc0, 0x0b, 0xc0, 0xde, 120, 0, 0, 1, 4, 1, 0, 0, 0, 7, 0, 1, 99, 0, 1, 15, 1, 0, 1, 0] =
      .ok ⟨⟨[120]⟩, standardMagic, [], [.ints [7]], [], [⟨⟨[99]⟩, [15], [⟨0, 1, 0⟩]⟩]⟩ := by rfl
  obtain ⟨hmore, hless⟩ := decode_self_delimiting h
  exact ⟨_, _, h, hmore [0, 0] (by decide), hless _ (List.dropLast_prefix _) (by decide)⟩

end Module
end MicroBlock
