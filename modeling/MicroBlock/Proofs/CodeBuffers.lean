import Mathlib
import MicroBlock.Bytecode.Instr
import MicroBlock.Proofs.Units

/-! Emitted code is read back.

Opcodes are emitted one after the other, each with the operand that it takes. Reading the bytes gives the same opcodes and
operands at the same offsets: every instruction is read from just the bytes that were emitted for it, so the next one starts
where the next was emitted. -/

namespace MicroBlock

/-! ### Operands -/

namespace Operand

/-- The number of bytes in the form of a number. -/
def width (v : Int) : Nat :=
  if -64 ≤ v ∧ v ≤ 63 then 1 else if -8192 ≤ v ∧ v ≤ 8191 then 2 else 4

theorem length_encode_eq_width (v : Int32) : (encode v).length = width v.toInt := by
  unfold encode width
  simp only
  split
  · rfl
  · split <;> rfl

theorem decode_encode_of_fits {v : Int32} (h : fits v.toInt = true) (rest : Bytes) :
    decode (encode v ++ rest) = .ok (v, rest) := by
  rw [decode_encode, wrap_of_fits h]

end Operand

/-! ### Requests -/

theorem Opcode.code_of_ofCode? {b : UInt8} {o : Opcode} (h : ofCode? b = some o) : o.code = b := by
  have hall : ∀ (n : Nat) (o : Opcode), all[n]? = some o → o.code.toNat = n := by
    intro n o hn
    have hlt : n < 16 := (List.getElem?_eq_some_iff.mp hn).1
    interval_cases n <;> cases hn <;> rfl
  exact UInt8.toNat_inj.mp (hall _ _ h)

namespace Instr

/-- What to emit for an instruction. -/
def request (i : Instr) : OpcodeByte × List Int32 := (⟨i.opcode.code⟩, i.operand?.toList)

theorem opcode_ofOpcode (o : Opcode) (v : Int32) : (ofOpcode o v).opcode = o := by cases o <;> rfl

theorem operand?_ofOpcode (o : Opcode) (v : Int32) :
    (ofOpcode o v).operand? = if o.hasOperand = true then some v else none := by
  cases o <;> rfl

theorem size_eq (i : Instr) : i.size = 1 + (i.operand?.map fun v => Operand.width v.toInt).getD 0 := by
  cases hv : i.operand? with
  | none => simp [size, encode, hv]
  | some v => simp [size, encode, hv, Operand.length_encode_eq_width, Nat.add_comm]

end Instr

namespace Code

/-- A request for an opcode that there is, with an operand exactly if the opcode takes one, and one that has a form. -/
structure Proper (r : OpcodeByte × List Int32) : Prop where
  opcode : r.1.opcode?.isSome = true
  operand : r.2.length = if r.1.hasOperand = true then 1 else 0
  range : ∀ v ∈ r.2, -2 ^ 29 ≤ v.toInt ∧ v.toInt ≤ 2 ^ 29 - 1

/-- What is proper can be computed. -/
theorem proper_iff {r : OpcodeByte × List Int32} : Proper r ↔ r.1.opcode?.isSome = true ∧
    (r.2.length = if r.1.hasOperand = true then 1 else 0) ∧ (r.2.all fun v => Operand.fits v.toInt) = true := by
  have hrange : (r.2.all fun v => Operand.fits v.toInt) = true ↔ ∀ v ∈ r.2, -2 ^ 29 ≤ v.toInt ∧ v.toInt ≤ 2 ^ 29 - 1 := by
    simp only [List.all_eq_true, Operand.fits_iff, Int.le_sub_one_iff]
  rw [hrange]
  exact ⟨fun h => ⟨h.opcode, h.operand, h.range⟩, fun h => ⟨h.1, h.2.1, h.2.2⟩⟩

instance (r : OpcodeByte × List Int32) : Decidable (Proper r) := decidable_of_iff' _ proper_iff

/-- A proper request asks for an instruction whose operand comes back as it was. -/
theorem Proper.exists_instr {r : OpcodeByte × List Int32} (h : Proper r) : ∃ i : Instr, i.request = r ∧ Fits i := by
  obtain ⟨⟨b⟩, args⟩ := r
  obtain ⟨hop, hlength, hrange⟩ := proper_iff.mp h
  obtain ⟨o, ho⟩ := Option.isSome_iff_exists.mp hop
  have hhas : (⟨b⟩ : OpcodeByte).hasOperand = o.hasOperand := by rw [OpcodeByte.hasOperand, ho, Option.any_some]
  simp only [hhas] at hlength
  have hargs : (Instr.ofOpcode o (args.headD 0)).operand?.toList = args := by
    rw [Instr.operand?_ofOpcode]
    by_cases htakes : o.hasOperand = true
    · rw [if_pos htakes, List.length_eq_one_iff] at hlength
      obtain ⟨v, rfl⟩ := hlength
      rw [if_pos htakes]
      rfl
    · rw [if_neg htakes, List.length_eq_zero_iff] at hlength
      rw [if_neg htakes, hlength]
      rfl
  refine ⟨Instr.ofOpcode o (args.headD 0), ?_, fun v hv => ?_⟩
  · rw [Instr.request, hargs, Instr.opcode_ofOpcode, Opcode.code_of_ofCode? ho]
  · exact List.all_eq_true.mp hrange v (hargs ▸ Option.mem_toList.mpr hv)

theorem exists_instrs {items : List (OpcodeByte × List Int32)} (h : ∀ r ∈ items, Proper r) :
    ∃ is : List Instr, is.map Instr.request = items ∧ ∀ i ∈ is, Fits i := by
  induction items with
  | nil => exact ⟨[], rfl, fun _ h => absurd h List.not_mem_nil⟩
  | cons r items ih =>
    obtain ⟨i, hi, hfits⟩ := (h r List.mem_cons_self).exists_instr
    obtain ⟨is, his, hall⟩ := ih fun r' hr' => h r' (List.mem_cons_of_mem r hr')
    exact ⟨i :: is, by rw [List.map_cons, hi, his], List.forall_mem_cons.mpr ⟨hfits, hall⟩⟩

/-! ### Emitting -/

theorem emit_request {i : Instr} (h : Fits i) : emit i.request.1 i.request.2 = .ok i.encode :=
  emitInstr_eq_ok.mpr ⟨rfl, h⟩

/-- The bytes of each instruction follow those of the instructions before it. -/
theorem getElem?_place (pc : Nat) (is : List Instr) (n : Nat) :
    (Emission.place pc is)[n]? = is[n]?.map fun i => ⟨pc + ((is.take n).flatMap Instr.encode).length, i, i.size⟩ := by
  induction is generalizing pc n with
  | nil => rfl
  | cons i is ih =>
    cases n with
    | zero => simp [Emission.place]
    | succ n => simp [Emission.place, ih, Instr.size, Nat.add_assoc]

theorem place_take (pc : Nat) (is : List Instr) (n : Nat) : Emission.place pc (is.take n) = (Emission.place pc is).take n := by
  induction is generalizing pc n with
  | nil => simp [Emission.place]
  | cons i is ih =>
    cases n with
    | zero => rfl
    | succ n => simp [Emission.place, ih]

theorem flatMap_take_succ {is : List Instr} {n : Nat} {i : Instr} (h : is[n]? = some i) :
    (is.take (n + 1)).flatMap Instr.encode = (is.take n).flatMap Instr.encode ++ i.encode := by
  rw [List.take_add_one, h, List.flatMap_append]
  simp

/-- An instruction ends where the bytes of the instructions up to it end. -/
theorem pc_add_size {is : List Instr} {n : Nat} {p : Placed} (h : (Emission.place 0 is)[n]? = some p) :
    p.pc + p.size = ((is.take (n + 1)).flatMap Instr.encode).length := by
  rw [getElem?_place] at h
  obtain ⟨i, hi, rfl⟩ := Option.map_eq_some_iff.mp h
  rw [flatMap_take_succ hi, List.length_append, Nat.zero_add]
  rfl

theorem offsets_encode (is : List Instr) : offsets (is.map Instr.encode) = (Emission.place 0 is).map (·.pc) := by
  have hfrom : ∀ (is : List Instr) (pc : Nat) (found : List Nat),
      ((is.map Instr.encode).foldl (fun x p => (x.1 + p.length, x.1 :: x.2)) (pc, found)).2.reverse =
        found.reverse ++ (Emission.place pc is).map (·.pc) := by
    intro is
    induction is with
    | nil => simp [Emission.place]
    | cons i is ih =>
      intro pc found
      rw [List.map_cons, List.foldl_cons, ih, Emission.place, List.map_cons, List.reverse_cons, List.append_assoc]
      rfl
  exact hfrom is 0 []

theorem emitAll_requests {is : List Instr} (h : ∀ i ∈ is, Fits i) :
    emitAll (is.map Instr.request) = .ok (is.flatMap Instr.encode, (Emission.place 0 is).map (·.pc)) := by
  have hparts : (is.map Instr.request).mapM (fun r => emit r.1 r.2) = .ok (is.map Instr.encode) := by
    induction is with
    | nil => rfl
    | cons i is ih =>
      simp only [List.map_cons, List.mapM_cons, emit_request (h i List.mem_cons_self),
        ih fun j hj => h j (List.mem_cons_of_mem i hj)]
      rfl
  rw [emitAll, hparts, ← offsets_encode, List.flatMap_def]
  rfl

/-! ### Reading back -/

/-- Emitting succeeds, and reading gives what was emitted. The instruction at each place has the offset that emitting it
    returned, which is the number of bytes emitted until then, and its size is the number of bytes emitted for it; so each
    ends where the next starts, and the last at the end of the code. All of that holds because the form of a number has the
    width of the number's range and is read to its end and not further. -/
theorem decode_undoes_emit (items : List (OpcodeByte × List Int32)) (h : ∀ r ∈ items, Proper r) :
    (∃ (code : Bytes) (offs : List Nat) (placed : List Placed), emitAll items = .ok (code, offs) ∧ decode code = .ok placed ∧
      placed.map (·.instr.request) = items ∧ placed.map (·.pc) = offs ∧
      (∀ n p, placed[n]? = some p → ∃ before form : Bytes,
        emitAll (items.take n) = .ok (before, offs.take n) ∧ emit p.instr.request.1 p.instr.request.2 = .ok form ∧
        before ++ form <+: code ∧ p.pc = before.length ∧ p.size = form.length ∧
        p.size = 1 + (p.instr.operand?.map fun v => Operand.width v.toInt).getD 0) ∧
      (∀ n p q, placed[n]? = some p → placed[n + 1]? = some q → p.pc + p.size = q.pc) ∧
      (∀ p, placed.getLast? = some p → p.pc + p.size = code.length) ∧ (placed = [] → code = [])) ∧
    ∀ v : Int32, -2 ^ 29 ≤ v.toInt → v.toInt ≤ 2 ^ 29 - 1 → (Operand.encode v).length = Operand.width v.toInt ∧
      ∀ rest, Operand.decode (Operand.encode v ++ rest) = .ok (v, rest) := by
  obtain ⟨is, rfl, hfits⟩ := exists_instrs h
  refine ⟨⟨_, _, _, emitAll_requests hfits, decode_encode hfits, ?_, rfl, ?_, ?_, ?_, ?_⟩, ?_⟩
  · apply List.ext_getElem?
    intro n
    rw [List.getElem?_map, getElem?_place, List.getElem?_map, Option.map_map]
    rfl
  · intro n p hp
    rw [getElem?_place] at hp
    obtain ⟨i, hi, rfl⟩ := Option.map_eq_some_iff.mp hp
    have hbefore := emitAll_requests fun j (hj : j ∈ is.take n) => hfits j (List.mem_of_mem_take hj)
    rw [List.map_take, place_take, List.map_take] at hbefore
    refine ⟨_, _, hbefore, emit_request (hfits i (List.mem_of_getElem? hi)), ?_, Nat.zero_add _, rfl, i.size_eq⟩
    rw [← flatMap_take_succ hi]
    exact ⟨(is.drop (n + 1)).flatMap Instr.encode, by rw [← List.flatMap_append, List.take_append_drop]⟩
  · intro n p q hp hq
    rw [getElem?_place] at hq
    obtain ⟨j, -, rfl⟩ := Option.map_eq_some_iff.mp hq
    rw [pc_add_size hp, Nat.zero_add]
  · intro p hp
    rw [List.getLast?_eq_getElem?, Emission.length_place] at hp
    rw [pc_add_size hp, List.take_of_length_le (by omega)]
  · intro hnil
    have hlength := Emission.length_place 0 is
    rw [hnil, List.length_nil, eq_comm, List.length_eq_zero_iff] at hlength
    rw [hlength]
    rfl
  · intro v hlow hhigh
    exact ⟨Operand.length_encode_eq_width v, Operand.decode_encode_of_fits (Operand.fits_iff.mpr ⟨hlow, by omega⟩)⟩

/-- Numbers on both sides of each bound of a range, between two opcodes without an operand. -/
def boundaries : List (OpcodeByte × List Int32) :=
  (⟨0⟩, []) :: ([-0x20000000, -8193, -8192, -65, -64, 63, 64, 8191, 8192, 0x1fffffff].map fun v => (⟨1⟩, [v])) ++ [(⟨15⟩, [])]

theorem decode_undoes_emit_boundaries :
    (∀ r ∈ boundaries, Proper r) ∧
    ∃ code placed, emitAll boundaries = .ok (code, [0, 1, 6, 11, 14, 17, 19, 21, 24, 27, 32, 37]) ∧
      decode code = .ok placed ∧ placed.map (·.instr.request) = boundaries ∧
      placed.map (·.pc) = [0, 1, 6, 11, 14, 17, 19, 21, 24, 27, 32, 37] := by
  have hproper : ∀ r ∈ boundaries, Proper r := by decide
  obtain ⟨⟨code, offs, placed, hemit, hdecode, hrequests, hpcs, -⟩, -⟩ := decode_undoes_emit boundaries hproper
  have hoffs : (emitAll boundaries).map (·.2) = .ok [0, 1, 6, 11, 14, 17, 19, 21, 24, 27, 32, 37] := by decide
  rw [hemit] at hoffs
  cases hoffs
  exact ⟨hproper, code, placed, hemit, hdecode, hrequests, hpcs⟩

end Code
end MicroBlock
