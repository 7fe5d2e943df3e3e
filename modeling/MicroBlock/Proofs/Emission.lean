import Mathlib
import MicroBlock.Compile.Emission
import MicroBlock.Proofs.Slots

/-! How the code of a block grows while it is written.

Every step of the emission adds code at the end, adds to the tables of the module, and forgets nothing: a
node that was stored stays stored where it was, and code that a rollback guards stays guarded. -/

namespace MicroBlock

/-! ### Tables of a module -/

namespace Module

theorem foldl_lastIndex {α : Type} (p : α → Bool) (l : List α) (k : Nat) (found : Option Nat) {i : Nat}
    (h : (l.foldl (fun (i, found) a => (i + 1, if p a then some i else found)) (k, found)).2 = some i) :
    found = some i ∨ ∃ j a, i = k + j ∧ l[j]? = some a ∧ p a = true := by
  induction l generalizing k found with
  | nil => exact .inl h
  | cons a l ih =>
    rcases ih (k + 1) _ h with hf | ⟨j, a', rfl, ha', hp⟩
    · split at hf
      · next hp =>
        cases hf
        exact .inr ⟨0, a, rfl, rfl, hp⟩
      · exact .inl hf
    · exact .inr ⟨j + 1, a', by omega, ha', hp⟩

theorem lastIndex?_eq_some {α : Type} {p : α → Bool} {l : List α} {i : Nat} (h : lastIndex? p l = some i) :
    ∃ a, l[i]? = some a ∧ p a = true := by
  rcases foldl_lastIndex p l 0 none h with hf | ⟨j, a, rfl, ha, hp⟩
  · cases hf
  · rw [Nat.zero_add]
    exact ⟨a, ha, hp⟩

/-- A number in the constant pool stands where its entry says. -/
theorem intern_int (m : Module) (w : Int32) :
    ∃ cs, (m.intern (.int w)).2 = { m with constants := m.constants ++ cs } ∧ cs.length ≤ 1 ∧ (∀ c ∈ cs, c = .int w) ∧
      (m.constants ++ cs)[(m.intern (.int w)).1]? = some (.int w) := by
  unfold intern
  cases h : lastIndex? (·.shares (.int w)) m.constants with
  | none => exact ⟨[.int w], rfl, le_rfl, by simp, by simp⟩
  | some i =>
    obtain ⟨c, hc, hw⟩ := lastIndex?_eq_some h
    refine ⟨[], by simp, by simp, nofun, ?_⟩
    have : c = .int w := by cases c <;> simp_all [Constant.shares]
    simpa [this] using hc

theorem link_eq (m : Module) (helper : String) :
    ∃ ls, (m.link helper).2 = { m with links := m.links ++ ls } ∧ ls.length ≤ 1 ∧
      (∀ l ∈ ls, l = ByteString.ofString helper) ∧
      (m.links ++ ls)[(m.link helper).1]? = some (.ofString helper) := by
  unfold link
  cases h : lastIndex? (· == ByteString.ofString helper) m.links with
  | none => exact ⟨[.ofString helper], rfl, le_rfl, by simp, by simp⟩
  | some i =>
    obtain ⟨l, hl, hw⟩ := lastIndex?_eq_some h
    refine ⟨[], by simp, by simp, nofun, ?_⟩
    simpa [beq_iff_eq.mp hw] using hl

end Module

namespace Instr

theorem size_pos (i : Instr) : 0 < i.size := by simp [size, encode]

/-- The operand of an instruction fits, or it refers to something that is there. -/
def Refers (units : Nat) (m : Module) : Instr → Prop
  | .push v => Operand.fits v.toInt = true
  | .const i => ∃ k < m.constants.length, i = .ofNat k
  | .call i => ∃ k < m.links.length, i = .ofNat k
  | .load _ i | .store _ i => ∃ u < units, i = .ofNat u
  | .get i => ∃ e : Element, i = .ofNat e.number
  | .set i => ∃ r : Register, i = .ofNat r.number
  | .nop | .dup | .pop | .fault | .ret => True

theorem Refers.mono {units : Nat} {m m' : Module} {i : Instr} (h : i.Refers units m)
    (hc : m.constants.length ≤ m'.constants.length) (hl : m.links.length ≤ m'.links.length) :
    i.Refers units m' := by
  cases i with
  | const i =>
    obtain ⟨k, hk, rfl⟩ := h
    exact ⟨k, hk.trans_le hc, rfl⟩
  | call i =>
    obtain ⟨k, hk, rfl⟩ := h
    exact ⟨k, hk.trans_le hl, rfl⟩
  | push | load | store | get | set | nop | dup | pop | fault | ret => exact h

end Instr

namespace Extent

/-- Whether an offset lies in the stretch. -/
def Contains (x : Extent) (pc : Nat) : Prop := 0 ≤ x.first ∧ x.first ≤ pc ∧ (pc : Int) < x.last

theorem Contains.cover {x : Extent} {pc : Nat} (h : x.Contains pc) {first last : Nat} :
    (x.cover first last).Contains pc := by
  obtain ⟨h0, h1, h2⟩ := h
  unfold Extent.cover
  split
  · exact ⟨h0, h1, h2⟩
  · refine ⟨?_, ?_, ?_⟩ <;> simp only <;> split <;> omega

theorem contains_cover (x : Extent) {first last : Nat} (h : first < last) : (x.cover first last).Contains first := by
  unfold cover
  rw [if_neg (by omega)]
  refine ⟨?_, ?_, ?_⟩ <;> simp only <;> split <;> omega

end Extent

namespace Emission

/-- The number of bytes of a piece of code. -/
def sizeOf (is : List Instr) : Nat := (is.map Instr.size).sum

theorem sizeOf_cons (i : Instr) (is : List Instr) : sizeOf (i :: is) = i.size + sizeOf is := by
  simp [sizeOf]

theorem sizeOf_append (is is' : List Instr) : sizeOf (is ++ is') = sizeOf is + sizeOf is' := by
  simp [sizeOf]

theorem sizeOf_reverse (is : List Instr) : sizeOf is.reverse = sizeOf is := by
  simp [sizeOf]

/-- Whether a rollback guards an offset. -/
def Covers (s : Emission) (ρ pc : Nat) : Prop := ∃ x, s.extents[ρ]? = some x ∧ x.Contains pc

/-- The nodes that were stored. -/
def storedIds (s : Emission) : Finset Nat := (Finset.range s.stored.size).filter fun id => (s.storedAt? id).isSome

/-- Code was added to an emission, in which only nodes below `bound` are stored and slots stay below
    `units`. -/
structure Grows (units bound : Nat) (s s' : Emission) : Prop where
  code : ∃ is, s'.code = is ++ s.code ∧ s'.size = s.size + sizeOf is ∧ ∀ i ∈ is, i.Refers units s'.module
  constants : s.module.constants <+: s'.module.constants
  links : s.module.links <+: s'.module.links
  header : s'.module = { s.module with constants := s'.module.constants, links := s'.module.links }
  entries : s'.module.constants.length + s'.module.links.length + s.code.length ≤
    s.module.constants.length + s.module.links.length + s'.code.length
  numbers : ∀ c ∈ s'.module.constants, c ∈ s.module.constants ∨ ∃ w, c = .int w
  kept : ∀ {id k : Nat}, s.storedAt? id = some k → s'.storedAt? id = some k
  fresh : ∀ {id k : Nat}, s'.storedAt? id = some k → s.storedAt? id = some k ∨ id < bound ∧ s.size < k ∧ k ≤ s'.size
  stores : s'.storedIds.card + s.code.length ≤ s.storedIds.card + s'.code.length
  covers : ∀ {ρ pc : Nat}, s.Covers ρ pc → s'.Covers ρ pc
  storedSize : s'.stored.size = s.stored.size
  extentsSize : s'.extents.size = s.extents.size

namespace Grows
variable {units bound : Nat} {s s' s'' : Emission}

theorem refl (units bound : Nat) (s : Emission) : Grows units bound s s where
  code := ⟨[], rfl, rfl, nofun⟩
  constants := List.prefix_rfl
  links := List.prefix_rfl
  header := rfl
  entries := le_rfl
  numbers _ h := .inl h
  kept h := h
  fresh h := .inl h
  stores := le_rfl
  covers h := h
  storedSize := rfl
  extentsSize := rfl

theorem size_le (h : Grows units bound s s') : s.size ≤ s'.size := by
  obtain ⟨is, -, hs, -⟩ := h.code
  omega

theorem trans (h : Grows units bound s s') (h' : Grows units bound s' s'') : Grows units bound s s'' where
  code := by
    obtain ⟨is, hc, hs, hr⟩ := h.code
    obtain ⟨is', hc', hs', hr'⟩ := h'.code
    refine ⟨is' ++ is, by rw [hc', hc, List.append_assoc], ?_, fun i hi => ?_⟩
    · rw [hs', hs, sizeOf_append]
      omega
    · rcases List.mem_append.mp hi with hi | hi
      · exact hr' i hi
      · exact (hr i hi).mono h'.constants.length_le h'.links.length_le
  constants := h.constants.trans h'.constants
  links := h.links.trans h'.links
  header := by rw [h'.header, h.header]
  entries := by
    have := h.entries
    have := h'.entries
    omega
  numbers c hc := by
    rcases h'.numbers c hc with hc | hw
    · exact h.numbers c hc
    · exact .inr hw
  kept hid := h'.kept (h.kept hid)
  fresh hid := by
    rcases h'.fresh hid with hid | ⟨hb, hk, hk'⟩
    · rcases h.fresh hid with hid | ⟨hb, hk, hk'⟩
      · exact .inl hid
      · exact .inr ⟨hb, hk, hk'.trans h'.size_le⟩
    · exact .inr ⟨hb, h.size_le.trans_lt hk, hk'⟩
  stores := by
    have := h.stores
    have := h'.stores
    omega
  covers hc := h'.covers (h.covers hc)
  storedSize := h'.storedSize.trans h.storedSize
  extentsSize := h'.extentsSize.trans h.extentsSize

theorem mono (h : Grows units bound s s') {bound' : Nat} (hb : bound ≤ bound') : Grows units bound' s s' :=
  { h with
    fresh := fun hid => by
      rcases h.fresh hid with hid | ⟨hlt, hk⟩
      · exact .inl hid
      · exact .inr ⟨hlt.trans_le hb, hk⟩ }

end Grows

/-! ### Single instructions -/

section Primitives
variable {units bound : Nat} {s : Emission}

theorem grows_emit (bound : Nat) {i : Instr} (hi : i.Refers units s.module) : Grows units bound s (s.emit i) :=
  { Grows.refl units bound s with
    code := ⟨[i], rfl, by simp [emit, sizeOf], by simpa [emit] using hi⟩
    entries := Nat.le_succ _
    fresh := fun h => .inl h
    stores := Nat.le_succ _ }

theorem grows_module {m : Module} (hc : s.module.constants <+: m.constants) (hl : s.module.links <+: m.links)
    (hh : m = { s.module with constants := m.constants, links := m.links })
    (hn : m.constants.length + m.links.length ≤ s.module.constants.length + s.module.links.length + 1)
    (hw : ∀ c ∈ m.constants, c ∈ s.module.constants ∨ ∃ w, c = .int w) {i : Instr} (hi : i.Refers units m) : Grows units bound s ({ s with module := m }.emit i) where
  code := ⟨[i], rfl, by simp [emit, sizeOf], by simpa [emit] using hi⟩
  constants := hc
  links := hl
  header := hh
  entries := by
    simp only [emit, List.length_cons]
    omega
  numbers := hw
  kept h := h
  fresh h := .inl h
  stores := Nat.le_succ _
  covers h := h
  storedSize := rfl
  extentsSize := rfl

theorem pushInt_of_not_fits {v : Int} (h : Operand.fits (Int32.ofInt v).toInt = false) :
    s.pushInt v = { s with module := (s.module.intern (.int (.ofInt v))).2 }.emit
      (.const (.ofNat (s.module.intern (.int (.ofInt v))).1)) := by
  simp only [pushInt, h, Bool.false_eq_true, if_false]

theorem pushInt_of_fits {v : Int} (h : Operand.fits (Int32.ofInt v).toInt = true) :
    s.pushInt v = s.emit (.push (.ofInt v)) := by
  simp only [pushInt, h, if_true]

theorem call_eq (helper : String) :
    s.call helper = { s with module := (s.module.link helper).2 }.emit (.call (.ofNat (s.module.link helper).1)) := rfl

theorem grows_pushInt (units bound : Nat) (s : Emission) (v : Int) : Grows units bound s (s.pushInt v) := by
  cases h : Operand.fits (Int32.ofInt v).toInt with
  | true =>
    rw [pushInt_of_fits h]
    exact grows_emit bound h
  | false =>
    obtain ⟨cs, hm, hlen, hint, hget⟩ := s.module.intern_int (Int32.ofInt v)
    rw [pushInt_of_not_fits h, hm]
    refine grows_module (m := { s.module with constants := s.module.constants ++ cs }) (List.prefix_append _ _)
      List.prefix_rfl rfl ?_ (fun c hc => ?_) ?_
    · simp only [List.length_append]
      omega
    · rcases List.mem_append.mp hc with hc | hc
      · exact .inl hc
      · exact .inr ⟨_, hint c hc⟩
    · exact ⟨_, (List.getElem?_eq_some_iff.mp hget).1, rfl⟩

theorem grows_call (units bound : Nat) (s : Emission) (helper : String) : Grows units bound s (s.call helper) := by
  obtain ⟨ls, hm, hlen, -, hget⟩ := s.module.link_eq helper
  rw [call_eq, hm]
  refine grows_module (m := { s.module with links := s.module.links ++ ls }) List.prefix_rfl
    (List.prefix_append _ _) rfl ?_ (fun c hc => .inl hc) ?_
  · simp only [List.length_append]
    omega
  · exact ⟨_, (List.getElem?_eq_some_iff.mp hget).1, rfl⟩

theorem grows_getElement (units bound : Nat) (s : Emission) (e : Element) : Grows units bound s (s.getElement e) :=
  grows_emit bound ⟨e, rfl⟩

theorem grows_setRegister (units bound : Nat) (s : Emission) (r : Register) : Grows units bound s (s.setRegister r) :=
  grows_emit bound ⟨r, rfl⟩

theorem grows_load {slots : Slots} {g : Graph} (hs : slots.Sound g) (bound : Nat) (s : Emission) (id : Nat)
    (n : Node) : Grows slots.units bound s (s.load slots id n) := by
  unfold load
  split
  · next u hu => exact grows_emit bound ⟨u, hs.lt hu, rfl⟩
  · exact .refl _ _ s

theorem grows_cover (units bound : Nat) (s : Emission) (rollback : Option Nat) (pc : Nat) :
    Grows units bound s (s.cover rollback pc) := by
  unfold cover
  split
  · next ρ =>
    exact { Grows.refl units bound s with
      covers := fun {ρ' pc'} h => by
        obtain ⟨x, hx, hpc⟩ := h
        refine ⟨if ρ = ρ' then x.cover pc s.size else x, ?_, ?_⟩
        · simp only [Array.getElem?_modify]
          split
          · rw [hx]
            rfl
          · exact hx
        · split
          · exact hpc.cover
          · exact hpc
      extentsSize := Array.size_modify
      kept := fun h => h
      fresh := fun h => .inl h }
  · exact .refl _ _ s

theorem storedAt?_set (s : Emission) (id k j : Nat) :
    storedAt? { s with stored := s.stored.setIfInBounds id (some k) } j =
      if id = j ∧ id < s.stored.size then some k else s.storedAt? j := by
  rw [storedAt?, Array.getElem?_setIfInBounds]
  by_cases h : id = j
  · subst h
    by_cases hid : id < s.stored.size
    · simp [hid]
    · simp [hid, storedAt?]
  · simp [h, storedAt?]

/-- Storing a node that was not stored yet. -/
theorem grows_store {i : Instr} (hi : i.Refers units s.module) {id : Nat} (hid : id < bound)
    (hnone : s.storedAt? id = none) :
    Grows units bound s
      { s.emit i with stored := (s.emit i).stored.setIfInBounds id (some (s.emit i).size) } := by
  have hset := storedAt?_set (s.emit i) id (s.emit i).size
  exact { grows_emit bound hi with
    kept := fun {j k} h => by
      rw [hset, if_neg]
      · exact h
      · rintro ⟨rfl, -⟩
        rw [hnone] at h
        cases h
    fresh := fun {j k} h => by
      rw [hset] at h
      split at h
      · next hj =>
        cases h
        exact .inr ⟨hj.1 ▸ hid, Nat.lt_add_of_pos_right i.size_pos, le_rfl⟩
      · exact .inl h
    stores := by
      have hsub : storedIds { s.emit i with stored := (s.emit i).stored.setIfInBounds id (some (s.emit i).size) } ⊆
          insert id s.storedIds := by
        intro j hj
        simp only [storedIds, Finset.mem_filter, Finset.mem_range, hset, Array.size_setIfInBounds] at hj
        rw [Finset.mem_insert]
        by_cases hij : j = id
        · exact .inl hij
        · rw [if_neg fun h => hij h.1.symm] at hj
          exact .inr (Finset.mem_filter.mpr ⟨Finset.mem_range.mpr hj.1, hj.2⟩)
      have := (Finset.card_le_card hsub).trans (Finset.card_insert_le _ _)
      simp only [emit, List.length_cons] at this ⊢
      omega
    storedSize := Array.size_setIfInBounds
    extentsSize := rfl
    covers := fun h => h }

end Primitives

/-! ### Nodes -/

theorem Grows.foldl {units bound : Nat} {α : Type} {f : Emission → α → Emission} {l : List α}
    (h : ∀ a ∈ l, ∀ s, Grows units bound s (f s a)) (s : Emission) : Grows units bound s (l.foldl f s) := by
  induction l generalizing s with
  | nil => exact .refl _ _ s
  | cons a l ih =>
    exact (h a List.mem_cons_self s).trans (ih (fun a' ha' => h a' (List.mem_cons_of_mem a ha')) (f s a))

/-- A step that calls a helper writes the call. Besides, only what is guarded changes. -/
theorem exists_step_call (n : Node) (input : Nat → Emission → Emission) (s : Emission) (helper : String) :
    ∃ extents, step n input s (.call helper) = { s.call helper with extents } := by
  simp only [step]
  split
  · cases n.rollback with
    | none => exact ⟨_, rfl⟩
    | some ρ => exact ⟨_, rfl⟩
  · exact ⟨_, rfl⟩

theorem grows_step {units bound : Nat} {n : Node} {input : Nat → Emission → Emission}
    (hin : ∀ i ∈ n.inputs, ∀ s, Grows units bound s (input i s)) (st : Step) (s : Emission) :
    Grows units bound s (step n input s st) := by
  cases st with
  | input i =>
    simp only [step]
    split
    · next id h =>
      split at h
      · cases h
      · exact hin id (List.mem_of_getElem? h) s
    · exact .refl _ _ s
  | literal l => exact grows_pushInt units bound s _
  | dup | pop => exact grows_emit bound trivial
  | call h =>
    simp only [step]
    split
    · exact (grows_call units bound s h).trans (grows_cover units bound _ _ _)
    · exact grows_call units bound s h
  | unknown k => exact .refl _ _ s

theorem grows_steps {units bound : Nat} {n : Node} {input : Nat → Emission → Emission}
    (hin : ∀ i ∈ n.inputs, ∀ s, Grows units bound s (input i s)) (o : Origin) (s : Emission) :
    Grows units bound s (steps n o input s) :=
  Grows.foldl (fun st _ => grows_step hin st) s

section Nodes
variable {g : Graph} {slots : Slots} {P : Fragment → Prop}

/-- The inputs of a node are older, so the node itself is not stored while its steps are written. -/
theorem storedAt?_steps_eq_none {units id : Nat} {n : Node} {input : Nat → Emission → Emission}
    (hin : ∀ i ∈ n.inputs, ∀ s, Grows units id s (input i s)) (o : Origin) {s : Emission}
    (hnone : s.storedAt? id = none) : (steps n o input s).storedAt? id = none := by
  cases hk : (steps n o input s).storedAt? id with
  | none => rfl
  | some k =>
    rcases (grows_steps hin o s).fresh hk with h | ⟨h, -⟩
    · rw [h] at hnone
      cases hnone
    · exact absurd h (lt_irrefl id)

theorem grows_keep (hs : slots.Sound g) {s : Emission} {bound id : Nat} (hid : id < bound)
    (hnone : s.storedAt? id = none) (n : Node) (statement : Bool) :
    Grows slots.units bound s (keep slots id n statement s) := by
  unfold keep
  split
  · next u hu =>
    have hrefers : ∀ m, (Instr.store (.ofKind n.element.kind) (.ofNat u)).Refers slots.units m :=
      fun _ => ⟨u, hs.lt hu, rfl⟩
    cases statement with
    | true => exact grows_store (hrefers _) hid hnone
    | false =>
      have hdup : Grows slots.units bound s (s.emit .dup) := grows_emit bound trivial
      exact hdup.trans (grows_store (hrefers _) hid hnone)
  · split
    · exact grows_emit bound trivial
    · exact .refl _ _ s

variable (hw : Graph.WellFormed g.nodes P) (hs : slots.Sound g)
include hw hs

theorem grows_value (depth id : Nat) (s : Emission) :
    Grows slots.units (id + 1) s (value g slots depth id s) := by
  induction depth generalizing id s with
  | zero => exact .refl _ _ s
  | succ depth ih =>
    unfold value
    split
    · exact .refl _ _ s
    next n hn =>
    split
    · exact grows_load hs _ s id n
    next hstored =>
    split
    · exact grows_getElement _ _ s n.element
    next o ho =>
    have hin : ∀ i ∈ n.inputs, ∀ s, Grows slots.units id s (value g slots depth i s) :=
      fun i hi s => (ih i s).mono (hw.input_lt hn i hi).1
    have hsteps := (grows_steps hin o s).mono (Nat.le_succ id)
    have hnone := storedAt?_steps_eq_none hin o (by simpa using hstored)
    exact hsteps.trans (grows_keep hs (Nat.lt_succ_self id) hnone n false)

/-- The values of the inputs of a node store older nodes only. -/
theorem grows_input {id : Nat} {n : Node} (hn : g.nodes[id]? = some n) (depth : Nat) :
    ∀ i ∈ n.inputs, ∀ s, Grows slots.units id s (value g slots depth i s) :=
  fun i hi s => (grows_value hw hs depth i s).mono (hw.input_lt hn i hi).1

theorem grows_effect {id : Nat} {s : Emission} (hnone : s.storedAt? id = none) :
    Grows slots.units (id + 1) s (effect g slots s id) := by
  unfold effect
  split
  · next n hn =>
    split
    · next o ho =>
      have hin := grows_input hw hs hn id
      have hsteps := (grows_steps hin o s).mono (Nat.le_succ id)
      have hnone := storedAt?_steps_eq_none hin o hnone
      exact hsteps.trans (grows_keep hs (Nat.lt_succ_self id) hnone n true)
    · exact .refl _ _ s
  · exact .refl _ _ s

omit hw in
theorem grows_recompute (guarded : Int) (depth id : Nat) (s : Emission) :
    Grows slots.units 0 s (recompute g slots guarded depth id s) := by
  induction depth generalizing id s with
  | zero => exact .refl _ _ s
  | succ depth ih =>
    unfold recompute
    split
    · exact .refl _ _ s
    next n hn =>
    split
    · exact grows_load hs _ s id n
    · split
      · exact grows_getElement _ _ s n.element
      · next o ho => exact grows_steps (fun i _ s => ih i s) o s

end Nodes

end Emission
end MicroBlock
