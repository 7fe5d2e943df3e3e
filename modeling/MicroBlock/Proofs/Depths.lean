import Mathlib
import MicroBlock.Loader.Basic
import MicroBlock.Proofs.Endings

/-! The depth of the stack in the code of a block.

A table takes a fragment only if its steps leave one value, or none for a void target. So the code of a value
leaves one value more than it found, a statement leaves as many, and the code of the block and of every
rollback comes to its return with one value. The depths are those that the verifier counts. -/

namespace MicroBlock

theorem Registry.lookup_builtin {name : String} {h : Helper} (hl : Registry.builtin.lookup name = some h) :
    ∃ b : Builtin, b.name = name ∧ h = b.helper := by
  obtain ⟨b, -, rfl⟩ := List.mem_map.mp (List.mem_of_find?_eq_some hl)
  have hname := List.find?_some hl
  exact ⟨b, beq_iff_eq.mp hname, rfl⟩

theorem SlotClass.kind_ofKind {e : Element} (h : e.materializable = true) : (ofKind e.kind).kind = e.kind := by
  cases e with
  | reg r => cases r <;> rfl
  | temp t => cases t <;> rfl
  | cpu | zero | marker => cases h

/-! ### Accepted fragments -/

/-- A fragment that a table takes when its helpers are those of a registry. -/
def Fragment.Checked (r : Registry) (f : Fragment) : Prop := Table.check r f = .ok ()

/-- A fragment that a table takes when its helpers are the built-in ones. -/
def Fragment.Accepted (f : Fragment) : Prop := f.Checked .builtin

namespace Table

theorem checkSteps_call {r : Registry} {f : Signature} {n : Nat} {ss : List Step} {kinds kinds' : List Kind}
    (h : checkSteps r f n ss kinds = .ok kinds') {helper : String} (hmem : .call helper ∈ ss) :
    ∃ b, r.lookup helper = some b := by
  fun_induction checkSteps r f n ss kinds with
  | case1 => cases hmem
  | case2 => cases h
  | case3 n kinds s rest kinds₁ hstep ih =>
    rcases List.mem_cons.mp hmem with rfl | hmem
    · cases hb : r.lookup helper with
      | none => simp [checkStep, hb] at hstep
      | some b => exact ⟨b, rfl⟩
    · exact ih h hmem

/-- The kinds that an accepted fragment leaves. -/
theorem kinds_of_check {r : Registry} {f : Fragment} (h : check r f = .ok ()) :
    checkSteps r f.toSignature 0 f.steps [] = .ok (if f.target.kind = .void then [] else [f.target.kind]) := by
  simp only [check] at h
  split at h
  · cases h
  split at h
  · cases h
  split at h
  · cases h
  next kinds hkinds =>
  rw [hkinds]
  split at h
  · next hvoid =>
    rw [if_pos hvoid]
    split at h
    · next hempty => rw [List.isEmpty_iff.mp hempty]
    · cases h
  next hvoid =>
  rw [if_neg hvoid]
  split at h
  · next k =>
    split at h
    · next hk => rw [hk]
    · cases h
  · cases h

/-- What the check of a fragment says. -/
theorem check_eq_ok {r : Registry} {f : Fragment} (h : check r f = .ok ()) :
    (f.target.kind ≠ .void → f.target.isPseudo = false) ∧
      ∃ kinds, checkSteps r f.toSignature 0 f.steps [] = .ok kinds ∧
        kinds.length = if f.target.kind = .void then 0 else 1 := by
  refine ⟨fun hk => ?_, _, kinds_of_check h, by split <;> rfl⟩
  simp only [check] at h
  split at h
  · cases h
  split at h
  · cases h
  next hpseudo => simpa [hk] using hpseudo

theorem build_of_addAll {r : Registry} {name : String} {ds : List Definition} {fs : List Fragment}
    (h : addAll r [] ds = .ok fs) : build name ds r = .ok (ofFragments name fs) := by
  rw [build, h]

theorem addAll_checked {r : Registry} {fs fs' : List Fragment} {ds : List Definition} (h : addAll r fs ds = .ok fs')
    (hfs : ∀ f ∈ fs, check r f = .ok ()) : ∀ f ∈ fs', check r f = .ok () := by
  fun_induction addAll r fs ds with
  | case1 =>
    cases h
    exact hfs
  | case2 => cases h
  | case3 fs d ds fs₁ hadd ih =>
    refine ih h fun f hf => ?_
    unfold add at hadd
    split at hadd
    · cases hadd
    simp only at hadd
    split at hadd
    · cases hadd
    next hcheck =>
    split at hadd
    · cases hadd
    cases hadd
    rcases List.mem_append.mp hf with hf | hf
    · exact hfs f hf
    · rw [List.mem_singleton.mp hf]
      exact hcheck

/-- A table that was built has passed its checks. -/
theorem build_checked {r : Registry} {name : String} {ds : List Definition} {t : Table} (h : build name ds r = .ok t) :
    t.All (Fragment.Checked r) := by
  unfold build at h
  split at h
  · cases h
  next fs hfs =>
  cases h
  rintro (_ | op) f hf
  · cases hf
  · exact addAll_checked hfs (fun _ h => absurd h List.not_mem_nil) f (List.mem_filter.mp (List.mem_mergeSort.mp hf)).1

theorem build_accepted {name : String} {ds : List Definition} {t : Table} (h : build name ds .builtin = .ok t) :
    t.All Fragment.Accepted := build_checked h

end Table

instance (r : Registry) : Fragment.Writable (Fragment.Checked r) where
  materializable hf hk := by simp [Element.materializable, (Table.check_eq_ok hf).1 hk]

instance : Fragment.Linkable Fragment.Accepted where
  exists_builtin hf _ hmem := by
    obtain ⟨-, kinds, hkinds, -⟩ := Table.check_eq_ok hf
    obtain ⟨h, hh⟩ := Table.checkSteps_call hkinds hmem
    obtain ⟨b, hb, -⟩ := Registry.lookup_builtin hh
    exact ⟨b, hb⟩
  materializable hf hk := Fragment.Writable.materializable (P := Fragment.Checked .builtin) hf hk

/-! ### Straight code -/

namespace Routine

/-- Straight code takes the stack from one depth to another, and nothing in it is turned down. -/
inductive Climbs (m : Module) (helpers : List Helper) (inHandler : Bool) : List Instr → Int → Int → Prop
  | nil (d : Int) : Climbs m helpers inHandler [] d d
  | cons {i : Instr} {is : List Instr} {pops pushes d d' : Int} (hret : i ≠ .ret)
    (huse : stackUse m helpers inHandler i = .ok (pops, pushes)) (hpops : pops ≤ d)
    (h : Climbs m helpers inHandler is (d + (pushes - pops)) d') : Climbs m helpers inHandler (i :: is) d d'

namespace Climbs
variable {m : Module} {helpers : List Helper} {inHandler : Bool} {is is' : List Instr} {d d' d'' : Int}

theorem append (h : Climbs m helpers inHandler is d d') (h' : Climbs m helpers inHandler is' d' d'') :
    Climbs m helpers inHandler (is ++ is') d d'' := by
  induction h with
  | nil => exact h'
  | cons hret huse hpops _ ih => exact .cons hret huse hpops (ih h')

/-- Code does not mind what lies below its values. -/
theorem add (h : Climbs m helpers inHandler is d d') {k : Int} (hk : 0 ≤ k) :
    Climbs m helpers inHandler is (k + d) (k + d') := by
  induction h with
  | nil => exact .nil _
  | cons hret huse hpops _ ih =>
    refine .cons hret huse (by omega) ?_
    rwa [Int.add_assoc]

end Climbs
end Routine

namespace Emission
open MicroBlock.Graph MicroBlock.Routine

/-! ### Points of the writing -/

/-- Whether an offset is where some instruction of the code begins, or where the code ends. -/
def Boundary (code : List Instr) (pc : Int) : Prop := ∃ is, is <:+ code ∧ pc = sizeOf is

theorem Boundary.suffix {code code' : List Instr} {pc : Int} (h : Boundary code pc) (hs : code <:+ code') :
    Boundary code' pc := by
  obtain ⟨is, his, hpc⟩ := h
  exact ⟨is, his.trans hs, hpc⟩

/-- What holds at every point of the writing: the size is that of the code, a stored node has a slot, and stretches
    that rollbacks guard begin and end with instructions. -/
structure Tidy (slots : Slots) (s : Emission) : Prop where
  size : s.size = sizeOf s.code
  slotted : ∀ {id k : Nat}, s.storedAt? id = some k → ∃ u, slots.of? id = some u
  aligned : ∀ {ρ : Nat} {x : Extent}, s.extents[ρ]? = some x →
    (0 ≤ x.first → Boundary s.code x.first) ∧ Boundary s.code x.last

theorem Tidy.size_eq {slots : Slots} {s s' : Emission} (h : Tidy slots s) (h' : Tidy slots s') {is : List Instr}
    (hcode : s'.code = is.reverse ++ s.code) : s'.size = s.size + sizeOf is := by
  rw [h'.size, h.size, hcode, sizeOf_append, sizeOf_reverse, Nat.add_comm]

theorem tidy_start (g : Graph) (slots : Slots) (m : Module) : Tidy slots (start g m) where
  size := rfl
  slotted h := by
    rw [storedAt?_start] at h
    cases h
  aligned h := by
    simp only [start, Array.getElem?_replicate] at h
    split at h
    · cases h
      exact ⟨fun h => absurd h (by decide), [], List.suffix_rfl, rfl⟩
    · cases h

theorem Tidy.cover {slots : Slots} {s : Emission} (h : Tidy slots s) {pc : Nat} (hpc : Boundary s.code pc)
    (rollback : Option Nat) : Tidy slots (s.cover rollback pc) := by
  cases rollback with
  | none => exact h
  | some ρ =>
    refine ⟨h.size, h.slotted, fun {ρ' x} hx => ?_⟩
    simp only [Emission.cover, Array.getElem?_modify] at hx
    split at hx
    · obtain ⟨y, hy, rfl⟩ := Option.map_eq_some_iff.mp hx
      obtain ⟨hfirst, hlast⟩ := h.aligned hy
      have hend : Boundary s.code s.size := ⟨s.code, List.suffix_rfl, by rw [h.size]⟩
      unfold Extent.cover
      split
      · exact ⟨hfirst, hlast⟩
      · constructor
        · simp only
          split
          · exact fun _ => hpc
          · exact hfirst
        · simp only
          split
          · exact hend
          · exact hlast
    · exact h.aligned hx

/-- A unit as the verifier sees it, whose code some emission left in the end. -/
structure Review (slots : Slots) (fin : Emission) where
  module : Module
  helpers : List Helper
  routine : Routine
  layout : Layout slots.units fin (CodeBlock.linkage module helpers) routine
  kinds : module.slots = slots.kinds

theorem Precedes.trans {s s' s'' : Emission} (h : Precedes s s') (h' : Precedes s' s'') : Precedes s s'' := by
  obtain ⟨is, hcode⟩ := h.code
  obtain ⟨is', hcode'⟩ := h'.code
  exact ⟨⟨is' ++ is, by rw [hcode', hcode, List.append_assoc]⟩, h.constants.trans h'.constants, h.links.trans h'.links⟩

namespace Review
variable {slots : Slots} {fin : Emission} (v : Review slots fin) (inHandler : Bool)

/-- The code between two points of the writing passes the verifier and takes the stack from one depth to another. -/
structure Lifts (s s' : Emission) (d d' : Int) : Prop where
  precedes : Precedes s s'
  passes : Precedes s' fin → Tidy slots s → Tidy slots s' ∧
    ∃ is, s'.code = is.reverse ++ s.code ∧ Climbs v.module v.helpers inHandler is d d'

namespace Lifts
variable {v : Review slots fin} {inHandler : Bool} {s s' s'' : Emission} {d d' d'' : Int}

theorem refl (s : Emission) (d : Int) : v.Lifts inHandler s s d d := ⟨.refl s, fun _ ht => ⟨ht, [], rfl, .nil d⟩⟩

theorem trans (h : v.Lifts inHandler s s' d d') (h' : v.Lifts inHandler s' s'' d' d'') : v.Lifts inHandler s s'' d d'' where
  precedes := h.precedes.trans h'.precedes
  passes hfin ht := by
    obtain ⟨ht', is, hcode, his⟩ := h.passes (h'.precedes.trans hfin) ht
    obtain ⟨ht'', is', hcode', his'⟩ := h'.passes hfin ht'
    exact ⟨ht'', is ++ is', by rw [hcode', hcode, List.reverse_append, List.append_assoc], his.append his'⟩

theorem add (h : v.Lifts inHandler s s' d d') {k : Int} (hk : 0 ≤ k) : v.Lifts inHandler s s' (k + d) (k + d') where
  precedes := h.precedes
  passes hfin ht := by
    obtain ⟨ht', is, hcode, his⟩ := h.passes hfin ht
    exact ⟨ht', is, hcode, his.add hk⟩

/-- Pieces that each take `d` values and leave `d'` take and leave as many times that as there are pieces. -/
theorem foldl {α : Type} {f : Emission → α → Emission} {l : List α} (hd : 0 ≤ d) (hd' : 0 ≤ d')
    (h : ∀ a ∈ l, ∀ s, v.Lifts inHandler s (f s a) d d') (s : Emission) :
    v.Lifts inHandler s (l.foldl f s) (l.length * d) (l.length * d') := by
  induction l generalizing s with
  | nil => simpa using refl s 0
  | cons a l ih =>
    -- The first piece works above what the others take, the others above what it leaves.
    have hhead := (h a List.mem_cons_self s).add (k := l.length * d) (by positivity)
    have htail := (ih (fun b hb => h b (List.mem_cons_of_mem a hb)) (f s a)).add hd'
    have hlen : ∀ k : Int, ((a :: l).length : Int) * k = l.length * k + k := by
      intro k
      rw [List.length_cons, Nat.cast_succ, Int.add_mul, Int.one_mul]
    rw [← hlen] at hhead
    rw [Int.add_comm, Int.add_comm d', ← hlen] at htail
    exact hhead.trans htail

/-- Code that was written may be guarded. -/
theorem cover (h : v.Lifts inHandler s s' d d') (rollback : Option Nat) :
    v.Lifts inHandler s (s'.cover rollback s.size) d d' := by
  have hsame : (s'.cover rollback s.size).code = s'.code ∧ (s'.cover rollback s.size).module = s'.module := by
    cases rollback <;> exact ⟨rfl, rfl⟩
  refine ⟨⟨?_, ?_, ?_⟩, fun hfin ht => ?_⟩
  · rw [hsame.1]
    exact h.precedes.code
  · rw [hsame.2]
    exact h.precedes.constants
  · rw [hsame.2]
    exact h.precedes.links
  · obtain ⟨ht', is, hcode, his⟩ := h.passes ⟨hsame.1 ▸ hfin.code, hsame.2 ▸ hfin.constants, hsame.2 ▸ hfin.links⟩ ht
    refine ⟨ht'.cover ⟨s.code, hcode ▸ List.suffix_append _ _, by rw [ht.size]⟩ rollback, is, ?_, his⟩
    rw [hsame.1, hcode]

end Lifts

/-! ### Single instructions -/

variable {inHandler : Bool} {s s' : Emission} {i : Instr} {pops pushes d d' : Int}

/-- One more instruction. -/
theorem lifts_instr (hp : Precedes s s') (hcode : s'.code = i :: s.code) (hsize : s'.size = s.size + i.size)
    (hstored : s'.stored = s.stored) (hext : s'.extents = s.extents)
    (huse : Precedes s' fin → stackUse v.module v.helpers inHandler i = .ok (pops, pushes)) (hret : i ≠ .ret)
    (hpops : pops ≤ d) (hd : d' = d + (pushes - pops)) : v.Lifts inHandler s s' d d' where
  precedes := hp
  passes hfin ht := by
    refine ⟨⟨?_, ?_, ?_⟩, [i], hcode, .cons hret (huse hfin) hpops (hd ▸ .nil _)⟩
    · rw [hsize, hcode, ht.size, sizeOf_cons, Nat.add_comm]
    · unfold storedAt?
      rw [hstored]
      exact ht.slotted
    · intro ρ x hx
      rw [hext] at hx
      have hs : s.code <:+ s'.code := hcode ▸ List.suffix_cons i s.code
      exact ⟨fun h => ((ht.aligned hx).1 h).suffix hs, (ht.aligned hx).2.suffix hs⟩

theorem lifts_emit (s : Emission) (huse : stackUse v.module v.helpers inHandler i = .ok (pops, pushes)) (hret : i ≠ .ret)
    (hpops : pops ≤ d) (hd : d' = d + (pushes - pops)) : v.Lifts inHandler s (s.emit i) d d' :=
  v.lifts_instr (Precedes.of_emit (.refl _)) rfl rfl rfl rfl (fun _ => huse) hret hpops hd

/-- What an instruction takes from the stack and leaves there, if its operand is good. -/
theorem stackUse_of_operand (m : Module) (helpers : List Helper) (inHandler : Bool) :
    (∀ i, (nth? m.constants i).isSome = true → stackUse m helpers inHandler (.const i) = .ok (0, 1)) ∧
    (∀ c i, nth? m.slots i = some (SlotClass.kind c) → stackUse m helpers inHandler (.load c i) = .ok (0, 1) ∧
      stackUse m helpers inHandler (.store c i) = .ok (1, 0)) ∧
    (∀ e, (element? e).isSome = true → stackUse m helpers inHandler (.get e) = .ok (0, 1)) ∧
    (∀ e, (element? e).any Element.isRegister = true → stackUse m helpers inHandler (.set e) = .ok (1, 0)) ∧
    ∀ i h, nth? helpers i = some h →
      stackUse m helpers inHandler (.call i) = .ok (h.arity, if h.result = .void then 0 else 1) := by
  refine ⟨fun i h => ?_, fun c i h => ⟨?_, ?_⟩, fun e h => ?_, fun e h => ?_, fun i b h => ?_⟩ <;> simp [stackUse, h]

theorem lifts_pushInt (s : Emission) (x : Int) : v.Lifts inHandler s (s.pushInt x) 0 1 := by
  have hp : Precedes s (s.pushInt x) := (grows_pushInt 0 0 s x).precedes (.refl _)
  cases h : Operand.fits (Int32.ofInt x).toInt with
  | true =>
    rw [pushInt_of_fits h]
    have huse : stackUse v.module v.helpers inHandler (.push (.ofInt x)) = .ok (0, 1) := rfl
    exact v.lifts_emit s huse (by simp) le_rfl rfl
  | false =>
    have huse (hfin : Precedes (s.pushInt x) fin) : stackUse v.module v.helpers inHandler
        (.const (.ofNat (s.module.intern (.int (.ofInt x))).1)) = .ok (0, 1) := by
      rw [pushInt_of_not_fits h] at hfin
      obtain ⟨hlt, hconst⟩ := constant_of_intern v.layout hfin
      have hconst : v.module.constants[(s.module.intern (.int (.ofInt x))).1]? = some (.int (.ofInt x)) := hconst
      exact (stackUse_of_operand ..).1 _ (by rw [nth?_ofNat _ hlt, hconst, Option.isSome_some])
    rw [pushInt_of_not_fits h] at hp huse ⊢
    exact v.lifts_instr hp rfl rfl rfl rfl huse (by simp) le_rfl rfl

theorem lifts_call (s : Emission) (b : Builtin) :
    v.Lifts inHandler s (s.call b.name) b.arity (if b.result = .void then 0 else 1) := by
  have hp : Precedes s (s.call b.name) := (grows_call 0 0 s b.name).precedes (.refl _)
  have huse (hfin : Precedes (s.call b.name) fin) : stackUse v.module v.helpers inHandler
      (.call (.ofNat (s.module.link b.name).1)) = .ok (b.arity, if b.result = .void then 0 else 1) := by
    obtain ⟨hlt, hhelper⟩ := helper_of_link v.layout hfin
    have hhelper : v.helpers[(s.module.link b.name).1]? = some b.helper := hhelper
    exact (stackUse_of_operand ..).2.2.2.2 _ b.helper (by rw [nth?_ofNat _ hlt, hhelper])
  exact v.lifts_instr hp rfl rfl rfl rfl huse (by simp) le_rfl (by omega)

theorem lifts_getElement (s : Emission) (e : Element) : v.Lifts inHandler s (s.getElement e) 0 1 := by
  have huse : stackUse v.module v.helpers inHandler (.get (.ofNat e.number)) = .ok (0, 1) :=
    (stackUse_of_operand ..).2.2.1 _ (by rw [element?_ofNat, Option.isSome_some])
  exact v.lifts_emit s huse (by simp) le_rfl rfl

theorem lifts_setRegister (s : Emission) (r : Register) : v.Lifts inHandler s (s.setRegister r) 1 0 := by
  have huse : stackUse v.module v.helpers inHandler (.set (.ofNat r.number)) = .ok (1, 0) := by
    have helem : element? (Int32.ofNat r.number) = some (.reg r) := element?_ofNat (.reg r)
    exact (stackUse_of_operand ..).2.2.2.1 _ (by rw [helem]; rfl)
  exact v.lifts_emit s huse (by simp) le_rfl rfl

/-- The slot of a node is of the kind that its load and its store ask for. -/
theorem nth?_slots {g : Graph} (hs : slots.Sound g) {id u : Nat} {n : Node} (hu : slots.of? id = some u)
    (hn : g.nodes[id]? = some n) :
    nth? v.module.slots (.ofNat u) = some (SlotClass.ofKind n.element.kind).kind := by
  rw [nth?_ofNat _ ((hs.lt hu).trans v.layout.units_lt), v.kinds, hs.kind hu hn,
    SlotClass.kind_ofKind (hs.materializable hu hn)]

theorem lifts_load {g : Graph} (hs : slots.Sound g) {id k : Nat} {n : Node} (hn : g.nodes[id]? = some n)
    (hk : s.storedAt? id = some k) : v.Lifts inHandler s (s.load slots id n) 0 1 := by
  refine ⟨(grows_load hs 0 s id n).precedes (.refl _), fun hfin ht => ?_⟩
  obtain ⟨u, hu⟩ := ht.slotted hk
  have hload : s.load slots id n = s.emit (.load (.ofKind n.element.kind) (.ofNat u)) := by simp only [load, hu]
  rw [hload] at hfin ⊢
  have huse : stackUse v.module v.helpers inHandler (.load (.ofKind n.element.kind) (.ofNat u)) = .ok (0, 1) :=
    ((stackUse_of_operand ..).2.1 _ _ (v.nth?_slots hs hu hn)).1
  exact (v.lifts_emit s huse (by simp) le_rfl rfl).passes hfin ht

theorem lifts_store {g : Graph} (hs : slots.Sound g) {id u : Nat} {n : Node} (hn : g.nodes[id]? = some n)
    (hu : slots.of? id = some u) (s : Emission) :
    v.Lifts inHandler s
      { s.emit (.store (.ofKind n.element.kind) (.ofNat u)) with
        stored := (s.emit (.store (.ofKind n.element.kind) (.ofNat u))).stored.setIfInBounds id
          (some (s.emit (.store (.ofKind n.element.kind) (.ofNat u))).size) } 1 0 := by
  have huse : stackUse v.module v.helpers inHandler (.store (.ofKind n.element.kind) (.ofNat u)) = .ok (1, 0) :=
    ((stackUse_of_operand ..).2.1 _ _ (v.nth?_slots hs hu hn)).2
  have hemit : v.Lifts inHandler s (s.emit (.store (.ofKind n.element.kind) (.ofNat u))) 1 0 :=
    v.lifts_emit s huse (by simp) le_rfl rfl
  refine ⟨⟨hemit.precedes.code, hemit.precedes.constants, hemit.precedes.links⟩, fun hfin ht => ?_⟩
  obtain ⟨ht', his⟩ := hemit.passes ⟨hfin.code, hfin.constants, hfin.links⟩ ht
  refine ⟨⟨ht'.size, fun {j k} hj => ?_, ht'.aligned⟩, his⟩
  rw [storedAt?_set] at hj
  split at hj
  · next h => exact ⟨u, h.1 ▸ hu⟩
  · exact ht'.slotted hj

/-! ### Fragments -/

section Steps
variable {n : Node} {input : Nat → Emission → Emission} (hin : ∀ i ∈ n.inputs, ∀ s, v.Lifts inHandler s (input i s) 0 1)
include hin

/-- A step does to the depth what the check of its fragment says. -/
theorem lifts_step {f : Signature} (hlen : n.inputs.length = f.inputs.length) {k : Nat} {st : Step}
    {kinds kinds' : List Kind} (h : Table.checkStep .builtin f k st kinds = .ok kinds') (s : Emission) :
    v.Lifts inHandler s (step n input s st) kinds.length kinds'.length := by
  cases st with
  | input i =>
    simp only [Table.checkStep] at h
    split at h
    · cases h
    next hi =>
    split at h
    · next e he =>
      cases h
      have hlt : i.toNat < n.inputs.length := hlen ▸ (List.getElem?_eq_some_iff.mp he).1
      simp only [step, hi, if_false, List.getElem?_eq_getElem hlt]
      simpa using (hin _ (List.getElem_mem hlt) s).add (k := kinds.length) (by positivity)
    · cases h
  | literal l =>
    simp only [Table.checkStep] at h
    split at h
    · cases h
    cases h
    simpa [step] using (v.lifts_pushInt s (l.resolve n.place)).add (k := kinds.length) (by positivity)
  | dup =>
    cases kinds with
    | nil => cases h
    | cons k kinds =>
      cases h
      have huse : stackUse v.module v.helpers inHandler .dup = .ok (1, 2) := rfl
      exact v.lifts_emit s huse (by simp) (by simp) (by simp)
  | pop =>
    cases kinds with
    | nil => cases h
    | cons k kinds =>
      cases h
      have huse : stackUse v.module v.helpers inHandler .pop = .ok (1, 0) := rfl
      exact v.lifts_emit s huse (by simp) (by simp) (by simp)
  | call helper =>
    simp only [Table.checkStep] at h
    split at h
    · cases h
    next b hb =>
    obtain ⟨b, rfl, rfl⟩ := Registry.lookup_builtin hb
    split at h
    · cases h
    next harity =>
    cases h
    have harity : b.arity ≤ kinds.length := Int.not_lt.mp harity
    have hpos := b.arity_pos
    have hcall : v.Lifts inHandler s (s.call b.name) kinds.length
        (if b.result = .void then kinds.drop b.arity.toNat else b.result :: kinds.drop b.arity.toNat).length := by
      -- What lies below the arguments stays.
      convert (v.lifts_call s b).add (k := kinds.length - b.arity) (by omega) using 1
      · omega
      · split <;> simp <;> omega
    simp only [step]
    split
    · exact hcall.cover n.rollback
    · exact hcall
  | unknown kind => cases h

theorem lifts_checked {f : Signature} (hlen : n.inputs.length = f.inputs.length) {k : Nat} {ss : List Step}
    {kinds kinds' : List Kind} (h : Table.checkSteps .builtin f k ss kinds = .ok kinds') (s : Emission) :
    v.Lifts inHandler s (ss.foldl (step n input) s) kinds.length kinds'.length := by
  fun_induction Table.checkSteps .builtin f k ss kinds generalizing s with
  | case1 =>
    cases h
    exact .refl s _
  | case2 => cases h
  | case3 k kinds st ss kinds₁ hstep ih => exact (v.lifts_step hin hlen hstep s).trans (ih h _)

end Steps

/-! ### Values and statements -/

section Nodes
variable {g : Graph} (hw : WellFormed g.nodes Fragment.Accepted) (hs : slots.Sound g)
include hw

/-- The steps of a node leave its value, if it has one. -/
theorem lifts_steps {id : Nat} {n : Node} {o : Origin} (hn : g.nodes[id]? = some n) (ho : n.origin = some o)
    {input : Nat → Emission → Emission} (hin : ∀ i ∈ n.inputs, ∀ s, v.Lifts inHandler s (input i s) 0 1) (s : Emission) :
    v.Lifts inHandler s (steps n o input s) 0 (if n.element.kind = .void then 0 else 1) := by
  obtain ⟨-, kinds, hkinds, hlen⟩ := Table.check_eq_ok (hw.fragment hn ho)
  have h := v.lifts_checked hin (hw.inputs hn ho).length_eq hkinds s
  rw [hlen, ← hw.element hn ho] at h
  simpa [steps] using h

omit hw in
include hs in
/-- A value that has a slot is stored in passing. -/
theorem lifts_keep_value {id : Nat} {n : Node} (hn : g.nodes[id]? = some n) (s : Emission) :
    v.Lifts inHandler s (keep slots id n false s) 1 1 := by
  cases hu : slots.of? id with
  | none =>
    have hkeep : keep slots id n false s = s := by simp [keep, hu]
    rw [hkeep]
    exact .refl s 1
  | some u =>
    have huse : stackUse v.module v.helpers inHandler .dup = .ok (1, 2) := rfl
    have hdup : v.Lifts inHandler s (s.emit .dup) 1 2 := v.lifts_emit s huse (by simp) le_rfl rfl
    simp only [keep, hu, Bool.false_eq_true, if_false]
    exact hdup.trans ((v.lifts_store hs hn hu (s.emit .dup)).add (k := 1) (by decide))

omit hw in
include hs in
/-- A statement leaves nothing on the stack. -/
theorem lifts_keep_statement {id : Nat} {n : Node} (hn : g.nodes[id]? = some n) (s : Emission) :
    v.Lifts inHandler s (keep slots id n true s) (if n.element.kind = .void then 0 else 1) 0 := by
  cases hu : slots.of? id with
  | some u =>
    rw [if_neg (Element.kind_ne_void (hs.materializable hu hn))]
    simp only [keep, hu, if_true]
    exact v.lifts_store hs hn hu s
  | none =>
    by_cases hk : n.element.kind = .void
    · have hkeep : keep slots id n true s = s := by simp [keep, hu, hk]
      rw [hkeep, if_pos hk]
      exact .refl s 0
    · have hkeep : keep slots id n true s = s.emit .pop := by simp [keep, hu, hk]
      have huse : stackUse v.module v.helpers inHandler .pop = .ok (1, 0) := rfl
      rw [hkeep, if_neg hk]
      exact v.lifts_emit s huse (by simp) le_rfl rfl

include hs

/-- The code of a value leaves one value more than it found. -/
theorem lifts_value {depth id : Nat} (hd : id < depth) {e : Element} (hh : Holds g.nodes id e) (s : Emission) :
    v.Lifts inHandler s (value g slots depth id s) 0 1 := by
  -- Inputs come before the node in the graph, so their code has the depth that it needs.
  induction depth generalizing id s e with
  | zero => omega
  | succ depth ih =>
    obtain ⟨n, hn, rfl, hvalue⟩ := hh
    simp only [value, hn]
    split
    · next hstored =>
      obtain ⟨k, hk⟩ := Option.isSome_iff_exists.mp hstored
      exact v.lifts_load hs hn hk
    cases ho : n.origin with
    | none => exact v.lifts_getElement s n.element
    | some o =>
      have hin : ∀ i ∈ n.inputs, ∀ s, v.Lifts inHandler s (value g slots depth i s) 0 1 := by
        intro i hi s
        obtain ⟨hlt, e', he'⟩ := hw.input_lt hn i hi
        exact ih (by omega) he' s
      have hsteps := v.lifts_steps hw hn ho hin s
      rw [if_neg (hvalue.resolve_left (by simp [ho]))] at hsteps
      exact hsteps.trans (v.lifts_keep_value hs hn _)

/-- In the code of a rollback too. -/
theorem lifts_recompute {guarded : Int} {depth id : Nat} (hd : id < depth) {e : Element} (hh : Holds g.nodes id e)
    (s : Emission) : v.Lifts inHandler s (recompute g slots guarded depth id s) 0 1 := by
  induction depth generalizing id s e with
  | zero => omega
  | succ depth ih =>
    obtain ⟨n, hn, rfl, hvalue⟩ := hh
    simp only [recompute, hn]
    split
    · next hstored =>
      obtain ⟨k, hk, -⟩ := (Option.any_eq_true _ _).mp hstored
      exact v.lifts_load hs hn hk
    cases ho : n.origin with
    | none => exact v.lifts_getElement s n.element
    | some o =>
      have hin : ∀ i ∈ n.inputs, ∀ s, v.Lifts inHandler s (recompute g slots guarded depth i s) 0 1 := by
        intro i hi s
        obtain ⟨hlt, e', he'⟩ := hw.input_lt hn i hi
        exact ih (by omega) he' s
      have hsteps := v.lifts_steps hw hn ho hin s
      rwa [if_neg (hvalue.resolve_left (by simp [ho]))] at hsteps

theorem lifts_effect (id : Nat) (s : Emission) : v.Lifts inHandler s (effect g slots s id) 0 0 := by
  unfold effect
  split
  · next n hn =>
    split
    · next o ho =>
      have hin : ∀ i ∈ n.inputs, ∀ s, v.Lifts inHandler s (value g slots id i s) 0 1 := by
        intro i hi s
        obtain ⟨hlt, e, he⟩ := hw.input_lt hn i hi
        exact v.lifts_value hw hs hlt he s
      exact (v.lifts_steps hw hn ho hin s).trans (v.lifts_keep_statement hs hn _)
    · exact .refl s 0
  · exact .refl s 0

end Nodes

/-! ### Stretches -/

variable {g : Graph}

/-- The code of a block comes to its return with one value. -/
theorem lifts_main (hg : g.Valid Fragment.Accepted) (hs : slots.Sound g) (count : Nat) (s : Emission) :
    ∃ s', main_ g slots count s = s'.emit .ret ∧ v.Lifts false s s' 0 1 := by
  refine ⟨_, rfl, ?_⟩
  have heffect : ∀ id ∈ g.effects.toList, ∀ s, v.Lifts false s (effect g slots s id) 0 0 :=
    fun id _ s => v.lifts_effect hg.wellFormed hs id s
  have hvalue : ∀ r ∈ g.changed, ∀ s,
      v.Lifts false s (value g slots (g.final.get (.reg r) + 1) (g.final.get (.reg r)) s) 0 1 :=
    fun r _ s => v.lifts_value hg.wellFormed hs (Nat.lt_succ_self _) (hg.final (.reg r)) s
  have hset : ∀ r ∈ g.changed.reverse, ∀ s, v.Lifts false s (s.setRegister r) 1 0 :=
    fun r _ s => v.lifts_setRegister s r
  have heffects := Lifts.foldl le_rfl le_rfl heffect s
  have hvalues := Lifts.foldl le_rfl Int.one_nonneg hvalue (g.effects.toList.foldl (effect g slots) s)
  have hsets := Lifts.foldl Int.one_nonneg le_rfl hset (g.changed.foldl
    (fun s r => value g slots (g.final.get (.reg r) + 1) (g.final.get (.reg r)) s) (g.effects.toList.foldl (effect g slots) s))
  rw [List.length_reverse] at hsets
  simp only [Int.mul_zero, Int.mul_one, Array.foldl_toList] at heffects hvalues hsets
  exact ((heffects.trans hvalues).trans hsets).trans (v.lifts_pushInt _ _)

section Rollback
variable (hw : WellFormed g.nodes Fragment.Accepted) (hs : slots.Sound g) {rb : Rollback} {start : Producers}
  (hsnap : rb.snapshot = Rollback.snapshotOf start) (hstart : ∀ e, Holds g.nodes (start.get e) e)
include hw hs hsnap hstart

theorem lifts_pushRestored (guarded : Int) (s : Emission) :
    v.Lifts inHandler s (pushRestored g slots rb guarded s) 0 (g.restores rb).length := by
  have hpush : ∀ e ∈ g.restores rb, ∀ s, v.Lifts inHandler s (recompute g slots guarded (e.2 + 1) e.2 s) 0 1 := by
    rintro ⟨reg, id⟩ he s
    have hid : id = start.get (.reg reg) := mem_snapshotOf.mp (hsnap ▸ (List.mem_filter.mp he).1)
    exact v.lifts_recompute hw hs (Nat.lt_succ_self _) (hid ▸ hstart (.reg reg)) s
  have h := Lifts.foldl le_rfl Int.one_nonneg hpush s
  rwa [Int.mul_zero, Int.mul_one] at h

theorem lifts_pushEip (guarded : Int) (s : Emission) : v.Lifts inHandler s (pushEip g slots rb guarded s) 0 1 := by
  have hid : rb.eip? = some (start.get .eip) := by rw [Rollback.eip?, hsnap, lookup_snapshotOf]
  have hvalue : v.Lifts inHandler s (recompute g slots guarded (start.get .eip + 1) (start.get .eip) s) 0 1 :=
    v.lifts_recompute hw hs (Nat.lt_succ_self _) (hstart .eip) s
  simp only [pushEip, hid]
  split
  · exact hvalue
  · exact hvalue.trans (((v.lifts_pushInt _ _).add (k := 1) (by decide)).trans (v.lifts_call _ .add32))

omit hw hs hsnap hstart in
theorem lifts_setRestored (g : Graph) (rb : Rollback) (s : Emission) :
    v.Lifts inHandler s (setRestored g rb s) (g.restores rb).length 0 := by
  have hset : ∀ e ∈ (g.restores rb).reverse, ∀ s, v.Lifts inHandler s (s.setRegister e.1) 1 0 :=
    fun e _ s => v.lifts_setRegister s e.1
  have h := Lifts.foldl Int.one_nonneg le_rfl hset s
  rwa [List.length_reverse, Int.mul_zero, Int.mul_one] at h

omit hw hs hsnap hstart in
/-- The processor and the fault are handed to the helper that routes it. -/
theorem lifts_route (mode : Mode) (s : Emission) :
    v.Lifts true s (((s.getElement .cpu).emit .fault).call (Builtin.route mode).name) 0 0 := by
  have huse : stackUse v.module v.helpers true .fault = .ok (0, 1) := rfl
  have hfault : v.Lifts true (s.getElement .cpu) ((s.getElement .cpu).emit .fault) 1 2 :=
    v.lifts_emit _ huse (by simp) (by decide) rfl
  exact ((v.lifts_getElement s .cpu).trans hfault).trans (v.lifts_call _ (.route mode))

/-- The code of a rollback comes to its return with one value. -/
theorem lifts_rollback (mode : Mode) (guarded : Int) (s : Emission) :
    ∃ s', rollback g slots (Builtin.route mode).name rb guarded s = (s.size, s'.emit .ret) ∧ v.Lifts true s s' 0 1 := by
  refine ⟨_, rollback_eq _ rb guarded s, ?_⟩
  have hpush : v.Lifts true s (pushRestored g slots rb guarded s) 0 (g.restores rb).length :=
    v.lifts_pushRestored hw hs hsnap hstart guarded s
  have heip : ∀ s, v.Lifts true s ((pushEip g slots rb guarded s).setRegister .eip) 0 0 :=
    fun s => (v.lifts_pushEip hw hs hsnap hstart guarded s).trans (v.lifts_setRegister _ .eip)
  have habove := (heip (pushRestored g slots rb guarded s)).add (Int.natCast_nonneg (g.restores rb).length)
  rw [Int.add_zero] at habove
  exact (((hpush.trans habove).trans (v.lifts_setRestored g rb _)).trans (v.lifts_route mode _)).trans (v.lifts_pushInt _ _)

end Rollback

end Review
end Emission
end MicroBlock
