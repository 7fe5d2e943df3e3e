import Mathlib
import MicroBlock.Proofs.Depths
import MicroBlock.Proofs.Loading

/-! The verifier accepts every unit that is written.

The code of a unit is a row of stretches: that of the block, which begins at offset zero, and one for each
rollback, which begins where its guard leads. No guard leads anywhere else, so the verifier enters a stretch
with an empty stack and leaves it with its return. -/

namespace MicroBlock

/-! ### Stretches -/

namespace Routine
open MicroBlock.Emission (place)

section Stretch
variable {m : Module} {helpers : List Helper} {targets : List Int32} {inHandler : Bool} {is : List Instr} {pc : Nat}

theorem checkInstr_of_enter {pos : Position} {p : Code.Placed} {pops pushes d : Int}
    (henter : enter targets p.pc pos = .ok (d, inHandler)) (hret : p.instr ≠ .ret)
    (huse : stackUse m helpers inHandler p.instr = .ok (pops, pushes)) (hpops : pops ≤ d) :
    checkInstr m helpers targets pos p = .ok (.inside (d + (pushes - pops)) inHandler) := by
  simp only [checkInstr, henter, hret, if_false, huse, Int.not_lt.mpr hpops]

theorem enter_of_free {d : Int} (h : ∀ t ∈ targets, t.toInt ≠ pc) :
    enter targets pc (.inside d inHandler) = .ok (d, inHandler) := by
  have hany : (targets.any fun t => t.toInt == pc) = false := by simpa using h
  simp [enter, hany]

theorem enter_start (h : ∀ t ∈ targets, t.toInt ≠ 0) : enter targets 0 .between = .ok (0, false) := by
  simpa [enter] using h

theorem enter_target {t : Int32} (ht : t ∈ targets) (hpc : t.toInt = pc) : enter targets pc .between = .ok (0, true) := by
  have hany : (targets.any fun t => t.toInt == pc) = true := List.any_eq_true.mpr ⟨t, ht, by simp [hpc]⟩
  simp [enter, hany]

/-- The verifier gets through straight code that no guard leads into. -/
theorem checkCode_straight {d d' : Int} (h : Climbs m helpers inHandler is d d')
    (hfree : ∀ t ∈ targets, (pc : Int) ≤ t.toInt → ((pc + Emission.sizeOf is : Nat) : Int) ≤ t.toInt) (code : List Code.Placed) :
    checkCode m helpers targets (.inside d inHandler) (place pc is ++ code) =
      checkCode m helpers targets (.inside d' inHandler) code := by
  induction h generalizing pc with
  | nil => rfl
  | @cons i is pops pushes d d' hret huse hpops _ ih =>
    rw [Emission.sizeOf_cons] at hfree
    have hpos := i.size_pos
    have henter : enter targets pc (.inside d inHandler) = .ok (d, inHandler) := by
      refine enter_of_free fun t ht hpc => ?_
      have := hfree t ht hpc.ge
      omega
    rw [place, List.cons_append, checkCode, checkInstr_of_enter henter hret huse hpops]
    refine ih fun t ht hle => ?_
    have := hfree t ht (by omega)
    omega

/-- The verifier gets through a stretch that it enters with an empty stack. -/
theorem checkCode_stretch (h : Climbs m helpers inHandler is 0 1)
    (henter : enter targets pc .between = .ok (0, inHandler))
    (hfree : ∀ t ∈ targets, (pc : Int) < t.toInt → ((pc + Emission.sizeOf (is ++ [.ret]) : Nat) : Int) ≤ t.toInt)
    (code : List Code.Placed) :
    checkCode m helpers targets .between (place pc (is ++ [.ret]) ++ code) = checkCode m helpers targets .between code := by
  -- A stretch leaves one value more than it found, so it has a first instruction, which is the one that is entered.
  generalize hd : (0 : Int) = d at h
  generalize hd' : (1 : Int) = d' at h
  cases h with
  | nil => omega
  | @cons i is pops pushes _ _ hret huse hpops hrest =>
    subst hd hd'
    have hpos := i.size_pos
    have hret_pos : 0 < Emission.sizeOf [Instr.ret] := by decide
    rw [List.cons_append, Emission.sizeOf_cons, Emission.sizeOf_append] at hfree
    rw [List.cons_append, place, List.cons_append, checkCode, checkInstr_of_enter henter hret huse hpops,
      Emission.place_append, List.append_assoc]
    simp only
    rw [checkCode_straight hrest]
    · have henter' : enter targets (pc + i.size + Emission.sizeOf is) (.inside 1 inHandler) = .ok (1, inHandler) := by
        refine enter_of_free fun t ht hpc => ?_
        have := hfree t ht (by omega)
        omega
      simp only [place, List.cons_append, List.nil_append, checkCode, checkInstr, henter', if_true]
    · intro t ht hle
      have := hfree t ht (by omega)
      omega

end Stretch

theorem checkGuard_of_placed {code : List Code.Placed} {gd : Guard} (hfirst : ∃ p ∈ code, gd.first.toInt = p.pc)
    (hlast : ∃ p ∈ code, gd.last.toInt = p.pc) (hlt : gd.first.toInt < gd.last.toInt)
    (htarget : ∃ p ∈ code, gd.target.toInt = p.pc) (size : Nat) : checkGuard code size gd = .ok () := by
  have hany : ∀ {i : Int32}, (∃ p ∈ code, i.toInt = p.pc) → (code.any fun p => i.toInt == p.pc) = true := by
    rintro i ⟨p, hp, hpc⟩
    exact List.any_eq_true.mpr ⟨p, hp, by simp [hpc]⟩
  have hle : ¬ gd.last ≤ gd.first := by
    rw [Int32.le_iff_toInt_le]
    omega
  simp [checkGuard, hany hfirst, hany hlast, hany htarget, hle]

end Routine

namespace Emission
open MicroBlock.Graph MicroBlock.Routine

/-- The code after a point is what is written next, and the code after that. -/
theorem rest_eq_append {slots : Slots} {fin s s' : Emission} {is : List Instr} (hcode : s'.code = is.reverse ++ s.code)
    (hs : Tidy slots s) (hs' : Tidy slots s') (hfin : Precedes s' fin) : rest fin s = place s.size is ++ rest fin s' := by
  obtain ⟨more, hmore⟩ := hfin.code
  have hinstrs : fin.instrs = s.code.reverse ++ (is ++ more.reverse) := by
    rw [instrs, hmore, hcode]
    simp
  have hinstrs' : fin.instrs = s'.code.reverse ++ more.reverse := by
    rw [instrs, hmore, List.reverse_append]
  have hdrop : fin.instrs.drop s.code.length = is ++ more.reverse := by
    rw [hinstrs, List.drop_left' (List.length_reverse)]
  have hdrop' : fin.instrs.drop s'.code.length = more.reverse := by
    rw [hinstrs', List.drop_left' (List.length_reverse)]
  rw [rest, rest, hdrop, hdrop', hs.size_eq hs' hcode, place_append]

theorem Tidy.emit {slots : Slots} {s : Emission} (h : Tidy slots s) (i : Instr) : Tidy slots (s.emit i) where
  size := by
    rw [Emission.emit, h.size, sizeOf_cons, Nat.add_comm]
  slotted := h.slotted
  aligned hx := ⟨fun h₀ => ((h.aligned hx).1 h₀).suffix (List.suffix_cons _ _), (h.aligned hx).2.suffix (List.suffix_cons _ _)⟩

/-! ### Guards -/

/-- A boundary is where some instruction stands, or the end of the code. -/
theorem Boundary.exists_placed {s : Emission} {pc : Int} (h : Boundary s.code pc) :
    pc = sizeOf s.code ∨ ∃ p ∈ place 0 s.instrs, pc = p.pc := by
  obtain ⟨is, ⟨later, hlater⟩, rfl⟩ := h
  have hinstrs : s.instrs = is.reverse ++ later.reverse := by rw [instrs, ← hlater, List.reverse_append]
  cases hrev : later.reverse with
  | nil =>
    rw [List.reverse_eq_nil_iff] at hrev
    exact .inl (by rw [← hlater, hrev, List.nil_append])
  | cons i more =>
    refine .inr ⟨⟨sizeOf is, i, i.size⟩, ?_, rfl⟩
    rw [hinstrs, hrev, place_append, Nat.zero_add, sizeOf_reverse]
    exact List.mem_append_right _ List.mem_cons_self

section Guards
variable {g : Graph} {slots : Slots} {fin : Emission} (hg : g.Valid Fragment.Accepted) (hs : slots.Sound g)
  (hkeep : slots.KeepsEffects g) {count : Nat} {m : Module}
include hg hs hkeep

/-- A guard has the ends of a stretch of the block's code and leads behind that code. -/
theorem exists_stretch {mode : Mode} {guards : List Guard}
    (hexec : execute g slots (Builtin.route mode).name count m = (guards, fin)) (hlt : fin.size < 2 ^ 29) {gd : Guard}
    (hgd : gd ∈ guards) :
    ∃ (ρ : Nat) (x : Extent) (target : Nat), (main_ g slots count (start g m)).extents[ρ]? = some x ∧
      0 ≤ x.first ∧ x.first < x.last ∧ x.last < fin.size ∧ Boundary fin.code target ∧
      (main_ g slots count (start g m)).size ≤ target ∧ target < fin.size ∧
      gd.first.toInt = x.first ∧ gd.last.toInt = x.last ∧ gd.target.toInt = target := by
  obtain ⟨-, hguards⟩ := guards_rollbacks hs (Builtin.route mode).name
    (g.rollbacks.toList.zip (main_ g slots count (start g m)).extents.toList) (main_ g slots count (start g m))
  have hrolls := hexec
  simp only [execute] at hrolls
  simp only [hrolls] at hguards
  obtain ⟨⟨rb, x⟩, he, sρ, hfrom, hto, hsize, hempty, rfl⟩ := hguards gd hgd
  obtain ⟨ρ, hρ⟩ := List.mem_iff_getElem?.mp he
  have hx : (main_ g slots count (start g m)).extents[ρ]? = some x := by simpa using (List.getElem?_zip_eq_some.mp hρ).2
  simp only [Extent.isEmpty, Bool.or_eq_false_iff, decide_eq_false_iff_not, not_lt, not_le] at hempty
  have hlast := (fenced_main hg hs hkeep count ρ x hx).1
  have hle := hfrom.size_le
  have hboundary : Boundary fin.code sρ.size := by
    obtain ⟨later, hlater, -⟩ := hto.code
    obtain ⟨is, hcode, hsize, -⟩ :=
      ((grows_afterEffects_main (m := m) hg hs (Nat.zero_le _) count).trans (hfrom.mono (Nat.zero_le _))).code
    rw [afterEffects_zero] at hcode hsize
    refine ⟨sρ.code, ⟨later, hlater.symm⟩, ?_⟩
    rw [hcode, hsize]
    simp [start]
  have hfirst' : (Int32.ofInt x.first).toInt = x.first := Int32.toInt_ofInt_of_le (by omega) (by omega)
  have hlast' : (Int32.ofInt x.last).toInt = x.last := Int32.toInt_ofInt_of_le (by omega) (by omega)
  exact ⟨ρ, x, sρ.size, hx, hempty.1, hempty.2, by omega, hboundary, hle, hsize, hfirst', hlast', toInt_ofNat (hsize.trans hlt)⟩

end Guards

namespace Review
variable {slots : Slots} {fin : Emission} (v : Review slots fin) {targets : List Int32} {inHandler : Bool} {s s' : Emission}

/-- The verifier gets through a piece of the writing that ends in a return. -/
theorem checkCode_stretch (h : v.Lifts inHandler s s' 0 1) (hfin : Precedes (s'.emit .ret) fin) (ht : Tidy slots s)
    (henter : enter targets s.size .between = .ok (0, inHandler))
    (hfree : ∀ t ∈ targets, (s.size : Int) < t.toInt → ((s'.emit .ret).size : Int) ≤ t.toInt) :
    Tidy slots (s'.emit .ret) ∧ checkCode v.module v.helpers targets .between (rest fin s) =
      checkCode v.module v.helpers targets .between (rest fin (s'.emit .ret)) := by
  obtain ⟨ht', is, hcode, his⟩ := h.passes hfin.of_emit ht
  have hret := ht'.emit .ret
  have hcode' : (s'.emit .ret).code = (is ++ [Instr.ret]).reverse ++ s.code := by simp [emit, hcode]
  rw [ht.size_eq hret hcode'] at hfree
  exact ⟨hret, by rw [rest_eq_append hcode' ht hret hfin, Routine.checkCode_stretch his henter hfree]⟩

section Rollbacks
variable {g : Graph} (hw : WellFormed g.nodes Fragment.Accepted) (hs : slots.Sound g) (hlt : fin.size < 2 ^ 29) (mode : Mode)
include hw hs hlt

/-- The verifier gets through the code of the rollbacks, if the guards lead to where it begins and to no other place
    behind the code of the block. -/
theorem checkCode_rollbacks {rs : List (Rollback × Extent)}
    (hrs : ∀ e ∈ rs, e.2.isEmpty = false → ∃ start : Producers, e.1.snapshot = Rollback.snapshotOf start ∧
      ∀ e', Holds g.nodes (start.get e') e')
    (ht : Tidy slots s) (hfin : (rollbacks g slots (Builtin.route mode).name rs s).2 = fin)
    (hmem : ∀ gd ∈ (rollbacks g slots (Builtin.route mode).name rs s).1, gd.target ∈ targets)
    (honly : ∀ t ∈ targets, (s.size : Int) ≤ t.toInt →
      ∃ gd ∈ (rollbacks g slots (Builtin.route mode).name rs s).1, gd.target = t) :
    checkCode v.module v.helpers targets .between (rest fin s) = .ok () := by
  induction rs generalizing s with
  | nil =>
    subst hfin
    have hnil : rest s s = [] := by
      rw [rest, instrs, List.drop_eq_nil_of_le (List.length_reverse).le]
      rfl
    exact hnil ▸ rfl
  | cons e rs ih =>
    obtain ⟨rb, x⟩ := e
    have hrs' := fun e he => hrs e (List.mem_cons_of_mem _ he)
    simp only [rollbacks] at hfin hmem honly
    split at hfin
    · next hempty =>
      rw [if_pos hempty] at hmem honly
      exact ih hrs' ht hfin hmem honly
    next hempty =>
    rw [if_neg hempty] at hmem honly
    obtain ⟨start, hsnap, hstart⟩ := hrs (rb, x) List.mem_cons_self (by simpa using hempty)
    obtain ⟨s', heq, hlifts⟩ := v.lifts_rollback hw hs hsnap hstart mode x.first s
    simp only [heq] at hfin hmem honly
    have hgrow := grows_rollbacks hs (Builtin.route mode).name rs (s'.emit .ret)
    obtain ⟨-, hguards⟩ := guards_rollbacks hs (Builtin.route mode).name rs (s'.emit .ret)
    rw [hfin] at hgrow hguards
    have hle : s.size ≤ s'.size := by
      obtain ⟨ht', is, hcode, -⟩ := hlifts.passes (hgrow.precedes (.refl fin)).of_emit ht
      exact (ht.size_eq ht' hcode).ge.trans' (Nat.le_add_right _ _)
    have hpos : s.size < (s'.emit .ret).size := hle.trans_lt (Nat.lt_add_of_pos_right (Instr.size_pos _))
    have hhere : (Int32.ofNat s.size).toInt = s.size := toInt_ofNat (by have := hgrow.size_le; omega)
    -- A guard that leads behind the first stretch belongs to one of the others.
    have hlater : ∀ t ∈ targets, (s.size : Int) < t.toInt →
        ∃ gd ∈ (rollbacks g slots (Builtin.route mode).name rs (s'.emit .ret)).1, gd.target = t := by
      intro t ht hlt
      obtain ⟨gd, hgd, rfl⟩ := honly t ht hlt.le
      rcases List.mem_cons.mp hgd with rfl | hgd
      · rw [hhere] at hlt
        exact absurd hlt (lt_irrefl _)
      · exact ⟨gd, hgd, rfl⟩
    -- The verifier enters the stretch as a handler, because a guard leads to it.
    have henter := enter_target (hmem _ List.mem_cons_self) hhere
    obtain ⟨ht', hcheck⟩ := v.checkCode_stretch hlifts (hgrow.precedes (.refl fin)) ht henter fun t ht hlt' => by
      obtain ⟨gd, hgd, rfl⟩ := hlater t ht hlt'
      obtain ⟨e, -, sρ, hfrom, -, hsize, -, rfl⟩ := hguards gd hgd
      rw [toInt_ofNat (show sρ.size < 2 ^ 29 by omega)]
      exact_mod_cast hfrom.size_le
    rw [hcheck]
    exact ih hrs' ht' hfin (fun gd hgd => hmem gd (List.mem_cons_of_mem _ hgd))
      fun t ht hle' => hlater t ht (by omega)

end Rollbacks

/-! ### The code of a block -/

section Execute
variable {g : Graph} (hg : g.Valid Fragment.Accepted) (hs : slots.Sound g) (hkeep : slots.KeepsEffects g)
  {mode : Mode} {count : Nat} {m : Module} {guards : List Guard}
  (hexec : execute g slots (Builtin.route mode).name count m = (guards, fin)) (hlt : fin.size < 2 ^ 29)
include hg hs hexec

/-- The code of the block without its rollbacks. -/
theorem exists_main : ∃ s', main_ g slots count (start g m) = s'.emit .ret ∧ v.Lifts false (start g m) s' 0 1 ∧
    Precedes (s'.emit .ret) fin ∧ Tidy slots (s'.emit .ret) := by
  obtain ⟨s', heq, hlifts⟩ := v.lifts_main hg hs count (start g m)
  have hfin : Precedes (s'.emit .ret) fin := heq ▸ (grows_main_execute hs hexec).precedes (.refl fin)
  exact ⟨s', heq, hlifts, hfin, (hlifts.passes hfin.of_emit (tidy_start g slots m)).1.emit .ret⟩

include hkeep hlt

/-- The verifier gets through the code of a block. -/
theorem checkCode_execute :
    checkCode v.module v.helpers (guards.map (·.target)) .between (place 0 fin.instrs) = .ok () := by
  obtain ⟨s', hmain, hlifts, hfin, ht⟩ := v.exists_main hg hs hexec
  have hbehind : ∀ t ∈ guards.map (·.target), ((s'.emit .ret).size : Int) ≤ t.toInt := by
    intro t ht
    obtain ⟨gd, hgd, rfl⟩ := List.mem_map.mp ht
    obtain ⟨-, -, sρ, -, -, -, -, -, hle, -, -, -, htarget⟩ := exists_stretch hg hs hkeep hexec hlt hgd
    rw [hmain] at hle
    omega
  have henter : enter (guards.map (·.target)) (start g m).size .between = .ok (0, false) := by
    have hpos : 0 < (s'.emit .ret).size := (Instr.size_pos _).trans_le (Nat.le_add_left _ _)
    refine enter_start fun t ht h₀ => ?_
    have := hbehind t ht
    omega
  obtain ⟨-, hcheck⟩ := v.checkCode_stretch hlifts hfin (tidy_start g slots m) henter fun t ht _ => hbehind t ht
  have hstart : rest fin (start g m) = place 0 fin.instrs := rfl
  have hrolls := hexec
  simp only [execute, hmain] at hrolls
  rw [← hstart, hcheck]
  have hsnapshots : ∀ e ∈ g.rollbacks.toList.zip (s'.emit .ret).extents.toList, e.2.isEmpty = false →
      ∃ start : Producers, e.1.snapshot = Rollback.snapshotOf start ∧ ∀ e', Holds g.nodes (start.get e') e' := by
    intro e he hempty
    rw [← hmain] at he
    exact exists_snapshot hg hs hkeep he hempty
  refine v.checkCode_rollbacks hg.wellFormed hs hlt mode hsnapshots ht (by rw [hrolls]) ?_ ?_
  · intro gd hgd
    rw [hrolls] at hgd
    exact List.mem_map_of_mem hgd
  · intro t ht _
    rw [hrolls]
    exact List.mem_map.mp ht

include v in
/-- The guards cover whole instructions and lead to one. -/
theorem checkGuard_execute {gd : Guard} (hgd : gd ∈ guards) : checkGuard (place 0 fin.instrs) fin.size gd = .ok () := by
  obtain ⟨s', hmain, hlifts, hfin, ht⟩ := v.exists_main hg hs hexec
  obtain ⟨ρ, x, target, hx, h₀, hlt', hend, hb, -, hsize, hfirst, hlast, htarget⟩ :=
    exists_stretch hg hs hkeep hexec hlt hgd
  rw [hmain] at hx
  have hfinsize : fin.size = sizeOf fin.code := by
    obtain ⟨is, hcode, hsize, -⟩ := (grows_execute hg hs hexec).code
    rw [hcode, hsize]
    simp [start]
  have hsuffix : (s'.emit .ret).code <:+ fin.code := by
    obtain ⟨is, his⟩ := hfin.code
    exact ⟨is, his.symm⟩
  -- The end of the code is a boundary too, but guards end before it.
  have hstarts : ∀ {pc : Int}, Boundary fin.code pc → pc < fin.size → ∃ p ∈ place 0 fin.instrs, pc = p.pc := by
    intro pc hb hpc
    rcases hb.exists_placed with heq | hp
    · omega
    · exact hp
  obtain ⟨hbfirst, hblast⟩ := ht.aligned hx
  refine checkGuard_of_placed (hfirst ▸ hstarts ((hbfirst h₀).suffix hsuffix) (by omega))
    (hlast ▸ hstarts (hblast.suffix hsuffix) hend) (by omega) (htarget ▸ hstarts hb (by omega)) fin.size

end Execute

end Review
end Emission

/-! ### Methods -/

theorem Routine.forM_of_forall {α ε : Type} {f : α → Except ε Unit} {l : List α} (h : ∀ a ∈ l, f a = .ok ()) :
    l.forM f = .ok () := by
  induction l with
  | nil => rfl
  | cons b l ih =>
    rw [List.forM_eq_forM, List.forM_cons, h b List.mem_cons_self]
    exact ih fun a ha => h a (List.mem_cons_of_mem b ha)

theorem Routine.ofMethod_of_checks {m : Module} {helpers : List Helper} {me : Method} {code : List Code.Placed}
    (hcode : me.code ≠ []) (hdecode : Code.decode me.code = .ok code)
    (hguards : ∀ gd ∈ me.guards, checkGuard code me.code.length gd = .ok ())
    (hcheck : checkCode m helpers (me.guards.map (·.target)) .between code = .ok ()) :
    ofMethod m helpers me = .ok ⟨me.name, code, me.guards⟩ := by
  have hplace : me.isPlaceholder = false := by simpa [Method.isPlaceholder] using hcode
  simp only [ofMethod, hplace, Bool.false_eq_true, if_false, hdecode, forM_of_forall hguards, hcheck]

theorem Loader.verify_cons_of_ok {m : Module} {helpers : List Helper} {name : String} {me : Method} {mes : List Method}
    {r : Routine} {rs : List Routine} (h : Routine.ofMethod m helpers me = .ok r)
    (hrest : verify m helpers name mes = .ok rs) : verify m helpers name (me :: mes) = .ok (r :: rs) := by
  simp only [verify, h, hrest]

namespace Target
open MicroBlock.Module

/-- The verifier accepts a method that pushes one thing and returns it. -/
theorem ofMethod_accessorMethod {m : Module} {helpers : List Helper} {i : Instr} (hi : Code.Fits i) (hret : i ≠ .ret)
    (huse : Routine.stackUse m helpers false i = .ok (0, 1)) (name : String) :
    Routine.ofMethod m helpers (accessorMethod name i) = .ok (accessorRoutine name i) := by
  refine Routine.ofMethod_of_checks ?_ (decode_accessorMethod hi name) (fun _ h => absurd h List.not_mem_nil) ?_
  · simp [accessorMethod, Instr.encode]
  · have henter : Routine.enter [] 0 .between = .ok (0, false) :=
      Routine.enter_start fun _ h => absurd h List.not_mem_nil
    have hstretch := Routine.checkCode_stretch (.cons hret huse le_rfl (.nil 1)) henter
      (fun _ h => absurd h List.not_mem_nil) []
    rw [List.append_nil] at hstretch
    exact hstretch

section Contains
variable {mode : Mode} {name : String} {s : Stream} {g : Graph} (hg : g.Valid Fragment.Accepted) {slots : Slots}
  (hs : slots.Sound g) (hkeep : slots.KeepsEffects g) {m : Module} {fin : Emission} {guards : List Guard}
  (h : Contains mode name s g slots m fin guards)
include hg hs hkeep h

/-- The verifier accepts every method of a unit. -/
theorem Contains.verify_eq_ok {helpers : List Helper} (hh : Loader.resolve .builtin name m.links = .ok helpers) :
    Loader.verify m helpers name m.methods = .ok (routines s fin guards) := by
  obtain ⟨helpers', hh', hlayout⟩ := h.layout hg hs
  obtain rfl : helpers' = helpers := Except.ok.inj (hh'.symm.trans hh)
  obtain ⟨hsize, -, -, -, hu⟩ := h.bounds hg hs
  let v : Emission.Review slots fin := ⟨m, helpers', _, hlayout, by rw [h.eq]; rfl⟩
  have hlt : fin.size < 2 ^ 29 := hsize.trans_lt (by decide)
  have hbytes := (Emission.execute_bounds hg hs h.execute).1
  have hconst : ∀ k < (pool s).length, Routine.stackUse m helpers' false (.const (.ofNat k)) = .ok (0, 1) := by
    intro k hk
    have hpool := length_pool_le s
    obtain ⟨cs, hcs⟩ := h.constants hg hs
    have hget : m.constants[k]? = some (pool s)[k] := by
      rw [← hcs, List.getElem?_append_left hk, List.getElem?_eq_getElem hk]
    rw [Routine.stackUse, Emission.nth?_ofNat _ (by omega), hget]
    rfl
  have hmethods : m.methods = descriptions s ++ [⟨.ofString executeMethod, fin.bytes, guards⟩] := by rw [h.eq]
  have hexecute : Routine.ofMethod m helpers' ⟨.ofString executeMethod, fin.bytes, guards⟩ =
      .ok ⟨.ofString executeMethod, Emission.place 0 fin.instrs, guards⟩ := by
    refine Routine.ofMethod_of_checks ?_ (h.decode hg hs) (fun gd hgd => ?_) (v.checkCode_execute hg hs hkeep h.execute hlt)
    · obtain ⟨s', -, -, hfin, -⟩ := v.exists_main hg hs h.execute
      obtain ⟨is, his⟩ := hfin.code
      have hlen := (Emission.execute_bounds hg hs h.execute).2.1
      rw [his] at hlen
      show fin.bytes ≠ []
      intro hnil
      simp [hnil, Emission.emit] at hlen
    · show Routine.checkGuard _ fin.bytes.length gd = _
      rw [← hbytes]
      exact v.checkGuard_execute hg hs hkeep h.execute hlt hgd
  rw [hmethods]
  refine Loader.verify_cons_of_ok (ofMethod_accessorMethod h.describable.1 (by simp) rfl _)
    (Loader.verify_cons_of_ok (ofMethod_accessorMethod h.describable.2 (by simp) rfl _)
      (Loader.verify_cons_of_ok (ofMethod_accessorMethod (fits_const (by omega)) (by simp) (hconst 0 ?_) _)
        (Loader.verify_cons_of_ok (ofMethod_accessorMethod (fits_const (by split <;> omega)) (by simp) (hconst _ ?_) _)
          (Loader.verify_cons_of_ok hexecute rfl))))
  · unfold pool
    split <;> simp
  · unfold pool
    split <;> simp

end Contains

end Target
end MicroBlock
