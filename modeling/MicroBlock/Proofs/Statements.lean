import Mathlib
import MicroBlock.Proofs.Emission

/-! The statements of a block: its effects, written in program order.

When the statement of a node is written, every effect before it that has a value is in its slot, so no
effect is ever written a second time as part of a value. The stretches of code that the rollbacks guard
follow each other without overlap, and a stretch begins when all effects before its first node are stored.
In the end every node that has a slot and is not an initial value has been stored. -/

namespace MicroBlock.Emission
open MicroBlock.Graph

variable {g : Graph} {slots : Slots} {m : Module} {P : Fragment → Prop}

/-- The emission when all effects below a node have been written. -/
def afterEffects (g : Graph) (slots : Slots) (m : Module) (id : Nat) : Emission :=
  ((List.range id).filter (isEffect g.nodes)).foldl (effect g slots) (start g m)

theorem afterEffects_zero : afterEffects g slots m 0 = start g m := rfl

theorem afterEffects_succ (id : Nat) :
    afterEffects g slots m (id + 1) =
      if isEffect g.nodes id then effect g slots (afterEffects g slots m id) id else afterEffects g slots m id := by
  rw [afterEffects, List.range_succ, List.filter_append, List.foldl_append, List.filter_singleton]
  split <;> simp_all [afterEffects]

theorem foldl_effects (hg : g.Valid P) :
    g.effects.foldl (effect g slots) (start g m) = afterEffects g slots m g.nodes.size := by
  rw [← Array.foldl_toList, hg.effects]
  rfl

theorem storedAt?_start (id : Nat) : (start g m).storedAt? id = none := by
  rw [storedAt?, start, Array.getElem?_replicate]
  split <;> rfl

section Growth
variable (hw : WellFormed g.nodes P) (hs : slots.Sound g)
include hw hs

theorem grows_afterEffects (m : Module) (id : Nat) :
    Grows slots.units id (start g m) (afterEffects g slots m id) ∧
      Grows slots.units (id + 1) (afterEffects g slots m id) (afterEffects g slots m (id + 1)) := by
  have hstep : ∀ id, Grows slots.units id (start g m) (afterEffects g slots m id) →
      Grows slots.units (id + 1) (afterEffects g slots m id) (afterEffects g slots m (id + 1)) := by
    intro id h
    rw [afterEffects_succ]
    split
    · refine grows_effect hw hs ?_
      cases hk : (afterEffects g slots m id).storedAt? id with
      | none => rfl
      | some k =>
        rcases h.fresh hk with hk | ⟨hlt, -⟩
        · rw [storedAt?_start] at hk
          cases hk
        · exact absurd hlt (lt_irrefl id)
    · exact .refl _ _ _
  induction id with
  | zero => exact ⟨.refl _ _ _, hstep 0 (.refl _ _ _)⟩
  | succ id ih =>
    have h := (ih.1.mono (Nat.le_succ id)).trans ih.2
    exact ⟨h, hstep (id + 1) h⟩

theorem grows_afterEffects_le (m : Module) {id id' : Nat} (h : id ≤ id') :
    Grows slots.units id' (afterEffects g slots m id) (afterEffects g slots m id') := by
  induction id', h using Nat.le_induction with
  | base => exact .refl _ _ _
  | succ id' _ ih => exact (ih.mono (Nat.le_succ id')).trans (grows_afterEffects hw hs m id').2

theorem lt_of_storedAt?_afterEffects {id j k : Nat} (h : (afterEffects g slots m id).storedAt? j = some k) : j < id := by
  rcases (grows_afterEffects hw hs m id).1.fresh h with h | ⟨hlt, -⟩
  · rw [storedAt?_start] at h
    cases h
  · exact hlt

end Growth

/-! ### Effects are stored -/

/-- Every effect below a node that has a value is stored. -/
def Ready (g : Graph) (id : Nat) (s : Emission) : Prop :=
  ∀ j < id, ∀ n, g.nodes[j]? = some n → n.hasEffect = true → n.element.kind ≠ .void → ∃ k, s.storedAt? j = some k

theorem Ready.grows {id units bound : Nat} {s s' : Emission} (h : Ready g id s) (hgrow : Grows units bound s s') :
    Ready g id s' := by
  intro j hj n hn he hk
  obtain ⟨k, hk⟩ := h j hj n hn he hk
  exact ⟨k, hgrow.kept hk⟩

theorem Ready.mono {id id' : Nat} {s : Emission} (h : Ready g id s) (hle : id' ≤ id) : Ready g id' s :=
  fun j hj => h j (hj.trans_le hle)

/-- A node with a value that is not stored has no effect. -/
theorem Ready.hasEffect_eq_false {id : Nat} {s : Emission} (h : Ready g (id + 1) s) {e : Element}
    (hh : Holds g.nodes id e) {n : Node} (hn : g.nodes[id]? = some n) (hnone : s.storedAt? id = none) :
    n.hasEffect = false := by
  cases he : n.hasEffect with
  | false => rfl
  | true =>
    obtain ⟨n', hn', rfl, hor⟩ := hh
    rw [hn, Option.some.injEq] at hn'
    subst hn'
    rcases hor with ho | hk
    · simp [Node.hasEffect, ho] at he
    · obtain ⟨k, hk⟩ := h id (Nat.lt_succ_self id) n hn he hk
      rw [hnone] at hk
      cases hk

theorem storedAt?_keep {s : Emission} {id u : Nat} (hu : slots.of? id = some u)
    (hsize : id < s.stored.size) (n : Node) (statement : Bool) :
    ∃ k, (keep slots id n statement s).storedAt? id = some k := by
  simp only [keep, hu]
  rw [storedAt?_set]
  refine ⟨_, if_pos ⟨rfl, ?_⟩⟩
  cases statement <;> exact hsize

theorem ready_afterEffects [Fragment.Writable P] (hw : WellFormed g.nodes P) (hs : slots.Sound g)
    (hkeep : slots.KeepsEffects g) (m : Module) (id : Nat) : Ready g id (afterEffects g slots m id) := by
  induction id with
  | zero => exact nofun
  | succ id ih =>
    have hgrow := (grows_afterEffects hw hs m id).2
    intro j hj n hn he hk
    rcases Nat.lt_succ_iff_lt_or_eq.mp hj with hlt | rfl
    · exact ih.grows hgrow j hlt n hn he hk
    · obtain ⟨o, ho⟩ : ∃ o, n.origin = some o := by
        cases ho : n.origin with
        | none => simp [Node.hasEffect, ho] at he
        | some o => exact ⟨o, rfl⟩
      have hm := Fragment.Writable.materializable (hw.fragment hn ho) (hw.element hn ho ▸ hk)
      obtain ⟨u, hu⟩ := hkeep j n hn he (by rwa [hw.element hn ho])
      have hsteps := grows_steps (grows_input hw hs hn j) o (afterEffects g slots m j)
      have heff : afterEffects g slots m (j + 1) =
          keep slots j n true (steps n o (value g slots j) (afterEffects g slots m j)) := by
        rw [afterEffects_succ, if_pos (by simp [isEffect, hn, he])]
        simp only [effect, hn, ho]
      rw [heff]
      refine storedAt?_keep hu ?_ n true
      rw [hsteps.storedSize, (grows_afterEffects hw hs m j).1.storedSize]
      simpa [start] using (Array.getElem?_eq_some_iff.mp hn).1

/-! ### Guarded stretches -/

@[simp] theorem extents_emit (s : Emission) (i : Instr) : (s.emit i).extents = s.extents := rfl

theorem extents_pushInt (s : Emission) (v : Int) : (s.pushInt v).extents = s.extents := by
  simp only [pushInt]
  split <;> rfl

theorem extents_load (s : Emission) (id : Nat) (n : Node) : (s.load slots id n).extents = s.extents := by
  unfold load
  split <;> rfl

theorem extents_keep (s : Emission) (id : Nat) (n : Node) (statement : Bool) :
    (keep slots id n statement s).extents = s.extents := by
  unfold keep
  split
  · cases statement <;> rfl
  · split <;> rfl

theorem extents_step {n : Node} (hf : n.canFault = false) {input : Nat → Emission → Emission} {s : Emission}
    (hin : ∀ i ∈ n.inputs, (input i s).extents = s.extents) (st : Step) :
    (step n input s st).extents = s.extents := by
  cases st with
  | input i =>
    simp only [step]
    split
    · next id h =>
      split at h
      · cases h
      · exact hin id (List.mem_of_getElem? h)
    · rfl
  | literal l => exact extents_pushInt s _
  | call h =>
    simp only [step, hf]
    rfl
  | dup | pop | unknown k => rfl

theorem canFault_eq_false {n : Node} (h : n.hasEffect = false) : n.canFault = false := by
  cases ho : n.origin with
  | none => simp [Node.canFault, ho]
  | some o =>
    have hp : o.fragment.cls = .pure := by simpa [Node.hasEffect, Fragment.hasEffect, ho] using h
    simp [Node.canFault, Fragment.canFault, ho, hp]

section Extents
variable (hw : WellFormed g.nodes P) (hs : slots.Sound g)
include hw hs

/-- Writing a value guards no code, because no effect is part of it. -/
theorem extents_value {depth id : Nat} {s : Emission} (hready : Ready g (id + 1) s) {e : Element}
    (hh : Holds g.nodes id e) : (value g slots depth id s).extents = s.extents := by
  induction depth generalizing id s e with
  | zero => rfl
  | succ depth ih =>
    unfold value
    split
    · rfl
    next n hn =>
    split
    · exact extents_load s id n
    next hstored =>
    split
    · rfl
    next o ho =>
    have hnone : s.storedAt? id = none := by simpa using hstored
    have hpure := canFault_eq_false (hready.hasEffect_eq_false hh hn hnone)
    have hin := grows_input hw hs hn depth
    rw [extents_keep]
    refine (List.foldlRecOn (motive := fun s' => Grows slots.units id s s' ∧ s'.extents = s.extents)
      o.fragment.steps _ ⟨.refl slots.units id s, rfl⟩ ?_).2
    rintro s' ⟨hgrow, hext⟩ st hst
    refine ⟨hgrow.trans (grows_step hin st s'), ?_⟩
    rw [extents_step hpure (fun i hi => ?_), hext]
    obtain ⟨hlt, e', he'⟩ := hw.input_lt hn i hi
    exact ih ((hready.mono (by omega)).grows hgrow) he'

end Extents

/-- The guarded stretches lie in the code so far. A stretch begins with or after the code of a node of its
    rollback, and it ends before the code of any node that has a later rollback. -/
def Fenced (g : Graph) (pos : Nat → Nat) (id : Nat) (s : Emission) : Prop :=
  ∀ (ρ : Nat) (x : Extent), s.extents[ρ]? = some x → x.last ≤ (s.size : Int) ∧
    (0 ≤ x.first → x.first < x.last ∧
      (∃ i n, i ≤ id ∧ g.nodes[i]? = some n ∧ n.rollback = some ρ ∧ (pos i : Int) ≤ x.first) ∧
      ∀ j n ρ', j ≤ id → g.nodes[j]? = some n → n.rollback = some ρ' → ρ < ρ' → x.last ≤ (pos j : Int))

theorem Fenced.of_extents {pos : Nat → Nat} {id : Nat} {s s' : Emission} (h : Fenced g pos id s)
    (he : s'.extents = s.extents) (hsize : s.size ≤ s'.size) : Fenced g pos id s' := by
  intro ρ x hx
  rw [he] at hx
  obtain ⟨hlast, hrest⟩ := h ρ x hx
  exact ⟨hlast.trans (by exact_mod_cast hsize), hrest⟩

/-- Guarding the code of a call that was written last keeps the stretches apart, if the node is the last
    with a rollback. -/
theorem Fenced.cover {pos : Nat → Nat} {id : Nat} (ht : Tracked g.nodes g.rollbacks) {s s' : Emission}
    (h : Fenced g pos id s) (he : s'.extents = s.extents) (hsize : s.size < s'.size) (hpos : pos id ≤ s.size)
    {n : Node} (hn : g.nodes[id]? = some n) {ρ : Nat} (hρ : n.rollback = some ρ) :
    Fenced g pos id (s'.cover (some ρ) s.size) := by
  intro ρ' x hx
  simp only [Emission.cover, Array.getElem?_modify, he] at hx ⊢
  split at hx
  · next heq =>
    subst heq
    obtain ⟨y, hy, rfl⟩ := Option.map_eq_some_iff.mp hx
    obtain ⟨hlast, hrest⟩ := h ρ y hy
    rw [Extent.cover, if_neg (by omega)]
    have hlate : ∀ j n' ρ', j ≤ id → g.nodes[j]? = some n' → n'.rollback = some ρ' → ¬ ρ < ρ' :=
      fun j n' ρ' hj hn' hρ' hlt => absurd (ht.mono hn' hn hρ' hρ hj) (by omega)
    by_cases hfirst : y.first < 0
    · refine ⟨by simp only; split <;> omega, fun _ => ⟨by simp only; split <;> split <;> omega, ?_, ?_⟩⟩
      · exact ⟨id, n, le_rfl, hn, hρ, by simp only; split <;> omega⟩
      · exact fun j n' ρ' hj hn' hρ' hlt => absurd hlt (hlate j n' ρ' hj hn' hρ')
    · obtain ⟨hlt, ⟨i, n', hi, hn', hρ', hpos'⟩, -⟩ := hrest (by omega)
      refine ⟨by simp only; split <;> omega, fun _ => ⟨by simp only; split <;> split <;> omega, ?_, ?_⟩⟩
      · exact ⟨i, n', hi, hn', hρ', by simp only; split <;> omega⟩
      · exact fun j n' ρ' hj hn' hρ' hlt => absurd hlt (hlate j n' ρ' hj hn' hρ')
  · obtain ⟨hlast, hrest⟩ := h ρ' x hx
    exact ⟨by omega, hrest⟩

theorem size_lt_size_call (s : Emission) (helper : String) : s.size < (s.call helper).size := by
  rw [call_eq]
  exact Nat.lt_add_of_pos_right (Instr.size_pos _)

section Fences
variable (hg : g.Valid P) (hs : slots.Sound g)
include hg hs

theorem Fenced.step {pos : Nat → Nat} {id : Nat} {s : Emission} (h : Fenced g pos id s) (hpos : pos id ≤ s.size)
    (hready : Ready g id s) {n : Node} (hn : g.nodes[id]? = some n) (st : Step) :
    Fenced g pos id (step n (value g slots id) s st) := by
  have hw := hg.wellFormed
  have hin : ∀ i ∈ n.inputs, (value g slots id i s).extents = s.extents := fun i hi => by
    obtain ⟨hlt, e, he⟩ := hw.input_lt hn i hi
    exact extents_value hw hs (hready.mono hlt) he
  have hgrow := grows_step (grows_input hw hs hn id) st s
  cases hf : n.canFault with
  | false => exact h.of_extents (extents_step hf hin st) hgrow.size_le
  | true =>
    cases st with
    | call helper =>
      obtain ⟨ρ, hρ⟩ := hg.tracked.exists_of_canFault hn hf
      simp only [Emission.step, hf, if_true, hρ]
      have hext : (s.call helper).extents = s.extents := rfl
      exact h.cover hg.tracked hext (size_lt_size_call s helper) hpos hn hρ
    | input i =>
      refine h.of_extents ?_ hgrow.size_le
      simp only [Emission.step]
      split
      · next j hj =>
        split at hj
        · cases hj
        · exact hin j (List.mem_of_getElem? hj)
      · rfl
    | literal l => exact h.of_extents (extents_pushInt s _) hgrow.size_le
    | dup | pop | unknown k => exact h.of_extents rfl hgrow.size_le

theorem Fenced.effect {pos : Nat → Nat} {id : Nat} {s : Emission} (h : Fenced g pos id s) (hpos : pos id ≤ s.size)
    (hready : Ready g id s) : Fenced g pos id (effect g slots s id) := by
  have hw := hg.wellFormed
  unfold Emission.effect
  split
  · next n hn =>
    split
    · next o ho =>
      have hin := grows_input hw hs hn id
      have hsteps : Fenced g pos id (steps n o (value g slots id) s) := by
        refine (List.foldlRecOn (motive := fun s' => Grows slots.units id s s' ∧ Fenced g pos id s')
          o.fragment.steps _ ⟨.refl slots.units id s, h⟩ ?_).2
        rintro s' ⟨hgrow, hfence⟩ st hst
        exact ⟨hgrow.trans (grows_step hin st s'),
          hfence.step hg hs (hpos.trans hgrow.size_le) (hready.grows hgrow) hn st⟩
      refine hsteps.of_extents (extents_keep _ id n true) ?_
      unfold keep
      split
      · exact Nat.le_add_right _ _
      · split
        · exact Nat.le_add_right _ _
        · exact le_rfl
    · exact h
  · exact h

theorem fenced_afterEffects [Fragment.Writable P] (hkeep : slots.KeepsEffects g) (m : Module) (id : Nat) :
    Fenced g (fun i => (afterEffects g slots m i).size) id (afterEffects g slots m id) := by
  induction id with
  | zero =>
    intro ρ x hx
    have hx' : x = {} := by
      simp only [afterEffects_zero, start, Array.getElem?_replicate] at hx
      split at hx
      · exact (Option.some.inj hx).symm
      · cases hx
    subst hx'
    exact ⟨by simp, by simp⟩
  | succ id ih =>
    have hbefore : Fenced g (fun i => (afterEffects g slots m i).size) id (afterEffects g slots m (id + 1)) := by
      rw [afterEffects_succ]
      split
      · exact ih.effect hg hs le_rfl (ready_afterEffects hg.wellFormed hs hkeep m id)
      · exact ih
    intro ρ x hx
    obtain ⟨hlast, hrest⟩ := hbefore ρ x hx
    refine ⟨hlast, fun hfirst => ?_⟩
    obtain ⟨hlt, ⟨i, n, hi, hn, hρ, hpos⟩, hlate⟩ := hrest hfirst
    refine ⟨hlt, ⟨i, n, by omega, hn, hρ, hpos⟩, fun j n' ρ' hj hn' hρ' hρρ' => ?_⟩
    rcases Nat.lt_or_eq_of_le hj with hj | rfl
    · exact hlate j n' ρ' (Nat.lt_succ_iff.mp hj) hn' hρ' hρρ'
    · exact hlast

end Fences

/-- Fenced stretches do not overlap. -/
theorem Fenced.covers_unique {pos : Nat → Nat} {id : Nat} {s : Emission} (h : Fenced g pos id s) {ρ ρ' pc : Nat}
    (hc : s.Covers ρ pc) (hc' : s.Covers ρ' pc) : ρ = ρ' := by
  have key : ∀ {ρ ρ' : Nat}, s.Covers ρ pc → s.Covers ρ' pc → ¬ ρ < ρ' := by
    rintro ρ ρ' ⟨x, hx, h0, h1, h2⟩ ⟨x', hx', h0', h1', h2'⟩ hlt
    obtain ⟨-, -, hlate⟩ := (h ρ x hx).2 h0
    obtain ⟨-, ⟨i, n, hi, hn, hρ, hpos⟩, -⟩ := (h ρ' x' hx').2 h0'
    have := hlate i n ρ' hi hn hρ hlt
    omega
  exact Nat.le_antisymm (Nat.le_of_not_lt (key hc' hc)) (Nat.le_of_not_lt (key hc hc'))

/-! ### Every slot is filled -/

/-- A node and all that it is made of have been written: what has a slot is stored, initial values apart. -/
inductive Written (g : Graph) (slots : Slots) (s : Emission) : Nat → Prop
  | node {id : Nat} {n : Node} (hn : g.nodes[id]? = some n)
    (hslot : ∀ u, n.origin ≠ none → slots.of? id = some u → ∃ k, s.storedAt? id = some k)
    (hin : ∀ i ∈ n.inputs, Written g slots s i) : Written g slots s id

theorem Written.grows {units bound id : Nat} {s s' : Emission} (h : Written g slots s id)
    (hgrow : Grows units bound s s') : Written g slots s' id := by
  induction h with
  | node hn hslot _ ih =>
    refine .node hn (fun u ho hu => ?_) ih
    obtain ⟨k, hk⟩ := hslot u ho hu
    exact ⟨k, hgrow.kept hk⟩

/-- All that is stored has been written. -/
structure Closed (g : Graph) (slots : Slots) (s : Emission) : Prop where
  size : s.stored.size = g.nodes.size
  written : ∀ id k, s.storedAt? id = some k → Written g slots s id

theorem Closed.of_stored {units bound : Nat} {s s' : Emission} (hc : Closed g slots s)
    (hgrow : Grows units bound s s') (hst : s'.stored = s.stored) : Closed g slots s' where
  size := by rw [hst, hc.size]
  written j k hj := by
    rw [storedAt?, hst] at hj
    exact (hc.written j k hj).grows hgrow

theorem stored_pushInt (s : Emission) (v : Int) : (s.pushInt v).stored = s.stored := by
  simp only [pushInt]
  split <;> rfl

theorem stored_step_call (n : Node) (input : Nat → Emission → Emission) (s : Emission) (helper : String) :
    (step n input s (.call helper)).stored = s.stored := by
  obtain ⟨extents, h⟩ := exists_step_call n input s helper
  rw [h]
  rfl

theorem stored_load (s : Emission) (id : Nat) (n : Node) : (s.load slots id n).stored = s.stored := by
  unfold load
  split <;> rfl

section Coverage
variable (hw : WellFormed g.nodes) (hs : slots.Sound g)
include hw hs

omit hs in
/-- The steps of a fragment write all of its inputs. -/
theorem written_steps {bound : Nat} {id : Nat} {n : Node} {o : Origin} (hn : g.nodes[id]? = some n)
    (ho : n.origin = some o) {input : Nat → Emission → Emission}
    (hgrow : ∀ i ∈ n.inputs, ∀ s, Grows slots.units bound s (input i s))
    (hwrite : ∀ i ∈ n.inputs, ∀ s, Closed g slots s → Closed g slots (input i s) ∧ Written g slots (input i s) i)
    {s : Emission} (hc : Closed g slots s) :
    Closed g slots (steps n o input s) ∧ ∀ i ∈ n.inputs, Written g slots (steps n o input s) i := by
  have hf := hw.fragment hn ho
  -- Inputs are written when their step comes, and stay written.
  have key : ∀ ss : List Step, (∀ st ∈ ss, st ∈ o.fragment.steps) → ∀ s, Closed g slots s →
      Closed g slots (ss.foldl (step n input) s) ∧
        ∀ j i, .input (j : Nat) ∈ ss → n.inputs[j]? = some i → Written g slots (ss.foldl (step n input) s) i := by
    intro ss
    induction ss with
    | nil => exact fun _ s hc => ⟨hc, fun _ _ h => absurd h List.not_mem_nil⟩
    | cons st ss ih =>
      intro hss s hc
      have hst := hss st List.mem_cons_self
      have hstep := grows_step hgrow st s
      have hc' : Closed g slots (step n input s st) ∧
          ∀ j i, st = .input (j : Nat) → n.inputs[j]? = some i → Written g slots (step n input s st) i := by
        cases st with
        | input z =>
          simp only [step]
          split
          · next i hi =>
            split at hi
            · cases hi
            · obtain ⟨h₁, h₂⟩ := hwrite i (List.mem_of_getElem? hi) s hc
              refine ⟨h₁, fun j i' hj hi' => ?_⟩
              cases hj
              rw [Int.toNat_natCast, hi', Option.some.injEq] at hi
              exact hi ▸ h₂
          · next hi =>
            refine ⟨hc, fun j i' hj hi' => ?_⟩
            cases hj
            simp [hi'] at hi
        | literal l => exact ⟨hc.of_stored hstep (stored_pushInt s _), fun _ _ h => by cases h⟩
        | call h => exact ⟨hc.of_stored hstep (stored_step_call n input s h), fun _ _ h => by cases h⟩
        | dup | pop | unknown k => exact ⟨hc.of_stored hstep rfl, fun _ _ h => by cases h⟩
      obtain ⟨hclosed, hmem⟩ := ih (fun st' h => hss st' (List.mem_cons_of_mem st h)) (step n input s st) hc'.1
      refine ⟨hclosed, fun j i hj hi => ?_⟩
      rcases List.mem_cons.mp hj with hj | hj
      · exact (hc'.2 j i hj.symm hi).grows
          (Grows.foldl (fun st' h => grows_step hgrow st') _)
      · exact hmem j i hj hi
  obtain ⟨hclosed, hmem⟩ := key o.fragment.steps (fun _ h => h) s hc
  refine ⟨hclosed, fun i hi => ?_⟩
  obtain ⟨j, hj, rfl⟩ := List.mem_iff_getElem.mp hi
  have hj' : j < o.fragment.inputs.length := (hw.inputs hn ho).length_eq ▸ hj
  exact hmem j _ (Fragment.input_mem_steps hf hj') (List.getElem?_eq_getElem hj)

omit hw in
theorem written_keep {id : Nat} {n : Node} {s : Emission} (hn : g.nodes[id]? = some n)
    (hnone : s.storedAt? id = none) (statement : Bool) (hc : Closed g slots s)
    (hin : ∀ i ∈ n.inputs, Written g slots s i) :
    Closed g slots (keep slots id n statement s) ∧ Written g slots (keep slots id n statement s) id := by
  have hgrow := grows_keep hs (Nat.lt_succ_self id) hnone n statement
  have hwritten : Written g slots (keep slots id n statement s) id := by
    refine .node hn (fun u _ hu => ?_) fun i hi => (hin i hi).grows hgrow
    exact storedAt?_keep hu (hc.size ▸ (Array.getElem?_eq_some_iff.mp hn).1) n statement
  refine ⟨⟨hgrow.storedSize.trans hc.size, fun j k hj => ?_⟩, hwritten⟩
  by_cases hji : j = id
  · exact hji ▸ hwritten
  · refine (hc.written j k ?_).grows hgrow
    unfold keep at hj
    split at hj
    · rw [storedAt?_set, if_neg fun h => hji h.1.symm] at hj
      cases statement <;> exact hj
    · split at hj <;> exact hj

/-- Writing a value writes all that the value is made of. -/
theorem written_value {depth id : Nat} (hd : id < depth) {s : Emission} (hc : Closed g slots s)
    (hlt : id < g.nodes.size) :
    Closed g slots (value g slots depth id s) ∧ Written g slots (value g slots depth id s) id := by
  induction depth generalizing id s with
  | zero => omega
  | succ depth ih =>
    have hn := Array.getElem?_eq_getElem hlt
    generalize g.nodes[id] = n at hn
    have hgrow := grows_value hw hs (depth + 1) id s
    simp only [value, hn] at hgrow ⊢
    split at hgrow
    · next hstored =>
      obtain ⟨k, hk⟩ := Option.isSome_iff_exists.mp hstored
      rw [if_pos hstored]
      exact ⟨hc.of_stored hgrow (stored_load s id n), (hc.written id k hk).grows hgrow⟩
    next hstored =>
    rw [if_neg hstored]
    cases ho : n.origin with
    | none =>
      simp only [ho] at hgrow ⊢
      obtain ⟨e, rfl, rfl⟩ := hw.leaf hn ho
      exact ⟨hc.of_stored hgrow rfl, .node hn (fun u h => absurd rfl h) fun _ h => absurd h List.not_mem_nil⟩
    | some o =>
      have hin := hw.input_lt hn
      have hgin := grows_input hw hs hn depth
      have hwin : ∀ i ∈ n.inputs, ∀ s, Closed g slots s →
          Closed g slots (value g slots depth i s) ∧ Written g slots (value g slots depth i s) i :=
        fun i hi s hc => ih (by have := (hin i hi).1; omega) hc ((hin i hi).1.trans hlt)
      obtain ⟨hclosed, hinputs⟩ := written_steps hw hn ho hgin hwin hc
      refine written_keep hs hn ?_ false hclosed hinputs
      exact storedAt?_steps_eq_none hgin o (by simpa using hstored)

theorem written_effect {id : Nat} {s : Emission} (hc : Closed g slots s) (hnone : s.storedAt? id = none)
    (he : isEffect g.nodes id = true) :
    Closed g slots (effect g slots s id) ∧ Written g slots (effect g slots s id) id := by
  obtain ⟨n, hn, o, ho⟩ : ∃ n, g.nodes[id]? = some n ∧ ∃ o, n.origin = some o := by
    cases hn : g.nodes[id]? with
    | none => simp [isEffect, hn] at he
    | some n =>
      cases ho : n.origin with
      | none => simp [isEffect, Node.hasEffect, hn, ho] at he
      | some o => exact ⟨n, rfl, o, ho⟩
  have hin := hw.input_lt hn
  have hgin := grows_input hw hs hn id
  have hlt := (Array.getElem?_eq_some_iff.mp hn).1
  obtain ⟨hclosed, hinputs⟩ := written_steps hw hn ho hgin
    (fun i hi s hc => written_value hw hs (hin i hi).1 hc ((hin i hi).1.trans hlt)) hc
  simp only [effect, hn, ho]
  exact written_keep hs hn (storedAt?_steps_eq_none hgin o hnone) true hclosed hinputs

theorem written_afterEffects (m : Module) (id : Nat) :
    Closed g slots (afterEffects g slots m id) ∧
      ∀ j < id, isEffect g.nodes j = true → Written g slots (afterEffects g slots m id) j := by
  induction id with
  | zero =>
    refine ⟨⟨by simp [afterEffects_zero, start], fun j k hj => ?_⟩, nofun⟩
    rw [afterEffects_zero, storedAt?_start] at hj
    cases hj
  | succ id ih =>
    obtain ⟨hc, hj⟩ := ih
    have hgrow := (grows_afterEffects hw hs m id).2
    have hnone : (afterEffects g slots m id).storedAt? id = none := by
      cases hk : (afterEffects g slots m id).storedAt? id with
      | none => rfl
      | some k => exact absurd (lt_of_storedAt?_afterEffects hw hs hk) (lt_irrefl id)
    have hold : ∀ j < id, isEffect g.nodes j = true → Written g slots (afterEffects g slots m (id + 1)) j :=
      fun j hlt he => (hj j hlt he).grows hgrow
    rw [afterEffects_succ] at hold ⊢
    split
    · next he =>
      obtain ⟨hc', hid⟩ := written_effect hw hs hc hnone he
      refine ⟨hc', fun j hlt hej => ?_⟩
      rcases Nat.lt_succ_iff_lt_or_eq.mp hlt with hlt | rfl
      · rw [if_pos he] at hold
        exact hold j hlt hej
      · exact hid
    · next he =>
      refine ⟨hc, fun j hlt hej => ?_⟩
      rcases Nat.lt_succ_iff_lt_or_eq.mp hlt with hlt | rfl
      · exact hj j hlt hej
      · exact absurd hej he

end Coverage

/-- The emission when the statements and the values of the changed registers have been written. -/
def afterValues (g : Graph) (slots : Slots) (m : Module) (rs : List Register) : Emission :=
  rs.foldl (fun s r => value g slots (g.final.get (.reg r) + 1) (g.final.get (.reg r)) s)
    (afterEffects g slots m g.nodes.size)

theorem grows_afterValues (hg : g.Valid P) (hs : slots.Sound g) (m : Module) (rs : List Register) :
    Grows slots.units g.nodes.size (afterEffects g slots m g.nodes.size) (afterValues g slots m rs) :=
  Grows.foldl (fun r _ s => (grows_value hg.wellFormed hs _ _ s).mono (hg.final (.reg r)).lt) _

section Values
variable (hg : g.Valid) (hs : slots.Sound g)
include hg hs

theorem written_afterValues (m : Module) (rs : List Register) :
    Closed g slots (afterValues g slots m rs) ∧
      ∀ r ∈ rs, Written g slots (afterValues g slots m rs) (g.final.get (.reg r)) := by
  induction rs using List.reverseRecOn with
  | nil => exact ⟨(written_afterEffects hg.wellFormed hs m g.nodes.size).1, nofun⟩
  | append_singleton rs r ih =>
    obtain ⟨hc, hrs⟩ := ih
    have hstep : afterValues g slots m (rs ++ [r]) =
        value g slots (g.final.get (.reg r) + 1) (g.final.get (.reg r)) (afterValues g slots m rs) := by
      rw [afterValues, List.foldl_append]
      rfl
    rw [hstep]
    obtain ⟨hc', hr⟩ := written_value hg.wellFormed hs (Nat.lt_succ_self _) hc (hg.final (.reg r)).lt
    refine ⟨hc', fun r' hr' => ?_⟩
    rcases List.mem_append.mp hr' with hr' | hr'
    · exact (hrs r' hr').grows (grows_value hg.wellFormed hs _ _ _)
    · rw [List.mem_singleton] at hr'
      exact hr' ▸ hr

theorem written_of_reachable (m : Module) {id : Nat} (h : Reachable g id) :
    Written g slots (afterValues g slots m g.changed) id := by
  induction h with
  | root h =>
    rcases List.mem_append.mp h with h | h
    · rw [hg.effects] at h
      obtain ⟨hlt, he⟩ := List.mem_filter.mp h
      exact ((written_afterEffects hg.wellFormed hs m _).2 _ (List.mem_range.mp hlt) he).grows
        (grows_afterValues hg hs m g.changed)
    · obtain ⟨r, hr, rfl⟩ := List.mem_map.mp h
      exact (written_afterValues hg hs m g.changed).2 r hr
  | input _ hi ih =>
    obtain ⟨n, hn, hin⟩ := mem_inputs.mp hi
    cases ih with
    | node hn' _ hwritten =>
      rw [hn, Option.some.injEq] at hn'
      exact hwritten _ (hn' ▸ hin)

/-- A block has no more slots than its code can fill. -/
theorem units_le {m : Module} {bound : Nat} {s : Emission}
    (hgrow : Grows slots.units bound (afterValues g slots m g.changed) s) :
    slots.units ≤ 2 * (s.code.length + Element.count) := by
  have hsub : slots.holders g ⊆ s.storedIds ∪ Finset.range Element.count := by
    intro id hid
    obtain ⟨-, hu⟩ := Finset.mem_filter.mp hid
    obtain ⟨u, hu⟩ := Option.isSome_iff_exists.mp hu
    obtain ⟨hn, hslot, -⟩ := written_of_reachable hg hs m (hs.reachable hu)
    next n =>
    cases ho : n.origin with
    | none =>
      obtain ⟨e, rfl, -⟩ := hg.wellFormed.leaf hn ho
      exact Finset.mem_union_right _ (Finset.mem_range.mpr e.number_lt)
    | some o =>
      obtain ⟨k, hk⟩ := hslot u (by simp [ho]) hu
      have hk' := hgrow.kept hk
      refine Finset.mem_union_left _ (Finset.mem_filter.mpr ⟨Finset.mem_range.mpr ?_, by simp [hk']⟩)
      by_contra hlt
      simp [storedAt?, hlt] at hk'
  have hcard := (Finset.card_le_card hsub).trans (Finset.card_union_le _ _)
  rw [Finset.card_range] at hcard
  have hstores := hgrow.stores
  have hvalues := (grows_afterValues hg hs m g.changed).stores
  have heffects := (grows_afterEffects hg.wellFormed hs m g.nodes.size).1.stores
  have hstart : (start g m).storedIds.card = 0 := by simp [storedIds, storedAt?_start]
  have hcode : (start g m).code.length = 0 := rfl
  have := hs.units_le
  omega

end Values

end MicroBlock.Emission
