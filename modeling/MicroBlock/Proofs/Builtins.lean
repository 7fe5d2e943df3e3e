import Mathlib
import MicroBlock.Helper.Builtin
import MicroBlock.Proofs.Registers

/-! What the built-in helpers can do. Every helper leaves the registers alone. A pure helper always
gives a value, which depends on its arguments only, and leaves the whole machine alone; an effect on
the processor it was handed either happens or raises a fault. -/

namespace MicroBlock

/-! ### Lookup -/

theorem find?_key_eq {α κ : Type} [DecidableEq κ] {f : α → κ} {l : List α} (hl : (l.map f).Nodup) {a : α}
    (ha : a ∈ l) : l.find? (fun x => f x == f a) = some a := by
  induction l with
  | nil => cases ha
  | cons x l ih =>
    simp only [List.map_cons, List.nodup_cons] at hl
    rcases List.mem_cons.mp ha with rfl | ha
    · simp
    · have hne : f x ≠ f a := fun h => hl.1 (h ▸ List.mem_map_of_mem ha)
      rw [List.find?_cons_of_neg (by simpa using hne)]
      exact ih hl.2 ha

theorem toList_loop_eq (bs : ByteArray) (i : Nat) (r : List UInt8) :
    ByteArray.toList.loop bs i r = r.reverse ++ bs.data.toList.drop i := by
  fun_induction ByteArray.toList.loop bs i r with
  | case1 i r h ih =>
    have hi : i < bs.data.toList.length := h
    have hget : bs.get! i = bs.data.toList[i] := getElem!_pos bs.data i h
    rw [ih, List.drop_eq_getElem_cons hi, hget]
    simp
  | case2 i r h =>
    have hi : bs.data.toList.length ≤ i := Nat.le_of_not_lt h
    simp [List.drop_eq_nil_of_le hi]

theorem ByteString.ofString_inj {a b : String} (h : ofString a = ofString b) : a = b := by
  simp only [ofString, ByteString.mk.injEq, ByteArray.toList, toList_loop_eq] at h
  exact String.toByteArray_inj.mp (ByteArray.ext (Array.toList_inj.mp (by simpa using h)))

namespace Builtin

theorem mem_all (b : Builtin) : b ∈ all := by
  cases b with
  | read w | write w => cases w <;> decide
  | realSegment s | protectedSegment s => cases s <;> decide
  | portIn w c | portOut w c => cases w <;> cases c <;> decide
  | route m => cases m <;> decide
  | _ => decide

theorem nodup_names : (all.map name).Nodup := by decide

theorem name_inj {a b : Builtin} (h : a.name = b.name) : a = b :=
  List.inj_on_of_nodup_map nodup_names (mem_all a) (mem_all b) h

theorem lookup_name (b : Builtin) : Registry.builtin.lookup b.name = some b.helper := by
  have hnd : (Registry.builtin.helpers.map Helper.name).Nodup := by
    rw [Registry.builtin, List.map_map]
    exact nodup_names
  exact find?_key_eq hnd (List.mem_map_of_mem (mem_all b))

theorem arguments?_eq_some {b : Builtin} {stack args rest : List Value}
    (h : b.helper.arguments? stack = some (args, rest)) :
    b.arity.toNat ≤ stack.length ∧ args = (stack.take b.arity.toNat).reverse ∧ rest = stack.drop b.arity.toNat := by
  unfold Helper.arguments? at h
  split at h
  · next hle =>
    cases h
    have : b.helper.arity = b.arity := rfl
    exact ⟨by omega, rfl, rfl⟩
  · cases h

/-! ### Pure helpers -/

/-- Whether a helper computes a value from its arguments and does nothing else. -/
def isPure : Builtin → Bool
  | divq32 | divr32 | retire | read _ | write _ | protectedSegment _ | portIn _ _ | portOut _ _
  | ifChecked | route _ => false
  | _ => true

theorem exists_body_of_isPure {b : Builtin} (hb : b.isPure = true) {args : List Value}
    (hlen : args.length = b.arity.toNat) : ∃ v, ∀ m, b.body args m = .ok (v, m) := by
  cases b with
  | not32 | neg32 | inc32 | dec32 | sext8 | sext16 | mask8 | mask16 | hi8 | lo32 | hi32
  | pf | ofInc | ofDec | afInc | afDec | not1 | nonzero | realSegment _ =>
    obtain ⟨x, rfl⟩ := List.length_eq_one_iff.mp hlen
    exact ⟨_, fun _ => rfl⟩
  | selector =>
    obtain ⟨x, rfl⟩ := List.length_eq_one_iff.mp hlen
    refine ⟨x.segment?.elim .zero fun s => .ofUInt32 s.selector.toUInt32, fun m => ?_⟩
    show selectorBody [x] m = _
    unfold selectorBody
    simp only [arg, List.getElem?_cons_zero, bind, Except.bind]
    cases x.segment? <;> rfl
  | add32 | sub32 | and32 | or32 | xor32 | shl32 | shr32 | sar32 | merge16 | merge8lo | merge8hi
  | mul64u | concat64 | zf | sf =>
    obtain ⟨x, y, rfl⟩ := List.length_eq_two.mp hlen
    exact ⟨_, fun _ => rfl⟩
  | cfAdd | cfSub | ofAdd | ofSub | afAdd | afSub =>
    obtain ⟨x, y, z, rfl⟩ := List.length_eq_three.mp hlen
    exact ⟨_, fun _ => rfl⟩
  | branch =>
    obtain ⟨x, y, z, rfl⟩ := List.length_eq_three.mp hlen
    refine ⟨if x.toUInt32 != 0 then z else y, fun m => ?_⟩
    show branchBody [x, y, z] m = _
    unfold branchBody
    simp only [word, arg, List.getElem?_cons_zero, List.getElem?_cons_succ, Except.map, bind, Except.bind]
    cases x.toUInt32 != 0 <;> rfl
  | divq32 | divr32 | retire | read _ | write _ | protectedSegment _ | portIn _ _ | portOut _ _
  | ifChecked | route _ => simp [isPure] at hb

/-! ### Calls that return -/

theorem exists_of_bind {α β : Type} {x : Except Failure α} {f : α → Except Failure β} {b : β}
    (h : (x >>= f) = .ok b) : ∃ a, x = .ok a ∧ f a = .ok b := by
  cases x with
  | error e => cases h
  | ok a => exact ⟨a, rfl, h⟩

theorem getElem?_of_arg {args : List Value} {i : Nat} {v : Value} (h : arg args i = .ok v) : args[i]? = some v := by
  unfold arg at h
  split at h
  · next v' hv =>
    cases h
    exact hv
  · cases h

theorem exists_of_word {args : List Value} {i : Nat} {w : UInt32} (h : word args i = .ok w) :
    ∃ v, args[i]? = some v ∧ v.toUInt32 = w := by
  unfold word at h
  cases hv : arg args i with
  | error e =>
    rw [hv] at h
    cases h
  | ok v =>
    rw [hv] at h
    cases h
    exact ⟨v, getElem?_of_arg hv, rfl⟩

theorem eq_of_ofFault {α : Type} {x : Except Fault α} {a : α} (h : ofFault x = .ok a) : x = .ok a := by
  cases x with
  | error f => cases h
  | ok b =>
    cases h
    rfl

/-! ### What a call does to the machine -/

/-- What a call that succeeds can have made of the machine. -/
inductive Touches (m : Machine) : Builtin → Machine → Prop where
  | nothing (b : Builtin) : Touches m b m
  | retired (n : UInt64) : Touches m .retire { m with retired := n }
  | memory (w : Width) (memory : Memory) : Touches m (.write w) { m with memory }
  | input (w : PortWidth) (checked : Bool) (p : Ports) : Touches m (.portIn w checked) { m with ports := some p }
  | output (w : PortWidth) (checked : Bool) (p : Ports) : Touches m (.portOut w checked) { m with ports := some p }
  | delivered (mode : Mode) (ds : List Delivery) : Touches m (.route mode) { m with delivered := ds }

/-- No call writes a register or changes the router. -/
theorem Touches.sameFront {b : Builtin} {m m' : Machine} (h : Touches m b m') : m'.SameFront m := by
  cases h with
  | nothing => exact .refl m
  | retired | memory | input | output | delivered => exact .of_eq rfl rfl rfl rfl rfl rfl rfl

/-- A result that a call of a helper on `m` can have. -/
def Leaves (b : Builtin) (m : Machine) (x : Except Failure (Value × Machine)) : Prop :=
  ∀ v m', x = .ok (v, m') → Touches m b m'

section Leaves
variable {b : Builtin} {m : Machine}

theorem Leaves.bind {α : Type} {x : Except Failure α} {f : α → Except Failure (Value × Machine)}
    (h : ∀ a, Leaves b m (f a)) : Leaves b m (x >>= f) := by
  cases x with
  | error e => intro v m' hx; cases hx
  | ok a => exact h a

theorem Leaves.ok {m' : Machine} {v : Value} (h : Touches m b m') : Leaves b m (.ok (v, m')) := by
  rintro _ _ ⟨⟩
  exact h

theorem Leaves.same {v : Value} : Leaves b m (.ok (v, m)) := .ok (.nothing b)

theorem Leaves.error {e : Failure} : Leaves b m (.error e) := nofun

end Leaves

theorem route_touches {m m' : Machine} {mode : Mode} {f : Option Fault} (h : m.route mode f = .ok m') :
    Touches m (.route mode) m' := by
  unfold Machine.route at h
  split at h
  · cases h
    exact .nothing _
  · cases h
    exact .delivered mode _
  · split at h <;> cases h

theorem body_touches (b : Builtin) (args : List Value) (m : Machine) : Leaves b m (b.body args m) := by
  cases b with
  | not32 | neg32 | inc32 | dec32 | sext8 | sext16 | mask8 | mask16 | hi8 | lo32 | hi32
  | pf | ofInc | ofDec | afInc | afDec | not1 | nonzero | realSegment _ =>
    exact .bind fun _ => .same
  | add32 | sub32 | and32 | or32 | xor32 | shl32 | shr32 | sar32 | merge16 | merge8lo | merge8hi
  | mul64u | concat64 | zf | sf =>
    exact .bind fun _ => .bind fun _ => .same
  | cfAdd | cfSub | ofAdd | ofSub | afAdd | afSub | divq32 | divr32 | protectedSegment _ =>
    exact .bind fun _ => .bind fun _ => .bind fun _ => .same
  | ifChecked =>
    exact .bind fun _ => .bind fun _ => .bind fun _ => .bind fun _ => .same
  | selector => exact .bind fun x => by cases x.segment? <;> exact .same
  | branch =>
    refine .bind fun x => ?_
    split <;> exact .bind fun _ => .same
  | retire => exact .bind fun _ => .ok (.retired _)
  | read w => exact .bind fun _ => .bind fun _ => .bind fun _ => .bind fun _ => .bind fun _ => .same
  | write w =>
    exact .bind fun _ => .bind fun _ => .bind fun _ => .bind fun _ => .bind fun _ => .bind fun _ => .ok (.memory w _)
  | portIn w checked =>
    refine .bind fun _ => ?_
    cases m.ports with
    | none =>
      cases checked
      · exact .same
      · exact .bind fun _ => .bind fun _ => .bind fun _ => .same
    | some p =>
      cases checked
      · exact .bind fun _ => .ok (.input w false _)
      · exact .bind fun _ => .bind fun _ => .bind fun _ => .bind fun _ => .ok (.input w true _)
  | portOut w checked =>
    refine .bind fun _ => ?_
    cases m.ports with
    | none =>
      cases checked
      · exact .same
      · exact .bind fun _ => .bind fun _ => .bind fun _ => .same
    | some p =>
      cases checked
      · exact .bind fun _ => .bind fun _ => .ok (.output w false _)
      · exact .bind fun _ => .bind fun _ => .bind fun _ => .bind fun _ => .bind fun _ => .ok (.output w true _)
  | route mode =>
    refine .bind fun _ => .bind fun x => ?_
    cases x with
    | fault f =>
      cases hr : m.route mode f with
      | ok m' =>
        simp only [hr]
        exact .ok (route_touches hr)
      | error e =>
        simp only [hr]
        cases e <;> exact .error
    | _ => exact .error

theorem body_leaves (b : Builtin) (args : List Value) (m : Machine) (v : Value) (m' : Machine)
    (h : b.body args m = .ok (v, m')) : m'.SameFront m := (body_touches b args m v m' h).sameFront

/-! ### How a call can fail -/

/-- Whether the first argument of a helper must be the processor. -/
def needsCpu : Builtin → Bool
  | retire | read _ | write _ | protectedSegment _ | portIn _ _ | portOut _ _ | route _ => true
  | _ => false

/-- A result that is no other failure than a fault. -/
def FaultsOnly {α : Type} (x : Except Failure α) : Prop := ∀ e, x = .error e → ∃ f, e = .fault f

theorem FaultsOnly.ok {α : Type} {a : α} : FaultsOnly (.ok a) := nofun

theorem FaultsOnly.ofFault {α : Type} (x : Except Fault α) : FaultsOnly (ofFault x) := by
  cases x with
  | ok a => exact .ok
  | error f =>
    rintro _ ⟨⟩
    exact ⟨f, rfl⟩

theorem FaultsOnly.privileged (cpl iopl : UInt32) : FaultsOnly (privileged cpl iopl) := by
  unfold Builtin.privileged
  split
  · rintro _ ⟨⟩
    exact ⟨_, rfl⟩
  · exact .ok

theorem FaultsOnly.bind {α β : Type} {x : Except Failure α} {f : α → Except Failure β} (hx : FaultsOnly x)
    (h : ∀ a, FaultsOnly (f a)) : FaultsOnly (x >>= f) := by
  cases x with
  | error e =>
    rintro _ ⟨⟩
    exact hx e rfl
  | ok a => exact h a

/-- A helper that gets its arguments, the processor first where it needs it, fails by faults only;
    routing a fault is another matter. -/
theorem body_faultsOnly {b : Builtin} (hb : ∀ mode, b ≠ .route mode) {args : List Value}
    (hlen : args.length = b.arity.toNat) (hcpu : b.needsCpu = true → args.head? = some .cpu) (m : Machine) :
    FaultsOnly (b.body args m) := by
  by_cases hp : b.isPure = true
  · obtain ⟨v, hv⟩ := exists_body_of_isPure hp hlen
    rw [hv m]
    exact .ok
  cases b with
  | divq32 | divr32 =>
    obtain ⟨x, y, rfl⟩ := List.length_eq_two.mp hlen
    exact .bind .ok fun _ => .bind .ok fun _ => .bind (.ofFault _) fun _ => .ok
  | ifChecked =>
    obtain ⟨x, y, z, rfl⟩ := List.length_eq_three.mp hlen
    exact .bind .ok fun _ => .bind .ok fun _ => .bind (.privileged _ _) fun _ => .bind .ok fun _ => .ok
  | retire =>
    obtain ⟨x, rfl⟩ := List.length_eq_one_iff.mp hlen
    cases hcpu rfl
    exact .bind .ok fun _ => .ok
  | read w =>
    obtain ⟨x, y, z, rfl⟩ := List.length_eq_three.mp hlen
    cases hcpu rfl
    exact .bind .ok fun _ => .bind .ok fun _ => .bind .ok fun _ => .bind (.ofFault _) fun _ =>
      .bind (.ofFault _) fun _ => .ok
  | write w =>
    match args, hlen with
    | [x, y, z, u], _ =>
      cases hcpu rfl
      exact .bind .ok fun _ => .bind .ok fun _ => .bind .ok fun _ => .bind (.ofFault _) fun _ =>
        .bind .ok fun _ => .bind (.ofFault _) fun _ => .ok
  | protectedSegment s =>
    obtain ⟨x, y, rfl⟩ := List.length_eq_two.mp hlen
    cases hcpu rfl
    exact .bind .ok fun _ => .bind .ok fun _ => .bind (.ofFault _) fun _ => .ok
  | portIn w checked =>
    cases checked with
    | false =>
      obtain ⟨x, y, rfl⟩ := List.length_eq_two.mp hlen
      cases hcpu rfl
      refine .bind .ok fun _ => ?_
      split
      · exact .ok
      · exact .bind .ok fun _ => .ok
    | true =>
      match args, hlen with
      | [x, y, z, u], _ =>
        cases hcpu rfl
        refine .bind .ok fun _ => .bind .ok fun _ => .bind .ok fun _ => .bind (.privileged _ _) fun _ => ?_
        split
        · exact .ok
        · exact .bind .ok fun _ => .ok
  | portOut w checked =>
    cases checked with
    | false =>
      obtain ⟨x, y, z, rfl⟩ := List.length_eq_three.mp hlen
      cases hcpu rfl
      refine .bind .ok fun _ => ?_
      split
      · exact .ok
      · exact .bind .ok fun _ => .bind .ok fun _ => .ok
    | true =>
      match args, hlen with
      | [x, y, z, u, v], _ =>
        cases hcpu rfl
        refine .bind .ok fun _ => .bind .ok fun _ => .bind .ok fun _ => .bind (.privileged _ _) fun _ => ?_
        split
        · exact .ok
        · exact .bind .ok fun _ => .bind .ok fun _ => .ok
  | route mode => exact absurd rfl (hb mode)
  | _ => exact absurd rfl hp

theorem arity_pos (b : Builtin) : 0 < b.arity := by
  have h : ∀ b ∈ all, 0 < b.arity := by decide
  exact h b (mem_all b)

theorem arity_nonneg {helpers : List Helper} (hbuiltin : ∀ h ∈ helpers, ∃ b : Builtin, h = b.helper) :
    ∀ h ∈ helpers, 0 ≤ h.arity := by
  intro h hh
  obtain ⟨b, rfl⟩ := hbuiltin h hh
  exact b.arity_pos.le

/-- Without the processor as its first argument, a helper that needs it fails. -/
theorem body_not_cpu {b : Builtin} (hb : b.needsCpu = true) {x : Value} (hx : x ≠ .cpu) (args : List Value) (m : Machine) :
    ∃ e, b.body (x :: args) m = .error (.error e) := by
  have hcpu (name : String) : cpu name (x :: args) = .error (.error (.notCpu name)) := by
    cases x with
    | cpu => exact absurd rfl hx
    | _ => rfl
  have hbind {α : Type} (name : String) (f : Unit → Except Failure α) :
      ∃ e, (cpu name (x :: args) >>= f) = .error (.error e) := ⟨_, by rw [hcpu]; rfl⟩
  cases b with
  | retire | read w | write w | protectedSegment s | portIn w checked | portOut w checked | route mode => exact hbind _ _
  | _ => cases hb

/-- A helper that gets its arguments does not crash, unless the router crashes on a fault that is none. -/
theorem router_of_crash {b : Builtin} {args : List Value} (hlen : args.length = b.arity.toNat) {m : Machine}
    (h : b.body args m = .error .crash) : m.router = .reject := by
  by_cases hcpu : b.needsCpu = true → args.head? = some .cpu
  · by_cases hroute : ∀ mode, b ≠ .route mode
    · obtain ⟨f, hf⟩ := body_faultsOnly hroute hlen hcpu m _ h
      cases hf
    · obtain ⟨mode, rfl⟩ := not_forall_not.mp hroute
      obtain ⟨x, y, rfl⟩ := List.length_eq_two.mp hlen
      cases hcpu rfl
      cases hrouter : m.router with
      | reject => rfl
      | queue | absent =>
        change routeBody _ mode [.cpu, y] m = _ at h
        cases y with
        | fault f =>
          simp only [routeBody, cpu, arg, List.getElem?_cons_zero, List.getElem?_cons_succ, bind, Except.bind, Machine.route,
            hrouter] at h
          cases h
        | _ => cases h
  · obtain ⟨hneeds, hhead⟩ := Classical.not_imp.mp hcpu
    cases args with
    | nil =>
      have := arity_pos b
      simp only [List.length_nil] at hlen
      omega
    | cons x args =>
      obtain ⟨e, he⟩ := body_not_cpu hneeds (by simpa using hhead) args m
      rw [he] at h
      cases h

/-- Whether a helper raises no fault once it has its arguments. -/
def faultless : Builtin → Bool
  | retire | portIn _ false | portOut _ false => true
  | b => b.isPure

/-- A result that is a value. -/
def Gives {α : Type} (x : Except Failure α) : Prop := ∃ a, x = .ok a

theorem Gives.ok {α : Type} {a : α} : Gives (.ok a) := ⟨a, rfl⟩

theorem Gives.bind {α β : Type} {x : Except Failure α} {f : α → Except Failure β} (hx : Gives x)
    (h : ∀ a, Gives (f a)) : Gives (x >>= f) := by
  obtain ⟨a, rfl⟩ := hx
  exact h a

theorem body_gives {b : Builtin} (hb : b.faultless = true) {args : List Value}
    (hlen : args.length = b.arity.toNat) (hcpu : b.needsCpu = true → args.head? = some .cpu) (m : Machine) :
    Gives (b.body args m) := by
  by_cases hp : b.isPure = true
  · obtain ⟨v, hv⟩ := exists_body_of_isPure hp hlen
    exact ⟨(v, m), hv m⟩
  cases b with
  | retire =>
    obtain ⟨x, rfl⟩ := List.length_eq_one_iff.mp hlen
    cases hcpu rfl
    exact .ok
  | portIn w checked =>
    cases checked with
    | false =>
      obtain ⟨x, y, rfl⟩ := List.length_eq_two.mp hlen
      cases hcpu rfl
      refine .bind .ok fun _ => ?_
      split
      · exact .ok
      · exact .bind .ok fun _ => .ok
    | true => cases hb
  | portOut w checked =>
    cases checked with
    | false =>
      obtain ⟨x, y, z, rfl⟩ := List.length_eq_three.mp hlen
      cases hcpu rfl
      refine .bind .ok fun _ => ?_
      split
      · exact .ok
      · exact .bind .ok fun _ => .bind .ok fun _ => .ok
    | true => cases hb
  | _ => first | exact absurd rfl hp | cases hb

end Builtin
end MicroBlock
