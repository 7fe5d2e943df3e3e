import Mathlib
import MicroBlock.Proofs.Precision

/-! What the helpers of a block are given, and what a run keeps.

A fragment is straight-line code, so it is known before it runs where every argument of its helper calls comes
from: from an input, from a literal or from another call. What all calls keep under that knowledge, a run keeps,
whether it writes its values back, meets an op without a lowering or rolls back. -/

namespace MicroBlock

/-- Where a value on the stack comes from. -/
inductive Source where
  | input (e : Element)
  | literal
  | result (b : Builtin)
  deriving DecidableEq

/-- A value can come from a source, where the elements have the values given and `R` says what each helper can
    return. -/
def Source.Gives (values : Element → Value) (R : Builtin → Value → Prop) : Source → Value → Prop
  | input e, v => v = values e
  | literal, _ => True
  | result b, v => R b v

theorem Source.gives_of_getElem? {values : Element → Value} {R : Builtin → Value → Prop} {sources : List Source}
    {args : List Value} (h : List.Forall₂ (Gives values R) sources args) {k : Nat} {s : Source} {v : Value}
    (hs : sources[k]? = some s) (hv : args[k]? = some v) : s.Gives values R v := by
  obtain ⟨hk, rfl⟩ := List.getElem?_eq_some_iff.mp hs
  obtain ⟨hk', rfl⟩ := List.getElem?_eq_some_iff.mp hv
  exact h.get hk hk'

/-- A helper call of a fragment, with the sources of its arguments in push order. -/
structure Site where
  helper : Builtin
  args : List Source
  deriving DecidableEq

/-- A call keeps a property of the machine, and returns what its helper can return. -/
def Site.Keeps (values : Element → Value) (R : Builtin → Value → Prop) (M : Machine → Prop) (t : Site) : Prop :=
  ∀ args m v m', args.length = t.helper.arity.toNat → List.Forall₂ (Source.Gives values R) t.args args → M m →
    t.helper.body args m = .ok (v, m') → M m' ∧ R t.helper v

/-! ### Fragments -/

namespace Fragment

/-- The calls of a step and the sources on the stack after it, top first, if the step finds what it needs. -/
def trackStep (inputs : List Element) (s : Step) (sources : List Source) : Option (List Site × List Source) :=
  match s, sources with
  | .input i, sources => if i < 0 then none else inputs[i.toNat]?.map fun e => ([], .input e :: sources)
  | .literal _, sources => some ([], .literal :: sources)
  | .dup, s :: sources => some ([], s :: s :: sources)
  | .pop, _ :: sources => some ([], sources)
  | .call h, sources =>
    (Builtin.ofName? h).map fun b =>
      ([⟨b, (sources.take b.arity.toNat).reverse⟩],
        (if b.result = .void then [] else [.result b]) ++ sources.drop b.arity.toNat)
  | _, _ => none

def trackAll (inputs : List Element) : List Step → List Source → Option (List Site × List Source)
  | [], sources => some ([], sources)
  | s :: ss, sources =>
    (trackStep inputs s sources).bind fun x => (trackAll inputs ss x.2).map fun y => (x.1 ++ y.1, y.2)

/-- The calls of a fragment, and the sources of the values it leaves. -/
def tracked (f : Fragment) : Option (List Site × List Source) := trackAll f.inputs f.steps []

section Steps
variable {inputs : List Element} {values : Element → Value} {R : Builtin → Value → Prop} {M : Machine → Prop}
  {name : String} {p : Place}

theorem evalStep_tracked {s : Step} {stack : List Value} {sources sources' : List Source} {sites : List Site}
    (hs : List.Forall₂ (Source.Gives values R) sources stack) (hk : trackStep inputs s sources = some (sites, sources'))
    (hsites : ∀ t ∈ sites, t.Keeps values R M) {c c' : Context} {x : Except EvalError (List Value)} (hm : M c.machine)
    (h : evalStep .builtin name (inputs.map values) p s stack c = (x, c')) :
    M c'.machine ∧ ∀ stack', x = .ok stack' → List.Forall₂ (Source.Gives values R) sources' stack' := by
  cases s with
  | input i =>
    simp only [trackStep] at hk
    split at hk
    · cases hk
    next hi =>
    obtain ⟨e, he, heq⟩ := Option.map_eq_some_iff.mp hk
    cases heq
    have hinput : input? (inputs.map values) i = some (values e) := by simp [input?, hi, he]
    simp only [evalStep, hinput] at h
    cases h
    refine ⟨hm, ?_⟩
    rintro _ ⟨⟩
    exact .cons rfl hs
  | literal l =>
    cases h
    cases hk
    refine ⟨hm, ?_⟩
    rintro _ ⟨⟩
    exact .cons trivial hs
  | dup =>
    cases hs with
    | nil => cases hk
    | cons hx hs =>
      cases hk
      cases h
      refine ⟨hm, ?_⟩
      rintro _ ⟨⟩
      exact .cons hx (.cons hx hs)
  | pop =>
    cases hs with
    | nil => cases hk
    | cons hx hs =>
      cases hk
      cases h
      refine ⟨hm, ?_⟩
      rintro _ ⟨⟩
      exact hs
  | call n =>
    obtain ⟨b, hb, heq⟩ := Option.map_eq_some_iff.mp hk
    cases heq
    obtain rfl := Builtin.name_of_ofName? hb
    obtain ⟨rfl, rfl⟩ | ⟨args, rest, hargs, ⟨e, -, rfl, hsame⟩ | ⟨v, hx, rfl⟩⟩ := evalStep_call_cases h
    · exact ⟨hm, fun _ h => by cases h⟩
    · exact ⟨hsame.symm ▸ hm, fun _ h => by cases h⟩
    · obtain ⟨hlen, rfl, rfl⟩ := Builtin.arguments?_eq_some hargs
      -- The arguments are on the stack last to first.
      obtain ⟨hm', hr⟩ := hsites _ List.mem_cons_self _ _ _ _
        (by rw [List.length_reverse, List.length_take_of_le hlen])
        (List.rel_reverse (List.forall₂_take b.arity.toNat hs)) hm hx
      refine ⟨hm', ?_⟩
      rintro _ ⟨⟩
      have hdrop := List.forall₂_drop b.arity.toNat hs
      by_cases hvoid : b.result = .void
      · simpa [hvoid] using hdrop
      · simpa [hvoid] using ⟨hr, hdrop⟩
  | unknown k => cases hk

theorem evalSteps_tracked {ss : List Step} {stack : List Value} {sources sources' : List Source} {sites : List Site}
    (hs : List.Forall₂ (Source.Gives values R) sources stack) (hk : trackAll inputs ss sources = some (sites, sources'))
    (hsites : ∀ t ∈ sites, t.Keeps values R M) {c c' : Context} {x : Except EvalError (List Value)} (hm : M c.machine)
    (h : evalSteps .builtin name (inputs.map values) p ss stack c = (x, c')) :
    M c'.machine ∧ ∀ stack', x = .ok stack' → List.Forall₂ (Source.Gives values R) sources' stack' := by
  induction ss generalizing stack sources sites c with
  | nil =>
    cases hk
    cases h
    refine ⟨hm, ?_⟩
    rintro _ ⟨⟩
    exact hs
  | cons s ss ih =>
    obtain ⟨⟨sites₁, sources₁⟩, hk₁, hk₂⟩ := Option.bind_eq_some_iff.mp hk
    obtain ⟨⟨sites₂, sources₂⟩, hk₃, heq⟩ := Option.map_eq_some_iff.mp hk₂
    cases heq
    have hsites₁ : ∀ t ∈ sites₁, t.Keeps values R M := fun t ht => hsites t (List.mem_append_left _ ht)
    simp only [evalSteps] at h
    split at h
    · next e c₁ h₁ =>
      cases h
      exact ⟨(evalStep_tracked hs hk₁ hsites₁ hm h₁).1, fun _ h => by cases h⟩
    · next stack₁ c₁ h₁ =>
      obtain ⟨hm₁, hs₁⟩ := evalStep_tracked hs hk₁ hsites₁ hm h₁
      exact ih (hs₁ stack₁ rfl) hk₃ (fun t ht => hsites t (List.mem_append_right _ ht)) hm₁ h

end Steps

/-- A fragment keeps `M`, and what it computes for its target has the property `V` of the target, if its inputs
    have theirs. -/
def Respects (V : Element → Value → Prop) (M : Machine → Prop) (f : Fragment) : Prop :=
  ∀ values : Element → Value, (∀ e, V e (values e)) → ∀ p c x c', M c.machine →
    f.eval .builtin (f.inputs.map values) p c = (x, c') → M c'.machine ∧ ∀ v, x = .ok v → V f.target v

/-- A fragment keeps what each of its calls keeps. -/
theorem respects_of_tracked {V : Element → Value → Prop} {M : Machine → Prop} (R : Builtin → Value → Prop) {f : Fragment}
    {sites : List Site} {sources : List Source} (hf : f.tracked = some (sites, sources))
    (hsites : ∀ values : Element → Value, (∀ e, V e (values e)) → ∀ t ∈ sites, t.Keeps values R M)
    (htarget : ∀ (values : Element → Value) v, (∀ e, V e (values e)) →
      (∀ s, sources.head? = some s → s.Gives values R v) → V f.target v) :
    f.Respects V M := by
  intro values hv p c x c' hm h
  unfold eval at h
  split at h
  · next e c₁ hsteps =>
    cases h
    exact ⟨(evalSteps_tracked .nil hf (hsites values hv) hm hsteps).1, fun _ h => by cases h⟩
  · next stack c₁ hsteps =>
    cases h
    obtain ⟨hm', hs⟩ := evalSteps_tracked .nil hf (hsites values hv) hm hsteps
    refine ⟨hm', ?_⟩
    rintro _ ⟨⟩
    refine htarget values _ hv fun s hhead => ?_
    cases hs stack rfl with
    | nil => cases hhead
    | cons hx _ =>
      cases hhead
      exact hx

end Fragment

/-! ### Runs -/

namespace Interpreter

section Respects
variable {V : Element → Value → Prop} {M : Machine → Prop} {t : Table}

theorem evalFragments_respects {fs : List Fragment} (hfs : ∀ f ∈ fs, f.Respects V M) {values : Values}
    (hv : ∀ e, V e (values.get e)) {place : Place} {c c' : Context}
    {x : Except (Fragment × Fragment.EvalError) (List (Element × Value))} (hm : M c.machine)
    (h : evalFragments .builtin values place fs c = (x, c')) :
    M c'.machine ∧ ∀ vs, x = .ok vs → ∀ v ∈ vs, V v.1 v.2 := by
  induction fs generalizing c x with
  | nil =>
    cases h
    refine ⟨hm, ?_⟩
    rintro _ ⟨⟩ v hv
    cases hv
  | cons f fs ih =>
    have hrest := fun g hg => hfs g (List.mem_cons_of_mem f hg)
    have hf := hfs f List.mem_cons_self values.get hv place c
    simp only [evalFragments] at h
    split at h
    · next e c₁ h₁ =>
      cases h
      exact ⟨(hf _ _ hm h₁).1, fun _ h => by cases h⟩
    next v c₁ h₁ =>
    obtain ⟨hm₁, hv₁⟩ := hf _ _ hm h₁
    split at h
    · next e c₂ h₂ =>
      cases h
      exact ⟨(ih hrest hm₁ h₂).1, fun _ h => by cases h⟩
    next vs c₂ h₂ =>
    cases h
    obtain ⟨hm₂, hvs⟩ := ih hrest hm₁ h₂
    refine ⟨hm₂, ?_⟩
    rintro _ ⟨⟩
    split
    · exact hvs vs rfl
    · exact List.forall_mem_cons.mpr ⟨hv₁ v rfl, hvs vs rfl⟩

/-- The machine has the property `M`, and the values now and when the instruction began have theirs. -/
structure Progress.Respects (V : Element → Value → Prop) (M : Machine → Prop) (p : Progress) : Prop where
  machine : M p.context.machine
  values : ∀ e, V e (p.values.get e)
  snapshot : ∀ e, V e (p.snapshot.get e)

theorem Progress.respects_start {c : Context} (hv : ∀ e, V e (c.machine.get e)) (hm : M c.machine) :
    (Progress.start c).Respects V M :=
  have hvalues : ∀ e, V e ((initialValues c.machine).get e) := fun e => by rw [get_initialValues]; exact hv e
  ⟨hm, hvalues, hvalues⟩

theorem Progress.Respects.enter {p : Progress} (h : p.Respects V M) (rec : Record) : (p.enter rec).Respects V M := by
  unfold Progress.enter
  split
  · exact h
  · exact ⟨h.machine, h.values, h.values⟩

theorem Progress.Respects.step {p q : Progress} (hp : p.Respects V M) {rec : Record}
    (ht : ∀ f ∈ t.targets? rec.op, f.Respects V M) (h : step? t p rec = some q) : q.Respects V M := by
  obtain ⟨vs, c, -, heval, rfl⟩ := step?_eq_some.mp h
  obtain ⟨hm, hvs⟩ := evalFragments_respects ht hp.values hp.machine heval
  refine ⟨hm, ?_, (hp.enter rec).snapshot⟩
  simp only [Progress.commit]
  exact List.foldlRecOn (motive := fun b : Values => ∀ e, V e (b.get e)) vs _ (hp.enter rec).values fun b hb v hv e => by
    rw [Bank.get_set]
    split
    · next he => exact he ▸ hvs vs rfl v hv
    · exact hb e

theorem Progress.Respects.advance {p q : Progress} (hp : p.Respects V M) {rs : List Record}
    (ht : ∀ rec ∈ rs, ∀ f ∈ t.targets? rec.op, f.Respects V M) (h : advance t p rs = some q) : q.Respects V M :=
  advance_induct (fun rec hrec _ _ hp h => hp.step (ht rec hrec) h) hp h

theorem Raises.respects {p : Progress} {rec : Record} {done : List Fragment} {f : Fragment} {x : Fault} {c : Context}
    (h : Raises t p rec done f x c) (ht : ∀ f ∈ t.targets? rec.op, f.Respects V M) (hp : p.Respects V M) :
    M c.machine := by
  obtain ⟨⟨rest, htargets⟩, ⟨vs, c₁, hdone, hx⟩, -⟩ := h
  have heval : evalFragments .builtin p.values (rec.place p.base) (done ++ f :: rest) p.context =
      (.error (f, .helper (.fault x)), c) := evalFragments_of_error hdone hx
  rw [← htargets] at heval
  exact (evalFragments_respects ht hp.values hp.machine heval).1

end Respects

/-- What the fragments of every record keep, a run keeps, however it ends. A register that it writes holds what was
    computed for it, up to EIP, which a rollback moves by the length of instructions. -/
theorem runMode_respects_of_records {mode : Mode} {V : Element → Value → Prop} {M : Machine → Prop} {s : Stream}
    (ht : ∀ rec ∈ s.records, ∀ f ∈ (Lowering.table mode).targets? rec.op, f.Respects V M) {c : Context}
    (hv : ∀ e, V e (c.machine.get e)) (hm : M c.machine) :
    (∃ m, M m ∧ (runMode mode .builtin s c).2.machine.SameWorld m) ∧
      ∀ r, (r = .eip → ∀ before rec done f x, ¬Faults (Lowering.table mode) s c before rec done f x) →
        (runMode mode .builtin s c).2.machine.getReg r = c.machine.getReg r ∨
        ∃ v, V (.reg r) v ∧ (runMode mode .builtin s c).2.machine.getReg r = r.held v := by
  have hdisc := Lowering.table_disciplined mode
  have hp := Progress.respects_start hv hm
  rcases runRecords_cases hdisc (Progress.sound_start c) (mode : ModeNumber).routeHelper s.count s.records with
    ⟨q, hq, hrun⟩ | ⟨before, rec, after, q, hrecords, hq, -, hrun⟩ |
      ⟨before, rec, after, q, done, f, x, c', hrecords, hq, hr, hrun⟩
  · -- Writing back gives every written register its computed value.
    have hsound := (Progress.sound_start c).advance hdisc hq
    have hresp := hp.advance ht hq
    rw [runMode, run, hrun]
    refine ⟨⟨_, hresp.machine, (writeBack_sameRest q).sameWorld⟩, fun r _ => ?_⟩
    rw [writeBack_machine, Machine.getReg_foldl_set (fun r => q.values.get (.reg r))]
    split
    · exact .inr ⟨_, hresp.values _, rfl⟩
    · exact .inl (hsound.machine.regs r)
  · have hsound := (Progress.sound_start c).advance hdisc hq
    have hresp := hp.advance (fun rec hrec => ht rec (hrecords ▸ List.mem_append_left _ hrec)) hq
    rw [runMode, run, hrun]
    exact ⟨⟨_, hresp.machine, ⟨rfl, rfl, rfl⟩⟩, fun r _ => .inl (hsound.machine.regs r)⟩
  · have hresp := hp.advance (fun rec hrec => ht rec (hrecords ▸ List.mem_append_left _ hrec)) hq
    have hmachine := hr.respects (ht rec (by simp [hrecords])) hresp
    have hsnap := (hresp.enter rec).snapshot
    have hrest := restored_sameRest (q.enter rec).snapshot (rec.start - (q.enter rec).snapshotBase) c'.machine
    have hregs := getReg_restored (q.enter rec).snapshot (rec.start - (q.enter rec).snapshotBase) c'.machine
    have hfaults : Faults (Lowering.table mode) s c before rec done f x := ⟨⟨after, hrecords⟩, q, c', hq, hr⟩
    rw [runMode, run, hrun, rollback_eq]
    -- The rollback gives the registers their values from the snapshot, and the router changes none.
    generalize restored (q.enter rec).snapshot (rec.start - (q.enter rec).snapshotBase) c'.machine = m at hrest hregs
    have hreg : ∀ r, r ≠ .eip → ∃ v, V (.reg r) v ∧ m.getReg r = r.held v := fun r hne =>
      ⟨_, hsnap (.reg r), by rw [hregs, if_neg hne]⟩
    rcases hbody : (Builtin.route mode).body [.cpu, .fault (some x)] m with e | ⟨v, m'⟩
    · exact ⟨⟨_, hmachine, hrest.sameWorld⟩, fun r heip => .inr (hreg r fun h => heip h _ _ _ _ _ hfaults)⟩
    · obtain ⟨hsame, hworld⟩ := Builtin.body_route_frame hbody
      refine ⟨⟨_, hmachine, hworld.trans hrest.sameWorld⟩, fun r heip => .inr ?_⟩
      obtain ⟨w, hw, hget⟩ := hreg r fun h => heip h _ _ _ _ _ hfaults
      exact ⟨w, hw, (hsame r).trans hget⟩

/-- What every fragment of a mode keeps, a run of any stream keeps. -/
theorem runMode_respects {mode : Mode} {V : Element → Value → Prop} {M : Machine → Prop}
    (ht : ∀ op, ∀ f ∈ (Lowering.table mode).targets? op, f.Respects V M) {c : Context}
    (hv : ∀ e, V e (c.machine.get e)) (hm : M c.machine) (s : Stream) :
    (∃ m, M m ∧ (runMode mode .builtin s c).2.machine.SameWorld m) ∧
      ∀ r, r ≠ .eip → (runMode mode .builtin s c).2.machine.getReg r = c.machine.getReg r ∨
        ∃ v, V (.reg r) v ∧ (runMode mode .builtin s c).2.machine.getReg r = r.held v := by
  obtain ⟨hworld, hregs⟩ := runMode_respects_of_records (s := s) (fun rec _ => ht rec.op) hv hm
  exact ⟨hworld, fun r hne => hregs r fun h => absurd h hne⟩

end Interpreter
end MicroBlock
