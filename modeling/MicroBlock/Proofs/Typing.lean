import Mathlib
import MicroBlock.Fragment.Eval
import MicroBlock.Proofs.Depths
import MicroBlock.Proofs.Safety

/-! What the checks of a table are good for.

A table follows the kinds on the stack through the steps of a fragment. Evaluation follows the values: after
any number of steps every value on the stack was pushed by a step of the kind that the table counted with. So
no step asks for an input or a value that is not there, whatever the helpers do, and what is left in the end
is one value of the target's kind, or nothing for a void target. -/

namespace MicroBlock

/-! ### Registries with the same signatures -/

/-- The registries have the same helpers up to what these do. -/
def Registry.Alike (r r' : Registry) : Prop :=
  r.helpers.map (fun h => (h.name, h.arity, h.result)) = r'.helpers.map fun h => (h.name, h.arity, h.result)

theorem Registry.Alike.refl (r : Registry) : r.Alike r := rfl

theorem Registry.Alike.exists_lookup {r r' : Registry} (h : r.Alike r') {name : String} {b : Helper}
    (hb : r.lookup name = some b) : ∃ b', r'.lookup name = some b' ∧ b'.arity = b.arity ∧ b'.result = b.result := by
  obtain ⟨hs⟩ := r
  obtain ⟨hs'⟩ := r'
  simp only [Registry.Alike, Registry.lookup] at h hb ⊢
  induction hs generalizing hs' with
  | nil => cases hb
  | cons a hs ih =>
    cases hs' with
    | nil => cases h
    | cons a' hs' =>
      simp only [List.map_cons, List.cons.injEq, Prod.mk.injEq] at h
      obtain ⟨⟨hname, harity, hresult⟩, hrest⟩ := h
      rw [List.find?_cons] at hb ⊢
      rw [← hname]
      cases hfound : a.name == name with
      | true =>
        rw [hfound] at hb
        cases hb
        exact ⟨a', rfl, harity.symm, hresult.symm⟩
      | false =>
        rw [hfound] at hb
        exact ih hb hs' hrest

/-! ### Runs of a fragment -/

/-- The step pushes a value of a kind: that of an input, an int for a literal, or what a helper returns. -/
inductive Step.Pushes (r : Registry) (f : Signature) : Step → Kind → Prop
  | input {i : Int} {e : Element} (hi : 0 ≤ i) (he : f.inputs[i.toNat]? = some e) : Pushes r f (.input i) e.kind
  | literal (l : Literal) : Pushes r f (.literal l) .int
  | call {helper : String} {b : Helper} (hb : r.lookup helper = some b) (hresult : b.result ≠ .void) :
    Pushes r f (.call helper) b.result

/-- The step calls a helper, and the helper fails. -/
def Step.Fails (r : Registry) (s : Step) (stack : List Value) (c : Context) (x : Failure) (c' : Context) : Prop :=
  ∃ helper b args rest, s = .call helper ∧ r.lookup helper = some b ∧ b.arguments? stack = some (args, rest) ∧
    b.call args c = (.error x, c')

namespace Fragment

/-- The first steps of the fragment, and what they leave from an empty stack. -/
structure Reaches (f : Fragment) (r : Registry) (inputs : List Value) (p : Place) (c : Context)
    (before after : List Step) (stack : List Value) (c' : Context) : Prop where
  steps : f.steps = before ++ after
  run : evalSteps r f.name inputs p before [] c = (.ok stack, c')

/-- Some step of the evaluation put `v` on the stack, as a value of the kind. -/
def Pushed (f : Fragment) (r : Registry) (inputs : List Value) (p : Place) (c : Context) (v : Value)
    (k : Kind) : Prop :=
  ∃ before s after stack c₁ stack' c₂, f.Reaches r inputs p c before (s :: after) stack c₁ ∧
    evalStep r f.name inputs p s stack c₁ = (.ok (v :: stack'), c₂) ∧ s.Pushes r f.toSignature k

/-- Some step of the evaluation calls a helper that fails. -/
def HelperFails (f : Fragment) (r : Registry) (inputs : List Value) (p : Place) (c : Context) (x : Failure)
    (c' : Context) : Prop :=
  ∃ before s after stack c₁, f.Reaches r inputs p c before (s :: after) stack c₁ ∧ s.Fails r stack c₁ x c'

/-- All steps are evaluated. They leave one value, pushed as one of the target's kind, or nothing for a void target. -/
def Completes (f : Fragment) (r : Registry) (inputs : List Value) (p : Place) (c : Context) : Prop :=
  ∃ stack c', f.Reaches r inputs p c f.steps [] stack c' ∧ f.eval r inputs p c = (.ok (stack.headD .zero), c') ∧
    (f.target.kind = .void → stack = []) ∧
    (f.target.kind ≠ .void → ∃ v, stack = [v] ∧ f.Pushed r inputs p c v f.target.kind)

/-! ### One step -/

section Step
variable {f : Fragment} {r r' : Registry} {inputs : List Value} {p : Place} {c c' : Context} {s : Step}
  {stack : List Value} {kinds kinds' : List Kind} {n : Nat}

/-- Where the kinds of the values on the stack pass the check of a step, the step is evaluated and leaves values of
    the kinds that the check tells, unless a helper fails. -/
theorem evalStep_typed {T : Value → Kind → Prop} (hr : ∀ b ∈ r.helpers, 0 ≤ b.arity) (halike : r.Alike r')
    (hinputs : inputs.length = f.inputs.length) (hcheck : Table.checkStep r f.toSignature n s kinds = .ok kinds')
    (hstack : List.Forall₂ T stack kinds)
    (hpushed : ∀ v k stack' c', evalStep r' f.name inputs p s stack c = (.ok (v :: stack'), c') →
      s.Pushes r' f.toSignature k → T v k) :
    (∃ stack' c', evalStep r' f.name inputs p s stack c = (.ok stack', c') ∧ List.Forall₂ T stack' kinds') ∨
    ∃ x c', s.Fails r' stack c x c' ∧ evalStep r' f.name inputs p s stack c = (.error (.helper x), c') := by
  cases s with
  | input i =>
    simp only [Table.checkStep] at hcheck
    split at hcheck
    · cases hcheck
    next hi =>
    split at hcheck
    · next e he =>
      cases hcheck
      have hlt : i.toNat < inputs.length := hinputs ▸ (List.getElem?_eq_some_iff.mp he).1
      have hv : evalStep r' f.name inputs p (.input i) stack c = (.ok (inputs[i.toNat] :: stack), c) := by
        simp [evalStep, input?, hi, hlt]
      exact .inl ⟨_, _, hv, .cons (hpushed _ _ _ _ hv (.input (Int.not_lt.mp hi) he)) hstack⟩
    · cases hcheck
  | literal l =>
    simp only [Table.checkStep] at hcheck
    split at hcheck
    · cases hcheck
    · cases hcheck
      exact .inl ⟨_, _, rfl, .cons (hpushed _ _ _ _ rfl (.literal l)) hstack⟩
  | dup =>
    cases hstack with
    | nil => cases hcheck
    | cons hv hrest =>
      cases hcheck
      exact .inl ⟨_, _, rfl, .cons hv (.cons hv hrest)⟩
  | pop =>
    cases hstack with
    | nil => cases hcheck
    | cons _ hrest =>
      cases hcheck
      exact .inl ⟨_, _, rfl, hrest⟩
  | call helper =>
    simp only [Table.checkStep] at hcheck
    split at hcheck
    · cases hcheck
    next b hb =>
    split at hcheck
    · cases hcheck
    next hdepth =>
    cases hcheck
    obtain ⟨b', hb', harity, hresult⟩ := halike.exists_lookup hb
    have hargs : b'.arguments? stack =
        some ((stack.take b.arity.toNat).reverse, stack.drop b.arity.toNat) := by
      have hpos : 0 ≤ b.arity := hr b (List.mem_of_find?_eq_some hb)
      have hle : b.arity ≤ stack.length := hstack.length_eq ▸ Int.not_lt.mp hdepth
      rw [Helper.arguments?, harity, if_pos ⟨hpos, hle⟩]
    have hrest : List.Forall₂ T (stack.drop b.arity.toNat) (kinds.drop b.arity.toNat) := List.forall₂_drop _ hstack
    rcases hcall : b'.call (stack.take b.arity.toNat).reverse c with ⟨x | v, c'⟩
    · exact .inr ⟨x, c', ⟨helper, b', _, _, rfl, hb', hargs, hcall⟩, by simp [evalStep, hb', hargs, hcall]⟩
    · by_cases hvoid : b.result = .void
      · refine .inl ⟨stack.drop b.arity.toNat, c', by simp [evalStep, hb', hargs, hcall, hresult, hvoid], ?_⟩
        simpa [hvoid] using hrest
      · have hv : evalStep r' f.name inputs p (.call helper) stack c =
            (.ok (v :: stack.drop b.arity.toNat), c') := by
          simp [evalStep, hb', hargs, hcall, hresult, hvoid]
        have hpush : Step.Pushes r' f.toSignature (.call helper) b.result :=
          hresult ▸ .call hb' (hresult ▸ hvoid)
        rw [if_neg hvoid]
        exact .inl ⟨_, _, hv, .cons (hpushed _ _ _ _ hv hpush) hrest⟩
  | unknown kind => cases hcheck

end Step

/-! ### Whole runs -/

section Run
variable {f : Fragment} {r r' : Registry} {inputs : List Value} {p : Place} {c c₁ : Context} {stack : List Value}
  {kinds kinds' : List Kind} {n : Nat}

theorem evalSteps_append {name : String} {before after : List Step} {st : List Value}
    (h : evalSteps r name inputs p before st c = (.ok stack, c₁)) :
    evalSteps r name inputs p (before ++ after) st c = evalSteps r name inputs p after stack c₁ := by
  induction before generalizing st c with
  | nil => cases h; rfl
  | cons s before ih =>
    rw [evalSteps] at h
    rw [List.cons_append, evalSteps]
    split at h
    · cases h
    · exact ih h

theorem Reaches.next {before after : List Step} {s : Step} {stack' : List Value} {c₂ : Context}
    (h : f.Reaches r inputs p c before (s :: after) stack c₁)
    (hstep : evalStep r f.name inputs p s stack c₁ = (.ok stack', c₂)) :
    f.Reaches r inputs p c (before ++ [s]) after stack' c₂ where
  steps := by rw [h.steps, List.append_assoc, List.singleton_append]
  run := by rw [evalSteps_append h.run, evalSteps, hstep]; rfl

/-- From a point that evaluation reaches with values of the kinds that the checks count with, it goes on to the end
    and leaves values of the last kinds, or to a helper that fails. -/
theorem Reaches.typed (hr : ∀ b ∈ r.helpers, 0 ≤ b.arity) (halike : r.Alike r')
    (hinputs : inputs.length = f.inputs.length) {before after : List Step}
    (h : f.Reaches r' inputs p c before after stack c₁)
    (hcheck : Table.checkSteps r f.toSignature n after kinds = .ok kinds')
    (hstack : List.Forall₂ (f.Pushed r' inputs p c) stack kinds) :
    (∃ stack' c', f.Reaches r' inputs p c f.steps [] stack' c' ∧
      List.Forall₂ (f.Pushed r' inputs p c) stack' kinds') ∨
    ∃ x c', f.HelperFails r' inputs p c x c' := by
  induction after generalizing before stack c₁ kinds n with
  | nil =>
    cases hcheck
    have hbefore : before = f.steps := by rw [h.steps, List.append_nil]
    exact .inl ⟨stack, c₁, hbefore ▸ h, hstack⟩
  | cons s after ih =>
    rw [Table.checkSteps] at hcheck
    split at hcheck
    · cases hcheck
    next kinds₁ hstep =>
    rcases evalStep_typed (p := p) (c := c₁) hr halike hinputs hstep hstack (fun v k stack' c' hv hpush =>
      ⟨before, s, after, stack, c₁, stack', c', h, hv, hpush⟩) with ⟨stack₁, c₂, hs, hstack₁⟩ | ⟨x, c', hfails, -⟩
    · exact ih (h.next hs) hcheck hstack₁
    · exact .inr ⟨x, c', before, s, after, stack, c₁, h, hfails⟩

/-- The first helper that fails ends the evaluation. -/
theorem HelperFails.eval {x : Failure} {c' : Context} (h : f.HelperFails r inputs p c x c') :
    f.eval r inputs p c = (.error (.helper x), c') := by
  obtain ⟨before, s, after, stack, c₁, hreaches, helper, b, args, rest, rfl, hb, hargs, hcall⟩ := h
  have hstep : evalStep r f.name inputs p (.call helper) stack c₁ = (.error (.helper x), c') := by
    simp [evalStep, hb, hargs, hcall]
  have hrun : evalSteps r f.name inputs p f.steps [] c = (.error (.helper x), c') := by
    rw [hreaches.steps, evalSteps_append hreaches.run, evalSteps, hstep]
  rw [Fragment.eval, hrun]

/-- Where evaluation completes unless a helper fails, such a failure is its only error. -/
theorem eval_eq_error (hcompletes : (∀ x c', ¬f.HelperFails r inputs p c x c') → f.Completes r inputs p c)
    {e : EvalError} {c' : Context} :
    f.eval r inputs p c = (.error e, c') ↔ ∃ x, e = .helper x ∧ f.HelperFails r inputs p c x c' := by
  constructor
  · intro h
    by_cases hfails : ∃ x c₂, f.HelperFails r inputs p c x c₂
    · obtain ⟨x, c₂, hx⟩ := hfails
      obtain ⟨he, rfl⟩ := Prod.mk.inj (hx.eval.symm.trans h)
      exact ⟨x, (Except.error.inj he).symm, hx⟩
    · obtain ⟨stack, c₂, -, heval, -⟩ := hcompletes (by simpa using hfails)
      rw [heval] at h
      cases h
  · rintro ⟨x, rfl, hx⟩
    exact hx.eval

end Run

end Fragment

/-! ### Tables -/

namespace Table

theorem check_evaluates {r r' : Registry} {f : Fragment} (hr : ∀ b ∈ r.helpers, 0 ≤ b.arity) (hf : check r f = .ok ())
    (halike : r.Alike r') {inputs : List Value} (hinputs : inputs.length = f.inputs.length) (p : Place) (c : Context)
    (hnone : ∀ x c', ¬f.HelperFails r' inputs p c x c') : f.Completes r' inputs p c := by
  have hstart : f.Reaches r' inputs p c [] f.steps [] c := ⟨rfl, rfl⟩
  rcases hstart.typed hr halike hinputs (kinds_of_check hf) .nil with ⟨stack, c', hend, hstack⟩ | ⟨x, c', hfails⟩
  · refine ⟨stack, c', hend, by rw [Fragment.eval, hend.run], fun hvoid => ?_, fun hvoid => ?_⟩
    · rw [if_pos hvoid] at hstack
      cases hstack
      rfl
    · rw [if_neg hvoid] at hstack
      cases hstack with
      | cons hv hrest =>
        cases hrest
        exact ⟨_, rfl, hv⟩
  · exact absurd hfails (hnone x c')

end Table

/-! ### Building -/

/-- The fragment has the op, target and inputs that the definition's name tells, and its steps. -/
def Definition.Declares (d : Definition) (f : Fragment) : Prop :=
  Signature.parse d.name = .ok f.toSignature ∧ f.name = d.name ∧ f.steps = Table.stepsOf d f.inputs.length

theorem Definition.Declares.unique {d : Definition} {f g : Fragment} (hf : d.Declares f) (hg : d.Declares g) :
    f = g := by
  obtain ⟨sig, name, steps⟩ := f
  obtain ⟨sig', name', steps'⟩ := g
  obtain ⟨hsig, hname, hsteps⟩ := hf
  obtain ⟨hsig', hname', hsteps'⟩ := hg
  obtain rfl : sig = sig' := Except.ok.inj (hsig.symm.trans hsig')
  obtain rfl : name = name' := hname.trans hname'.symm
  obtain rfl : steps = steps' := hsteps.trans hsteps'.symm
  rfl

/-- No two of the fragments compute the same element for the same op. -/
def Fragment.Apart (fs : List Fragment) : Prop := fs.Pairwise fun f g => f.op = g.op → f.target ≠ g.target

namespace Table
variable {r : Registry} {name : String} {ds : List Definition} {t : Table}

theorem add_eq_ok {fs fs' : List Fragment} {d : Definition} (h : add r fs d = .ok fs') :
    ∃ f, d.Declares f ∧ fs' = fs ++ [f] ∧ ∀ g ∈ fs, g.op = f.op → g.target ≠ f.target := by
  unfold add at h
  split at h
  · cases h
  next sig hsig =>
  simp only at h
  split at h
  · cases h
  split at h
  · cases h
  next hnew =>
  cases h
  refine ⟨_, ⟨hsig, rfl, rfl⟩, rfl, fun g hg hop htarget => hnew ?_⟩
  exact List.any_eq_true.mpr ⟨g, hg, by simp [hop, htarget]⟩

/-- The fragments after a list of definitions are those before it and those it declares. -/
theorem addAll_eq_ok {fs fs' : List Fragment} (h : addAll r fs ds = .ok fs') :
    (∀ f, f ∈ fs' ↔ f ∈ fs ∨ ∃ d ∈ ds, d.Declares f) ∧ (∀ d ∈ ds, ∃ f, d.Declares f) ∧
      (Fragment.Apart fs → Fragment.Apart fs') := by
  fun_induction addAll r fs ds with
  | case1 =>
    cases h
    simp
  | case2 => cases h
  | case3 fs d ds fs₁ hadd ih =>
    obtain ⟨f₀, hdeclares, rfl, hnew⟩ := add_eq_ok hadd
    obtain ⟨hmem, hall, hapart⟩ := ih h
    refine ⟨fun f => ?_, List.forall_mem_cons.mpr ⟨⟨f₀, hdeclares⟩, hall⟩, fun hfs => hapart ?_⟩
    · have hfirst : f = f₀ ↔ d.Declares f := ⟨fun heq => heq ▸ hdeclares, fun hf => hf.unique hdeclares⟩
      rw [hmem, List.mem_append, List.mem_singleton, hfirst, or_assoc, List.exists_mem_cons_iff]
    · refine List.pairwise_append.mpr ⟨hfs, List.pairwise_singleton _ _, fun g hg f hf => ?_⟩
      rw [List.mem_singleton.mp hf]
      exact hnew g hg

theorem pairwise_targets {fs : List Fragment} (h : Fragment.Apart fs) (op : Op) :
    ((ofFragments name fs).targets op).Pairwise fun f g => f.target.number < g.target.number := by
  have hsorted : ((ofFragments name fs).targets op).Pairwise fun f g => f.target.number ≤ g.target.number := by
    refine List.Pairwise.imp ?_ (List.pairwise_mergeSort ?_ ?_ _)
    · intro a b hle
      exact of_decide_eq_true hle
    · intro a b c hab hbc
      simp only [decide_eq_true_eq] at hab hbc ⊢
      exact hab.trans hbc
    · intro a b
      simpa using Nat.le_total a.target.number b.target.number
  have hfilter : (fs.filter (·.op == op)).Pairwise fun f g => f.target ≠ g.target := by
    refine (h.filter _).imp_of_mem fun hf hg hapart => hapart ?_
    rw [beq_iff_eq.mp (List.mem_filter.mp hf).2, beq_iff_eq.mp (List.mem_filter.mp hg).2]
  have hdistinct : ((ofFragments name fs).targets op).Pairwise fun f g => f.target ≠ g.target :=
    (List.mergeSort_perm _ _).symm.pairwise hfilter fun hne => Ne.symm hne
  refine (hsorted.and hdistinct).imp fun hboth => lt_of_le_of_ne hboth.1 fun heq => hboth.2 ?_
  exact Element.number_inj _ _ heq

/-- A table holds what its definitions declare, in element order. -/
theorem build_eq_ok (h : build name ds r = .ok t) :
    (∀ op, (t.targets op).Pairwise fun f g => f.target.number < g.target.number) ∧
      (∀ op f, f ∈ t.targets op ↔ f.op = op ∧ ∃ d ∈ ds, d.Declares f) ∧ ∀ d ∈ ds, ∃ f, d.Declares f := by
  unfold build at h
  split at h
  · cases h
  next fs hfs =>
  cases h
  obtain ⟨hmem, hall, hapart⟩ := addAll_eq_ok hfs
  refine ⟨pairwise_targets (hapart List.Pairwise.nil), fun op f => ?_, hall⟩
  have htargets : f ∈ (ofFragments name fs).targets op ↔ f ∈ fs ∧ f.op = op := by
    simp only [ofFragments, List.mem_mergeSort, List.mem_filter, beq_iff_eq]
  rw [htargets, hmem, and_comm]
  simp

theorem lookup_eq_some (h : build name ds r = .ok t) {op : Op} {e : Element} {f : Fragment} :
    t.lookup op e = some f ↔ f.op = op ∧ f.target = e ∧ ∃ d ∈ ds, d.Declares f := by
  obtain ⟨hsorted, hmem, -⟩ := build_eq_ok h
  have hnodup : ((t.targets op).map (·.target.number)).Nodup :=
    List.pairwise_map.mpr ((hsorted op).imp fun hlt => hlt.ne)
  rw [lookup]
  constructor
  · intro hfound
    have htarget : f.target = e := by simpa using List.find?_some hfound
    obtain ⟨hop, hdeclared⟩ := (hmem op f).mp (List.mem_of_find?_eq_some hfound)
    exact ⟨hop, htarget, hdeclared⟩
  · rintro ⟨hop, rfl, hdeclared⟩
    have hf := (hmem op f).mpr ⟨hop, hdeclared⟩
    cases hfound : (t.targets op).find? (·.target == f.target) with
    | none => exact absurd (beq_self_eq_true f.target) (List.find?_eq_none.mp hfound f hf)
    | some g =>
      have htarget : g.target = f.target := by simpa using List.find?_some hfound
      exact congrArg some (List.inj_on_of_nodup_map hnodup (List.mem_of_find?_eq_some hfound) hf
        (congrArg Element.number htarget))

/-- Whatever the helpers do, a fragment of a table is evaluated without asking for an input or a value that is not
    there, and leaves what its target needs. A table has at most one fragment for an op and a target, in element order,
    and finds the one that a definition declares. -/
theorem build_safe_and_typed (hr : ∀ b ∈ r.helpers, 0 ≤ b.arity) (ht : build name ds r = .ok t) :
    (∀ op, ∀ f ∈ t.targets op, ∀ r', r.Alike r' → ∀ inputs : List Value, inputs.length = f.inputs.length → ∀ p c,
      (∀ e c', f.eval r' inputs p c = (.error e, c') ↔ ∃ x, e = .helper x ∧ f.HelperFails r' inputs p c x c') ∧
      ((∀ x c', ¬f.HelperFails r' inputs p c x c') → f.Completes r' inputs p c)) ∧
    (∀ op, (t.targets op).Pairwise fun f g => f.target.number < g.target.number) ∧
    (∀ op e f, t.lookup op e = some f ↔ f.op = op ∧ f.target = e ∧ ∃ d ∈ ds, d.Declares f) ∧
    ∀ op e, (∃ f, t.lookup op e = some f) ↔
      ∃ d ∈ ds, ∃ s, Signature.parse d.name = .ok s ∧ s.op = op ∧ s.target = e := by
  obtain ⟨hsorted, -, hall⟩ := build_eq_ok ht
  refine ⟨fun op f hf r' halike inputs hinputs p c => ?_, hsorted, fun op e f => lookup_eq_some ht, fun op e => ?_⟩
  · have hcompletes := check_evaluates hr (build_checked ht (some op) f hf) halike hinputs p c
    exact ⟨fun e c' => Fragment.eval_eq_error hcompletes, hcompletes⟩
  · constructor
    · rintro ⟨f, hf⟩
      obtain ⟨hop, htarget, d, hd, hdeclares⟩ := (lookup_eq_some ht).mp hf
      exact ⟨d, hd, f.toSignature, hdeclares.1, hop, htarget⟩
    · rintro ⟨d, hd, s, hs, rfl, rfl⟩
      obtain ⟨f, hdeclares⟩ := hall d hd
      obtain rfl : s = f.toSignature := Except.ok.inj (hs.symm.trans hdeclares.1)
      exact ⟨f, (lookup_eq_some ht).mpr ⟨rfl, rfl, d, hd, hdeclares⟩⟩

/-- A register from the others, declared out of order. -/
def negating : List Definition :=
  [⟨"pure_CLC_ECX_EAX_EAX", none, "add32"⟩, ⟨"pure_CLC_EAX_EBX", some [.input 0, .dup, .pop, .call "neg32"], ""⟩]

/-- Both registers are found, the first one first. -/
theorem build_safe_and_typed_negating : (∀ b ∈ Registry.builtin.helpers, 0 ≤ b.arity) ∧
    ∃ t f g, build "negating" negating .builtin = .ok t ∧ t.lookup .clc (.gpr .ecx) = some f ∧
      t.lookup .clc (.gpr .eax) = some g ∧
      ((t.targets .clc).Pairwise fun f g => f.target.number < g.target.number) ∧
      ∀ v p c, (∀ x c', ¬g.HelperFails .builtin [v] p c x c') → g.Completes .builtin [v] p c := by
  have hok : (addAll .builtin [] negating).toOption.any (fun fs => decide (
      (∃ f ∈ fs, f.op = .clc ∧ f.target = .gpr .ecx) ∧
      ∃ f ∈ fs, f.op = .clc ∧ f.target = .gpr .eax ∧ f.inputs.length = 1)) = true := by decide +kernel
  obtain ⟨fs, hfs, hmem⟩ := exists_ok_of_any hok
  obtain ⟨⟨f, hf, hfop, hftarget⟩, g, hg, hgop, hgtarget, hinputs⟩ := of_decide_eq_true hmem
  have ht : build "negating" negating .builtin = .ok (ofFragments "negating" fs) := build_of_addAll hfs
  obtain ⟨heval, hsorted, hlookup, -⟩ := build_safe_and_typed Registry.builtin_arity ht
  have hdeclared (f : Fragment) (hf : f ∈ fs) : ∃ d ∈ negating, d.Declares f := by
    simpa using ((addAll_eq_ok hfs).1 f).mp hf
  have hfound := (hlookup .clc (.gpr .eax) g).mpr ⟨hgop, hgtarget, hdeclared g hg⟩
  exact ⟨Registry.builtin_arity, _, f, g, ht, (hlookup .clc (.gpr .ecx) f).mpr ⟨hfop, hftarget, hdeclared f hf⟩, hfound, hsorted .clc,
    fun v p c hnone =>
      (heval .clc g (List.mem_of_find?_eq_some hfound) .builtin (.refl _) [v] hinputs.symm p c).2 hnone⟩

end Table
end MicroBlock
