import Mathlib
import MicroBlock.Proofs.Endings
import MicroBlock.Proofs.Precision
import MicroBlock.Proofs.Seams

/-! Evaluating ops by hand.

A fragment is a few steps on a stack, an op a few fragments over the same values, and a run of the interpreter
goes through ops one record at a time. Each of the three has a relation that says how it ends; they are put
together from the steps up, and what they say of a list of ops holds of every run through its records. -/

namespace MicroBlock

/-- The body and the arity of a helper whose result is a number. -/
structure Builtin.Computes (b : Builtin) (body : Body) (arity : Int) : Prop where
  body : b.body = body
  arity : b.arity = arity
  result : b.result = .int

namespace Fragment

/-! ### Steps -/

/-- Steps, run on a stack and a machine, end with a result and leave a machine. -/
def Yields (vs : List Value) (p : Place) (ss : List Step) (stack : List Value) (m : Machine)
    (r : Except EvalError (List Value)) (m' : Machine) : Prop :=
  ∀ name calls, ∃ calls', evalSteps .builtin name vs p ss stack ⟨m, calls⟩ = (r, ⟨m', calls'⟩)

namespace Yields
variable {vs : List Value} {p : Place} {ss : List Step} {stack : List Value} {m m₁ m' : Machine} {v : Value}
  {r : Except EvalError (List Value)} {b : Builtin} {below : List Value}

theorem nil : Yields vs p [] stack m (.ok stack) m := fun _ calls => ⟨calls, rfl⟩

theorem input {i : Nat} (hv : vs[i]? = some v) (h : Yields vs p ss (v :: stack) m r m') :
    Yields vs p (.input i :: ss) stack m r m' := by
  intro name calls
  have hi : input? vs i = some v := by simpa [input?] using hv
  simpa only [evalSteps, evalStep, hi] using h name calls

theorem literal {l : Literal} (h : Yields vs p ss (.ofUInt32 (UInt32.ofInt (l.resolve p)) :: stack) m r m') :
    Yields vs p (.literal l :: ss) stack m r m' :=
  h

theorem arguments? (args : List Value) (hlen : (args.length : Int) = b.arity) (hstack : stack = args.reverse ++ below) :
    b.helper.arguments? stack = some (args, below) := by
  have harity : b.helper.arity = args.length := hlen.symm
  have hrev : args.reverse.length = args.length := List.length_reverse
  simp [Helper.arguments?, hstack, harity, List.take_left' hrev, List.drop_left' hrev]

/-- A helper takes its arguments off the stack and leaves its result, unless it has none. -/
theorem call (args : List Value) (hlen : (args.length : Int) = b.arity) (hstack : stack = args.reverse ++ below)
    (hbody : b.body args m = .ok (v, m₁)) (h : Yields vs p ss (if b.result = .void then below else v :: below) m₁ r m') :
    Yields vs p (Lowering.call b :: ss) stack m r m' := by
  intro name calls
  have hcall : b.helper.call args ⟨m, calls⟩ = (.ok v, ⟨m₁, b.name :: calls⟩) := by
    have : b.helper.body args m = .ok (v, m₁) := hbody
    simp only [Helper.call, this]
    rfl
  have hresult : b.helper.result = b.result := rfl
  simpa only [Lowering.call, evalSteps, evalStep, Builtin.lookup_name, arguments? args hlen hstack, hcall, hresult] using
    h name (b.name :: calls)

theorem call_error (args : List Value) (hlen : (args.length : Int) = b.arity) (hstack : stack = args.reverse ++ below)
    {e : Failure} (hbody : b.body args m = .error e) :
    Yields vs p (Lowering.call b :: ss) stack m (.error (.helper e)) m := by
  intro name calls
  have hcall : b.helper.call args ⟨m, calls⟩ = (.error e, ⟨m, b.name :: calls⟩) := by
    have : b.helper.body args m = .error e := hbody
    simp only [Helper.call, this]
    rfl
  refine ⟨b.name :: calls, ?_⟩
  simp only [Lowering.call, evalSteps, evalStep, Builtin.lookup_name, arguments? args hlen hstack, hcall]

theorem unary {f : UInt32 → UInt32} (hb : b.Computes (Builtin.unary f) 1) {x : UInt32}
    (h : Yields vs p ss (.ofUInt32 (f x) :: below) m r m') :
    Yields vs p (Lowering.call b :: ss) (.ofUInt32 x :: below) m r m' := by
  have hbody : b.body [.ofUInt32 x] m = .ok (.ofUInt32 (f (Value.ofUInt32 x).toUInt32), m) := by
    rw [hb.body]
    rfl
  rw [Value.toUInt32_ofUInt32] at hbody
  refine .call [_] hb.arity.symm rfl hbody ?_
  rwa [hb.result]

theorem binary {f : UInt32 → UInt32 → UInt32} (hb : b.Computes (Builtin.binary f) 2) {x y : UInt32}
    (h : Yields vs p ss (.ofUInt32 (f x y) :: below) m r m') :
    Yields vs p (Lowering.call b :: ss) (.ofUInt32 y :: .ofUInt32 x :: below) m r m' := by
  have hbody : b.body [.ofUInt32 x, .ofUInt32 y] m =
      .ok (.ofUInt32 (f (Value.ofUInt32 x).toUInt32 (Value.ofUInt32 y).toUInt32), m) := by
    rw [hb.body]
    rfl
  rw [Value.toUInt32_ofUInt32, Value.toUInt32_ofUInt32] at hbody
  refine .call [_, _] hb.arity.symm rfl hbody ?_
  rwa [hb.result]

/-- Steps that push the inputs that are left leave all of them on the stack. -/
theorem inputs_from (stack rest : List Value) (hvs : vs = stack.reverse ++ rest) (h : Yields vs p ss vs.reverse m r m') :
    Yields vs p ((List.range' stack.length rest.length).map (fun i => .input i) ++ ss) stack m r m' := by
  induction rest generalizing stack with
  | nil => simpa [hvs] using h
  | cons v rest ih =>
    rw [List.length_cons, List.range'_succ, List.map_cons, List.cons_append]
    exact .input (v := v) (by simp [hvs]) (ih (v :: stack) (by simpa using hvs))

theorem inputs (h : Yields vs p ss vs.reverse m r m') :
    Yields vs p ((List.range vs.length).map (fun i => .input i) ++ ss) [] m r m' := by
  rw [List.range_eq_range']
  exact inputs_from [] vs rfl h

theorem outcome {f : Fragment} (h : Yields vs p f.steps [] m r m') : f.outcome vs p m = (r.map (·.headD .zero), m') := by
  obtain ⟨calls, heval⟩ := h f.name []
  exact outcome_of_evalSteps heval

theorem outcome_ok {f : Fragment} (h : Yields vs p f.steps [] m (.ok (v :: below)) m') : f.outcome vs p m = (.ok v, m') :=
  h.outcome

theorem outcome_effect {f : Fragment} (h : Yields vs p f.steps [] m (.ok []) m') : f.outcome vs p m = (.ok .zero, m') :=
  h.outcome

theorem outcome_error {f : Fragment} {e : EvalError} (h : Yields vs p f.steps [] m (.error e) m') :
    f.outcome vs p m = (.error e, m') :=
  h.outcome

end Yields

section Applied
variable {cls : EffectClass} {op : Op} {target : Element} {inputs : List Element} {b : Builtin} {vs : List Value}
  (hvs : vs.length = inputs.length) (hb : (vs.length : Int) = b.arity) {p : Place} {m m' : Machine}
include hvs hb

theorem outcome_applied {v : Value} (hbody : b.body vs m = .ok (v, m')) :
    (Lowering.applied cls op target inputs b).outcome vs p m = (.ok (if b.result = .void then .zero else v), m') := by
  have h : Yields vs p (Lowering.applied cls op target inputs b).steps [] m
      (.ok (if b.result = .void then [] else [v])) m' := by
    rw [Lowering.applied, Lowering.fragment, ← hvs]
    exact .inputs (.call vs hb (List.append_nil _).symm hbody .nil)
  rw [h.outcome]
  by_cases hv : b.result = .void <;> simp [hv, Except.map]

theorem outcome_applied_error {e : Failure} (hbody : b.body vs m = .error e) :
    (Lowering.applied cls op target inputs b).outcome vs p m = (.error (.helper e), m) := by
  have h : Yields vs p (Lowering.applied cls op target inputs b).steps [] m (.error (.helper e)) m := by
    rw [Lowering.applied, Lowering.fragment, ← hvs]
    exact .inputs (.call_error vs hb (List.append_nil _).symm hbody)
  exact h.outcome_error

end Applied
end Fragment

/-! ### Blocks of ops -/

theorem Op.ofWord?_word (op : Op) : Op.ofWord? op.word = some op := by
  have hlt : op.number < 2 ^ 31 := by
    have h := Op.ofNumber?_number op
    obtain ⟨h, -⟩ := List.getElem?_eq_some_iff.mp h
    exact h.trans (by decide +kernel)
  have hword : op.word.toInt = op.number := Int32.toInt_ofNat_of_lt hlt
  rw [Op.ofWord?, hword, if_neg (by omega), Int.toNat_natCast, Op.ofNumber?_number]

/-- An instruction of ops that take no immediates. -/
def Instruction.ofOps (length : Int64) (ops : List Op) : Instruction := ⟨length, ops.map Op.word⟩

namespace Stream

/-- The records of ops without immediates. -/
def recordsOfOps (start position : Int64) (index : Nat) (ops : List Op) : List Record :=
  ops.map fun op => ⟨some op, none, position, start, index⟩

theorem recordsOf_words (start position : Int64) (index : Nat) {ops : List Op} (h : ∀ op ∈ ops, op.hasImmediate = false) :
    recordsOf start position index (ops.map Op.word) = .ok (recordsOfOps start position index ops) := by
  induction ops with
  | nil => rfl
  | cons op ops ih =>
    have hop := h op List.mem_cons_self
    have hrest := ih fun op' hop' => h op' (List.mem_cons_of_mem op hop')
    rw [List.map_cons, recordsOf]
    simp only [Op.ofWord?_word, hop, hrest]
    rfl

/-- An instruction of ops and then others: its records come first. -/
theorem recordsFrom_ofOps {start : Int64} {index : Nat} {n : Int64} {ops : List Op} (h : ∀ op ∈ ops, op.hasImmediate = false)
    {b : Block} {rs : List Record} (hb : recordsFrom (start + n) (index + 1) b = .ok rs) :
    recordsFrom start index (.ofOps n ops :: b) = .ok (recordsOfOps start (start + n) index ops ++ rs) := by
  simp only [recordsFrom, Instruction.ofOps, recordsOf_words _ _ _ h, hb]

theorem exists_ofBlock (n : Int64) {ops : List Op} (h : ∀ op ∈ ops, op.hasImmediate = false) {b : Block} {rs : List Record}
    (hb : recordsFrom n 1 b = .ok rs) :
    ∃ s, ofBlock (.ofOps n ops :: b) = .ok s ∧ s.records = recordsOfOps 0 n 0 ops ++ rs ∧ s.count = b.length + 1 := by
  have hrs : recordsFrom 0 0 (.ofOps n ops :: b) = .ok (recordsOfOps 0 (0 + n) 0 ops ++ rs) :=
    recordsFrom_ofOps h (by rwa [Int64.zero_add])
  rw [Int64.zero_add] at hrs
  exact ⟨_, ofBlock_of_recordsFrom hrs (List.cons_ne_nil _ _), rfl, rfl⟩

theorem map_op_recordsOfOps (start position : Int64) (index : Nat) (ops : List Op) :
    (recordsOfOps start position index ops).map (·.op) = ops.map some := by
  simp [recordsOfOps]

end Stream

namespace Interpreter

/-! ### Records -/

/-- The values after the results of a record are in. -/
def Values.commit (values : Values) (vs : List (Element × Value)) : Values := vs.foldl (fun b v => b.set v.1 v.2) values

/-- Fragments, evaluated over the same values on a machine, give results and leave a machine. -/
def Gives (values : Values) (place : Place) (fs : List Fragment) (m : Machine) (vs : List (Element × Value))
    (m' : Machine) : Prop :=
  ∀ calls, ∃ calls', evalFragments .builtin values place fs ⟨m, calls⟩ = (.ok vs, ⟨m', calls'⟩)

section Gives
variable {values : Values} {place : Place} {f : Fragment} {fs : List Fragment} {m m₁ m' : Machine} {v : Value}
  {vs : List (Element × Value)}

theorem Gives.nil : Gives values place [] m [] m := fun calls => ⟨calls, rfl⟩

theorem Gives.cons_of_outcome (hf : f.outcome (f.inputs.map values.get) place m = (.ok v, m₁))
    (hfs : Gives values place fs m₁ vs m') :
    Gives values place (f :: fs) m (if f.target.kind = .void then vs else (f.target, v) :: vs) m' := by
  intro calls
  obtain ⟨calls₁, heval⟩ := f.eval_eq_outcome (f.inputs.map values.get) place ⟨m, calls⟩
  rw [hf] at heval
  obtain ⟨calls', hrest⟩ := hfs calls₁
  exact ⟨calls', by simp only [evalFragments, heval, hrest]⟩

theorem Gives.cons {e : Element} (he : f.target = e) (hk : e.kind ≠ .void)
    (hf : f.outcome (f.inputs.map values.get) place m = (.ok v, m₁)) (hfs : Gives values place fs m₁ vs m') :
    Gives values place (f :: fs) m ((e, v) :: vs) m' := by
  subst he
  simpa only [if_neg hk] using hfs.cons_of_outcome hf

/-- An effect leaves no result. -/
theorem Gives.effect (hk : f.target.kind = .void) (hf : f.outcome (f.inputs.map values.get) place m = (.ok v, m₁))
    (hfs : Gives values place fs m₁ vs m') : Gives values place (f :: fs) m vs m' := by
  simpa only [if_pos hk] using hfs.cons_of_outcome hf

theorem Gives.single {e : Element} (he : f.target = e) (hk : e.kind ≠ .void)
    (hf : f.outcome (f.inputs.map values.get) place m = (.ok v, m')) : Gives values place [f] m [(e, v)] m' :=
  .cons he hk hf .nil

theorem gives_copied {op : Op} {target source : Element} (hk : target.kind ≠ .void) :
    Gives values place [Lowering.copied op target source] m [(target, values.get source)] m :=
  .single rfl hk rfl

theorem gives_applied {cls : EffectClass} {op : Op} {target : Element} {inputs : List Element} {b : Builtin}
    (hk : target.kind ≠ .void) (hb : (inputs.length : Int) = b.arity) (hr : b.result ≠ .void)
    (hbody : b.body (inputs.map values.get) m = .ok (v, m')) :
    Gives values place [Lowering.applied cls op target inputs b] m [(target, v)] m' := by
  refine .single rfl hk ?_
  have h : (Lowering.applied cls op target inputs b).outcome (inputs.map values.get) place m = _ :=
    Fragment.outcome_applied (List.length_map _) (by rwa [List.length_map]) hbody
  rwa [if_neg hr] at h

theorem Gives.eq {c c' : Context} (h : Gives values place fs c.machine vs m') {ws : List (Element × Value)}
    (hws : evalFragments .builtin values place fs c = (.ok ws, c')) : ws = vs := by
  obtain ⟨calls, hvs⟩ := h c.calls
  exact Except.ok.inj (Prod.ext_iff.mp (hws.symm.trans hvs)).1

end Gives

/-- Ops, evaluated one after the other in any place, take values and a machine to others. -/
inductive Evaluates (mode : Mode) : List Op → Values → Machine → Values → Machine → Prop where
  | nil {values : Values} {m : Machine} : Evaluates mode [] values m values m
  | cons {op : Op} {ops : List Op} {values values' : Values} {m m₁ m' : Machine} {vs : List (Element × Value)}
      (lowered : Lowering.targets mode op ≠ []) (first : ∀ place, Gives values place (Lowering.targets mode op) m vs m₁)
      (rest : Evaluates mode ops (values.commit vs) m₁ values' m') : Evaluates mode (op :: ops) values m values' m'

/-- An op that gives a result has a lowering. -/
theorem Evaluates.step {mode : Mode} {op : Op} {ops : List Op} {values values' : Values} {m m₁ m' : Machine}
    {r : Element × Value} {vs : List (Element × Value)}
    (h : ∀ place, Gives values place (Lowering.targets mode op) m (r :: vs) m₁)
    (rest : Evaluates mode ops (values.commit (r :: vs)) m₁ values' m') : Evaluates mode (op :: ops) values m values' m' := by
  refine .cons (fun hnil => ?_) h rest
  obtain ⟨calls, heval⟩ := h ⟨0, 0, 0⟩ []
  rw [hnil] at heval
  cases heval

section Single
variable {mode : Mode} {op : Op} {ops : List Op} {values values' : Values} {m m₁ m' : Machine} {target : Element} {v : Value}

theorem Evaluates.copied {source : Element} (ht : Lowering.targets mode op = [Lowering.copied op target source])
    (hk : target.kind ≠ .void) (hv : values.get source = v)
    (rest : Evaluates mode ops (values.commit [(target, v)]) m values' m') :
    Evaluates mode (op :: ops) values m values' m' := by
  subst hv
  exact .step (fun _ => ht ▸ gives_copied hk) rest

theorem Evaluates.applied {cls : EffectClass} {inputs : List Element} {b : Builtin}
    (ht : Lowering.targets mode op = [Lowering.applied cls op target inputs b]) (hk : target.kind ≠ .void)
    (hb : (inputs.length : Int) = b.arity) (hr : b.result ≠ .void)
    (hbody : b.body (inputs.map values.get) m = .ok (v, m₁))
    (rest : Evaluates mode ops (values.commit [(target, v)]) m₁ values' m') :
    Evaluates mode (op :: ops) values m values' m' :=
  .step (fun _ => ht ▸ gives_applied hk hb hr hbody) rest

end Single

theorem Evaluates.append {mode : Mode} {ops ops' : List Op} {values values₁ values' : Values} {m m₁ m' : Machine}
    (h : Evaluates mode ops values m values₁ m₁) (h' : Evaluates mode ops' values₁ m₁ values' m') :
    Evaluates mode (ops ++ ops') values m values' m' := by
  induction h with
  | nil => exact h'
  | cons hne hop _ ih => exact .cons hne hop (ih h')

/-- A record of an op that gives results goes on to them. -/
theorem exists_step {mode : Mode} {p : Progress} {rec : Record} {op : Op} (hop : rec.op = some op)
    (hne : Lowering.targets mode op ≠ []) {vs : List (Element × Value)} {m : Machine}
    (h : Gives p.values (rec.place p.base) (Lowering.targets mode op) p.context.machine vs m) :
    ∃ q, step? (Lowering.table mode) p rec = some q ∧ q.values = Values.commit p.values vs ∧ q.context.machine = m ∧
      q.written = vs.foldl (fun b v => b.set v.1 true) p.written := by
  have htargets : (Lowering.table mode).targets? rec.op = Lowering.targets mode op := by rw [hop]; rfl
  obtain ⟨calls, heval⟩ := h p.context.calls
  refine ⟨_, step?_eq_some.mpr ⟨vs, ⟨m, calls⟩, htargets ▸ hne, htargets ▸ heval, rfl⟩, ?_, rfl, ?_⟩
  · simp only [Progress.commit, enter_values]
    rfl
  · simp only [Progress.commit, enter_written]

/-- A run goes through the records of ops as they are evaluated. -/
theorem Evaluates.exists_advance {mode : Mode} {ops : List Op} {p : Progress} {values' : Values} {m' : Machine}
    (h : Evaluates mode ops p.values p.context.machine values' m') {rs : List Record}
    (hrs : rs.map (·.op) = ops.map some) :
    ∃ q, advance (Lowering.table mode) p rs = some q ∧ q.values = values' ∧ q.context.machine = m' := by
  generalize hv : p.values = values, hm : p.context.machine = m at h
  induction h generalizing p rs with
  | nil =>
    obtain rfl : rs = [] := by simpa using hrs
    exact ⟨p, advance_nil.mpr rfl, hv, hm⟩
  | cons hne hop _ ih =>
    obtain ⟨rec, rs, rfl, hrec, hrest⟩ := List.map_eq_cons_iff.mp hrs
    obtain ⟨p₁, hp₁, hv₁, hm₁, -⟩ := exists_step hrec hne (hv ▸ hm ▸ hop (rec.place p.base))
    obtain ⟨q, hq, hqv, hqm⟩ := ih hrest (hv₁.trans (by rw [hv])) hm₁
    exact ⟨q, advance_cons.mpr ⟨p₁, hp₁, hq⟩, hqv, hqm⟩

/-! ### Runs -/

/-- A run goes through ops that are evaluated, and every register ends with its last value. -/
theorem Evaluates.exists_runMode {mode : Mode} {ops : List Op} {s : Stream} (hs : s.records.map (·.op) = ops.map some)
    {c : Context} (hn : c.machine.Normalised) {values : Values} {m : Machine}
    (h : Evaluates mode ops (initialValues c.machine) c.machine values m) :
    ∃ c', runMode mode .builtin s c = (.ok s.count, c') ∧ c'.machine.SameRest m ∧
      ∀ r, c'.machine.getReg r = r.held (values.get (.reg r)) := by
  obtain ⟨q, hq, rfl, rfl⟩ := Evaluates.exists_advance (p := Progress.start c) h hs
  have hsound := (Progress.sound_start c).advance (Lowering.table_disciplined mode) hq
  exact ⟨q.writeBack, runRecords_of_advance hq, writeBack_sameRest q, hsound.getReg_writeBack hn⟩

/-- The registers other than some hold what they held, and nothing else of the machine has changed. -/
structure ChangesOnly (rs : List Register) (m m' : Machine) : Prop where
  regs : ∀ r, r ∉ rs → m'.getReg r = m.getReg r
  rest : m'.SameRest m

section Ends
variable {values : Values} {m : Machine} (h : ∀ r, m.getReg r = Register.held r (values.get (.reg r)))
include h

theorem gpr_of_ends {r : Gpr} {v : UInt32} (hv : values.get (.gpr r) = .ofUInt32 v) : m.gpr.get r = v := by
  have hr : m.getReg (.gpr r) = .ofUInt32 (values.get (.gpr r)).toUInt32 := h (.gpr r)
  rw [hv, Value.toUInt32_ofUInt32] at hr
  exact Value.ofUInt32_inj hr

theorem flag_of_ends {f : Flag} {b : Bool} (hv : values.get (.flag f) = .ofBool b) :
    m.flags.get f = if b then 1 else 0 := by
  have hr : m.getReg (.flag f) = .ofUInt32 ((values.get (.flag f)).toUInt32 &&& f.mask) := h (.flag f)
  rw [hv, Value.ofBool, Value.toUInt32_ofUInt32] at hr
  rw [Value.ofUInt32_inj hr]
  cases b <;> cases f <;> rfl

theorem changesOnly_of_ends {m₀ : Machine} (hn : m₀.Normalised) {rs : List Register}
    (hv : ∀ r, r ∉ rs → values.get (.reg r) = m₀.getReg r) (hrest : m.SameRest m₀) : ChangesOnly rs m₀ m :=
  ⟨fun r hr => by rw [h, hv r hr, hn.held_getReg], hrest⟩

end Ends

/-- A run ends by handing a fault to the router in an instruction, with the machine as it was at the start. -/
structure Routes (mode : Mode) (x : Fault) (index : Nat) (c : Context) (r : Except Error Nat × Context) : Prop where
  result : r.1 = if c.machine.router = .reject then .error (.helper (.rejected (.fault x mode))) else .ok index
  machine : r.2.machine = { c.machine with
    delivered := if c.machine.router = .queue then c.machine.delivered ++ [⟨mode, some x, c.machine.eip⟩]
      else c.machine.delivered }

theorem restored_initialValues {m : Machine} (hn : m.Normalised) : restored (initialValues m) 0 m = m := by
  refine Machine.eq_of_same (fun r => ?_) (restored_sameRest _ _ _)
  rw [getReg_restored]
  split
  · next hr =>
    subst hr
    have heip : ((initialValues m).get .eip).toUInt32 = m.eip := by
      rw [get_initialValues]
      exact Value.toUInt32_ofUInt32 m.eip
    rw [heip, show UInt32.ofInt (0 : Int64).toInt = 0 from rfl, UInt32.add_zero]
    rfl
  · rw [get_initialValues]
    exact hn.held_getReg r

theorem routes_rollback (mode : Mode) (x : Fault) (index : Nat) {c c' : Context} (hn : c.machine.Normalised)
    (hc : c'.machine = c.machine) :
    Routes mode x index c (rollback .builtin (mode : ModeNumber).routeHelper (initialValues c.machine) 0 x index c') := by
  rw [rollback_eq, hc, restored_initialValues hn]
  cases hr : c.machine.router with
  | absent =>
    have hbody : (Builtin.route mode).body [.cpu, .fault (some x)] c.machine = .ok (.zero, c.machine) :=
      body_route_of_route (by simp [Machine.route, hr])
    rw [hbody]
    exact ⟨by simp [hr], by rw [if_neg (by simp [hr])]⟩
  | queue =>
    have hbody : (Builtin.route mode).body [.cpu, .fault (some x)] c.machine =
        .ok (.zero, { c.machine with delivered := c.machine.delivered ++ [⟨mode, some x, c.machine.eip⟩] }) :=
      body_route_of_route (by simp [Machine.route, hr])
    rw [hbody]
    exact ⟨by simp [hr], by rw [if_pos hr]⟩
  | reject =>
    rw [body_route_reject mode hr]
    exact ⟨by simp [hr, ofFailure], by rw [if_neg (by simp [hr])]⟩

/-- Fragments give results up to one that raises a fault, all without a change to the machine. -/
def FaultsWith (values : Values) (place : Place) (fs : List Fragment) (m : Machine) (x : Fault) : Prop :=
  ∃ done f rest vs, fs = done ++ f :: rest ∧ Gives values place done m vs m ∧
    f.outcome (f.inputs.map values.get) place m = (.error (.helper (.fault x)), m) ∧ f.canFault = true

theorem FaultsWith.exists_raises {mode : Mode} {p : Progress} {rec : Record} {op : Op} (hop : rec.op = some op) {x : Fault}
    (h : FaultsWith p.values (rec.place p.base) (Lowering.targets mode op) p.context.machine x) :
    ∃ done f c, Raises (Lowering.table mode) p rec done f x c ∧ c.machine = p.context.machine := by
  obtain ⟨done, f, rest, vs, htargets, hgives, hout, hcan⟩ := h
  obtain ⟨calls, hdone⟩ := hgives p.context.calls
  obtain ⟨calls', heval⟩ := f.eval_eq_outcome (f.inputs.map p.values.get) (rec.place p.base) ⟨p.context.machine, calls⟩
  rw [hout] at heval
  refine ⟨done, f, ⟨p.context.machine, calls'⟩, ⟨⟨rest, ?_⟩, ⟨vs, _, hdone, heval⟩, hcan⟩, rfl⟩
  rw [hop]
  exact htargets

/-- A fault in the first instruction of a block, before any effect, leaves the machine as it was. -/
theorem Evaluates.routes {mode : Mode} {ops : List Op} {c : Context} {values : Values}
    (h : Evaluates mode ops (initialValues c.machine) c.machine values c.machine) (hn : c.machine.Normalised)
    {s : Stream} {n : Int64} (op : Op) (rest : List Op) {rs : List Record}
    (hs : s.records = Stream.recordsOfOps 0 n 0 (ops ++ op :: rest) ++ rs) {x : Fault}
    (hx : ∀ place, FaultsWith values place (Lowering.targets mode op) c.machine x) :
    Routes mode x 0 c (runMode mode .builtin s c) := by
  obtain ⟨q, hq, rfl, hm⟩ := Evaluates.exists_advance (p := .start c) h (Stream.map_op_recordsOfOps 0 n 0 ops)
  rw [← hm] at hx
  generalize hrec : (⟨some op, none, n, 0, 0⟩ : Record) = rec
  have hindex : rec.index = 0 := by rw [← hrec]
  have hstart : rec.start = 0 := by rw [← hrec]
  obtain ⟨done, f, c', hraises, hc'⟩ := (hx (rec.place q.base)).exists_raises (by rw [← hrec])
  obtain ⟨hsnapshot, hbase⟩ := snapshot_of_advance (by simp [Progress.start]) (by simp [Stream.recordsOfOps]) hq hindex
  have hsplit : s.records = Stream.recordsOfOps 0 n 0 ops ++ rec :: (Stream.recordsOfOps 0 n 0 rest ++ rs) := by
    simp [hs, Stream.recordsOfOps, hrec]
  have hdelta : rec.start - (Progress.start c).base = 0 := by
    rw [hstart, show (Progress.start c).base = 0 from rfl]
    decide
  rw [runMode, run, hsplit, runRecords_append hq, runRecords_of_raises hraises, hsnapshot, hbase, hdelta, hindex]
  exact routes_rollback mode x 0 hn (hc'.trans hm)

end Interpreter
end MicroBlock
