import MicroBlock.Compile.Failure
import MicroBlock.Digest.Blake2b

/-! The compiler: from a stream to a loaded block, with a cache by name and by content. -/

namespace MicroBlock

/-- The content hash of a block: over its microcode words, lowest byte first. -/
def contentSum (microcodes : List Int32) : Bytes :=
  Digest.blake2b256 (microcodes.flatMap fun w => Write.wordLowFirst w.toUInt32)

/-- The name of a block that the caller gave none: the target and the first twelve bytes of the hash. -/
def Target.defaultName (t : Target) (sum : Bytes) : String :=
  t.name ++ "-" ++ Text.hexBytes (sum.take 12)

/-- The content of a block within one target. -/
structure ContentKey where
  target : String
  sum : Bytes
  deriving DecidableEq

/-- What one unit may use. -/
structure CompileLimits where
  slotUnits : Int := 1024
  methodBytes : Int := Module.maxMethodBytes
  deriving DecidableEq

structure Compiler where
  limits : CompileLimits := {}
  /-- Blocks by name. -/
  cache : List (String × CodeBlock) := []
  /-- The first block of every content. -/
  byContent : List (ContentKey × CodeBlock) := []
  /-- The ops found without a lowering, by target. -/
  reported : List (String × Option Op) := []
  compiled : Nat := 0
  hits : Nat := 0
  failures : Nat := 0
  codeBytes : Nat := 0
  /-- Whether loaded units are to be archived. -/
  archiving : Bool := false

/-- What a call of the compiler gives. -/
structure Compilation where
  result : Except CompileFailure CodeBlock
  compiler : Compiler
  loader : Loader
  log : List String := []
  /-- The name and the container of the unit that the call loaded. -/
  fresh : Option (String × Bytes) := none

namespace Compiler

/-- Whether a block was compiled from a stream's words at a stream's positions. -/
def sameBlock (b : CodeBlock) (s : Stream) : Bool :=
  b.microcodes == s.microcodes && b.positions == s.positions

def lookup (c : Compiler) (name : String) : Option CodeBlock := c.cache.lookup name

/-- Enters a block under a name that is not in the cache. -/
def enter (c : Compiler) (name : String) (b : CodeBlock) : Compiler :=
  { c with cache := c.cache ++ [(name, b)] }

/-- Enters a block as the first of its content, unless there is one. -/
def enterContent (c : Compiler) (key : ContentKey) (b : CodeBlock) : Compiler :=
  if (c.byContent.lookup key).isSome then c else { c with byContent := c.byContent ++ [(key, b)] }

def hit (c : Compiler) : Compiler := { c with hits := c.hits + 1 }

/-- Takes note of an op without a lowering; every op is logged once for a target. -/
def report (c : Compiler) (target : String) (op : Option Op) : List String × Compiler :=
  if c.reported.contains (target, op) then ([], c)
  else
    ([target ++ " mode: no lowering for " ++ Op.describe op ++ ", blocks using it will be interpreted"],
      { c with reported := c.reported ++ [(target, op)] })

/-- The ops reported so far, as target and op, in order. -/
def unimplemented (c : Compiler) : List String :=
  (c.reported.map fun r => r.1 ++ "/" ++ Op.describe r.2).mergeSort fun a b => decide (a ≤ b)

/-- The container of a block under a name, or why there is none. -/
inductive BuildError where
  | unimplemented (e : Unimplemented)
  | slots (e : Slots.Exhausted)
  | unit (e : Target.UnitError)
  | encode (e : Module.EncodeError)
  deriving DecidableEq

/-- Draws the graph of a stream, gives it slots, and writes its unit. -/
def build (limits : CompileLimits) (t : Target) (s : Stream) (name : String) : Except BuildError Bytes :=
  match Graph.build t.table true s with
  | .error e => .error (.unimplemented e)
  | .ok g =>
    match Slots.allocate g limits.slotUnits with
    | (.error e, _) => .error (.slots e)
    | (.ok (), slots) =>
      match t.unit name s g slots limits.methodBytes with
      | .error e => .error (.unit e)
      | .ok m =>
        match m.encode with
        | .error e => .error (.encode e)
        | .ok data => .ok data

def BuildError.failure (name : String) : BuildError → CompileFailure
  | unimplemented e =>
    .error { kind := .unimplementedMicrocode, block := name, cause := some (.unimplemented e) }
  | slots e => .error { kind := .slotExhaustion, block := name, cause := some (.slots e) }
  | unit (.emit e) => .unwritable e
  | unit (.body (.unknownMethod me)) =>
    .error { kind := .malformedBlock, block := name, detail := "emit"
             cause := some (.unit (.body (.unknownMethod me))) }
  | unit e => .error { kind := .oversizeUnit, block := name, cause := some (.unit e) }
  | encode e =>
    .error { kind := .malformedBlock, block := name, detail := "encode", cause := some (.encode e) }

/-- The lines of the log on a block; a name or a message with line breaks takes several. -/
def logLines (name message : String) : List String :=
  Text.split '\n' ("compile " ++ name ++ ": " ++ message)

/-- The log of a failed build, and the compiler that took note of it. -/
def noteBuildError (c : Compiler) (t : Target) (name : String) : BuildError → List String × Compiler
  | .unimplemented e => c.report t.name e.op
  | .slots e => (logLines name e.message.line, c)
  | .unit (.oversize size limit) =>
    (logLines name (Target.UnitError.oversize size limit).message.line, c)
  | .unit (.body (.oversize me size)) =>
    (logLines name (Target.UnitError.body (.oversize me size)).message.line, c)
  | _ => ([], c)

def collision (name which : String) : CompileFailure :=
  .error { kind := .nameCollision, block := name, detail := which ++ " unit has different microcode" }

/-- Compiles and loads a stream that was not found under its name or its content. -/
def load (c : Compiler) (l : Loader) (t : Target) (s : Stream) (key : ContentKey) (name : String) :
    Compilation :=
  match build c.limits t s name with
  | .error e =>
    let (log, c) := c.noteBuildError t name e
    { result := .error (e.failure name), compiler := c, loader := l, log }
  | .ok data =>
    match l.load name data with
    | (.error (.accessor _ _ .crash), l) => { result := .error .crash, compiler := c, loader := l }
    | (.error e, l) =>
      let e : CompileError := { kind := .loadFailure, block := name, cause := some (.load e) }
      { result := .error (.error e), compiler := c, loader := l, log := logLines name e.message }
    | (.ok b, l) =>
      let c := (c.enter name b).enterContent key b
      { result := .ok b
        compiler := { c with compiled := c.compiled + 1, codeBytes := c.codeBytes + data.length }
        loader := l
        fresh := some (name, data) }

/-- Looks for a stream under its name, in the cache and in the loader, then under its content, and
    compiles it if it is nowhere. -/
def find (c : Compiler) (l : Loader) (t : Target) (s : Stream) (sum : Bytes) (name : String) :
    Compilation :=
  let key : ContentKey := ⟨t.name, sum⟩
  match c.lookup name with
  | some b =>
    if sameBlock b s then { result := .ok b, compiler := c.hit, loader := l }
    else { result := .error (collision name "cached"), compiler := c, loader := l }
  | none =>
    match l.find? name with
    | some b =>
      if sameBlock b s then
        { result := .ok b, compiler := ((c.enter name b).enterContent key b).hit, loader := l }
      else { result := .error (collision name "loaded"), compiler := c, loader := l }
    | none =>
      match c.byContent.lookup key with
      | some b =>
        if sameBlock b s then { result := .ok b, compiler := (c.enter name b).hit, loader := l }
        else c.load l t s key name
      | none => c.load l t s key name

/-- Counts a failed call. -/
def countFailure (r : Compilation) : Compilation :=
  match r.result with
  | .error (.error _) => { r with compiler := { r.compiler with failures := r.compiler.failures + 1 } }
  | _ => r

/-- The name a stream is compiled under: the one given, or the default. -/
def nameFor (t : Target) (s : Stream) (name : String) : String :=
  if name = "" then t.defaultName (contentSum s.microcodes) else name

/-- Compiles a stream. -/
def compileStream (c : Compiler) (l : Loader) (t : Target) (s : Stream) (name : String) : Compilation :=
  countFailure (c.find l t s (contentSum s.microcodes) (nameFor t s name))

def streamError (name : String) (e : StreamError) : CompileError :=
  { kind := if e = .emptyBlock then .emptyBlock else .malformedBlock, block := name
    cause := some (.stream e) }

/-- Compiles a block. Without a target only a faulty block is told. -/
def compile (c : Compiler) (l : Loader) (t : Option Target) (b : Block) (name : String) : Compilation :=
  match Stream.ofBlock b with
  | .error e => countFailure { result := .error (.error (streamError name e)), compiler := c, loader := l }
  | .ok s =>
    match t with
    | none => { result := .error .crash, compiler := c, loader := l }
    | some t => c.compileStream l t s name

/-- Numbers on a compiler's work. -/
structure Stats where
  compiled : Nat
  hits : Nat
  failures : Nat
  codeBytes : Nat
  cached : Nat
  archiving : Bool
  deriving DecidableEq

def stats (c : Compiler) : Stats :=
  ⟨c.compiled, c.hits, c.failures, c.codeBytes, c.cache.length, c.archiving⟩

end Compiler

/-- Hands the unit that a call loaded to a store, if the compiler archives. A store that refuses is
    logged. -/
def Compilation.archive {σ : Type} (r : Compilation) (store : String → Bytes → σ → Except Message σ)
    (s : σ) : Compilation × σ :=
  match r.fresh with
  | some (name, data) =>
    if r.compiler.archiving then
      match store name data s with
      | .ok s => (r, s)
      | .error e =>
        ({ r with log := r.log ++ Text.split '\n' ("archive " ++ name ++ ": " ++ e.line) }, s)
    else (r, s)
  | none => (r, s)

end MicroBlock
