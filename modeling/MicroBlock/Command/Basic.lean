import MicroBlock.Archive.Basic
import MicroBlock.Command.Options
import MicroBlock.Container.Listing
import MicroBlock.Engine
import MicroBlock.Listing

/-! The command: compiles the block of a listing, runs it and shows the machine, and compares the run
with the interpreter's on request. -/

namespace MicroBlock.Command

/-- What a call finds around it. -/
structure Surroundings where
  /-- The execution mode that the user asked for. -/
  setting : String := ""
  /-- The texts of files by path. -/
  file? : String → Option String
  /-- The archives of directories by path, opened in a session of this call. -/
  archive : String → Archive

/-- What a call leaves behind. -/
structure Outcome where
  exit : Nat := 0
  output : List String := []
  log : List String := []
  /-- The archive that was used, and its path. -/
  archive : Option (String × Archive) := none

/-- A call in progress, which may end early with an exit code. -/
abbrev Call := ExceptT Nat (StateM Outcome)

namespace Call

def print (lines : List String) : Call Unit := modify fun o => { o with output := o.output ++ lines }

/-- The lines of a text, the last of which may end in a line break or not. -/
def linesOf (text : String) : List String :=
  match (Text.split '\n' text).reverse with
  | "" :: line :: lines => (line :: lines).reverse
  | lines => lines.reverse

/-- Adds texts to the log. -/
def note (texts : List String) : Call Unit :=
  modify fun o => { o with log := o.log ++ texts.flatMap linesOf }

/-- Gives up on a request that cannot be served. -/
def fail {α : Type} (line : String) : Call α := do
  note [line]
  throw 1

/-- Gives up on a request that should never have been made. -/
def abort {α : Type} (message : String) : Call α := do
  note ["panic: " ++ message]
  throw 2

def keep (path : String) (a : Archive) : Call Unit := modify fun o => { o with archive := some (path, a) }

/-- A result, or the end of the call with the words for the error. -/
def orFail {ε α : Type} (label : String) (message : ε → Message) : Except ε α → Call α
  | .ok a => pure a
  | .error e => fail (label ++ (message e).line)

end Call

open Call

/-! ### What a run shows -/

/-- Everything that is compared between two runs, memory apart. -/
structure Observation where
  completed : Nat
  error : String
  gpr : List UInt32
  eip : UInt32
  eflags : UInt32
  retired : UInt64
  writes : List PortWrite
  faults : List Delivery
  deriving DecidableEq

def observe (m : Machine) (completed : Nat) (error : String) : Observation where
  completed
  error
  gpr := Gpr.all.map m.gpr.get
  eip := m.eip
  eflags := m.eflags
  retired := m.retired
  writes := (m.ports.map (·.writes)).getD []
  faults := m.delivered

def hex8 (v : UInt32) : String := Text.hexPadded 8 v.toNat

/-- Four registers to a line. -/
def registerLine (m : List (Gpr × UInt32)) : String :=
  String.join (m.map fun r => (Element.reg (.gpr r.1)).name ++ "=" ++ hex8 r.2 ++ " ")

def writeLine (w : PortWrite) : String :=
  "out port 0x" ++ Text.hexPadded 4 w.port.toNat ++ " size " ++ toString w.size ++ " value 0x" ++
    Text.hex w.value.toNat

def faultLine (d : Delivery) : String :=
  "fault " ++ (Value.fault d.fault).describe ++ " in " ++ d.mode.name ++ " mode at EIP " ++ hex8 d.eip

def Observation.lines (o : Observation) : List String :=
  let gpr := Gpr.all.zip o.gpr
  ["completed " ++ toString o.completed ++ " instructions"] ++
    (if o.error = "" then [] else ["error: " ++ o.error]) ++
    [registerLine (gpr.take 4), registerLine (gpr.drop 4), "EIP=" ++ hex8 o.eip ++ " EFLAGS=" ++ hex8 o.eflags] ++
    o.writes.map writeLine ++ o.faults.map faultLine

/-! ### Steps of a call -/

/-- A text filled up with blanks on the right. -/
def padRight (width : Nat) (s : String) : String :=
  s ++ String.ofList (List.replicate (width - s.length) ' ')

def padLeft (width : Nat) (s : String) : String :=
  String.ofList (List.replicate (width - s.length) ' ') ++ s

def entryLine (e : Archive.Entry) : String :=
  padRight 40 e.name ++ " " ++ padLeft 6 (toString e.size) ++ " bytes  session " ++
    Archive.sessionText e.session

def listEntries (a : Archive) : Call Unit := do
  let es ← orFail "Failed to list archive: " Archive.Error.message a.entries
  print (es.map entryLine)

/-- The listing of a call with its mode and its block. -/
structure Request where
  listing : Listing
  mode : Mode
  stream : Stream

def readRequest (s : Surroundings) (o : Options) : Call Request := do
  if o.block = "" then fail "Error: --block flag is required"
  let some text := s.file? o.block
    | fail ("Failed to read listing: open " ++ o.block ++ ": no such file or directory")
  let some listing := Listing.read? text | fail "Failed to read listing: parse listing"
  let some mode := Mode.ofName? listing.mode
    | fail ("Invalid mode: " ++ (Mode.unknownMessage listing.mode).line)
  let block ← orFail "Invalid listing: " Listing.BlockError.message listing.block
  let stream ← orFail "Invalid block: " StreamError.message (Stream.ofBlock block)
  return { listing, mode, stream }

/-- Loads the archived units, and archives those loaded from then on. -/
def restore (path : String) (a : Archive) (e : Engine) : Call Engine := do
  let (result, n, loader) := a.restore e.loader
  if let .error x := result then note ["Restore from archive stopped: " ++ x.message.line]
  note ["Restored " ++ toString n ++ " units from " ++ path]
  return { e with loader, compiler := { e.compiler with archiving := true } }

/-- Hands a unit that was loaded to the archive of the call. -/
def archiveUnit (c : Compilation) : Call Unit := do
  match (← get).archive with
  | none => note c.log
  | some (path, a) =>
    let (c, a) := c.archive Archive.accept a
    keep path a
    note c.log

def compile (r : Request) (e : Engine) : Call Engine := do
  if e.mode ≠ .compiled then return e
  let target := Target.ofMode r.mode
  let c := e.compiler.compileStream e.loader target r.stream ""
  archiveUnit c
  match c.result with
  | .ok _ => note ["Compiled " ++ Compiler.nameFor target r.stream ""]
  | .error (.error x) => note ["Compile failed, block will be interpreted: " ++ x.message]
  | .error (.unwritable x) => abort x.message
  | .error .crash => abort ""
  return { e with compiler := c.compiler, loader := c.loader }

def disassemble (r : Request) (e : Engine) : Call Unit := do
  match e.loader.find? (Compiler.nameFor (Target.ofMode r.mode) r.stream "") with
  | none => note ["No unit to disassemble"]
  | some unit =>
    let (lines, error) := unit.module.listing
    print lines
    if let some x := error then fail ("Failed to disassemble: " ++ x.message.line)

def machine (r : Request) : Call Machine :=
  match r.listing.machine r.mode with
  | .ok m => pure m
  | .error .memorySize => abort Listing.MachineError.memorySize.message.line
  | .error e => fail ("Invalid machine: " ++ e.message.line)

/-- Runs the block on the engine. -/
def runBlock (r : Request) (e : Engine) : Call (Observation × Memory × Engine) := do
  let m ← machine r
  let run := e.runStream r.mode r.stream ⟨m, []⟩
  note run.log
  let after := run.context.machine
  let seen ← match run.result with
    | .ok n => pure (observe after n "")
    | .error (.unwritable x) => abort x.message
    | .error .crash => abort ""
    | .error x => pure (observe after 0 x.message.text)
  return (seen, after.memory, run.engine)

/-- Runs the block in the interpreter alone. -/
def interpretBlock (r : Request) : Call (Observation × Memory) := do
  let m ← machine r
  let (result, c) := Interpreter.runMode r.mode .builtin r.stream ⟨m, []⟩
  let seen ← match result with
    | .ok n => pure (observe c.machine n "")
    | .error .crash => abort ""
    | .error x => pure (observe c.machine 0 x.message.text)
  return (seen, c.machine.memory)

def compareRuns (r : Request) (got : Observation) (memory : Memory) : Call Unit := do
  let (want, wanted) ← interpretBlock r
  if want = got ∧ wanted = memory then note ["Compiled and interpreted runs agree"]
  else fail "Compiled run differs from the interpreter (-interpreted +run):"

def statsLine (e : Engine) : String :=
  "Stats: compiled runs " ++ toString e.compiledRuns ++ ", interpreted runs " ++
    toString e.interpretedRuns ++ ", units " ++ toString e.compiler.compiled ++ ", cache hits " ++
    toString e.compiler.hits ++ ", code bytes " ++ toString e.compiler.codeBytes

/-! ### The whole call -/

def serve (s : Surroundings) (o : Options) : Call Unit := do
  if o.archive ≠ "" then keep o.archive (s.archive o.archive)
  let archive := (← get).archive
  if o.list then
    match archive with
    | none => fail "Error: --list needs --archive"
    | some (_, a) => listEntries a
  else
    let r ← readRequest s o
    let e := Engine.new (.ofSetting s.setting) .builtin 0 { slotUnits := o.maxSlots }
    note ["Execution mode " ++ e.mode.name]
    let e ← match archive with
      | none => pure e
      | some (path, a) => restore path a e
    let e ← compile r e
    if o.disasm then disassemble r e
    let (got, memory, e) ← runBlock r e
    print got.lines
    if o.compare then compareRuns r got memory
    note [statsLine e]

/-- Serves a call with some arguments. -/
def call (s : Surroundings) (args : List String) : Outcome :=
  match Options.parse args with
  | .error e => { exit := e.exitCode, log := e.message?.toList.flatMap (Text.split '\n') ++ Options.usage }
  | .ok o =>
    match (serve s o).run {} with
    | (.ok (), out) => out
    | (.error code, out) => { out with exit := code }

end MicroBlock.Command
