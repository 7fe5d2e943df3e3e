import MicroBlock.Container.Codec
import MicroBlock.Loader.Execution

/-! Loading: containers become code blocks that can be run. Blocks are registered by name and never
unloaded. -/

namespace MicroBlock

/-- A verified and linked unit. -/
structure CodeBlock where
  name : String
  module : Module
  /-- The container it was loaded from. -/
  bytes : Bytes
  helpers : List Helper
  routines : List Routine
  /-- The number of x86 instructions of the block. -/
  count : Nat
  /-- The length of the block in bytes. -/
  length : Nat
  microcodes : List Int32
  positions : List Int32

/-- Why a unit was not loaded. -/
inductive LoadError where
  | duplicate (name : String)
  | container (name : String) (e : Module.DecodeError)
  | misnamed (name : String) (actual : ByteString)
  | unresolved (name : String) (helper : ByteString)
  | method (name : String) (method : ByteString) (e : Routine.Error)
  | missing (name : String) (method : String)
  | accessor (name : String) (method : String) (e : Execution.Error)
  /-- An accessor of an array gave something else. -/
  | notArray (name : String) (method : String) (v : Value)
  /-- The loader takes no units. -/
  | turnedAway (reason : String)
  deriving DecidableEq

def LoadError.message : LoadError → Message
  | duplicate name => Ground.duplicate.under [.given name]
  | container name e => e.message.under [.given name]
  | misnamed name actual => Routine.refused [.given name, ": unit is named ", .given actual]
  | unresolved name helper =>
    (Routine.refused ["unresolved helper ", .given helper]).under [.given name]
  | method name me e => (e.message me).under [.given name]
  | missing name me => (Routine.refused ["missing method ", .given me]).under [.given name]
  | accessor name me e => (e.message me).under [.given name]
  | notArray name me v =>
    (Routine.refused [.given me, " returned ", .given v.spelling]).under [.given name]
  | turnedAway reason => .plain reason

structure Loader where
  helpers : Registry
  /-- The loaded blocks, first loaded first. -/
  blocks : List CodeBlock := []
  /-- A loader can be closed to all units; then it holds the reason and finds nothing. -/
  closed : Option String := none
  /-- The helpers that accessors of loaded units called, latest first. -/
  calls : List String := []

namespace CodeBlock

/-- The routine of a name; of several the last counts. -/
def routine? (routines : List Routine) (name : String) : Option Routine :=
  routines.reverse.find? (·.name == ByteString.ofString name)

def linkage (m : Module) (helpers : List Helper) : Linkage where
  constants := m.constants
  slots := m.slots.length
  helpers

/-- Runs the block and returns the number of instructions it completed. -/
def execute (b : CodeBlock) (c : Context) : Except Execution.Error Nat × Context :=
  match routine? b.routines Module.executeMethod with
  | none => (.error .crash, c)
  | some r =>
    match Execution.run (linkage b.module b.helpers) r true c with
    | (.ok v, c) => (.ok v.toUInt32.toNat, c)
    | (.error e, c) => (.error e, c)

/-- The words for an error of a run. -/
def errorMessage (e : Execution.Error) : Message := e.message Module.executeMethod

/-- What a run without a processor is answered with. -/
def noProcessor : String := "execute without a processor state"

end CodeBlock

namespace Loader

def find? (l : Loader) (name : String) : Option CodeBlock :=
  if l.closed.isSome then none else l.blocks.find? (·.name == name)

def size (l : Loader) : Nat := l.blocks.length

/-- The helpers behind the links of a module. -/
def resolve (r : Registry) (name : String) : List ByteString → Except LoadError (List Helper)
  | [] => .ok []
  | s :: rest =>
    match r.helpers.find? fun h => ByteString.ofString h.name == s with
    | none => .error (.unresolved name s)
    | some h =>
      match resolve r name rest with
      | .error e => .error e
      | .ok hs => .ok (h :: hs)

def verify (m : Module) (helpers : List Helper) (name : String) :
    List Method → Except LoadError (List Routine)
  | [] => .ok []
  | me :: rest =>
    match Routine.ofMethod m helpers me with
    | .error e => .error (.method name me.name e)
    | .ok r =>
      match verify m helpers name rest with
      | .error e => .error e
      | .ok rs => .ok (r :: rs)

/-- An accessor runs without a processor; the memory of the stand-in is never reached. -/
def runAccessor (link : Linkage) (routines : List Routine) (name method : String)
    (calls : List String) : Except LoadError Value × List String :=
  match CodeBlock.routine? routines method with
  | none => (.error (.missing name method), calls)
  | some r =>
    match Execution.run link r false ⟨.reset (.ofSize 0), calls⟩ with
    | (.ok v, c) => (.ok v, c.calls)
    | (.error e, c) => (.error (.accessor name method e), c.calls)

/-- An accessor that must give an array. -/
def runArrayAccessor (link : Linkage) (routines : List Routine) (name method : String)
    (calls : List String) : Except LoadError (List Int32) × List String :=
  match runAccessor link routines name method calls with
  | (.ok (.ints a), calls) => (.ok a, calls)
  | (.ok v, calls) => (.error (.notArray name method v), calls)
  | (.error e, calls) => (.error e, calls)

/-- What the accessors of a block tell. -/
structure Summary where
  count : Nat
  length : Nat
  microcodes : List Int32
  positions : List Int32

def summary (link : Linkage) (routines : List Routine) (name : String) (calls : List String) :
    Except LoadError Summary × List String :=
  match runAccessor link routines name Module.countMethod calls with
  | (.error e, calls) => (.error e, calls)
  | (.ok count, calls) =>
    match runAccessor link routines name Module.lengthMethod calls with
    | (.error e, calls) => (.error e, calls)
    | (.ok length, calls) =>
      match runArrayAccessor link routines name Module.microcodesMethod calls with
      | (.error e, calls) => (.error e, calls)
      | (.ok microcodes, calls) =>
        match runArrayAccessor link routines name Module.positionsMethod calls with
        | (.error e, calls) => (.error e, calls)
        | (.ok positions, calls) =>
          (.ok ⟨count.toUInt32.toNat, length.toUInt32.toNat, microcodes, positions⟩, calls)

/-- The module in a container, its helpers and its routines. -/
def link (r : Registry) (name : String) (data : Bytes) :
    Except LoadError (Module × List Helper × List Routine) :=
  match Module.decode data with
  | .error e => .error (.container name e)
  | .ok m =>
    if m.name ≠ ByteString.ofString name then .error (.misnamed name m.name)
    else match resolve r name m.links with
      | .error e => .error e
      | .ok helpers =>
        match verify m helpers name m.methods with
        | .error e => .error e
        | .ok routines =>
          match Module.blockMethods.find? fun me => (CodeBlock.routine? routines me).isNone with
          | some me => .error (.missing name me)
          | none => .ok (m, helpers, routines)

/-- Loads a container and registers it under a name. A unit that is turned down leaves the blocks as
    they were. -/
def load (l : Loader) (name : String) (data : Bytes) : Except LoadError CodeBlock × Loader :=
  match l.closed with
  | some reason => (.error (.turnedAway reason), l)
  | none =>
    if (l.find? name).isSome then (.error (.duplicate name), l)
    else match link l.helpers name data with
      | .error e => (.error e, l)
      | .ok (m, helpers, routines) =>
        match summary (CodeBlock.linkage m helpers) routines name l.calls with
        | (.error e, calls) => (.error e, { l with calls })
        | (.ok r, calls) =>
          let b : CodeBlock :=
            { name, module := m, bytes := data, helpers, routines, count := r.count
              length := r.length, microcodes := r.microcodes, positions := r.positions }
          (.ok b, { l with blocks := l.blocks ++ [b], calls })

end Loader
end MicroBlock
