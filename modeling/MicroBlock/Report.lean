import MicroBlock.Archive.Basic
import MicroBlock.Container.Listing
import MicroBlock.Engine
import MicroBlock.Microcode.Assembly

/-! Reports: what an error is about, as far as callers tell errors apart, and the text it is shown
with. What an error goes back to decides what it is about: a fault stays a fault under any number
of layers that pass it on. -/

namespace MicroBlock

/-- What an error is about. -/
inductive Topic where
  | compile (kind : CompileErrorKind)
  | fault
  | unimplemented
  | ground (g : Ground)
  /-- Nothing that callers tell apart. -/
  | plain
  /-- A call that the library refuses to answer. -/
  | refused
  deriving DecidableEq

/-- A topic and a text, or a call that has no answer and no text either. -/
inductive Report where
  | about (topic : Topic) (text : String)
  | crash
  deriving DecidableEq

namespace Report

def plain (text : String) : Report := about .plain text

def refused (text : String) : Report := about .refused text

/-- The report on a message with a ground, if it has one. -/
def grounded (g : Option Ground) (m : Message) : Report := about ((g.map .ground).getD .plain) m.text

end Report

/-- Errors that can be reported. -/
class Reported (ε : Type) where
  report : ε → Report

export Reported (report)

instance : Reported Report := ⟨id⟩

/-! ### One topic each -/

instance : Reported Fault := ⟨fun f => .about .fault f.message⟩
instance : Reported Unimplemented := ⟨fun u => .about .unimplemented u.message⟩
instance : Reported Message := ⟨.grounded none⟩
instance : Reported Slots.Exhausted := ⟨fun e => .grounded (some .slotExhaustion) e.message⟩
instance : Reported StreamError := ⟨fun e => .grounded (some e.ground) e.message⟩
instance : Reported Module.BodyError := ⟨fun e => .grounded (some e.ground) e.message⟩
instance : Reported EmitError := ⟨fun e => .refused e.message⟩
instance : Reported Machine.StoreError := ⟨fun e => .refused e.message⟩
instance : Reported Assembly.Error := ⟨fun e => report e.message⟩
instance : Reported Assembly.TokenError := ⟨fun e => report e.message⟩
instance : Reported Signature.NameError := ⟨fun e => report e.message⟩
instance : Reported Table.Error := ⟨fun e => report e.message⟩
instance : Reported Registry.Error := ⟨fun e => report e.message⟩
instance : Reported Code.Error := ⟨fun e => .plain e.message⟩
instance : Reported Module.DecodeError := ⟨fun e => report e.message⟩
instance : Reported Module.ListingError := ⟨fun e => report e.message⟩

/-! ### A topic for each cause -/

instance : Reported AccessFailure where
  report
    | .fault f => report f
    | .badSize size => .refused ("processor: bad access size " ++ toString size)
    | .outside => .crash

instance : Reported Rejection where
  report
    | .nothing => .crash
    | e => .plain e.message

instance : Reported HelperError := ⟨fun e => .grounded e.ground? e.message⟩

instance : Reported Failure where
  report
    | .fault f => report f
    | .error e => report e
    | .crash => .crash

instance : Reported Interpreter.Error where
  report
    | .fault f => report f
    | .unimplemented u => report u
    | .helper e => report e
    | .crash => .crash
    | e => report e.message

instance : Reported Fragment.EvalError := ⟨fun e => report (Interpreter.ofEvalError e)⟩

instance : Reported Module.EncodeError where
  report e := .grounded (match e with | .oversize _ _ => some .oversize | _ => none) e.message

instance : Reported Target.UnitError where
  report
    | .oversize size limit =>
      .grounded (some .oversize) (Target.UnitError.oversize size limit).message
    | .body e => report e
    | .emit e => report e

instance : Reported Execution.Error where
  report
    | .fault f => report f
    | .crash => .crash
    | e => .grounded e.ground? (CodeBlock.errorMessage e)

/-- The report on a unit that was not loaded, under a message that may say more about it. -/
def LoadError.reportAs (m : Message) : LoadError → Report
  | duplicate _ => .grounded (some .duplicate) m
  | accessor _ _ (.fault _) => .about .fault m.text
  | accessor _ _ .crash => .crash
  | accessor _ _ e => .grounded e.ground? m
  | turnedAway _ => .grounded none m
  | _ => .grounded (some .invalidUnit) m

instance : Reported LoadError := ⟨fun e => e.reportAs e.message⟩

instance : Reported CompileFailure where
  report
    | .error e => .about (.compile e.kind) e.message
    | .unwritable e => report e
    | .crash => .crash

instance : Reported Pool.Failure where
  report
    | .closed name => .grounded (some .closedPool) (Pool.closedMessage name)
    | .compile e => report e

instance : Reported Archive.Error where
  report e :=
    match e with
    | .notArchived _ => .grounded (some .notArchived) e.message
    | .damaged _ _ => .grounded (some .damaged) e.message
    | .load _ cause => cause.reportAs e.message
    | _ => report e.message

instance : Reported Engine.Error where
  report
    | .stream e => report e
    | .interpreter e => report e
    | .execution e => report e
    | .unwritable e => report e
    | .crash => .crash
    | e => report e.message

end MicroBlock
