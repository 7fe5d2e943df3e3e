import MicroBlock.Container.Module
import MicroBlock.Cpu.Element
import MicroBlock.Text.Blank

/-! A module as text: slots, constants, links, and the instructions of every method. -/

namespace MicroBlock.Module

/-- A text set to the right in a field. -/
def padLeft (width : Nat) (s : String) : String :=
  String.ofList (List.replicate (width - s.length) ' ') ++ s

/-- What an operand refers to. Element operands count modulo 256. -/
def note (m : Module) : Instr → String
  | .call i =>
    if i.toInt < 0 then ""
    else match m.links[i.toInt.toNat]? with
      | some h => "  ; " ++ h.display
      | none => ""
  | .get e | .set e =>
    match (ElementNumber.mk e.toUInt32.toUInt8).element? with
    | some e => "  ; " ++ e.name
    | none => ""
  | _ => ""

def instrLine (m : Module) (p : Code.Placed) : String :=
  "  " ++ padLeft 5 (toString p.pc) ++ "  " ++ p.instr.describe ++ m.note p.instr

def guardLine (g : Guard) : String :=
  "  handler [" ++ toString g.first.toInt ++ "," ++ toString g.last.toInt ++ ") -> " ++
    toString g.target.toInt

/-- The lines before the methods. -/
def headLines (m : Module) : List String :=
  ["unit " ++ m.name.display] ++
  (m.slots.zipIdx.filter (·.1 != .void)).map (fun s => "  slot " ++ toString s.2 ++ ": " ++ s.1.name) ++
  m.constants.zipIdx.map (fun c => "  const " ++ toString c.2 ++ ": " ++ c.1.describe) ++
  m.links.zipIdx.map (fun l => "  link " ++ toString l.2 ++ ": " ++ l.1.display)

/-- Code that cannot be read ends a listing. -/
structure ListingError where
  method : ByteString
  cause : Code.Error
  deriving DecidableEq

def ListingError.message (e : ListingError) : Message :=
  (Message.plain e.cause.message).under [.label e.method]

def methodLines (m : Module) : List Method → List String × Option ListingError
  | [] => ([], none)
  | me :: rest =>
    let title := me.name.display ++ ": " ++ toString me.code.length ++ " bytes"
    match Code.decode me.code with
    | .error e => ([title], some ⟨me.name, e⟩)
    | .ok insts =>
      let (lines, e) := m.methodLines rest
      (title :: (insts.map m.instrLine ++ me.guards.map guardLine ++ lines), e)

/-- The lines of the listing, and the error that cut it short if there is one. A name with line breaks
    takes several lines. -/
def listing (m : Module) : List String × Option ListingError :=
  let (lines, e) := m.methodLines m.methods
  ((m.headLines ++ lines).flatMap (Text.split '\n'), e)

end MicroBlock.Module
