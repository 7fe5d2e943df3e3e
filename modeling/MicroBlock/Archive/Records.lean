import MicroBlock.Archive.Basic
import MicroBlock.Text.Blank
import MicroBlock.Text.Hex

/-! Archives written down: a line for every record, with its key and its data in hexadecimal. -/

namespace MicroBlock.Archive

def recordLine (r : Bytes × Bytes) : String := Text.hexBytes r.1 ++ " " ++ Text.hexBytes r.2

def lines (a : Archive) : List String := a.records.map recordLine

/-- Reads a line back. -/
def record? (line : String) : Option (Bytes × Bytes) := do
  let [key, data] := Text.split ' ' line | none
  let key ← Text.bytesOfHex? key.toList
  let data ← Text.bytesOfHex? data.toList
  return (key, data)

/-- The archive of some lines, opened in a session. Lines that are no records are left out. -/
def ofLines (session : Bytes) (lines : List String) : Archive :=
  { session, records := lines.filterMap record? }

end MicroBlock.Archive
