import MicroBlock.Archive.Records
import MicroBlock.Command.Basic

/-! The command line. An archive is a directory with one file of records. -/

namespace MicroBlock

/-- The variable that holds the execution mode. -/
def modeVariable : String := "PCEMU_MODE"

def recordsPath (directory : String) : String := directory ++ "/records"

/-- The text of a file, if it can be read. -/
def readText? (path : String) : IO (Option String) :=
  tryCatch (some <$> IO.FS.readFile path) fun _ => pure none

/-- Sixteen random bytes, marked as a random identifier. -/
def newSession : IO Bytes := do
  let b := (← IO.getRandomBytes 16).toList
  return (b.modify 6 fun x => (x &&& 0x0f) ||| 0x40).modify 8 fun x => (x &&& 0x3f) ||| 0x80

end MicroBlock

open MicroBlock in
def main (args : List String) : IO UInt32 := do
  let options := (Command.Options.parse args).toOption.getD {}
  let text ← readText? options.block
  let records ← if options.archive = "" then pure none else readText? (recordsPath options.archive)
  let session ← newSession
  let outcome := Command.call
    { setting := (← IO.getEnv modeVariable).getD ""
      file? := fun _ => text
      archive := fun _ => Archive.ofLines session (Text.split '\n' (records.getD "")) } args
  outcome.output.forM IO.println
  outcome.log.forM IO.eprintln
  if let some (directory, archive) := outcome.archive then
    IO.FS.createDirAll directory
    IO.FS.writeFile (recordsPath directory) (String.join (archive.lines.map (· ++ "\n")))
  return UInt32.ofNat outcome.exit
