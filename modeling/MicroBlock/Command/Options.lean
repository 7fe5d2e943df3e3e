import MicroBlock.Compile.Compiler
import MicroBlock.Numeral

/-! The options of the command. A name is written after one or two dashes, its value after an equals
sign or as the next argument; a switch needs no value. The first argument that is no option ends the
options. -/

namespace MicroBlock.Command

structure Options where
  block : String := ""
  disasm : Bool := false
  compare : Bool := false
  archive : String := ""
  list : Bool := false
  maxSlots : Int := CompileLimits.slotUnits {}
  deriving DecidableEq

/-- Why a value does not fit its option. -/
inductive ValueFlaw where
  | malformed
  | range
  deriving DecidableEq

def ValueFlaw.message : ValueFlaw → String
  | malformed => "parse error"
  | range => "value out of range"

inductive OptionError where
  | badForm (argument : String)
  | unknown (name : String)
  | noValue (name : String)
  | badSwitch (name value : String) (flaw : ValueFlaw)
  | badValue (name value : String) (flaw : ValueFlaw)
  /-- The user asked for the list of options. -/
  | help
  deriving DecidableEq

namespace OptionError

/-- The words for an error; help is none. -/
def message? : OptionError → Option String
  | badForm argument => some ("bad flag syntax: " ++ argument)
  | unknown name => some ("flag provided but not defined: -" ++ name)
  | noValue name => some ("flag needs an argument: -" ++ name)
  | badSwitch name value flaw =>
    some ("invalid boolean value " ++ Text.quoted value ++ " for -" ++ name ++ ": " ++ flaw.message)
  | badValue name value flaw =>
    some ("invalid value " ++ Text.quoted value ++ " for flag -" ++ name ++ ": " ++ flaw.message)
  | help => none

def exitCode : OptionError → Nat
  | help => 0
  | _ => 2

end OptionError

/-- The values of a switch. -/
def switch? (value : String) : Option Bool :=
  if ["1", "t", "T", "true", "TRUE", "True"].contains value then some true
  else if ["0", "f", "F", "false", "FALSE", "False"].contains value then some false
  else none

namespace Options

/-- What an option takes, and what its value changes. -/
inductive Setter where
  | switch (set : Bool → Options → Options)
  | text (set : String → Options → Options)
  | number (set : Int → Options → Options)

def setter? (name : String) : Option Setter :=
  if name = "block" then some (.text fun v o => { o with block := v })
  else if name = "disasm" then some (.switch fun v o => { o with disasm := v })
  else if name = "compare" then some (.switch fun v o => { o with compare := v })
  else if name = "archive" then some (.text fun v o => { o with archive := v })
  else if name = "list" then some (.switch fun v o => { o with list := v })
  else if name = "max-slots" then some (.number fun v o => { o with maxSlots := v })
  else none

def setSwitch (o : Options) (name value : String) (set : Bool → Options → Options) :
    Except OptionError Options :=
  match switch? value with
  | some v => .ok (set v o)
  | none => .error (.badSwitch name value .malformed)

/-- Sets an option that needs a value. -/
def setValue (o : Options) (name value : String) : Setter → Except OptionError Options
  | .switch set => o.setSwitch name value set
  | .text set => .ok (set value o)
  | .number set =>
    match Numeral.read value with
    | .ok v => .ok (set v o)
    | .error .malformed => .error (.badValue name value .malformed)
    | .error .range => .error (.badValue name value .range)

/-- An argument as it stands among the options. -/
inductive Argument where
  /-- No option: the options are over. -/
  | operand
  | badForm
  | option (name : String) (value : Option String)
  deriving DecidableEq

/-- A name and the value after the first equals sign in it. -/
def splitValue (cs : List Char) : Argument :=
  match cs with
  | [] | '-' :: _ | '=' :: _ => .badForm
  | _ =>
    .option (String.ofList (cs.takeWhile (· != '=')))
      (match cs.dropWhile (· != '=') with
      | [] => none
      | _ :: value => some (String.ofList value))

/-- Two dashes alone end the options. -/
def argument (s : String) : Argument :=
  match s.toList with
  | ['-', '-'] => .operand
  | '-' :: '-' :: cs => splitValue cs
  | '-' :: c :: cs => splitValue (c :: cs)
  | _ => .operand

/-- Takes the options at the front of some arguments. -/
def take (o : Options) : List String → Except OptionError Options
  | [] => .ok o
  | a :: rest =>
    match argument a with
    | .operand => .ok o
    | .badForm => .error (.badForm a)
    | .option name value =>
      match setter? name, value with
      | none, _ => .error (if name = "help" ∨ name = "h" then .help else .unknown name)
      | some (.switch set), none => take (set true o) rest
      | some set, some value =>
        match o.setValue name value set with
        | .error e => .error e
        | .ok o => take o rest
      | some set, none =>
        match rest with
        | [] => .error (.noValue name)
        | value :: rest =>
          match o.setValue name value set with
          | .error e => .error e
          | .ok o => take o rest

def parse (args : List String) : Except OptionError Options := take {} args

/-- The list of options. -/
def usage : List String :=
  ["Usage of blockc:",
   "  -archive string",
   "    \tArchive directory; units found there are reused and new ones are added",
   "  -block string",
   "    \tPath to a YAML block listing",
   "  -compare",
   "    \tAlso interpret the block and report differences",
   "  -disasm",
   "    \tPrint the compiled unit",
   "  -list",
   "    \tList the archive contents and exit",
   "  -max-slots int",
   "    \tSlot units available to one block (default " ++ toString (Options.maxSlots {}) ++ ")"]

end Options
end MicroBlock.Command
