import MicroBlock.Fragment.Basic
import MicroBlock.Text.Blank

/-! Fragment names: an effect class, an op, a target element and the input elements, joined by
underscores. Op names hold underscores themselves, so the longest op that leaves only elements
behind it is taken. -/

namespace MicroBlock.Signature

/-- The name of a signature, elements in capitals. -/
def name (s : Signature) : String :=
  String.intercalate "_" (s.cls.name :: s.op.name :: (s.target :: s.inputs).map Element.name)

inductive NameError where
  | tooFewFields (name : String)
  | unknownClass (name cls : String)
  | noSplit (name : String)
  deriving DecidableEq

def NameError.message : NameError → Message
  | tooFewFields name => .ofClause ["fragment ", .given (Text.quoted name), ": too few fields"]
  | unknownClass name cls =>
    .ofClause ["fragment ", .given (Text.quoted name), ": unknown effect class ",
      .given (Text.quoted cls)]
  | noSplit name => .ofClause ["fragment ", .given (Text.quoted name), ": no op/element split"]

/-- Reads the first `n` tokens as an op and the others as elements. -/
def splitAt? (tokens : List String) (n : Nat) : Option (Op × Element × List Element) :=
  match Op.ofName? (String.intercalate "_" (tokens.take n)) with
  | none => none
  | some op =>
    match (tokens.drop n).mapM Element.ofName? with
    | some (target :: inputs) => some (op, target, inputs)
    | _ => none

/-- The split with the longest op of at most `n` tokens. -/
def longestSplit? (tokens : List String) : Nat → Option (Op × Element × List Element)
  | 0 => none
  | n + 1 =>
    match splitAt? tokens (n + 1) with
    | some s => some s
    | none => longestSplit? tokens n

/-- Reads a fragment name. -/
def parse (name : String) : Except NameError Signature :=
  match Text.split '_' name with
  | cls :: tokens =>
    if tokens.length < 2 then .error (.tooFewFields name)
    else match EffectClass.ofName? cls with
      | none => .error (.unknownClass name cls)
      | some c =>
        match longestSplit? tokens (tokens.length - 1) with
        | some (op, target, inputs) => .ok ⟨c, op, target, inputs⟩
        | none => .error (.noSplit name)
  | [] => .error (.tooFewFields name)

end MicroBlock.Signature
