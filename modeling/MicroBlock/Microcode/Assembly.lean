import MicroBlock.Microcode.Stream
import MicroBlock.Numeral
import MicroBlock.Text.Blank

/-! Block listings: one instruction a line or a field between bars, written as its length, a colon
and its ops. A hash starts a comment. -/

namespace MicroBlock.Assembly

/-- Why a token is no 32-bit word. -/
inductive WordError where
  | numeral (token : String) (flaw : Numeral.Flaw)
  | tooWide (token : String)
  deriving DecidableEq

def WordError.message : WordError → Message
  | numeral token flaw => .plain (flaw.message "strconv.ParseInt" token)
  | tooWide token => .ofClause [.given token, " does not fit in 32 bits"]

inductive TokenError where
  | unknown (token : String)
  | noImmediate (op : Op)
  | badImmediate (op : Op) (e : WordError)
  deriving DecidableEq

def TokenError.message : TokenError → Message
  | unknown token => .ofClause ["unknown microcode ", .given (Text.quoted token)]
  | noImmediate op => .plain (op.name ++ " needs an immediate")
  | badImmediate op e => e.message.under ["immediate of ", op.name]

/-- Reads a word, signed or unsigned. -/
def word (token : String) : Except WordError Int32 :=
  match Numeral.read token with
  | .error flaw => .error (.numeral token flaw)
  | .ok v =>
    if v < -0x80000000 ∨ 0xffffffff < v then .error (.tooWide token)
    else .ok (Int32.ofInt v)

/-- The words that the tokens of one instruction stand for: op names, each followed by its immediate
    if it takes one. A number in place of a name is a raw word. -/
def words : List String → Except TokenError (List Int32)
  | [] => .ok []
  | token :: rest =>
    match Op.ofName? token with
    | none =>
      match word token with
      | .error _ => .error (.unknown token)
      | .ok v => (words rest).map (v :: ·)
    | some op =>
      if op.hasImmediate then
        match rest with
        | [] => .error (.noImmediate op)
        | token :: rest =>
          match word token with
          | .error e => .error (.badImmediate op e)
          | .ok v => (words rest).map (fun ws => op.word :: v :: ws)
      else (words rest).map (op.word :: ·)

def instruction (length : Int64) (tokens : List String) : Except TokenError Instruction :=
  (words tokens).map (⟨length, ·⟩)

/-- What is wrong with a field, whatever line it stands on. -/
inductive FieldError where
  | noLength (field : String)
  | badLength (text : String)
  | tokens (e : TokenError)
  deriving DecidableEq

structure Error where
  /-- Counted from one. -/
  line : Nat
  cause : FieldError
  deriving DecidableEq

/-- A flaw of the field itself is told in one clause with its line, one of its tokens under the line. -/
def Error.message (e : Error) : Message :=
  match e.cause with
  | .noLength field =>
    .ofClause ["line ", toString e.line, ": missing instruction length in ", .given (Text.quoted field)]
  | .badLength text =>
    .ofClause ["line ", toString e.line, ": bad instruction length ", .given (Text.quoted text)]
  | .tokens x => x.message.under ["line ", toString e.line]

/-- Reads one field that is not blank. -/
def field (text : String) : Except FieldError Instruction :=
  match Text.cut? ':' text with
  | none => .error (.noLength text)
  | some (lengthText, body) =>
    match Numeral.readDecimal (Text.trim lengthText) with
    | .error _ => .error (.badLength lengthText)
    | .ok n =>
      if n ≤ 0 then .error (.badLength lengthText)
      else match instruction (Int64.ofInt n) (Text.fields body) with
        | .error e => .error (.tokens e)
        | .ok i => .ok i

/-- The fields of a line that are not blank, the comment left out. -/
def fieldsOf (line : String) : List String :=
  ((Text.split '|' (String.ofList (line.toList.takeWhile (· != '#')))).map Text.trim).filter (· != "")

def lineBlock (n : Nat) (line : String) : Except Error Block :=
  (fieldsOf line).mapM fun f =>
    match field f with
    | .error e => .error ⟨n, e⟩
    | .ok i => .ok i

/-- The instructions of the lines from number `n` on. -/
def linesBlock (n : Nat) : List String → Except Error Block
  | [] => .ok []
  | line :: rest => do
    let b ← lineBlock n line
    let bs ← linesBlock (n + 1) rest
    return b ++ bs

/-- Reads a listing. -/
def read (text : String) : Except Error Block := linesBlock 1 (Text.split '\n' text)

end MicroBlock.Assembly
