import MicroBlock.Text.Blank
import MicroBlock.Yaml.Flow

/-! Block collections: sequences and mappings by indentation.

Every line is cut into its dashes and the text after them, each with its column. The open
collections are on a stack, innermost first; a line closes those that start to the right of it. A
scalar and a flow collection take up one line. -/

namespace MicroBlock.Yaml

/-- A dash or a text at a column. -/
inductive Piece where
  | dash (column : Nat)
  | text (column : Nat) (cs : List Char)

/-- The pieces of a line from a column on; a comment is none. -/
def pieces (column : Nat) : List Char → List Piece
  | [] => []
  | '#' :: _ => []
  | ' ' :: cs => pieces (column + 1) cs
  | ['-'] => [.dash column]
  | '-' :: ' ' :: cs => .dash column :: pieces (column + 2) cs
  | cs => [.text column cs]

/-! ### Texts -/

/-- A plain scalar in a block: a comment ends it, and it holds no key. -/
def plainBlock? (text : List Char) : List Char → Option Scalar
  | [] => some (plainScalar text)
  | c :: cs =>
    if c = '#' ∧ afterGap text then some (plainScalar text)
    else if c = ':' ∧ atGap cs then none
    else plainBlock? (c :: text) cs

/-- The node of a text that takes up the rest of a line. -/
def inline? : List Char → Option Node
  | [] => some .null
  | c :: cs =>
    if c = '[' ∨ c = '\x7b' then flow? (c :: cs)
    else if c = '"' ∨ c = '\x27' then
      match tokens .between (c :: cs) with
      | some [.scalar s] => some (.scalar s)
      | _ => none
    else if isFlowMark c ∨ isIndicator c ∨ (c = '-' ∧ atGap cs) then none
    else (plainBlock? [c] cs).map .scalar

/-- A plain key before the colon that ends it, and what follows the colon. -/
def splitPlainKey? (key : List Char) : List Char → Option (Scalar × List Char)
  | [] => none
  | c :: cs =>
    if c = ':' ∧ atGap cs then
      some (plainScalar key, cs.dropWhile isGap)
    else if c = '#' ∧ afterGap key then none
    else splitPlainKey? (c :: key) cs

/-- A key in quotes and what follows its colon. -/
def splitQuotedKey? (q : Char) (key : List Char) : List Char → Option (Scalar × List Char)
  | [] => none
  | c :: cs =>
    if c = q then
      match cs.dropWhile isGap with
      | ':' :: rest =>
        if atGap rest then
          some ({ text := String.ofList key.reverse, quoted := true }, rest.dropWhile isGap)
        else none
      | _ => none
    else if c = '\\' then none
    else splitQuotedKey? q (c :: key) cs

/-- The key at the start of a text, and what follows its colon. -/
def splitKey? : List Char → Option (Scalar × List Char)
  | [] => none
  | c :: cs =>
    if c = '"' ∨ c = '\x27' then splitQuotedKey? c [] cs
    else if isFlowMark c ∨ isIndicator c then none
    else splitPlainKey? [] (c :: cs)

/-! ### Collections -/

/-- A collection that is still open; what it holds is kept last first. -/
inductive BlockFrame where
  /-- After a dash the sequence awaits an item. -/
  | sequence (column : Nat) (items : List Node) (awaits : Bool)
  /-- After a key the mapping awaits a value. -/
  | mapping (column : Nat) (entries : List (Scalar × Node)) (key : Option Scalar)

namespace BlockFrame

def column : BlockFrame → Nat
  | sequence c _ _ | mapping c _ _ => c

def awaits : BlockFrame → Bool
  | sequence _ _ a => a
  | mapping _ _ key => key.isSome

/-- Puts a node where one is awaited. -/
def put (n : Node) : BlockFrame → Option BlockFrame
  | sequence c items true => some (sequence c (n :: items) false)
  | mapping c es (some k) => some (mapping c ((k, n) :: es) none)
  | _ => none

/-- The collection with null where a node is still awaited. -/
def settled (f : BlockFrame) : BlockFrame := (f.put .null).getD f

def close (f : BlockFrame) : Node :=
  match f.settled with
  | sequence _ items _ => .sequence items.reverse
  | mapping _ es _ => .mapping es.reverse

def isSequence : BlockFrame → Bool
  | sequence _ _ _ => true
  | mapping _ _ _ => false

end BlockFrame

/-- The open collections, and the whole document once there are none. -/
structure BlockState where
  frames : List BlockFrame := []
  root : Option Node := none

namespace BlockState

/-- Closes collections from the innermost outwards as long as they are `ended`; `n` is what the last
    one closed gave. -/
def closeFrom (ended : BlockFrame → Bool) (n : Option Node) : List BlockFrame → Option BlockState
  | [] => some { root := n }
  | f :: fs => do
    let f ← match n with
      | none => some f
      | some n => f.put n
    if ended f then closeFrom ended (some f.close) fs else return { frames := f :: fs }

/-- Closes the collections that are ended. -/
def closeWhile (ended : BlockFrame → Bool) (s : BlockState) : Option BlockState :=
  match s.frames with
  | [] => some s
  | fs => closeFrom ended none fs

/-- Whether a node may start at a column; `beside` says whether it may start at its owner's column. -/
def admits (s : BlockState) (column : Nat) (beside : Bool) : Bool :=
  match s.frames with
  | [] => s.root.isNone
  | f :: _ => f.awaits && (f.column < column || (beside && !f.isSequence && f.column == column))

/-- Puts a complete node where one is awaited. -/
def place (n : Node) (s : BlockState) : Option BlockState :=
  match s.frames with
  | [] => if s.root.isSome then none else some { root := some n }
  | f :: fs => (f.put n).map fun f => { s with frames := f :: fs }

def push (f : BlockFrame) (s : BlockState) : BlockState := { s with frames := f :: s.frames }

/-- Starts an item of the sequence at a column, or a sequence with it. -/
def dash (column : Nat) (s : BlockState) : Option BlockState := do
  let s ← s.closeWhile fun f => column < f.column
  match s.frames with
  | .sequence c items a :: fs =>
    if c = column then
      match (BlockFrame.sequence c items a).settled with
      | .sequence c items _ => return { s with frames := .sequence c items true :: fs }
      | _ => none
    else if s.admits column true then return s.push (.sequence column [] true)
    else none
  | _ => if s.admits column true then return s.push (.sequence column [] true) else none

/-- Starts an entry of the mapping at a column, or a mapping with it. -/
def entry (column : Nat) (key : Scalar) (s : BlockState) : Option BlockState :=
  match s.frames with
  | .mapping c es k :: fs =>
    if c = column then
      match (BlockFrame.mapping c es k).settled with
      | .mapping c es _ => some { s with frames := .mapping c es (some key) :: fs }
      | _ => none
    else if s.admits column false then some (s.push (.mapping column [] (some key)))
    else none
  | _ => if s.admits column false then some (s.push (.mapping column [] (some key))) else none

def text (column : Nat) (cs : List Char) (s : BlockState) : Option BlockState := do
  let s ← s.closeWhile fun f => column < f.column || (f.isSequence && f.column == column)
  match splitKey? cs with
  | some (key, value) =>
    let s ← s.entry column key
    if value.isEmpty || value.head? == some '#' then return s else s.place (← inline? value)
  | none => if s.admits column false then s.place (← inline? cs) else none

def step (s : BlockState) : Piece → Option BlockState
  | .dash column => s.dash column
  | .text column cs => s.text column cs

/-- The document at the end of the text; with nothing in it, it is null. -/
def finish (s : BlockState) : Option Node := do
  let s ← s.closeWhile fun _ => true
  return s.root.getD .null

end BlockState

/-- A line without the gap and the carriage return at its end. -/
def trimLine (cs : List Char) : List Char := (cs.reverse.dropWhile fun c => isGap c || c == '\r').reverse

/-- Reads a document. -/
def read? (text : String) : Option Node := do
  let lines := (Text.splitChars '\n' text.toList).map trimLine
  let s ← (lines.flatMap (pieces 0)).foldlM BlockState.step {}
  s.finish

end MicroBlock.Yaml
