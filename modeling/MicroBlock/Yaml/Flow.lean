import MicroBlock.Yaml.Node

/-! Flow collections: sequences in brackets and mappings in braces, on one line.

Reading keeps the open collections on a stack, innermost first, and takes one token after the other. -/

namespace MicroBlock.Yaml

/-- The characters that divide words on a line. -/
def isGap (c : Char) : Bool := c == ' ' || c == '\t'

/-- Whether nothing or a gap comes next. -/
def atGap (cs : List Char) : Bool := cs.head?.all isGap

/-- Whether a comment that comes next would follow a gap; the text before it is held last character
    first. -/
def afterGap (text : List Char) : Bool := text.head?.any isGap

/-- The characters besides quotes and flow marks that no plain scalar starts with. -/
def isIndicator (c : Char) : Bool :=
  ['&', '*', '!', '|', '>', '%', '@', '\t', Char.ofNat 0x60].contains c

def isFlowMark (c : Char) : Bool := [',', '[', ']', '\x7b', '\x7d'].contains c

inductive Token where
  | mark (c : Char)
  | scalar (s : Scalar)
  deriving DecidableEq

/-- What the reader of tokens is inside of; texts are held last character first. -/
inductive LexState where
  | between
  | plain (text : List Char)
  | double (text : List Char)
  | single (text : List Char)

/-- The character after a backslash. -/
def escape? (c : Char) : Option Char :=
  match c with
  | 'n' => some '\n'
  | 't' => some '\t'
  | 'r' => some '\r'
  | '0' => some (Char.ofNat 0)
  | '"' | '\\' | '/' | ' ' => some c
  | _ => none

/-- The plain scalar of a text held last character first, the gap at its end left out. -/
def plainScalar (text : List Char) : Scalar := { text := String.ofList (text.dropWhile isGap).reverse }

def plainToken (text : List Char) : Token := .scalar (plainScalar text)

def quotedToken (text : List Char) : Token := .scalar { text := String.ofList text.reverse, quoted := true }

/-- Whether a colon before these characters ends a key. -/
def endsKey : List Char → Bool
  | [] => true
  | c :: _ => isGap c || isFlowMark c

def tokens : LexState → List Char → Option (List Token)
  | .between, [] => some []
  | .plain t, [] => some [plainToken t]
  | .double _, [] | .single _, [] => none
  | .between, c :: cs =>
    if isGap c then tokens .between cs
    else if c = '#' then some []
    else if isFlowMark c ∨ (c = ':' ∧ endsKey cs) then (tokens .between cs).map (.mark c :: ·)
    else if c = '"' then tokens (.double []) cs
    else if c = '\x27' then tokens (.single []) cs
    else if isIndicator c then none
    else tokens (.plain [c]) cs
  | .plain t, c :: cs =>
    if isFlowMark c ∨ (c = ':' ∧ endsKey cs) then
      (tokens .between cs).map fun ts => plainToken t :: .mark c :: ts
    else if c = '#' ∧ afterGap t then some [plainToken t]
    else tokens (.plain (c :: t)) cs
  | .double t, '\\' :: c :: cs => (escape? c).bind fun e => tokens (.double (e :: t)) cs
  | .double t, c :: cs =>
    if c = '"' then (tokens .between cs).map (quotedToken t :: ·) else tokens (.double (c :: t)) cs
  | .single t, '\x27' :: '\x27' :: cs => tokens (.single ('\x27' :: t)) cs
  | .single t, c :: cs =>
    if c = '\x27' then (tokens .between cs).map (quotedToken t :: ·) else tokens (.single (c :: t)) cs

/-- Where an open mapping stands. -/
inductive EntryPhase where
  | start
  | key (k : Scalar)
  | value (k : Scalar)
  | done

/-- A collection that is still open; what it holds is kept last first. -/
inductive FlowFrame where
  | sequence (items : List Node) (ready : Bool)
  | mapping (entries : List (Scalar × Node)) (phase : EntryPhase)

namespace FlowFrame

/-- Puts a node into the collection, where one may come. -/
def put (n : Node) : FlowFrame → Option FlowFrame
  | sequence items true => some (sequence (n :: items) false)
  | mapping es (.value k) => some (mapping ((k, n) :: es) .done)
  | _ => none

/-- Puts a scalar into the collection, as a key or as a node. -/
def putScalar (s : Scalar) : FlowFrame → Option FlowFrame
  | mapping es .start => some (mapping es (.key s))
  | f => f.put (.scalar s)

/-- Ends an entry; a key alone has a null value. -/
def comma : FlowFrame → Option FlowFrame
  | sequence items false => some (sequence items true)
  | mapping es (.key k) | mapping es (.value k) => some (mapping ((k, .null) :: es) .start)
  | mapping es .done => some (mapping es .start)
  | _ => none

def colon : FlowFrame → Option FlowFrame
  | mapping es (.key k) => some (mapping es (.value k))
  | _ => none

/-- The node of a collection that the mark `c` closes. -/
def close (c : Char) : FlowFrame → Option Node
  | sequence items _ => if c = ']' then some (.sequence items.reverse) else none
  | mapping es phase =>
    if c = '\x7d' then
      some (.mapping (match phase with
        | .key k | .value k => (k, Node.null) :: es
        | _ => es).reverse)
    else none

end FlowFrame

/-- The open collections, and the node that is complete when there are none. -/
structure FlowState where
  frames : List FlowFrame := []
  root : Option Node := none

namespace FlowState

/-- Changes the innermost collection. -/
def top (f : FlowFrame → Option FlowFrame) (s : FlowState) : Option FlowState :=
  match s.frames with
  | [] => none
  | x :: xs => (f x).map fun x => { s with frames := x :: xs }

def push (f : FlowFrame) (s : FlowState) : Option FlowState :=
  if s.root.isSome then none else some { s with frames := f :: s.frames }

def close (c : Char) (s : FlowState) : Option FlowState :=
  match s.frames with
  | [] => none
  | [x] => (x.close c).map fun n => { frames := [], root := some n }
  | x :: y :: xs => do
    let y ← y.put (← x.close c)
    return { s with frames := y :: xs }

def step (s : FlowState) : Token → Option FlowState
  | .scalar x => s.top (FlowFrame.putScalar x)
  | .mark c =>
    if c = '[' then s.push (.sequence [] true)
    else if c = '\x7b' then s.push (.mapping [] .start)
    else if c = ',' then s.top FlowFrame.comma
    else if c = ':' then s.top FlowFrame.colon
    else s.close c

end FlowState

/-- Reads a flow collection that takes up the whole text. -/
def flow? (cs : List Char) : Option Node := do
  let ts ← tokens .between cs
  let s ← ts.foldlM FlowState.step {}
  s.root

end MicroBlock.Yaml
