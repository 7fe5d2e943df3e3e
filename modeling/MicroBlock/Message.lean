import MicroBlock.Text.ByteString

/-! Messages: what an error says, clause by clause from the outermost to the cause.

A clause is made of the library's own words and of texts that were given to it. The brackets ‹ and ›
are kept free to set given texts off, so a given text never shows one. A message on its own begins with
its first clause as it is; a message that another passes on is settled to one clause after the other,
without empty lines. -/

namespace MicroBlock

/-- Whether a character is one of the two brackets that set given texts off. -/
def isBracket (c : Char) : Bool := c = '‹' || c = '›'

namespace ByteString

/-- One step of a text with a question mark for a bracket. -/
def Rune.unbracketed : Rune → Rune
  | .char c => .char (if isBracket c then '?' else c)
  | .stray b => .stray b

/-- A text as it stands in a message: brackets are question marks, and one more follows a last byte
    that is part of no character. -/
def inert (s : ByteString) : List Rune :=
  let rs := (runes s.bytes).map Rune.unbracketed
  rs ++ if rs.getLast?.any Rune.isStray then [.char '?'] else []

theorem Rune.isBracket_unbracketed (r : Rune) : isBracket r.unbracketed.shown = false := by
  cases r with
  | char c =>
    by_cases h : isBracket c = true
    · simp only [unbracketed, shown, h, if_true]; decide
    · simp only [unbracketed, shown, h]; simpa using h
  | stray b => rfl

theorem isBracket_of_mem_inert {s : ByteString} {r : Rune} (h : r ∈ s.inert) :
    isBracket r.shown = false := by
  simp only [inert, List.mem_append, List.mem_map] at h
  rcases h with ⟨x, _, rfl⟩ | h
  · exact x.isBracket_unbracketed
  · split at h
    · rw [List.mem_singleton.1 h]; decide
    · cases h

end ByteString

open ByteString (Rune)

/-- A piece of a clause. -/
inductive Part where
  | words (s : String)
  /-- A given text, set off from the words around it. -/
  | given (s : ByteString)
  /-- A given text that is a clause of its own and so is not set off. -/
  | label (s : ByteString)
  deriving DecidableEq

instance : Coe String Part := ⟨.words⟩

def Part.runes : Part → List Rune
  | words s => s.toList.map .char
  | given s | label s => s.inert

abbrev Clause := List Part

namespace Clause

def runes (c : Clause) : List Rune := c.flatMap Part.runes

def text (c : Clause) : String := Rune.text c.runes

def lineBreak : Rune := .char '\n'

/-- A text without empty lines: a run of line breaks before a character is one line break, and those
    at the end are dropped. -/
def settle : List Rune → List Rune
  | [] => []
  | r :: rs =>
    if r = lineBreak then
      match settle rs with
      | [] => []
      | d :: ds => if d = lineBreak then d :: ds else r :: d :: ds
    else r :: settle rs

/-- A settled text does not end in a line break. -/
theorem getLast?_settle (rs : List Rune) : (settle rs).getLast? ≠ some lineBreak := by
  fun_induction settle rs with
  | case1 => simp
  | case2 => simp
  | case3 => simp_all
  | case4 => simp_all
  | case5 r rs hr ih =>
    cases hs : settle rs with
    | nil => simpa using hr
    | cons d ds => simpa [hs] using ih

/-- The number of bytes up to the first line break. -/
def firstLineSize (rs : List Rune) : Nat :=
  (rs.takeWhile (· != lineBreak)).foldl (fun n r => n + r.size) 0

/-- A settled text without the line break that opens it, if the line after it is a single byte. -/
def closeUp : List Rune → List Rune
  | [] => []
  | r :: rs => if r = lineBreak ∧ firstLineSize rs = 1 then rs else r :: rs

/-- Whether the clause opens with a text that is set off; the bracket counts as part of its line. -/
def opensSetOff : Clause → Bool
  | .given _ :: _ => true
  | _ => false

/-- The clause as it stands in a message that another passes on. -/
def settled (c : Clause) : String :=
  let rs := settle c.runes
  Rune.text (if c.opensSetOff then rs else closeUp rs)

end Clause

structure Message where
  /-- From the outermost to the cause. -/
  clauses : List Clause
  deriving DecidableEq

namespace Message

/-- The settled clauses that are not empty. -/
def lineOf (cs : List Clause) : String :=
  String.intercalate ": " ((cs.map Clause.settled).filter (· != ""))

/-- The first clause that is not empty as it is, and what follows it settled. -/
def textOf : List Clause → String
  | [] => ""
  | [c] => c.text
  | c :: cs => if c.text = "" then textOf cs else c.text ++ ": " ++ lineOf cs

/-- The message on its own. -/
def text (m : Message) : String := textOf m.clauses

/-- The message as another passes it on. -/
def line (m : Message) : String := lineOf m.clauses

def ofClause (c : Clause) : Message := ⟨[c]⟩

/-- A message in the library's own words. -/
def plain (s : String) : Message := ofClause [s]

/-- The message with a clause in front. -/
def under (m : Message) (c : Clause) : Message := ⟨c :: m.clauses⟩

/-- A message in a caller's words. -/
def ofCaller (s : String) : Message := ofClause [.given s]

end Message

/-- The grounds that callers tell errors apart by. -/
inductive Ground where
  | emptyBlock
  | truncatedImmediate
  | slotExhaustion
  | oversize
  | unknownMethod
  | duplicate
  | invalidUnit
  | closedPool
  | notArchived
  | damaged
  deriving DecidableEq

namespace Ground

def words : Ground → String
  | emptyBlock => "block contains no instructions"
  | truncatedImmediate => "immediate-bearing microcode at end of instruction"
  | slotExhaustion => "slot budget exhausted"
  | oversize => "method body too large"
  | unknownMethod => "no such method"
  | duplicate => "unit already loaded"
  | invalidUnit => "unit failed verification"
  | closedPool => "compile pool closed"
  | notArchived => "unit not archived"
  | damaged => "archived unit cannot be recovered"

def all : List Ground :=
  [emptyBlock, truncatedImmediate, slotExhaustion, oversize, unknownMethod, duplicate, invalidUnit,
   closedPool, notArchived, damaged]

/-- The ground that has the given words. -/
def ofWords? (s : String) : Option Ground := all.find? (·.words == s)

def message (g : Ground) : Message := .plain g.words

/-- The ground under a clause that says where it was met. -/
def under (g : Ground) (c : Clause) : Message := g.message.under c

end Ground
end MicroBlock
