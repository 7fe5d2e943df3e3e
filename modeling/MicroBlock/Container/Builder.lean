import MicroBlock.Container.Module

/-! A module while it is put together.

Constants and links are entered one at a time, and what is there already is not entered again. Entries are found by a key:
the places of all keys are noted at the first search, and from then on the place of every new entry. A copy of a module starts
without notes. -/

namespace MicroBlock

/-- The key of a constant: a letter for its kind and then its content, numbers in decimal. All constants of unknown kind have
    the empty key. -/
def Constant.key : Constant → ByteString
  | int v => ByteString.ofString ("i" ++ toString v.toInt)
  | long v => ByteString.ofString ("l" ++ toString v.toInt)
  | text s => ⟨(ByteString.ofString "s").bytes ++ s.bytes⟩
  | ints a => ByteString.ofString ("a" ++ String.join (a.map fun v => toString v.toInt ++ ","))
  | unknown _ => ⟨[]⟩

/-- The places of keys, latest first. -/
abbrev Places := List (ByteString × Nat)

/-- A list whose entries are found by their keys. -/
structure Interner (α : Type) where
  entries : List α
  /-- The places of the keys, once they were noted. -/
  places : Option Places

namespace Interner
variable {α : Type} (key : α → ByteString)

/-- The places noted before, or else those of all entries; of entries with the same key the last one counts. -/
def noted (t : Interner α) : Places := t.places.getD (t.entries.map key).zipIdx.reverse

/-- Adds an entry unless there is one with its key, and returns the place of that key. -/
def enter (t : Interner α) (a : α) : Nat × Interner α :=
  match (t.noted key).lookup (key a) with
  | some i => (i, { t with places := some (t.noted key) })
  | none => (t.entries.length, ⟨t.entries ++ [a], some ((key a, t.entries.length) :: t.noted key)⟩)

end Interner

/-- A module with the notes about its constants and links. -/
structure Builder where
  module : Module
  interned : Option Places := none
  linked : Option Places := none

namespace Builder

def skeleton (name : String) (methods : List String) : Builder where
  module := .skeleton name methods

def constants (b : Builder) : Interner Constant := ⟨b.module.constants, b.interned⟩

def links (b : Builder) : Interner ByteString := ⟨b.module.links, b.linked⟩

/-- Adds a constant unless there is one with its key, and returns its place. -/
def intern (b : Builder) (c : Constant) : Nat × Builder :=
  let (i, t) := b.constants.enter Constant.key c
  (i, { b with module := { b.module with constants := t.entries }, interned := t.places })

/-- Adds a helper link unless it is already there, and returns its place. -/
def link (b : Builder) (helper : ByteString) : Nat × Builder :=
  let (i, t) := b.links.enter id helper
  (i, { b with module := { b.module with links := t.entries }, linked := t.places })

/-- A copy to go on with. -/
def copy (b : Builder) : Builder where
  module := b.module

end Builder
end MicroBlock
