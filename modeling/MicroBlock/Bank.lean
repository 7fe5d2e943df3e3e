/-! Banks of cells: one cell for every member of a finite, numbered type.

A bank is read and written by member; what a write does to a read is all that the rest of the
library uses of it. -/

namespace MicroBlock

/-- A type whose members are numbered without gaps from zero. -/
class Numbered (ι : Type) where
  card : Nat
  index : ι → Fin card
  index_inj : ∀ a b, index a = index b → a = b

/-- One cell of type `α` for every member of `ι`. -/
structure Bank (ι α : Type) [Numbered ι] where
  cells : Vector α (Numbered.card ι)

namespace Bank

variable {ι α : Type} [Numbered ι]

instance [DecidableEq α] : DecidableEq (Bank ι α) := fun a b =>
  if h : a.cells = b.cells then isTrue (by cases a; cases b; simp_all)
  else isFalse (by intro e; exact h (by rw [e]))

def replicate (a : α) : Bank ι α := ⟨Vector.replicate _ a⟩

def get (b : Bank ι α) (i : ι) : α := b.cells[Numbered.index i]

def set (b : Bank ι α) (i : ι) (a : α) : Bank ι α :=
  ⟨b.cells.set (Numbered.index i) a⟩

@[simp] theorem get_replicate (a : α) (i : ι) : (replicate a : Bank ι α).get i = a := by
  simp [replicate, get]

@[simp] theorem get_set_self (b : Bank ι α) (i : ι) (a : α) : (b.set i a).get i = a := by
  simp [set, get]

theorem get_set_of_ne (b : Bank ι α) {i j : ι} (a : α) (h : i ≠ j) : (b.set i a).get j = b.get j := by
  have : (Numbered.index i).val ≠ (Numbered.index j).val := fun e =>
    h (Numbered.index_inj i j (Fin.ext e))
  simp [set, get, this]

end Bank
end MicroBlock
