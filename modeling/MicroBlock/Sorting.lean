/-! Stable sorting by insertion. -/

namespace MicroBlock

/-- Puts an entry before the first one that it is not after. -/
def insertBy {α : Type} (le : α → α → Bool) (a : α) : List α → List α
  | [] => [a]
  | b :: l => if le a b then a :: b :: l else b :: insertBy le a l

/-- The entries in order. Those that are equal in the order stay as they stood. -/
@[irreducible] def sortBy {α : Type} (le : α → α → Bool) (l : List α) : List α := l.foldr (insertBy le) []

theorem insertBy_perm {α : Type} (le : α → α → Bool) (a : α) (l : List α) : (insertBy le a l).Perm (a :: l) := by
  induction l with
  | nil => exact .refl _
  | cons b l ih =>
    unfold insertBy
    split
    · exact .refl _
    · exact (ih.cons b).trans (.swap a b l)

theorem sortBy_perm {α : Type} (le : α → α → Bool) (l : List α) : (sortBy le l).Perm l := by
  unfold sortBy
  induction l with
  | nil => exact .refl _
  | cons a l ih => exact (insertBy_perm le a (l.foldr (insertBy le) [])).trans (ih.cons a)

section
variable {α : Type} {le : α → α → Bool} (htotal : ∀ a b, le a b ∨ le b a) (htrans : ∀ a b c, le a b → le b c → le a c)
include htotal htrans

theorem insertBy_pairwise (a : α) {l : List α} (hl : l.Pairwise (le · ·)) : (insertBy le a l).Pairwise (le · ·) := by
  induction l with
  | nil => exact List.pairwise_singleton _ _
  | cons b l ih =>
    obtain ⟨hb, hl⟩ := List.pairwise_cons.mp hl
    unfold insertBy
    split
    · rename_i hab
      refine List.pairwise_cons.mpr ⟨?_, List.pairwise_cons.mpr ⟨hb, hl⟩⟩
      intro c hc
      rcases List.mem_cons.mp hc with rfl | hc
      · exact hab
      · exact htrans _ _ _ hab (hb c hc)
    · rename_i hab
      refine List.pairwise_cons.mpr ⟨?_, ih hl⟩
      intro c hc
      rcases List.mem_cons.mp ((insertBy_perm le a l).mem_iff.mp hc) with rfl | hc
      · exact (htotal c b).resolve_left hab
      · exact hb c hc

theorem sortBy_pairwise (l : List α) : (sortBy le l).Pairwise (le · ·) := by
  unfold sortBy
  induction l with
  | nil => exact .nil
  | cons a l ih => exact insertBy_pairwise htotal htrans a ih

end

end MicroBlock
