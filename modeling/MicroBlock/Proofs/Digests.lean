import Mathlib
import MicroBlock.Digest.Blake2b

/-! The digest of a short message, on the columns of the state.

A round mixes the four columns of the state, then its four diagonals, and no two columns share a word. So the rounds
can be followed on sixteen words that are at hand one by one, where the vector would be rebuilt for every word that
changes; the digests that later modules need are evaluated this way. -/

namespace MicroBlock.Digest

/-- A word of a block or of the state, by its place. -/
def wordAt (v : Words) (i : Nat) : UInt64 := v.toList.getD i 0

/-- The place of the word that a round takes as its `i`-th. -/
def placeAt (s : Vector (Fin 16) 16) (i : Nat) : Nat := (s.toList.map Fin.val).getD i 0

theorem wordAt_eq (v : Words) {i : Nat} (h : i < 16) : wordAt v i = v[i] := by
  simp [wordAt, h]

theorem wordAt_placeAt (m : Words) (s : Vector (Fin 16) 16) {i : Nat} (h : i < 16) : wordAt m (placeAt s i) = m[s[i]] := by
  have hplace : placeAt s i = s[i] := by simp [placeAt, h]
  rw [hplace, wordAt_eq m s[i].isLt]
  rfl

/-- Four words of the state that are mixed with one another. -/
structure Column where
  a : UInt64
  b : UInt64
  c : UInt64
  d : UInt64

def Column.mix (q : Column) (x y : UInt64) : Column :=
  let a := q.a + q.b + x
  let d := rotateRight (q.d ^^^ a) 32
  let c := q.c + d
  let b := rotateRight (q.b ^^^ c) 24
  let a := a + b + y
  let d := rotateRight (d ^^^ a) 16
  let c := c + d
  ⟨a, rotateRight (b ^^^ c) 63, c, d⟩

/-- The state as its columns. -/
structure Columns where
  c₀ : Column
  c₁ : Column
  c₂ : Column
  c₃ : Column

namespace Columns

def ofWords (v : Words) : Columns :=
  ⟨⟨wordAt v 0, wordAt v 4, wordAt v 8, wordAt v 12⟩, ⟨wordAt v 1, wordAt v 5, wordAt v 9, wordAt v 13⟩,
   ⟨wordAt v 2, wordAt v 6, wordAt v 10, wordAt v 14⟩, ⟨wordAt v 3, wordAt v 7, wordAt v 11, wordAt v 15⟩⟩

def words (t : Columns) : Words :=
  #v[t.c₀.a, t.c₁.a, t.c₂.a, t.c₃.a, t.c₀.b, t.c₁.b, t.c₂.b, t.c₃.b,
     t.c₀.c, t.c₁.c, t.c₂.c, t.c₃.c, t.c₀.d, t.c₁.d, t.c₂.d, t.c₃.d]

/-- Mixes every column with two words of the block. -/
def mix (t : Columns) (m : Nat → UInt64) : Columns :=
  ⟨t.c₀.mix (m 0) (m 1), t.c₁.mix (m 2) (m 3), t.c₂.mix (m 4) (m 5), t.c₃.mix (m 6) (m 7)⟩

/-- The diagonals, each as a column. -/
def turn (t : Columns) : Columns :=
  ⟨⟨t.c₀.a, t.c₁.b, t.c₂.c, t.c₃.d⟩, ⟨t.c₁.a, t.c₂.b, t.c₃.c, t.c₀.d⟩,
   ⟨t.c₂.a, t.c₃.b, t.c₀.c, t.c₁.d⟩, ⟨t.c₃.a, t.c₀.b, t.c₁.c, t.c₂.d⟩⟩

/-- The state whose diagonals these are. -/
def turnBack (t : Columns) : Columns :=
  ⟨⟨t.c₀.a, t.c₃.b, t.c₂.c, t.c₁.d⟩, ⟨t.c₁.a, t.c₀.b, t.c₃.c, t.c₂.d⟩,
   ⟨t.c₂.a, t.c₁.b, t.c₀.c, t.c₃.d⟩, ⟨t.c₃.a, t.c₂.b, t.c₁.c, t.c₀.d⟩⟩

def round (m : Words) (t : Columns) (s : Vector (Fin 16) 16) : Columns :=
  ((t.mix fun i => wordAt m (placeAt s i)).turn.mix fun i => wordAt m (placeAt s (i + 8))).turnBack

/-- Counts the bytes up to the end of the last block, and marks it as the last. -/
def finish (t : Columns) (total : UInt64) : Columns :=
  { t with c₀ := { t.c₀ with d := t.c₀.d ^^^ total }, c₂ := { t.c₂ with d := ~~~ t.c₂.d } }

theorem words_ofWords (v : Words) : (ofWords v).words = v := by
  refine Vector.ext fun i hi => ?_
  rw [← wordAt_eq v hi]
  interval_cases i <;> rfl

theorem mix_columns (t : Columns) (m : Nat → UInt64) :
    Digest.mix (Digest.mix (Digest.mix (Digest.mix t.words 0 4 8 12 (m 0) (m 1)) 1 5 9 13 (m 2) (m 3))
      2 6 10 14 (m 4) (m 5)) 3 7 11 15 (m 6) (m 7) = (t.mix m).words := by
  simp [Digest.mix, words, mix, Column.mix]

theorem mix_diagonals (t : Columns) (m : Nat → UInt64) :
    Digest.mix (Digest.mix (Digest.mix (Digest.mix t.words 0 5 10 15 (m 0) (m 1)) 1 6 11 12 (m 2) (m 3))
      2 7 8 13 (m 4) (m 5)) 3 4 9 14 (m 6) (m 7) = (t.turn.mix m).turnBack.words := by
  simp [Digest.mix, words, turn, turnBack, mix, Column.mix]

theorem round_words (m : Words) (t : Columns) (s : Vector (Fin 16) 16) : Digest.round m t.words s = (t.round m s).words := by
  rw [round, ← mix_diagonals, ← mix_columns]
  simp only [Digest.round, wordAt_placeAt, Nat.reduceAdd, Nat.reduceLT]

theorem foldl_round (m : Words) (ss : List (Vector (Fin 16) 16)) (t : Columns) :
    ss.foldl (Digest.round m) t.words = (ss.foldl (round m) t).words := by
  induction ss generalizing t with
  | nil => rfl
  | cons s ss ih => rw [List.foldl_cons, List.foldl_cons, round_words, ih]

end Columns

/-- Takes in the last block, on the columns of the state. -/
def compressLast (h : Vector UInt64 8) (m : Words) (total : UInt64) : Vector UInt64 8 :=
  let v := (schedule.foldl (Columns.round m) ((Columns.ofWords (h ++ initial)).finish total)).words
  Vector.ofFn fun i => h.get i ^^^ wordAt v i ^^^ wordAt v (i + 8)

theorem compress_last (h : Vector UInt64 8) (m : Words) (total : UInt64) :
    compress h m total true = compressLast h m total := by
  have hwords : (h ++ initial : Words) = (Columns.ofWords (h ++ initial)).words := (Columns.words_ofWords _).symm
  unfold compress compressLast
  generalize Columns.ofWords (h ++ initial) = t at hwords
  have hfinish : (t.words.set 12 (t.words[12] ^^^ total)).set 14 (~~~ (t.words.set 12 (t.words[12] ^^^ total))[14]) =
      (t.finish total).words := by
    simp [Columns.words, Columns.finish]
  simp only [hwords, if_true, hfinish, Columns.foldl_round]
  refine congrArg Vector.ofFn (funext fun i => ?_)
  rw [wordAt_eq _ (by omega), wordAt_eq _ (by omega)]
  rfl

/-- The state before the first block, with the length of the digest mixed in. -/
def seed : Vector UInt64 8 :=
  #v[0x6a09e667f2bdc928, 0xbb67ae8584caa73b, 0x3c6ef372fe94f82b, 0xa54ff53a5f1d36f1,
     0x510e527fade682d1, 0x9b05688c2b3e6c1f, 0x1f83d9abfb41bd6b, 0x5be0cd19137e2179]

theorem seed_eq : initial.set 0 (getElem initial 0 (Nat.zero_lt_succ 7) ^^^ 0x01010020) (Nat.zero_lt_succ 7) = seed := by
  decide

/-- The digest of some bytes that are one block. -/
def blake2b256Short (bytes : List UInt8) : List UInt8 :=
  ((compressLast seed (blockWords bytes) (UInt64.ofNat bytes.length)).toList.flatMap wordBytes).take 32

theorem blake2b256_of_short {bytes : List UInt8} (h : bytes.length ≤ 128) : blake2b256 bytes = blake2b256Short bytes := by
  unfold blake2b256 absorb
  simp only [List.take_of_length_le h, seed_eq]
  split
  · rw [compress_last, Nat.zero_add, blake2b256Short]
  · next b rest hmore =>
    rw [List.drop_eq_nil_of_le h] at hmore
    cases hmore

end MicroBlock.Digest
