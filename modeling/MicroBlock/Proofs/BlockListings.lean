import Mathlib
import MicroBlock.Microcode.Assembly
import MicroBlock.Proofs.Numerals
import MicroBlock.Proofs.Signatures

/-! Listings say what was written into them.

A block has many listings: a word that names an op may stand as a number or as a name, and bars, line ends, white
space and comments can be set in many ways. All of them are read back as the block. The grammar below says what a
listing of a block is, without the reader. -/

namespace MicroBlock

/-! ### Listings of a block -/

namespace Assembly

/-- White space that stays on its line. -/
def Gap (cs : List Char) : Prop := ∀ c ∈ cs, Text.isBlank c = true ∧ c ≠ '\n'

/-- The words of an instruction as tokens. In the place of an op stands a number, or the name of an op and then, if
    the op takes an immediate, the next word as a number. -/
inductive Spelled : List Int32 → List String → Prop
  | nil : Spelled [] []
  | raw (w : Int32) {ws : List Int32} {ts : List String} : Spelled ws ts → Spelled (w :: ws) (w.toInt.repr :: ts)
  | plain {op : Op} {ws : List Int32} {ts : List String} : op.hasImmediate = false → Spelled ws ts →
    Spelled (op.word :: ws) (op.name :: ts)
  | wide {op : Op} (v : Int32) {ws : List Int32} {ts : List String} : op.hasImmediate = true → Spelled ws ts →
    Spelled (op.word :: v :: ws) (op.name :: v.toInt.repr :: ts)

/-- Tokens in a row. White space may stand before and behind each of them, and must stand between two. -/
inductive Spaced : List String → List Char → Prop
  | nil {gap : List Char} : Gap gap → Spaced [] gap
  | cons {gap cs : List Char} {t : String} {ts : List String} : Gap gap → Spaced ts cs →
    (∀ c ∈ cs.head?, Text.isBlank c = true) → Spaced (t :: ts) (gap ++ t.toList ++ cs)

/-- What stands between two bars: nothing, or an instruction as its length, a colon and its tokens. -/
inductive Field : Block → List Char → Prop
  | blank {gap : List Char} : Gap gap → Field [] gap
  | instruction {i : Instruction} {before behind cs : List Char} {ts : List String} : 0 < i.length → Gap before →
    Gap behind → Spelled i.words ts → Spaced ts cs →
    Field [i] (before ++ i.length.toInt.repr.toList ++ behind ++ ':' :: cs)

/-- Fields with bars between them. -/
inductive Fields : Block → List Char → Prop
  | one {b : Block} {cs : List Char} : Field b cs → Fields b cs
  | bar {b b' : Block} {cs cs' : List Char} : Field b cs → Fields b' cs' → Fields (b ++ b') (cs ++ '|' :: cs')

/-- The fields of one line, with or without a comment at its end. -/
inductive Line : Block → List Char → Prop
  | plain {b : Block} {cs : List Char} : Fields b cs → Line b cs
  | comment {b : Block} {cs note : List Char} : Fields b cs → '\n' ∉ note → Line b (cs ++ '#' :: note)

inductive Lines : Block → List Char → Prop
  | one {b : Block} {cs : List Char} : Line b cs → Lines b cs
  | cons {b b' : Block} {cs cs' : List Char} : Line b cs → Lines b' cs' → Lines (b ++ b') (cs ++ '\n' :: cs')

/-- The text is a listing of the block. -/
def Lists (text : String) (b : Block) : Prop := Lines b text.toList

end Assembly

/-! ### Texts cut into pieces -/

namespace Text

theorem splitChars_of_not_mem {sep : Char} {cs : List Char} (h : sep ∉ cs) : splitChars sep cs = [cs] := by
  rw [splitChars_eq_splitOn, List.splitOn_eq_singleton h]

theorem splitChars_append {sep : Char} {cs : List Char} (h : sep ∉ cs) (ds : List Char) :
    splitChars sep (cs ++ sep :: ds) = cs :: splitChars sep ds := by
  rw [splitChars_eq_splitOn, List.splitOn_append_cons_self, List.splitOn_eq_singleton h, splitChars_eq_splitOn,
    List.singleton_append]

theorem takeWhile_ne_of_not_mem {sep : Char} {cs : List Char} (h : sep ∉ cs) : cs.takeWhile (· != sep) = cs := by
  rw [List.takeWhile_eq_self_iff]
  intro c hc
  rw [bne_iff_ne]
  rintro rfl
  exact h hc

theorem takeWhile_ne_append {sep : Char} {cs : List Char} (h : sep ∉ cs) (ds : List Char) :
    (cs ++ sep :: ds).takeWhile (· != sep) = cs := by
  have htake := takeWhile_ne_of_not_mem h
  rw [List.takeWhile_append, htake, if_pos rfl]
  simp

theorem dropWhile_ne_append {sep : Char} {cs : List Char} (h : sep ∉ cs) (ds : List Char) :
    (cs ++ sep :: ds).dropWhile (· != sep) = sep :: ds := by
  have htake := takeWhile_ne_append h ds
  have hwhole := List.takeWhile_append_dropWhile (p := (· != sep)) (l := cs ++ sep :: ds)
  rw [htake] at hwhole
  exact List.append_cancel_left hwhole

theorem cut?_append {sep : Char} {cs : List Char} (h : sep ∉ cs) (ds : List Char) :
    cut? sep (String.ofList (cs ++ sep :: ds)) = some (String.ofList cs, String.ofList ds) := by
  simp only [cut?, String.toList_ofList, dropWhile_ne_append h, takeWhile_ne_append h]

/-! ### White space -/

/-- Tokens have characters, none of them blank. -/
def IsToken (cs : List Char) : Prop := cs ≠ [] ∧ ∀ c ∈ cs, isBlank c = false

theorem dropWhile_blank {gap cs : List Char} (hgap : ∀ c ∈ gap, isBlank c = true)
    (hcs : ∀ c ∈ cs.head?, isBlank c = false) : (gap ++ cs).dropWhile isBlank = cs := by
  rw [List.dropWhile_append_of_pos hgap]
  cases cs with
  | nil => rfl
  | cons c cs => exact List.dropWhile_cons_of_neg (by simp [hcs c rfl])

theorem trimChars_blank {gap : List Char} (hgap : ∀ c ∈ gap, isBlank c = true) : trimChars gap = [] := by
  have hdrop : gap.dropWhile isBlank = [] := List.dropWhile_eq_nil_iff.mpr hgap
  simp [trimChars, hdrop]

/-- White space before a text that begins and ends without any, and behind it. -/
theorem trimChars_gaps {before core behind : List Char} (hbefore : ∀ c ∈ before, isBlank c = true)
    (hbehind : ∀ c ∈ behind, isBlank c = true) (hhead : ∀ c ∈ core.head?, isBlank c = false)
    (hlast : ∀ c ∈ core.getLast?, isBlank c = false) : trimChars (before ++ core ++ behind) = core := by
  by_cases hcore : core = []
  · subst hcore
    refine trimChars_blank fun c hc => ?_
    rcases List.mem_append.mp hc with hc | hc
    · exact hbefore c (by simpa using hc)
    · exact hbehind c hc
  · have hhead' : ∀ c ∈ (core ++ behind).head?, isBlank c = false := by
      rwa [List.head?_append_of_ne_nil _ hcore]
    have hlast' : ∀ c ∈ core.reverse.head?, isBlank c = false := by
      rwa [List.head?_reverse]
    have hbehind' : ∀ c ∈ behind.reverse, isBlank c = true := fun c hc => hbehind c (List.mem_reverse.mp hc)
    rw [trimChars, List.append_assoc, dropWhile_blank hbefore hhead', List.reverse_append,
      dropWhile_blank hbehind' hlast', List.reverse_reverse]

theorem fieldChars_blank {gap : List Char} (hgap : ∀ c ∈ gap, isBlank c = true) (cs : List Char) :
    fieldChars (gap ++ cs) = fieldChars cs := by
  induction gap with
  | nil => rfl
  | cons c gap ih =>
    rw [List.cons_append, fieldChars, if_pos (hgap c List.mem_cons_self)]
    exact ih fun d hd => hgap d (List.mem_cons_of_mem _ hd)

theorem fieldChars_gap {gap : List Char} (hgap : ∀ c ∈ gap, isBlank c = true) : fieldChars gap = [] := by
  have := fieldChars_blank hgap []
  rw [List.append_nil] at this
  rw [this, fieldChars]

/-- A token is cut off where white space or nothing follows. -/
theorem fieldChars_token {t cs : List Char} (ht : IsToken t) (hcs : ∀ c ∈ cs.head?, isBlank c = true) :
    fieldChars (t ++ cs) = t :: fieldChars cs := by
  obtain ⟨hne, hblank⟩ := ht
  cases t with
  | nil => exact absurd rfl hne
  | cons c t =>
    have htail : ∀ d ∈ t, (!isBlank d) = true := by
      intro d hd
      rw [hblank d (List.mem_cons_of_mem _ hd)]
      rfl
    have htake : (t ++ cs).takeWhile (! isBlank ·) = t := by
      rw [List.takeWhile_append_of_pos htail]
      cases cs with
      | nil => simp
      | cons d cs => simp [hcs d rfl]
    have hdrop : (t ++ cs).dropWhile (! isBlank ·) = cs := by
      rw [List.dropWhile_append_of_pos htail]
      cases cs with
      | nil => rfl
      | cons d cs => simp [hcs d rfl]
    rw [List.cons_append, fieldChars, if_neg (by simp [hblank c List.mem_cons_self]), htake, hdrop]

/-- White space at the end makes no token. -/
theorem fieldChars_append_gap {gap : List Char} (hgap : ∀ c ∈ gap, isBlank c = true) (cs : List Char) :
    fieldChars (cs ++ gap) = fieldChars cs := by
  induction cs using fieldChars.induct with
  | case1 => rw [List.nil_append, fieldChars_gap hgap, fieldChars]
  | case2 c cs hc ih => rw [List.cons_append, fieldChars, fieldChars, if_pos hc, if_pos hc, ih]
  | case3 c cs hc ih =>
    have hstop : gap.takeWhile (! isBlank ·) = [] := by
      cases gap with
      | nil => rfl
      | cons d gap => simp [hgap d List.mem_cons_self]
    have htake : (cs ++ gap).takeWhile (! isBlank ·) = cs.takeWhile (! isBlank ·) := by
      rw [List.takeWhile_append]
      split
      · next hlength =>
        rw [hstop, List.append_nil]
        exact ((List.takeWhile_prefix _).eq_of_length hlength).symm
      · rfl
    have hdrop : fieldChars ((cs ++ gap).dropWhile (! isBlank ·)) = fieldChars (cs.dropWhile (! isBlank ·)) := by
      rw [List.dropWhile_append]
      split
      · next hempty =>
        have hrest : gap.dropWhile (! isBlank ·) = gap := by
          have := List.takeWhile_append_dropWhile (p := (! isBlank ·)) (l := gap)
          rwa [hstop] at this
        rw [hrest, fieldChars_gap hgap, List.isEmpty_iff.mp hempty, fieldChars]
      · exact ih
    rw [List.cons_append, fieldChars, fieldChars, if_neg hc, if_neg hc, htake, hdrop]

/-- A text and the white space at its end. -/
theorem exists_trimmed_end (cs : List Char) : ∃ core gap, cs = core ++ gap ∧ (∀ c ∈ gap, isBlank c = true) ∧
    ∀ c ∈ core.getLast?, isBlank c = false := by
  refine ⟨(cs.reverse.dropWhile isBlank).reverse, (cs.reverse.takeWhile isBlank).reverse, ?_, ?_, ?_⟩
  · rw [← List.reverse_append, List.takeWhile_append_dropWhile, List.reverse_reverse]
  · intro c hc
    exact List.mem_takeWhile_imp (List.mem_reverse.mp hc)
  · intro c hc
    rw [List.getLast?_reverse] at hc
    have hhead := List.head?_dropWhile_not isBlank cs.reverse
    rw [hc] at hhead
    simpa using hhead

/-! ### The characters of tokens -/

/-- A character whose bytes are all below 128 is its one byte. -/
theorem map_utf8EncodeChar {c : Char} (h : ∀ b ∈ String.utf8EncodeChar c, b < 128) :
    (String.utf8EncodeChar c).map Char.ofUInt8 = [c] := by
  by_cases hc : c.val.toNat ≤ 127
  · have hval : (UInt8.ofNat c.val.toNat).toUInt32 = c.val := by
      rw [← UInt32.toNat_inj, UInt8.toNat_toUInt32, UInt8.toNat_ofNat']
      omega
    rw [String.utf8EncodeChar, if_pos hc, List.map_singleton]
    exact congrArg (fun d => [d]) (Char.ext hval)
  · have hmem : UInt8.ofNat (c.val.toNat % 64 + 128) ∈ String.utf8EncodeChar c := by
      rw [String.utf8EncodeChar, if_neg hc]
      split
      · simp
      · split <;> simp
    have hlt := UInt8.lt_iff_toNat_lt.mp (h _ hmem)
    have hge : 128 ≤ (UInt8.ofNat (c.val.toNat % 64 + 128)).toNat := by
      rw [UInt8.toNat_ofNat']
      omega
    exact absurd hlt (Nat.not_lt.mpr hge)

/-- A text whose bytes are all below 128 is its bytes. -/
theorem toList_eq_map {s : String} (h : ∀ b ∈ s.toByteArray.data.toList, b < 128) :
    s.toList = s.toByteArray.data.toList.map Char.ofUInt8 := by
  obtain ⟨cs, rfl⟩ : ∃ cs, s = String.ofList cs := ⟨s.toList, String.ofList_toList.symm⟩
  rw [String.toByteArray_ofList, List.utf8Encode, List.toList_data_toByteArray] at h ⊢
  rw [String.toList_ofList]
  induction cs with
  | nil => rfl
  | cons c cs ih =>
    rw [List.flatMap_cons] at h ⊢
    rw [List.map_append, map_utf8EncodeChar fun b hb => h b (List.mem_append_left _ hb),
      ← ih fun b hb => h b (List.mem_append_right _ hb), List.singleton_append]

/-- The characters of op names and numbers. -/
def isTokenChar (c : Char) : Bool := c.isUpper || c.isDigit || c == '_' || c == '-'

theorem toNat_of_isTokenChar {c : Char} (h : isTokenChar c = true) :
    c.toNat = 45 ∨ (48 ≤ c.toNat ∧ c.toNat ≤ 57) ∨ (65 ≤ c.toNat ∧ c.toNat ≤ 95) := by
  simp only [isTokenChar, Bool.or_eq_true, beq_iff_eq, Char.isUpper, Char.isDigit, Bool.and_eq_true,
    decide_eq_true_eq] at h
  rcases h with ((⟨hlow, hhigh⟩ | ⟨hlow, hhigh⟩) | rfl) | rfl
  · have hlow : 65 ≤ c.toNat := hlow
    have hhigh : c.toNat ≤ 90 := hhigh
    omega
  · have hlow : 48 ≤ c.toNat := hlow
    have hhigh : c.toNat ≤ 57 := hhigh
    omega
  · exact .inr (.inr (by decide))
  · exact .inl rfl

theorem isBlank_of_isTokenChar {c : Char} (h : isTokenChar c = true) : isBlank c = false := by
  have := toNat_of_isTokenChar h
  simp only [isBlank, Bool.or_eq_false_iff, Bool.and_eq_false_iff, decide_eq_false_iff_not, beq_eq_false_iff_ne]
  omega

/-- The characters with a meaning of their own. -/
def isMark (c : Char) : Bool := c == '#' || c == '|' || c == '\n' || c == ':'

theorem isMark_of_isTokenChar {c : Char} (h : isTokenChar c = true) : isMark c = false := by
  have hnat := toNat_of_isTokenChar h
  simp only [isMark, Bool.or_eq_false_iff, beq_eq_false_iff_ne]
  refine ⟨⟨⟨?_, ?_⟩, ?_⟩, ?_⟩ <;> rintro rfl <;> revert hnat <;> decide

end Text

namespace Op

theorem names_spelled : (all.all fun op =>
    (op.name.toByteArray.data.toList.all fun b => b < 128 && Text.isTokenChar (Char.ofUInt8 b)) &&
      op.name.toByteArray.data.toList.head?.any fun b => (Char.ofUInt8 b).isUpper) = true := by
  decide

/-- The name of an op begins with a capital letter, and its characters are those of tokens. -/
theorem name_spelled (op : Op) :
    (∀ c ∈ op.name.toList, Text.isTokenChar c = true) ∧ ∃ c ∈ op.name.toList.head?, c.isUpper = true := by
  have h := List.all_eq_true.mp names_spelled op op.mem_all
  simp only [Bool.and_eq_true, List.all_eq_true, decide_eq_true_eq, Option.any_eq_true] at h
  obtain ⟨hbytes, b, hb, hupper⟩ := h
  rw [Text.toList_eq_map fun b hb => (hbytes b hb).1]
  refine ⟨fun c hc => ?_, Char.ofUInt8 b, ?_, hupper⟩
  · obtain ⟨b, hb, rfl⟩ := List.mem_map.mp hc
    exact (hbytes b hb).2
  · rw [List.head?_map, hb]
    rfl

end Op

namespace Numeral

theorem mem_repr {i : Int} {c : Char} (hc : c ∈ i.repr.toList) : c = '-' ∨ c.isDigit = true := by
  have hdigit (h : c ∈ Nat.toDigits 10 i.natAbs) : c.isDigit = true :=
    Nat.isDigit_of_mem_toDigits (by decide) (by decide) h
  rw [toList_repr] at hc
  split at hc
  · rcases List.mem_cons.mp hc with rfl | hc
    · exact .inl rfl
    · exact .inr (hdigit hc)
  · exact .inr (hdigit hc)

theorem isTokenChar_of_mem_repr {i : Int} : ∀ c ∈ i.repr.toList, Text.isTokenChar c = true := by
  intro c hc
  rcases mem_repr hc with rfl | hdigit
  · decide
  · simp [Text.isTokenChar, hdigit]

theorem isUpper_of_mem_repr {i : Int} {c : Char} (hc : c ∈ i.repr.toList) : c.isUpper = false := by
  rcases mem_repr hc with rfl | hdigit
  · decide
  · simp only [Char.isDigit, Bool.and_eq_true, decide_eq_true_eq] at hdigit
    have hle : c.toNat ≤ 57 := hdigit.2
    rw [Char.isUpper, decide_eq_false_iff_not]
    rintro ⟨hge : 65 ≤ c.toNat, -⟩
    omega

theorem repr_ne_nil (i : Int) : i.repr.toList ≠ [] := by
  rw [toList_repr]
  split
  · exact List.cons_ne_nil _ _
  · exact Nat.toDigits_ne_nil

/-- No op has a number for its name. -/
theorem ofName?_repr (i : Int) : Op.ofName? i.repr = none := by
  rw [Option.eq_none_iff_forall_ne_some]
  intro op hop
  rw [Op.ofName?_eq_some] at hop
  obtain ⟨-, c, hc, hupper⟩ := op.name_spelled
  rw [hop] at hc
  rw [isUpper_of_mem_repr (List.mem_of_mem_head? hc)] at hupper
  cases hupper

end Numeral

namespace Assembly

/-! ### Tokens -/

theorem word_repr (w : Int32) : word w.toInt.repr = .ok w := by
  have hlow := w.le_toInt
  have hhigh := w.toInt_lt
  simp only [word, Numeral.read_repr (i := w.toInt) (by omega) (by omega)]
  rw [if_neg (by omega), Int32.ofInt_toInt]

theorem Spelled.words_eq {ws : List Int32} {ts : List String} (h : Spelled ws ts) : words ts = .ok ws := by
  induction h with
  | nil => rfl
  | raw w _ ih => simp [words, Numeral.ofName?_repr, word_repr, ih, Except.map]
  | @plain op _ _ himm _ ih => simp [words, Op.ofName?_eq_some.mpr rfl, himm, ih, Except.map]
  | @wide op v _ _ himm _ ih => simp [words, Op.ofName?_eq_some.mpr rfl, himm, word_repr, ih, Except.map]

theorem Spelled.tokens {ws : List Int32} {ts : List String} (h : Spelled ws ts) :
    ∀ t ∈ ts, t.toList ≠ [] ∧ ∀ c ∈ t.toList, Text.isTokenChar c = true := by
  have hrepr (i : Int) : i.repr.toList ≠ [] ∧ ∀ c ∈ i.repr.toList, Text.isTokenChar c = true :=
    ⟨Numeral.repr_ne_nil i, Numeral.isTokenChar_of_mem_repr⟩
  have hname (op : Op) : op.name.toList ≠ [] ∧ ∀ c ∈ op.name.toList, Text.isTokenChar c = true := by
    obtain ⟨hchars, c, hc, -⟩ := op.name_spelled
    exact ⟨List.ne_nil_of_mem (List.mem_of_mem_head? hc), hchars⟩
  induction h with
  | nil => exact fun t ht => absurd ht List.not_mem_nil
  | raw w _ ih => exact List.forall_mem_cons.mpr ⟨hrepr _, ih⟩
  | plain _ _ ih => exact List.forall_mem_cons.mpr ⟨hname _, ih⟩
  | wide v _ _ ih => exact List.forall_mem_cons.mpr ⟨hname _, List.forall_mem_cons.mpr ⟨hrepr _, ih⟩⟩

theorem gap_nil : Gap [] := fun _ h => absurd h List.not_mem_nil

theorem Gap.blank {gap : List Char} (h : Gap gap) : ∀ c ∈ gap, Text.isBlank c = true := fun c hc => (h c hc).1

theorem Gap.isMark {gap : List Char} (h : Gap gap) : ∀ c ∈ gap, Text.isMark c = false := by
  intro c hc
  obtain ⟨hblank, hline⟩ := h c hc
  simp only [Text.isMark, Bool.or_eq_false_iff, beq_eq_false_iff_ne]
  refine ⟨⟨⟨?_, ?_⟩, hline⟩, ?_⟩ <;> rintro rfl <;> exact absurd hblank (by decide)

theorem Spaced.fieldChars_eq {ts : List String} {cs : List Char} (h : Spaced ts cs)
    (hts : ∀ t ∈ ts, Text.IsToken t.toList) : Text.fieldChars cs = ts.map String.toList := by
  induction h with
  | nil hgap => exact Text.fieldChars_gap hgap.blank
  | cons hgap _ hstop ih =>
    obtain ⟨ht, hts⟩ := List.forall_mem_cons.mp hts
    rw [List.append_assoc, Text.fieldChars_blank hgap.blank, Text.fieldChars_token ht hstop, ih hts, List.map_cons]

theorem Spaced.isMark {ts : List String} {cs : List Char} (h : Spaced ts cs)
    (hts : ∀ t ∈ ts, ∀ c ∈ t.toList, Text.isMark c = false) : ∀ c ∈ cs, Text.isMark c = false := by
  induction h with
  | nil hgap => exact hgap.isMark
  | cons hgap _ _ ih =>
    obtain ⟨ht, hts⟩ := List.forall_mem_cons.mp hts
    simp only [List.forall_mem_append]
    exact ⟨⟨hgap.isMark, ht⟩, ih hts⟩

/-! ### Fields -/

/-- The white space around an instruction goes; inside it stays, as it does not count between tokens. -/
theorem exists_trimmed {length before : List Char} (hbefore : Gap before)
    (hlength : ∀ c ∈ length, Text.isTokenChar c = true) (hne : length ≠ []) (behind cs : List Char) :
    ∃ cs', Text.trimChars (before ++ length ++ behind ++ ':' :: cs) = length ++ behind ++ ':' :: cs' ∧
      Text.fieldChars cs' = Text.fieldChars cs := by
  obtain ⟨core, gap, rfl, hgap, hlast⟩ := Text.exists_trimmed_end cs
  refine ⟨core, ?_, (Text.fieldChars_append_gap hgap core).symm⟩
  have hhead : ∀ c ∈ (length ++ behind ++ ':' :: core).head?, Text.isBlank c = false := by
    intro c hc
    rw [List.append_assoc, List.head?_append_of_ne_nil _ hne] at hc
    exact Text.isBlank_of_isTokenChar (hlength c (List.mem_of_mem_head? hc))
  have hlast : ∀ c ∈ (length ++ behind ++ ':' :: core).getLast?, Text.isBlank c = false := by
    intro c hc
    rw [List.getLast?_append_of_ne_nil _ (List.cons_ne_nil _ _)] at hc
    cases core with
    | nil =>
      cases hc
      decide
    | cons d core => exact hlast c (by rwa [List.getLast?_cons_cons] at hc)
  have htrim := Text.trimChars_gaps hbefore.blank hgap hhead hlast
  simpa [List.append_assoc] using htrim

theorem trim_length {length behind : List Char} (hlength : ∀ c ∈ length, Text.isTokenChar c = true)
    (hbehind : Gap behind) : Text.trim (String.ofList (length ++ behind)) = String.ofList length := by
  have hhead : ∀ c ∈ length.head?, Text.isBlank c = false := fun c hc =>
    Text.isBlank_of_isTokenChar (hlength c (List.mem_of_mem_head? hc))
  have hlast : ∀ c ∈ length.getLast?, Text.isBlank c = false := fun c hc =>
    Text.isBlank_of_isTokenChar (hlength c (List.mem_of_getLast? hc))
  have htrim := Text.trimChars_gaps gap_nil.blank hbehind.blank hhead hlast
  rw [List.nil_append] at htrim
  rw [Text.trim, String.toList_ofList, htrim]

theorem field_instruction {i : Instruction} {behind cs : List Char} {ts : List String} (hpos : 0 < i.length)
    (hbehind : Gap behind) (hspelled : Spelled i.words ts) (hcs : Text.fieldChars cs = ts.map String.toList) :
    field (String.ofList (i.length.toInt.repr.toList ++ behind ++ ':' :: cs)) = .ok i := by
  have hlength : ∀ c ∈ i.length.toInt.repr.toList, Text.isTokenChar c = true := Numeral.isTokenChar_of_mem_repr
  have hcolon : ':' ∉ i.length.toInt.repr.toList ++ behind := by
    intro hmem
    rcases List.mem_append.mp hmem with h | h
    · exact absurd (hlength _ h) (by decide)
    · exact absurd (hbehind.blank _ h) (by decide)
  have hpos : 0 < i.length.toInt := Int64.lt_iff_toInt_lt.mp hpos
  have hread := Numeral.readDecimal_repr (i := i.length.toInt) i.length.le_toInt i.length.toInt_lt
  have hfields : Text.fields (String.ofList cs) = ts := by
    rw [Text.fields, String.toList_ofList, hcs, List.map_map]
    exact (List.map_congr_left fun t _ => String.ofList_toList).trans (List.map_id ts)
  simp only [field, Text.cut?_append hcolon, trim_length hlength hbehind, String.ofList_toList, hread,
    if_neg (Int.not_le.mpr hpos), hfields, instruction, hspelled.words_eq, Except.map, Int64.ofInt_toInt]

/-- A field that is not blank is read as its instruction. -/
theorem Field.fields_trim {b : Block} {cs : List Char} (h : Field b cs) :
    (b = [] ∧ Text.trim (String.ofList cs) = "") ∨
      ∃ i, b = [i] ∧ Text.trim (String.ofList cs) ≠ "" ∧ field (Text.trim (String.ofList cs)) = .ok i := by
  cases h with
  | blank hgap =>
    refine .inl ⟨rfl, ?_⟩
    rw [Text.trim, String.toList_ofList, Text.trimChars_blank hgap.blank, String.ofList_nil]
  | @instruction i before behind cs ts hpos hbefore hbehind hspelled hspaced =>
    have htokens : ∀ t ∈ ts, Text.IsToken t.toList := fun t ht =>
      ⟨(hspelled.tokens t ht).1, fun c hc => Text.isBlank_of_isTokenChar ((hspelled.tokens t ht).2 c hc)⟩
    obtain ⟨cs', htrim, hsame⟩ :=
      exists_trimmed hbefore Numeral.isTokenChar_of_mem_repr (Numeral.repr_ne_nil i.length.toInt) behind cs
    refine .inr ⟨i, rfl, ?_⟩
    rw [Text.trim, String.toList_ofList, htrim]
    refine ⟨?_, field_instruction hpos hbehind hspelled (hsame.trans (hspaced.fieldChars_eq htokens))⟩
    intro hempty
    have := congrArg String.toList hempty
    simp at this

theorem Field.not_mem {b : Block} {cs : List Char} (h : Field b cs) : '#' ∉ cs ∧ '|' ∉ cs ∧ '\n' ∉ cs := by
  have hmarks {ds : List Char} (hds : ∀ c ∈ ds, Text.isMark c = false) : '#' ∉ ds ∧ '|' ∉ ds ∧ '\n' ∉ ds := by
    refine ⟨?_, ?_, ?_⟩ <;> exact fun hmem => absurd (hds _ hmem) (by decide)
  cases h with
  | blank hgap => exact hmarks hgap.isMark
  | @instruction i _ _ _ _ _ hbefore hbehind hspelled hspaced =>
    have htokens := hspaced.isMark fun t ht c hc => Text.isMark_of_isTokenChar ((hspelled.tokens t ht).2 c hc)
    have hlength : ∀ c ∈ i.length.toInt.repr.toList, Text.isMark c = false := fun c hc =>
      Text.isMark_of_isTokenChar (Numeral.isTokenChar_of_mem_repr c hc)
    simp [hmarks hbefore.isMark, hmarks hlength, hmarks hbehind.isMark, hmarks htokens]

/-! ### Lines -/

theorem fieldsOf_ofList {cs : List Char} (h : '#' ∉ cs) :
    fieldsOf (String.ofList cs) = ((Text.splitChars '|' cs).map fun f => Text.trim (String.ofList f)).filter (· != "") := by
  rw [fieldsOf, String.toList_ofList, Text.takeWhile_ne_of_not_mem h, Text.split, String.toList_ofList, List.map_map]
  rfl

theorem fieldsOf_comment {cs : List Char} (h : '#' ∉ cs) (note : List Char) :
    fieldsOf (String.ofList (cs ++ '#' :: note)) = fieldsOf (String.ofList cs) := by
  simp only [fieldsOf, String.toList_ofList, Text.takeWhile_ne_append h, Text.takeWhile_ne_of_not_mem h]

theorem fieldsOf_bar {cs cs' : List Char} (h : '#' ∉ cs) (hbar : '|' ∉ cs) (h' : '#' ∉ cs') :
    fieldsOf (String.ofList (cs ++ '|' :: cs')) = fieldsOf (String.ofList cs) ++ fieldsOf (String.ofList cs') := by
  have hboth : '#' ∉ cs ++ '|' :: cs' := by
    simp only [List.mem_append, List.mem_cons, not_or]
    exact ⟨h, by decide, h'⟩
  rw [fieldsOf_ofList hboth, fieldsOf_ofList h, fieldsOf_ofList h', Text.splitChars_append hbar,
    Text.splitChars_of_not_mem hbar, ← List.filter_append, ← List.map_append, List.singleton_append]

theorem Field.lineBlock_eq {b : Block} {cs : List Char} (h : Field b cs) (n : Nat) :
    lineBlock n (String.ofList cs) = .ok b := by
  obtain ⟨hhash, hbar, -⟩ := h.not_mem
  have hfields : fieldsOf (String.ofList cs) = [Text.trim (String.ofList cs)].filter (· != "") := by
    rw [fieldsOf_ofList hhash, Text.splitChars_of_not_mem hbar, List.map_singleton]
  rcases h.fields_trim with ⟨rfl, hempty⟩ | ⟨i, rfl, hne, hfield⟩
  · rw [lineBlock, hfields, hempty]
    rfl
  · have hkept : [Text.trim (String.ofList cs)].filter (· != "") = [Text.trim (String.ofList cs)] := by simp [hne]
    rw [lineBlock, hfields, hkept, List.mapM_cons, hfield]
    rfl

theorem Fields.lineBlock_eq {b : Block} {cs : List Char} (h : Fields b cs) (n : Nat) :
    ('#' ∉ cs ∧ '\n' ∉ cs) ∧ lineBlock n (String.ofList cs) = .ok b := by
  induction h with
  | one h =>
    obtain ⟨hhash, -, hline⟩ := h.not_mem
    exact ⟨⟨hhash, hline⟩, h.lineBlock_eq n⟩
  | bar h _ ih =>
    obtain ⟨hhash, hbar, hline⟩ := h.not_mem
    obtain ⟨⟨hhash', hline'⟩, ih⟩ := ih
    constructor
    · simp only [List.mem_append, List.mem_cons, not_or]
      exact ⟨⟨hhash, by decide, hhash'⟩, hline, by decide, hline'⟩
    · have hfirst := h.lineBlock_eq n
      rw [lineBlock] at hfirst ih ⊢
      rw [fieldsOf_bar hhash hbar hhash', List.mapM_append, hfirst, ih]
      rfl

theorem Line.lineBlock_eq {b : Block} {cs : List Char} (h : Line b cs) (n : Nat) :
    '\n' ∉ cs ∧ lineBlock n (String.ofList cs) = .ok b := by
  cases h with
  | plain h => exact ⟨(h.lineBlock_eq n).1.2, (h.lineBlock_eq n).2⟩
  | comment h hnote =>
    obtain ⟨⟨hhash, hline⟩, hblock⟩ := h.lineBlock_eq n
    constructor
    · simp only [List.mem_append, List.mem_cons, not_or]
      exact ⟨hline, by decide, hnote⟩
    · rw [lineBlock, fieldsOf_comment hhash]
      exact hblock

theorem Lines.linesBlock_eq {b : Block} {cs : List Char} (h : Lines b cs) (n : Nat) :
    linesBlock n ((Text.splitChars '\n' cs).map String.ofList) = .ok b := by
  induction h generalizing n with
  | @one b cs h =>
    obtain ⟨hline, hblock⟩ := h.lineBlock_eq n
    rw [Text.splitChars_of_not_mem hline, List.map_singleton, linesBlock, hblock]
    simp [linesBlock, bind, Except.bind, pure, Except.pure]
  | cons h _ ih =>
    obtain ⟨hline, hblock⟩ := h.lineBlock_eq n
    rw [Text.splitChars_append hline, List.map_cons, linesBlock, hblock, ih (n + 1)]
    rfl

/-! ### Every block has listings -/

theorem exists_spelled (ws : List Int32) : ∃ ts, Spelled ws ts := by
  induction ws with
  | nil => exact ⟨[], .nil⟩
  | cons w ws ih =>
    obtain ⟨ts, hts⟩ := ih
    exact ⟨_, .raw w hts⟩

theorem gap_space : Gap [' '] := by
  intro c hc
  rw [List.mem_singleton.mp hc]
  decide

theorem exists_spaced (ts : List String) : ∃ cs, Spaced ts cs ∧ ∀ c ∈ cs.head?, Text.isBlank c = true := by
  induction ts with
  | nil => exact ⟨[], .nil gap_nil, fun _ h => absurd h (by simp)⟩
  | cons t ts ih =>
    obtain ⟨cs, hcs, hhead⟩ := ih
    refine ⟨_, .cons (t := t) gap_space hcs hhead, ?_⟩
    intro c hc
    cases hc
    decide

theorem exists_lists {b : Block} (hb : ∀ i ∈ b, 0 < i.length) : ∃ text, Lists text b := by
  suffices h : ∃ cs, Lines b cs by
    obtain ⟨cs, hcs⟩ := h
    exact ⟨String.ofList cs, by rwa [Lists, String.toList_ofList]⟩
  induction b with
  | nil => exact ⟨[], .one (.plain (.one (.blank gap_nil)))⟩
  | cons i b ih =>
    obtain ⟨hpos, hb⟩ := List.forall_mem_cons.mp hb
    obtain ⟨ts, hts⟩ := exists_spelled i.words
    obtain ⟨cs, hcs, -⟩ := exists_spaced ts
    obtain ⟨rest, hrest⟩ := ih hb
    exact ⟨_, .cons (.plain (.one (.instruction hpos gap_nil gap_nil hts hcs))) hrest⟩

/-- A block of instructions with positive lengths has listings, and each of them is read as the block. -/
theorem read_listing (b : Block) (hb : ∀ i ∈ b, 0 < i.length) :
    (∃ text, Lists text b) ∧ ∀ text, Lists text b → read text = .ok b :=
  ⟨exists_lists hb, fun _ h => h.linesBlock_eq 1⟩

/-- An op that takes an immediate, once as its name and once as its number. -/
def bothWays : Block :=
  [⟨5, [(Op.load0Imm .dword).word, -1]⟩, ⟨9223372036854775807, [(Op.load0Imm .dword).word, Op.clc.word]⟩]

theorem read_listing_bothWays : (∀ i ∈ bothWays, 0 < i.length) ∧
    Lists " 5 :\tLOAD0_ID  -1| # 1: CLC\n\n9223372036854775807:67 CLC#" bothWays ∧
    read " 5 :\tLOAD0_ID  -1| # 1: CLC\n\n9223372036854775807:67 CLC#" = .ok bothWays := by
  have hpos : ∀ i ∈ bothWays, 0 < i.length := by decide
  have hgap (cs : List Char) (h : cs.all (fun c => Text.isBlank c && c != '\n') = true) : Gap cs := by
    simpa [Gap] using h
  have hspace {c : Char} {cs : List Char} (h : Text.isBlank c = true) : ∀ d ∈ (c :: cs).head?, Text.isBlank d = true := by
    intro d hd
    cases hd
    exact h
  have hend : ∀ c ∈ ([] : List Char).head?, Text.isBlank c = true := fun _ h => absurd h (by simp)
  have hnamed : Field [⟨5, [(Op.load0Imm .dword).word, -1]⟩] " 5 :\tLOAD0_ID  -1".toList :=
    .instruction (by decide) (hgap [' '] rfl) (hgap [' '] rfl) (.wide (-1) rfl .nil)
      (.cons (hgap ['\t'] rfl) (.cons (hgap [' ', ' '] rfl) (.nil gap_nil) hend) (hspace rfl))
  have hraw : Field [⟨9223372036854775807, [(Op.load0Imm .dword).word, Op.clc.word]⟩]
      "9223372036854775807:67 CLC".toList :=
    .instruction (by decide) gap_nil gap_nil (.raw _ (.plain rfl .nil))
      (.cons gap_nil (.cons gap_space (.nil gap_nil) hend) (hspace rfl))
  have hnote : '\n' ∉ " 1: CLC".toList := by decide
  have hlists : Lists " 5 :\tLOAD0_ID  -1| # 1: CLC\n\n9223372036854775807:67 CLC#" bothWays :=
    .cons (.comment (.bar hnamed (.one (.blank gap_space))) hnote)
      (.cons (.plain (.one (.blank gap_nil))) (.one (.comment (.one hraw) List.not_mem_nil)))
  exact ⟨hpos, hlists, (read_listing bothWays hpos).2 _ hlists⟩

end Assembly
end MicroBlock
