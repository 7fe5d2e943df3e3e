import Mathlib
import MicroBlock.Proofs.Fragments
import MicroBlock.Proofs.Registers

/-! The names of fragments have one reading.

An op's name holds underscores and may end in the name of an element, so a name could be cut into an op and
elements in several places. It never can: where the tokens of one op begin with those of another, the rest
ends in a token that names no element. The longest op is therefore the only one, and reading a name is the
converse of writing it. -/

namespace MicroBlock

/-! ### What a name says -/

/-- The text names the element, in letters of any case. -/
def Element.Spells (e : Element) (t : String) : Prop := Text.lowerToAscii t = Text.lowerToAscii e.name

/-- The texts name the elements one by one. -/
abbrev Element.Listed (ts : List String) (es : List Element) : Prop := List.Forall₂ (fun t e => e.Spells t) ts es

/-- The name is cut at its underscores into the class, the tokens of the op and a token for the target and
    for each input. -/
inductive Signature.Reads (s : Signature) (name : String) : Prop
  | intro (ts : List String) (hsplit : Text.split '_' name = s.cls.name :: (Text.split '_' s.op.name ++ ts))
    (hlisted : Element.Listed ts (s.target :: s.inputs))

/-! ### Texts split at a character -/

namespace Text
variable {sep : Char}

theorem splitChars_eq_splitOn (cs : List Char) : splitChars sep cs = cs.splitOn sep := by
  induction cs with
  | nil => rfl
  | cons c cs ih =>
    rw [splitChars, ih, List.splitOn_cons_eq_if_modifyHead]
    simp only [beq_iff_eq]
    split
    · rfl
    · cases hsplit : cs.splitOn sep with
      | nil => exact absurd hsplit (List.splitOn_ne_nil sep cs)
      | cons piece rest => rfl

theorem not_mem_of_mem_splitOn {cs : List Char} : ∀ piece ∈ cs.splitOn sep, sep ∉ piece := by
  induction cs with
  | nil => simp
  | cons c cs ih =>
    rw [List.splitOn_cons_eq_if_modifyHead]
    by_cases hc : c = sep
    · simpa [hc] using ih
    · cases hsplit : cs.splitOn sep with
      | nil => exact absurd hsplit (List.splitOn_ne_nil sep cs)
      | cons piece rest =>
        rw [hsplit] at ih
        simpa [hc, Ne.symm hc] using ih

theorem split_eq (s : String) : split sep s = (s.toList.splitOn sep).map String.ofList := by
  rw [split, splitChars_eq_splitOn]

theorem split_ne_nil (s : String) : split sep s ≠ [] := by
  simp [split_eq, List.splitOn_ne_nil]

theorem split_append (a b : String) : split '_' (a ++ "_" ++ b) = split '_' a ++ split '_' b := by
  have hsep : "_".toList = ['_'] := by decide
  simp [split_eq, hsep, List.splitOn_append_cons_self]

theorem split_of_not_mem {s : String} (h : sep ∉ s.toList) : split sep s = [s] := by
  simp [split_eq, List.splitOn_eq_singleton h]

theorem not_mem_of_mem_split {s t : String} (h : t ∈ split sep s) : sep ∉ t.toList := by
  rw [split_eq, List.mem_map] at h
  obtain ⟨cs, hcs, rfl⟩ := h
  rw [String.toList_ofList]
  exact not_mem_of_mem_splitOn cs hcs

theorem intercalate_split (s : String) : String.intercalate "_" (split '_' s) = s := by
  have hsep : "_".toList = ['_'] := by decide
  have hid : String.toList ∘ String.ofList = id := funext fun cs => String.toList_ofList
  apply String.toList_inj.mp
  rw [String.toList_intercalate, hsep, split_eq, List.map_map, hid, List.map_id, List.intercalate_splitOn]

theorem split_intercalate {ts : List String} (h : ts ≠ []) :
    split '_' (String.intercalate "_" ts) = ts.flatMap (split '_') := by
  induction ts with
  | nil => exact absurd rfl h
  | cons t ts ih =>
    by_cases hts : ts = []
    · simp [hts]
    · rw [String.intercalate_cons_of_ne_nil hts, split_append, ih hts, List.flatMap_cons]

/-- Tokens are not split further. -/
theorem flatMap_split_of_forall {ts : List String} (h : ∀ t ∈ ts, split sep t = [t]) : ts.flatMap (split sep) = ts := by
  rw [List.flatMap_congr h, List.flatMap_singleton']

/-! ### Letter case -/

theorem lowerChar_of_ascii {c : Char} (h : c.val < 128) : lowerChar c = c.toLower := by
  have hdotted : c.val ≠ 0x130 := by
    intro heq
    rw [heq] at h
    revert h
    decide
  have hkelvin : c.val ≠ 0x212a := by
    intro heq
    rw [heq] at h
    revert h
    decide
  simp [lowerChar, hdotted, hkelvin]

theorem val_lt_of_isUpper {c : Char} (h : c.isUpper = true) : c.val < 128 := by
  simp only [Char.isUpper, decide_eq_true_eq] at h
  exact UInt32.lt_of_le_of_lt h.2 (by decide)

theorem lowerChar_toUpper (c : Char) : lowerChar (lowerChar c).toUpper = lowerChar c := by
  by_cases hdotted : c.val = 0x130
  · have hi : lowerChar c = 'i' := by simp [lowerChar, hdotted]
    rw [hi]
    decide
  by_cases hkelvin : c.val = 0x212a
  · have hk : lowerChar c = 'k' := by simp [lowerChar, hkelvin]
    rw [hk]
    decide
  have hlower : lowerChar c = c.toLower := by simp [lowerChar, hdotted, hkelvin]
  rw [hlower, Char.toUpper_toLower_eq_toUpper]
  by_cases hc : c.isLower = true
  · have hupper : c.toUpper.isUpper = true := by
      rw [Char.isUpper_toUpper_eq_isAlpha, Char.isAlpha, hc, Bool.or_true]
    rw [lowerChar_of_ascii (val_lt_of_isUpper hupper), Char.toLower_toUpper_eq_toLower]
  · rw [Char.toUpper_eq_of_not_isLower hc, hlower]

theorem lower_upper_lower (s : String) : lowerToAscii (upperAscii (lowerToAscii s)) = lowerToAscii s := by
  apply String.toList_inj.mp
  simp only [lowerToAscii, upperAscii, String.toList_map, List.map_map]
  refine List.map_congr_left fun c _ => ?_
  exact lowerChar_toUpper c

end Text

/-! ### The catalogue -/

namespace Text

/-- The bytes of a text as the digits of one number. -/
def code (s : String) : Nat := s.toByteArray.data.toList.foldl (fun n b => 256 * n + b.toNat) 1

/-- The numbers of the texts before each underscore, after a text with the number `n`. -/
def cutCodes (n : Nat) : List UInt8 → List Nat
  | [] => []
  | b :: bs => if b = 0x5f then n :: cutCodes (256 * n + b.toNat) bs else cutCodes (256 * n + b.toNat) bs

def distinct : List Nat → Bool
  | [] => true
  | n :: ns => ns.all (fun m => !(n.beq m)) && distinct ns

theorem foldl_mem_cutCodes (n : Nat) (as bs : List UInt8) :
    as.foldl (fun n b => 256 * n + b.toNat) n ∈ cutCodes n (as ++ 0x5f :: bs) := by
  induction as generalizing n with
  | nil => simp [cutCodes]
  | cons a as ih =>
    rw [List.cons_append, cutCodes, List.foldl_cons]
    split
    · exact List.mem_cons_of_mem _ (ih _)
    · exact ih _

theorem code_mem_cutCodes (a b : String) : code a ∈ cutCodes 1 (a ++ "_" ++ b).toByteArray.data.toList := by
  have hsep : "_".toByteArray.data.toList = [0x5f] := by decide
  simp only [String.toByteArray_append, ByteArray.data_append, Array.toList_append, hsep, List.append_assoc,
    List.singleton_append]
  exact foldl_mem_cutCodes 1 _ _

theorem nodup_of_distinct {ns : List Nat} (h : distinct ns = true) : ns.Nodup := by
  induction ns with
  | nil => exact List.nodup_nil
  | cons n ns ih =>
    simp only [distinct, Bool.and_eq_true, List.all_eq_true, Bool.not_eq_true'] at h
    refine List.nodup_cons.mpr ⟨fun hmem => ?_, ih h.2⟩
    have hne := h.1 n hmem
    rw [Nat.beq_refl] at hne
    cases hne

theorem nodup_of_distinct_codes {ss : List String} (h : distinct (ss.map code) = true) : ss.Nodup :=
  List.Nodup.of_map code (nodup_of_distinct h)

end Text

namespace Op

def tokens (op : Op) : List String := Text.split '_' op.name

/-- The ops that leave flags after an operation; only their names begin with the name of another op. -/
def leavesFlags : Op → Bool
  | addFlags _ | subFlags _ | incFlags | decFlags | mulFlags => true
  | _ => false

end Op

/-- What the names of elements and ops are like. Texts are compared by their numbers, which the kernel does in one
    step. -/
theorem names_checked :
    (Element.all.all fun e => e.name.toList.all fun c => c.val < 128 && !c.isLower && c != '_') = true ∧
    Text.distinct ((Element.all.map Element.name).map Text.code) = true ∧
    Element.ofName? "FLAGS" = none ∧
    Text.distinct ((Op.all.map Op.name).map Text.code) = true ∧
    (Op.all.all fun op => op.leavesFlags || (Text.cutCodes 1 op.name.toByteArray.data.toList).all fun n =>
      !((Op.all.map Op.name).map Text.code).contains n) = true ∧
    (Op.all.all fun op => !op.leavesFlags || op.tokens.getLast? == some "FLAGS") = true := by
  refine ⟨?_, ?_, ?_, ?_, ?_, ?_⟩ <;> decide +kernel

/-! ### Names of elements -/

/-- Looking a name up in a list of named values. -/
theorem lookup_eq_some_iff_of_nodup {α : Type} {f : α → String} {l : List α} (h : (l.map f).Nodup) {s : String}
    {a : α} : (l.map fun a => (f a, a)).lookup s = some a ↔ a ∈ l ∧ f a = s := by
  induction l with
  | nil => simp
  | cons b l ih =>
    rw [List.map_cons, List.nodup_cons] at h
    by_cases hb : s = f b
    · subst hb
      have hnew : ∀ c ∈ l, f c ≠ f b := by
        intro c hc heq
        exact h.1 (heq ▸ List.mem_map_of_mem hc)
      simp only [List.map_cons, List.lookup_cons_self, Option.some.injEq, List.mem_cons]
      constructor
      · rintro rfl
        exact ⟨Or.inl rfl, rfl⟩
      · rintro ⟨rfl | ha, heq⟩
        · rfl
        · exact absurd heq (hnew a ha)
    · rw [List.map_cons, List.lookup_cons, beq_false_of_ne hb]
      simp only [ih h.2, List.mem_cons]
      constructor
      · rintro ⟨ha, heq⟩
        exact ⟨Or.inr ha, heq⟩
      · rintro ⟨rfl | ha, heq⟩
        · exact absurd heq.symm hb
        · exact ⟨ha, heq⟩

namespace Element

theorem name_chars (e : Element) : ∀ c ∈ e.name.toList, c.val < 128 ∧ ¬c.isLower = true ∧ c ≠ '_' := by
  obtain ⟨hchars, -⟩ := names_checked
  intro c hc
  simpa [and_assoc] using List.all_eq_true.mp (List.all_eq_true.mp hchars e e.mem_all) c hc

theorem upper_lower_name (e : Element) : Text.upperAscii (Text.lowerToAscii e.name) = e.name := by
  apply String.toList_inj.mp
  simp only [Text.lowerToAscii, Text.upperAscii, String.toList_map, List.map_map]
  refine (List.map_congr_left fun c hc => ?_).trans (List.map_id _)
  obtain ⟨hascii, hlower, -⟩ := e.name_chars c hc
  rw [Function.comp_apply, Text.lowerChar_of_ascii hascii, Char.toUpper_toLower_eq_toUpper,
    Char.toUpper_eq_of_not_isLower hlower, id]

theorem nodup_names : (all.map name).Nodup := by
  obtain ⟨-, hcodes, -⟩ := names_checked
  exact Text.nodup_of_distinct_codes hcodes

theorem ofName?_eq_some {t : String} {e : Element} : ofName? t = some e ↔ e.Spells t := by
  rw [ofName?, byName, lookup_eq_some_iff_of_nodup nodup_names]
  constructor
  · rintro ⟨-, hname⟩
    rw [Spells, hname, Text.lower_upper_lower]
  · intro h
    refine ⟨e.mem_all, ?_⟩
    rw [h, upper_lower_name]

/-- A text that names an element is one token. -/
theorem Spells.split_eq {e : Element} {t : String} (h : e.Spells t) : Text.split '_' t = [t] := by
  apply Text.split_of_not_mem
  intro hmem
  have hlower : '_' ∈ (Text.lowerToAscii t).toList := by
    rw [Text.lowerToAscii, String.toList_map]
    exact List.mem_map.mpr ⟨'_', hmem, by decide⟩
  rw [h, Text.lowerToAscii, String.toList_map, List.mem_map] at hlower
  obtain ⟨c, hc, heq⟩ := hlower
  obtain ⟨hascii, hcapital, hne⟩ := e.name_chars c hc
  rw [Text.lowerChar_of_ascii hascii] at heq
  have hback := congrArg Char.toUpper heq
  rw [Char.toUpper_toLower_eq_toUpper, Char.toUpper_eq_of_not_isLower hcapital] at hback
  exact hne (hback.trans (by decide))

theorem mapM_ofName? {ts : List String} {es : List Element} :
    ts.mapM ofName? = some es ↔ Listed ts es := by
  induction ts generalizing es with
  | nil => simp [eq_comm]
  | cons t ts ih =>
    rw [List.mapM_cons]
    cases es with
    | nil => simp [Option.bind_eq_some_iff]
    | cons e es => simp [Option.bind_eq_some_iff, ofName?_eq_some, ih]

end Element

/-! ### Names of ops -/

namespace Op

theorem nodup_names : (all.map name).Nodup := by
  obtain ⟨-, -, -, hcodes, -⟩ := names_checked
  exact Text.nodup_of_distinct_codes hcodes

theorem ofName?_eq_some {s : String} {op : Op} : ofName? s = some op ↔ op.name = s := by
  rw [ofName?, byName, lookup_eq_some_iff_of_nodup nodup_names]
  exact and_iff_right op.mem_all

theorem intercalate_tokens (op : Op) : String.intercalate "_" op.tokens = op.name := Text.intercalate_split op.name

theorem tokens_ne_nil (op : Op) : op.tokens ≠ [] := Text.split_ne_nil op.name

theorem leavesFlags_of_append {op op' : Op} {us : List String} (h : op.tokens = op'.tokens ++ us) (hus : us ≠ []) :
    op.leavesFlags = true := by
  have hname : op.name = op'.name ++ "_" ++ String.intercalate "_" us := by
    rw [← op.intercalate_tokens, h, String.intercalate_append_of_ne_nil op'.tokens_ne_nil hus, intercalate_tokens]
  obtain ⟨-, -, -, -, hcodes, -⟩ := names_checked
  have hcut := List.all_eq_true.mp hcodes op op.mem_all
  rw [Bool.or_eq_true, List.all_eq_true] at hcut
  refine hcut.resolve_right fun hnone => ?_
  have hcode := hnone (Text.code op'.name) (hname ▸ Text.code_mem_cutCodes op'.name _)
  have hmem : ((all.map name).map Text.code).contains (Text.code op'.name) = true :=
    List.contains_iff_mem.mpr (List.mem_map_of_mem (List.mem_map_of_mem op'.mem_all))
  rw [hmem] at hcode
  cases hcode

theorem getLast?_tokens {op : Op} (h : op.leavesFlags = true) : op.tokens.getLast? = some "FLAGS" := by
  obtain ⟨-, -, -, -, -, hlast⟩ := names_checked
  simpa [h] using List.all_eq_true.mp hlast op op.mem_all

/-- What is left of an op's tokens after those of another op does not name elements. -/
theorem eq_nil_of_append {op op' : Op} {us : List String} (h : op.tokens = op'.tokens ++ us)
    (hus : ∀ t ∈ us, ∃ e : Element, e.Spells t) : us = [] := by
  by_contra hne
  have hlast := getLast?_tokens (leavesFlags_of_append h hne)
  rw [h, List.getLast?_append_of_ne_nil _ hne] at hlast
  obtain ⟨e, he⟩ := hus "FLAGS" (List.mem_of_getLast? hlast)
  obtain ⟨-, -, hnone, -⟩ := names_checked
  rw [Element.ofName?_eq_some.mpr he] at hnone
  cases hnone

/-- Tokens are an op and elements in at most one way. -/
theorem split_unique {op op' : Op} {ts ts' : List String} (h : op.tokens ++ ts = op'.tokens ++ ts')
    (hts : ∀ t ∈ ts, ∃ e : Element, e.Spells t) (hts' : ∀ t ∈ ts', ∃ e : Element, e.Spells t) :
    op = op' ∧ ts = ts' := by
  have hop : op.tokens = op'.tokens := by
    rcases List.append_eq_append_iff.mp h with ⟨us, hop, hrest⟩ | ⟨us, hop, hrest⟩
    · rw [hop, eq_nil_of_append hop fun t ht => hts t (hrest ▸ List.mem_append_left _ ht), List.append_nil]
    · rw [hop, eq_nil_of_append hop fun t ht => hts' t (hrest ▸ List.mem_append_left _ ht), List.append_nil]
  refine ⟨?_, ?_⟩
  · have hname : op'.name = op.name := by
      rw [← op.intercalate_tokens, hop, intercalate_tokens]
    exact Option.some.inj ((ofName?_eq_some.mpr rfl).symm.trans (ofName?_eq_some.mpr hname))
  · rw [hop] at h
    exact List.append_cancel_left h

end Op

/-! ### Reading a name -/

theorem EffectClass.ofName?_eq_some {s : String} {c : EffectClass} : ofName? s = some c ↔ c.name = s := by
  unfold ofName?
  constructor
  · intro h
    split_ifs at h with h₁ h₂ h₃ <;> cases h
    · exact h₁.symm
    · exact h₂.symm
    · exact h₃.symm
  · rintro rfl
    cases c <;> decide

namespace Signature

theorem exists_spells {ts : List String} {es : List Element} (h : Element.Listed ts es) :
    ∀ t ∈ ts, ∃ e : Element, e.Spells t := by
  induction h with
  | nil => simp
  | cons hte _ ih => exact List.forall_mem_cons.mpr ⟨⟨_, hte⟩, ih⟩

theorem spelled_unique {ts : List String} {es es' : List Element} (h : Element.Listed ts es)
    (h' : Element.Listed ts es') : es = es' :=
  Option.some.inj ((Element.mapM_ofName?.mpr h).symm.trans (Element.mapM_ofName?.mpr h'))

theorem splitAt?_eq_some {ts : List String} {n : Nat} {op : Op} {target : Element} {inputs : List Element} :
    splitAt? ts n = some (op, target, inputs) ↔
      op.name = String.intercalate "_" (ts.take n) ∧
        Element.Listed (ts.drop n) (target :: inputs) := by
  rw [← Op.ofName?_eq_some, ← Element.mapM_ofName?, splitAt?]
  split
  · next hop => simp [hop]
  next op' hop =>
  rw [hop]
  split
  · next target' inputs' hes =>
    rw [hes]
    simp
  · next hes =>
    simp only [reduceCtorEq, Option.some.injEq, false_iff, not_and]
    exact fun _ h => hes _ _ h

theorem longestSplit?_eq_some {ts : List String} {n : Nat} {r : Op × Element × List Element}
    (h : longestSplit? ts n = some r) : ∃ m, 0 < m ∧ m ≤ n ∧ splitAt? ts m = some r := by
  induction n with
  | zero => cases h
  | succ n ih =>
    rw [longestSplit?] at h
    split at h
    · next hsplit =>
      cases h
      exact ⟨n + 1, Nat.succ_pos n, le_rfl, hsplit⟩
    · obtain ⟨m, hpos, hle, hm⟩ := ih h
      exact ⟨m, hpos, Nat.le_succ_of_le hle, hm⟩

theorem exists_longestSplit? {ts : List String} {n m : Nat} {r : Op × Element × List Element} (hpos : 0 < m)
    (hle : m ≤ n) (h : splitAt? ts m = some r) : ∃ r', longestSplit? ts n = some r' := by
  induction n with
  | zero => omega
  | succ n ih =>
    rw [longestSplit?]
    cases hsplit : splitAt? ts (n + 1) with
    | some r' => exact ⟨r', rfl⟩
    | none =>
      have hne : m ≠ n + 1 := by
        rintro rfl
        rw [hsplit] at h
        cases h
      exact ih (by omega)

/-- The longest split of tokens takes those of its op. -/
theorem tokens_of_longestSplit? {ts : List String} (hts : ∀ t ∈ ts, Text.split '_' t = [t]) (hne : ts ≠ []) {n : Nat}
    {op : Op} {target : Element} {inputs : List Element} (h : longestSplit? ts n = some (op, target, inputs)) :
    ∃ us, ts = op.tokens ++ us ∧ Element.Listed us (target :: inputs) := by
  obtain ⟨m, hpos, -, hm⟩ := longestSplit?_eq_some h
  obtain ⟨hop, hspells⟩ := splitAt?_eq_some.mp hm
  have htake : ts.take m ≠ [] := by
    rw [Ne, List.take_eq_nil_iff]
    exact not_or.mpr ⟨hpos.ne', hne⟩
  have htokens : op.tokens = ts.take m := by
    rw [Op.tokens, hop, Text.split_intercalate htake,
      Text.flatMap_split_of_forall fun t ht => hts t (List.mem_of_mem_take ht)]
  exact ⟨ts.drop m, by rw [htokens, List.take_append_drop], hspells⟩

theorem split_of_mem_tail {name cls : String} {ts : List String} (h : Text.split '_' name = cls :: ts) :
    ∀ t ∈ ts, Text.split '_' t = [t] := by
  intro t ht
  have hmem : t ∈ Text.split '_' name := h ▸ List.mem_cons_of_mem cls ht
  exact Text.split_of_not_mem (Text.not_mem_of_mem_split hmem)

theorem reads_of_parse {name : String} {s : Signature} (h : parse name = .ok s) : s.Reads name := by
  rw [parse] at h
  split at h
  · next cls ts hsplit =>
    split at h
    · cases h
    next hlong =>
    split at h
    · cases h
    next c hcls =>
    split at h
    · next op target inputs hlongest =>
      cases h
      have hne : ts ≠ [] := by
        rintro rfl
        exact hlong Nat.zero_lt_two
      obtain ⟨us, rfl, hspells⟩ := tokens_of_longestSplit? (split_of_mem_tail hsplit) hne hlongest
      exact ⟨us, by rw [hsplit, EffectClass.ofName?_eq_some.mp hcls]; rfl, hspells⟩
    · cases h
  · cases h

theorem parse_of_reads {name : String} {s : Signature} (h : s.Reads name) : parse name = .ok s := by
  obtain ⟨ts, hsplit, hspells⟩ := h
  have hcount : ts.length = s.inputs.length + 1 := hspells.length_eq
  have hpos : 0 < s.op.tokens.length := List.length_pos_of_ne_nil s.op.tokens_ne_nil
  have hlength : (s.op.tokens ++ ts).length = s.op.tokens.length + ts.length := List.length_append
  have hat : splitAt? (s.op.tokens ++ ts) s.op.tokens.length = some (s.op, s.target, s.inputs) := by
    refine splitAt?_eq_some.mpr ⟨?_, ?_⟩
    · rw [List.take_left, Op.intercalate_tokens]
    · rwa [List.drop_left]
  obtain ⟨⟨op, target, inputs⟩, hlongest⟩ :=
    exists_longestSplit? (n := (s.op.tokens ++ ts).length - 1) hpos (by omega) hat
  -- The longest split is this one, as there is no other.
  have hne : s.op.tokens ++ ts ≠ [] := List.append_ne_nil_of_left_ne_nil s.op.tokens_ne_nil ts
  obtain ⟨us, hus, hspells'⟩ := tokens_of_longestSplit? (split_of_mem_tail hsplit) hne hlongest
  obtain ⟨rfl, rfl⟩ := Op.split_unique hus (exists_spells hspells) (exists_spells hspells')
  obtain ⟨rfl, rfl⟩ := List.cons.inj (spelled_unique hspells hspells')
  have hlong : ¬(s.op.tokens ++ ts).length < 2 := by omega
  have hcls : EffectClass.ofName? s.cls.name = some s.cls := EffectClass.ofName?_eq_some.mpr rfl
  rw [parse, hsplit]
  simp only [← Op.tokens.eq_def, hlong, if_false, hcls, hlongest]

/-- No name has two readings, even if there may be no elements at all. -/
theorem Reads.unique {name : String} {s : Signature} (h : s.Reads name) {cls : String} {op : Op} {ts : List String}
    {es : List Element} (hsplit : Text.split '_' name = cls :: (Text.split '_' op.name ++ ts))
    (hspells : Element.Listed ts es) :
    cls = s.cls.name ∧ op = s.op ∧ es = s.target :: s.inputs := by
  obtain ⟨us, hsplit', hspells'⟩ := h
  obtain ⟨hcls, htokens⟩ := List.cons.inj (hsplit.symm.trans hsplit')
  obtain ⟨hop, rfl⟩ := Op.split_unique htokens (exists_spells hspells) (exists_spells hspells')
  exact ⟨hcls, hop, spelled_unique hspells hspells'⟩

theorem reads_intercalate (s : Signature) {ts : List String}
    (h : Element.Listed ts (s.target :: s.inputs)) :
    s.Reads (String.intercalate "_" (s.cls.name :: s.op.name :: ts)) := by
  refine ⟨ts, ?_, h⟩
  have hcls : Text.split '_' s.cls.name = [s.cls.name] := by cases s.cls <;> decide
  have hts : ∀ t ∈ ts, Text.split '_' t = [t] := by
    intro t ht
    obtain ⟨e, he⟩ := exists_spells h t ht
    exact he.split_eq
  rw [Text.split_intercalate (List.cons_ne_nil _ _), List.flatMap_cons, List.flatMap_cons, hcls,
    Text.flatMap_split_of_forall hts, List.singleton_append]

theorem flags_of_class (f : Fragment) :
    (f.hasEffect = true ↔ f.cls.name = "effect" ∨ f.cls.name = "fault") ∧
      (f.canFault = true ↔ f.cls.name = "fault") := by
  rw [Fragment.hasEffect, Fragment.canFault]
  cases f.cls <;> decide

/-- A name is read back as it is written, and in no other way. -/
theorem name_has_one_reading (name : String) (s : Signature) :
    (parse name = .ok s ↔ s.Reads name) ∧
    (∀ cls op ts es, s.Reads name → Text.split '_' name = cls :: (Text.split '_' op.name ++ ts) →
      Element.Listed ts es → cls = s.cls.name ∧ op = s.op ∧ es = s.target :: s.inputs) ∧
    (∀ ts, Element.Listed ts (s.target :: s.inputs) →
      parse (String.intercalate "_" (s.cls.name :: s.op.name :: ts)) = .ok s) ∧
    ∀ f : Fragment, f.toSignature = s →
      (f.hasEffect = true ↔ s.cls.name = "effect" ∨ s.cls.name = "fault") ∧
      (f.canFault = true ↔ s.cls.name = "fault") := by
  refine ⟨⟨reads_of_parse, parse_of_reads⟩, fun _ _ _ _ h hsplit hspells => h.unique hsplit hspells,
    fun ts h => parse_of_reads (s.reads_intercalate h), ?_⟩
  rintro f rfl
  exact flags_of_class f

end Signature
end MicroBlock
