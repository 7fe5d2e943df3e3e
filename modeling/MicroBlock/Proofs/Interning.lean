import Mathlib
import MicroBlock.Container.Builder
import MicroBlock.Proofs.BlockListings
import MicroBlock.Proofs.Names

/-! Interned entries are never mixed up.

Different constants of a known kind have different keys: the first letter tells the kind, a decimal numeral tells its number,
and no numeral holds the comma that ends each number of a list. The places that a builder noted are those that a search of the
whole list would find, whenever it noted them. So an entry is found exactly if it is there, and since entries are only added at
the end, it stays where it was found. -/

namespace MicroBlock

/-! ### Keys -/

namespace Constant

/-- A text that starts with a number and a comma tells the number and what follows. -/
theorem repr_comma_inj {i j : Int} {cs ds : List Char}
    (h : i.repr.toList ++ ',' :: cs = j.repr.toList ++ ',' :: ds) : i = j ∧ cs = ds := by
  have hcomma : ∀ i : Int, ∀ c ∈ i.repr.toList, (c != ',') = true := by
    intro i c hc
    rcases Numeral.mem_repr hc with rfl | hdigit
    · rfl
    · rw [bne_iff_ne]
      rintro rfl
      cases hdigit
  have htake : ∀ (i : Int) (cs : List Char),
      (i.repr.toList ++ ',' :: cs).takeWhile (· != ',') = i.repr.toList := by
    intro i cs
    rw [List.takeWhile_append_of_pos (hcomma i)]
    simp
  have hrepr : i.repr.toList = j.repr.toList := by rw [← htake i cs, h, htake]
  rw [hrepr, List.append_cancel_left_eq, List.cons.injEq] at h
  exact ⟨Int.repr_inj.mp (String.toList_inj.mp hrepr), h.2⟩

theorem flatMap_repr_inj {a a' : List Int32}
    (h : (a.flatMap fun v => v.toInt.repr.toList ++ [',']) = a'.flatMap fun v => v.toInt.repr.toList ++ [',']) : a = a' := by
  induction a generalizing a' with
  | nil =>
    cases a' with
    | nil => rfl
    | cons v' a' => simp at h
  | cons v a ih =>
    cases a' with
    | nil => simp at h
    | cons v' a' =>
      simp only [List.flatMap_cons, List.append_assoc, List.singleton_append] at h
      obtain ⟨hv, ha⟩ := repr_comma_inj h
      rw [Int32.toInt_inj.mp hv, ih ha]

theorem toList_key_ints (a : List Int32) :
    (String.join (a.map fun v => toString v.toInt ++ ",")).toList = a.flatMap fun v => v.toInt.repr.toList ++ [','] := by
  rw [String.toList_join, List.flatMap_map]
  simp only [String.toList_append, Int.toString_eq_repr]
  rfl

/-- The letter that the keys of a kind start with. -/
def letter? : Constant → Option UInt8
  | int _ => some 105
  | long _ => some 108
  | text _ => some 115
  | ints _ => some 97
  | unknown _ => none

theorem head?_key (c : Constant) : c.key.bytes.head? = c.letter? := by
  have hletter : ∀ (s t : String) (b : UInt8), (ByteString.ofString s).bytes = [b] →
      (ByteString.ofString (s ++ t)).bytes.head? = some b := by
    intro s t b hs
    rw [ByteString.bytes_append, hs]
    rfl
  cases c with
  | int v => exact hletter "i" _ _ (ByteString.bytes_ofList ['i'])
  | long v => exact hletter "l" _ _ (ByteString.bytes_ofList ['l'])
  | text s =>
    have hs : (ByteString.ofString "s").bytes = [115] := ByteString.bytes_ofList ['s']
    rw [key, hs]
    rfl
  | ints a => exact hletter "a" _ _ (ByteString.bytes_ofList ['a'])
  | unknown k => rfl

theorem tail_inj {s t t' : String} (h : ByteString.ofString (s ++ t) = ByteString.ofString (s ++ t')) : t = t' :=
  (String.append_right_inj s).mp (ByteString.ofString_inj h)

theorem numeral_inj {s : String} {i j : Int} (h : ByteString.ofString (s ++ toString i) = ByteString.ofString (s ++ toString j)) :
    i = j := by
  have hij := tail_inj h
  rwa [Int.toString_eq_repr, Int.toString_eq_repr, Int.repr_inj] at hij

/-- A key tells its constant, up to the number of an unknown kind. -/
theorem shares_iff_key {a b : Constant} : a.shares b = true ↔ a.key = b.key := by
  constructor
  · intro h
    unfold shares at h
    split at h
    · rfl
    · rw [eq_of_beq h]
  · intro h
    have hletter : a.letter? = b.letter? := by rw [← head?_key, ← head?_key, h]
    -- The letters leave only a constant of the same kind.
    cases a with
    | int v =>
      cases b <;> cases hletter
      simp [shares, Int32.toInt_inj.mp (numeral_inj h)]
    | long v =>
      cases b <;> cases hletter
      simp [shares, Int64.toInt_inj.mp (numeral_inj h)]
    | text s =>
      cases b <;> cases hletter
      have hbytes := List.append_cancel_left (congrArg ByteString.bytes h)
      simp only [shares, beq_iff_eq, text.injEq]
      exact congrArg ByteString.mk hbytes
    | ints l =>
      cases b <;> cases hletter
      have hchars := congrArg String.toList (tail_inj h)
      rw [toList_key_ints, toList_key_ints] at hchars
      simp [shares, flatMap_repr_inj hchars]
    | unknown k =>
      cases b <;> cases hletter
      rfl

/-- Whether the kind of a constant is one of those that can be written out. -/
def Known (c : Constant) : Prop := ∀ kind, c ≠ unknown kind

theorem key_inj {a b : Constant} (ha : a.Known) (h : a.key = b.key) : a = b := by
  have hshares := shares_iff_key.mpr h
  cases a with
  | unknown kind => exact absurd rfl (ha kind)
  | _ => simpa [shares] using hshares

end Constant

/-! ### Searching -/

namespace Module

theorem lastIndex?_concat {α : Type} (p : α → Bool) (l : List α) (a : α) :
    lastIndex? p (l ++ [a]) = if p a = true then some l.length else lastIndex? p l := by
  have hlength : ∀ (l : List α) (k : Nat) (found : Option Nat),
      (l.foldl (fun x a => (x.1 + 1, if p a = true then some x.1 else x.2)) (k, found)).1 = k + l.length := by
    intro l
    induction l with
    | nil => intros; rfl
    | cons b l ih =>
      intro k found
      rw [List.foldl_cons, ih, List.length_cons]
      omega
  have hfrom := hlength l 0 none
  rw [Nat.zero_add] at hfrom
  rw [← hfrom, lastIndex?, List.foldl_append]
  rfl

theorem lastIndex?_eq_none {α : Type} {p : α → Bool} {l : List α} (h : lastIndex? p l = none) : ∀ a ∈ l, p a = false := by
  induction l using List.reverseRecOn with
  | nil => exact fun a ha => absurd ha List.not_mem_nil
  | append_singleton l b ih =>
    rw [lastIndex?_concat] at h
    split at h
    · cases h
    · next hb =>
      intro a ha
      rcases List.mem_append.mp ha with ha | ha
      · exact ih h a ha
      · rw [List.mem_singleton.mp ha]
        exact Bool.eq_false_iff.mpr hb

end Module

namespace Interner
variable {α : Type} {key : α → ByteString} {t : Interner α}

/-- The places that were noted are those that a search finds. -/
def Agrees (key : α → ByteString) (t : Interner α) : Prop :=
  ∀ k, (t.noted key).lookup k = Module.lastIndex? (fun a => key a == k) t.entries

/-- Places stay right if a new entry and its place are added together. -/
theorem lookup_concat {places : Places} {l : List α} {k : ByteString}
    (h : places.lookup k = Module.lastIndex? (fun a => key a == k) l) (a : α) :
    List.lookup k ((key a, l.length) :: places) = Module.lastIndex? (fun a => key a == k) (l ++ [a]) := by
  rw [List.lookup_cons, Module.lastIndex?_concat, ← h, BEq.comm]
  cases key a == k <;> rfl

/-- The places are right when they are first noted. -/
theorem agrees_of_none (entries : List α) : (⟨entries, none⟩ : Interner α).Agrees key := by
  intro k
  show ((entries.map key).zipIdx.reverse).lookup k = Module.lastIndex? _ entries
  induction entries using List.reverseRecOn with
  | nil => rfl
  | append_singleton l a ih =>
    rw [← lookup_concat ih, List.map_append, List.zipIdx_append, List.reverse_append, Nat.zero_add, List.length_map]
    rfl

/-- What entering can do: find the place of an entry with the same key, or add the entry at the end. -/
theorem Agrees.enter_cases (h : t.Agrees key) (a : α) :
    (∃ i b, t.entries[i]? = some b ∧ key b = key a ∧ t.enter key a = (i, ⟨t.entries, some (t.noted key)⟩)) ∨
    ((∀ b ∈ t.entries, key b ≠ key a) ∧
      t.enter key a = (t.entries.length, ⟨t.entries ++ [a], some ((key a, t.entries.length) :: t.noted key)⟩)) := by
  unfold enter
  rw [h]
  cases hi : Module.lastIndex? (fun b => key b == key a) t.entries with
  | some i =>
    obtain ⟨b, hb, hkey⟩ := Module.lastIndex?_eq_some hi
    exact .inl ⟨i, b, hb, beq_iff_eq.mp hkey, rfl⟩
  | none => exact .inr ⟨fun b hb => beq_eq_false_iff_ne.mp (Module.lastIndex?_eq_none hi b hb), rfl⟩

theorem Agrees.enter (h : t.Agrees key) (a : α) : (t.enter key a).2.Agrees key := by
  rcases h.enter_cases a with ⟨i, b, -, -, heq⟩ | ⟨-, heq⟩ <;> rw [heq]
  · exact h
  · exact fun k => lookup_concat (h k) a

theorem entries_enter (t : Interner α) (a : α) : t.entries <+: (t.enter key a).2.entries := by
  unfold enter
  split
  · exact List.prefix_rfl
  · exact List.prefix_append _ _

/-- An interner whose entries satisfy `P` and have different keys. -/
structure Sound (key : α → ByteString) (P : α → Prop) (t : Interner α) : Prop where
  agrees : t.Agrees key
  nodup : (t.entries.map key).Nodup
  all : ∀ a ∈ t.entries, P a

section Sound
variable {P : α → Prop} {a : α}

theorem Sound.enter (h : t.Sound key P) (ha : P a) : (t.enter key a).2.Sound key P := by
  refine ⟨h.agrees.enter a, ?_, ?_⟩
  · rcases h.agrees.enter_cases a with ⟨i, b, -, -, heq⟩ | ⟨hnew, heq⟩ <;> rw [heq]
    · exact h.nodup
    · rw [List.map_append, List.nodup_append]
      refine ⟨h.nodup, List.nodup_singleton _, fun k hk k' hk' => ?_⟩
      obtain ⟨b, hb, rfl⟩ := List.mem_map.mp hk
      rw [List.mem_singleton.mp hk']
      exact hnew b hb
  · rcases h.agrees.enter_cases a with ⟨i, b, -, -, heq⟩ | ⟨-, heq⟩ <;> rw [heq]
    · exact h.all
    · intro b hb
      rcases List.mem_append.mp hb with hb | hb
      · exact h.all b hb
      · rw [List.mem_singleton.mp hb]
        exact ha

/-- If keys tell the entries, the place that entering returns is that of the entry. -/
theorem Sound.getElem?_enter (h : t.Sound key P) (hinj : ∀ a b, P a → key a = key b → a = b) :
    (t.enter key a).2.entries[(t.enter key a).1]? = some a := by
  rcases h.agrees.enter_cases a with ⟨i, b, hb, hkey, heq⟩ | ⟨-, heq⟩ <;> rw [heq]
  · rw [← hinj b a (h.all b (List.mem_of_getElem? hb)) hkey]
    exact hb
  · exact List.getElem?_concat_length

end Sound
end Interner
/-! ### Modules -/

namespace Builder
variable {b : Builder}

/-- With the places right, a builder answers as a search of the pool does. -/
theorem intern_eq (h : b.constants.Agrees Constant.key) (c : Constant) :
    (b.intern c).1 = (b.module.intern c).1 ∧ (b.intern c).2.module = (b.module.intern c).2 := by
  have hshares : (fun a : Constant => a.shares c) = fun a => a.key == c.key := by
    funext a
    rw [Bool.eq_iff_iff, Constant.shares_iff_key, beq_iff_eq]
  have hlookup : (b.constants.noted Constant.key).lookup c.key = Module.lastIndex? (·.shares c) b.module.constants := by
    rw [hshares]
    exact h c.key
  unfold intern Interner.enter Module.intern
  rw [hlookup]
  cases Module.lastIndex? (·.shares c) b.module.constants with
  | some i => exact ⟨rfl, rfl⟩
  | none => exact ⟨rfl, rfl⟩

theorem link_eq (h : b.links.Agrees id) (helper : String) :
    (b.link (.ofString helper)).1 = (b.module.link helper).1 ∧
      (b.link (.ofString helper)).2.module = (b.module.link helper).2 := by
  have hlookup : (b.links.noted id).lookup (ByteString.ofString helper) =
      Module.lastIndex? (· == ByteString.ofString helper) b.module.links := h _
  unfold link Interner.enter Module.link
  rw [id, hlookup]
  cases Module.lastIndex? (· == ByteString.ofString helper) b.module.links with
  | some i => exact ⟨rfl, rfl⟩
  | none => exact ⟨rfl, rfl⟩

/-- What is done to a module until it is complete. -/
inductive Act where
  | intern (c : Constant)
  | link (helper : ByteString)
  | copy
  deriving DecidableEq

/-- The module to go on with. -/
def act (b : Builder) : Act → Builder
  | .intern c => (b.intern c).2
  | .link helper => (b.link helper).2
  | .copy => b.copy

/-- The module that a history makes of a skeleton. -/
def built (name : String) (methods : List String) (history : List Act) : Builder :=
  history.foldl act (skeleton name methods)

/-- A module whose entries are all different, with the places of its entries right. -/
structure Sound (b : Builder) : Prop where
  constants : b.constants.Sound Constant.key Constant.Known
  links : b.links.Sound id fun _ => True

theorem sound_skeleton (name : String) (methods : List String) : (skeleton name methods).Sound where
  constants := ⟨Interner.agrees_of_none [], List.nodup_nil, fun _ h => absurd h List.not_mem_nil⟩
  links := ⟨Interner.agrees_of_none [], List.nodup_nil, fun _ h => absurd h List.not_mem_nil⟩

theorem Sound.act (h : b.Sound) {a : Act} (ha : ∀ kind, a ≠ .intern (.unknown kind)) : (b.act a).Sound := by
  cases a with
  | intern c => exact ⟨h.constants.enter fun kind hc => ha kind (congrArg Act.intern hc), h.links⟩
  | link helper => exact ⟨h.constants, h.links.enter trivial⟩
  | copy =>
    -- A copy has no notes, and makes them from the entries that it copied.
    exact ⟨⟨Interner.agrees_of_none _, h.constants.nodup, h.constants.all⟩,
      ⟨Interner.agrees_of_none _, h.links.nodup, h.links.all⟩⟩

theorem Sound.foldl (h : b.Sound) {history : List Act} (hknown : ∀ kind, Act.intern (.unknown kind) ∉ history) :
    (history.foldl Builder.act b).Sound := by
  induction history generalizing b with
  | nil => exact h
  | cons a history ih =>
    refine ih (h.act fun kind ha => hknown kind ?_) fun kind hmem => hknown kind (List.mem_cons_of_mem a hmem)
    rw [ha]
    exact List.mem_cons_self

theorem constants_act (b : Builder) (a : Act) : b.module.constants <+: (b.act a).module.constants := by
  cases a with
  | intern c => exact b.constants.entries_enter c
  | link helper => exact List.prefix_rfl
  | copy => exact List.prefix_rfl

theorem links_act (b : Builder) (a : Act) : b.module.links <+: (b.act a).module.links := by
  cases a with
  | intern c => exact List.prefix_rfl
  | link helper => exact b.links.entries_enter helper
  | copy => exact List.prefix_rfl

/-- What every act only adds to grows at its end. -/
theorem prefix_foldl {α : Type} {f : Builder → List α} (h : ∀ b a, f b <+: f (b.act a)) (b : Builder) (history : List Act) :
    f b <+: f (history.foldl act b) := by
  induction history generalizing b with
  | nil => exact List.prefix_rfl
  | cons a history ih => exact (h b a).trans (ih (b.act a))

/-! ### Histories -/

section History
variable {name : String} {methods : List String} {past history : List Act}

theorem built_append (past rest : List Act) : built name methods (past ++ rest) = rest.foldl act (built name methods past) :=
  List.foldl_append

variable (name methods) in
/-- A module is sound at every point of a history. -/
theorem sound_built (hknown : ∀ kind, Act.intern (.unknown kind) ∉ history) (h : past <+: history) :
    (built name methods past).Sound :=
  (sound_skeleton name methods).foldl fun kind hmem => hknown kind (h.subset hmem)

/-- An entry that is at a place after an act is there for the rest of the history. -/
theorem getElem?_built {α : Type} {f : Builder → List α} (hgrows : ∀ b a, f b <+: f (b.act a)) {a : Act}
    (h : past ++ [a] <+: history) {i : Nat} {x : α} (hx : (f ((built name methods past).act a))[i]? = some x) :
    (f (built name methods history))[i]? = some x := by
  obtain ⟨rest, rfl⟩ := h
  obtain ⟨more, hmore⟩ := prefix_foldl hgrows ((built name methods past).act a) rest
  rw [built_append, built_append, List.foldl_cons, List.foldl_nil, ← hmore,
    List.getElem?_append_left (List.getElem?_eq_some_iff.mp hx).1]
  exact hx

section Known
variable (hknown : ∀ kind, Act.intern (.unknown kind) ∉ history)
include hknown

theorem constant_at {c : Constant} (h : past ++ [.intern c] <+: history) :
    (built name methods history).module.constants[((built name methods past).intern c).1]? = some c := by
  have hsound := sound_built name methods hknown ((List.prefix_append past _).trans h)
  exact getElem?_built constants_act h (hsound.constants.getElem?_enter fun a b ha => Constant.key_inj ha)

theorem link_at {helper : ByteString} (h : past ++ [.link helper] <+: history) :
    (built name methods history).module.links[((built name methods past).link helper).1]? = some helper := by
  have hsound := sound_built name methods hknown ((List.prefix_append past _).trans h)
  exact getElem?_built links_act h (hsound.links.getElem?_enter fun a b _ hab => hab)

end Known
end History

theorem place_eq_iff {α : Type} {l : List α} (hl : l.Nodup) {i j : Nat} {a b : α} (hi : l[i]? = some a) (hj : l[j]? = some b) :
    i = j ↔ a = b := by
  rw [← List.getElem?_inj (List.getElem?_eq_some_iff.mp hi).1 hl, hi, hj, Option.some.injEq]

/-- However a module was made out of a skeleton, its constants are all different, and so are its links. Each call was answered
    with the place where its constant or link is now. So two calls, before or after a copy, got the same place exactly if they
    were for the same entry. Searching the tables without any notes gives the same answers. -/
theorem entries_never_confused (name : String) (methods : List String) (history : List Act)
    (hknown : ∀ kind, Act.intern (.unknown kind) ∉ history) :
    (built name methods history).module.constants.Nodup ∧ (built name methods history).module.links.Nodup ∧
    (∀ past c, past ++ [.intern c] <+: history →
      (built name methods history).module.constants[((built name methods past).intern c).1]? = some c) ∧
    (∀ past helper, past ++ [.link helper] <+: history →
      (built name methods history).module.links[((built name methods past).link helper).1]? = some helper) ∧
    (∀ past c past' c', past ++ [.intern c] <+: history → past' ++ [.intern c'] <+: history →
      (((built name methods past).intern c).1 = ((built name methods past').intern c').1 ↔ c = c')) ∧
    (∀ past helper past' helper', past ++ [.link helper] <+: history → past' ++ [.link helper'] <+: history →
      (((built name methods past).link helper).1 = ((built name methods past').link helper').1 ↔ helper = helper')) ∧
    (∀ c, ((built name methods history).intern c).1 = ((built name methods history).module.intern c).1 ∧
      ((built name methods history).intern c).2.module = ((built name methods history).module.intern c).2) ∧
    ∀ helper : String,
      ((built name methods history).link (.ofString helper)).1 = ((built name methods history).module.link helper).1 ∧
      ((built name methods history).link (.ofString helper)).2.module = ((built name methods history).module.link helper).2 := by
  have hsound := sound_built name methods hknown List.prefix_rfl
  have hconstants : (built name methods history).module.constants.Nodup := List.Nodup.of_map _ hsound.constants.nodup
  have hlinks : (built name methods history).module.links.Nodup := List.Nodup.of_map _ hsound.links.nodup
  refine ⟨hconstants, hlinks, fun past c h => constant_at hknown h, fun past helper h => link_at hknown h, ?_, ?_,
    intern_eq hsound.constants.agrees, link_eq hsound.links.agrees⟩
  · intro past c past' c' h h'
    exact place_eq_iff hconstants (constant_at hknown h) (constant_at hknown h')
  · intro past helper past' helper' h h'
    exact place_eq_iff hlinks (link_at hknown h) (link_at hknown h')

/-- Constants of equal text and lists of equal digits, with a copy between them. -/
def mixed : List Act :=
  [.intern (.int 5), .intern (.long 5), .intern (.text "5"), .intern (.ints [1, 23]), .link "add32", .copy,
    .intern (.ints [12, 3]), .link "sub32", .intern (.int 5), .link "add32"]

theorem entries_never_confused_mixed :
    (∀ kind, Act.intern (.unknown kind) ∉ mixed) ∧
    ((built "real" [] []).intern (.int 5)).1 ≠ ((built "real" [] (mixed.take 1)).intern (.long 5)).1 ∧
    ((built "real" [] []).intern (.int 5)).1 ≠ ((built "real" [] (mixed.take 2)).intern (.text "5")).1 ∧
    ((built "real" [] (mixed.take 3)).intern (.ints [1, 23])).1 ≠
      ((built "real" [] (mixed.take 6)).intern (.ints [12, 3])).1 ∧
    ((built "real" [] []).intern (.int 5)).1 = ((built "real" [] (mixed.take 8)).intern (.int 5)).1 ∧
    ((built "real" [] (mixed.take 4)).link "add32").1 = ((built "real" [] (mixed.take 9)).link "add32").1 := by
  have hknown : ∀ kind, Act.intern (.unknown kind) ∉ mixed := by simp [mixed]
  obtain ⟨-, -, -, -, hconstant, hlink, -⟩ := entries_never_confused "real" [] mixed hknown
  refine ⟨hknown, ?_, ?_, ?_, ?_, ?_⟩
  · exact fun h => by cases (hconstant [] (.int 5) (mixed.take 1) (.long 5) ⟨_, rfl⟩ ⟨_, rfl⟩).mp h
  · exact fun h => by cases (hconstant [] (.int 5) (mixed.take 2) (.text "5") ⟨_, rfl⟩ ⟨_, rfl⟩).mp h
  · exact fun h => by cases (hconstant (mixed.take 3) (.ints [1, 23]) (mixed.take 6) (.ints [12, 3]) ⟨_, rfl⟩ ⟨_, rfl⟩).mp h
  · exact (hconstant [] (.int 5) (mixed.take 8) (.int 5) ⟨_, rfl⟩ ⟨_, rfl⟩).mpr rfl
  · exact (hlink (mixed.take 4) "add32" (mixed.take 9) "add32" ⟨_, rfl⟩ ⟨_, rfl⟩).mpr rfl

end Builder
end MicroBlock
