import InstrGraph.Proofs.Text.Symbols
import InstrGraph.Symbols.RenameTable
import Mathlib.Data.List.Nodup
import Mathlib.Data.Set.Operations

/-!
# Names are numbered in the order of first sight

A table that is filled by `insert` alone is `Numbered`: no name stands in it twice, and the name at
an index has the canonical name of that index. So different names have different canonical names
(`get?_inj`), and two tables that have seen the images of the same names name them alike
(`Mirrors.get?_eq`).
-/

namespace InstrGraph

/-! ### Stems and numbers -/

/-- A number is written with its decimal digits. -/
theorem toList_toString (n : Nat) : (toString n).toList = Nat.toDigits 10 n :=
  Nat.toList_repr

/-- Different numbers are written differently. -/
theorem toString_inj {m n : Nat} (h : toString m = toString n) : m = n := by
  have hd : Nat.toDigits 10 m = Nat.toDigits 10 n := by
    simpa only [toList_toString] using congrArg String.toList h
  calc m = Nat.ofDigitChars 10 (Nat.toDigits 10 m) 0 := Nat.ofDigitChars_ten_toDigits.symm
    _ = Nat.ofDigitChars 10 (Nat.toDigits 10 n) 0 := by rw [hd]
    _ = n := Nat.ofDigitChars_ten_toDigits

/-- A number is written with digits only. -/
theorem isAsciiDigit_of_mem_toString {n : Nat} {c : Char} (h : c ∈ (toString n).toList) :
    Text.isAsciiDigit c = true := by
  rw [toList_toString] at h
  have hd : c.isDigit = true := Nat.isDigit_of_mem_toDigits (by decide) (by decide) h
  simp only [Char.isDigit, Bool.and_eq_true, decide_eq_true_eq] at hd
  simp only [Text.isAsciiDigit, Bool.and_eq_true, decide_eq_true_eq]
  exact hd

/-- The stems of canonical names. -/
def stems : List String :=
  ["%var", "%arg", "%label_", "%block_", "%struct_", "@function_", "@global_var_"]

/-- Neither stem is the beginning of the other. -/
def StemsApart (s s' : String) : Prop := ¬ s.toList <+: s'.toList ∧ ¬ s'.toList <+: s.toList

instance (s s' : String) : Decidable (StemsApart s s') := inferInstanceAs (Decidable (_ ∧ _))

/-- Names with stems apart are different, whatever follows the stems. -/
theorem append_ne_of_stemsApart {s s' : String} (h : StemsApart s s') (x y : String) :
    s ++ x ≠ s' ++ y := by
  intro heq
  have hc : s.toList ++ x.toList = s'.toList ++ y.toList := by
    simpa using congrArg String.toList heq
  rcases List.prefix_or_prefix_of_prefix (List.prefix_append s.toList x.toList)
      (hc ▸ List.prefix_append s'.toList y.toList) with hp | hp
  · exact h.1 hp
  · exact h.2 hp

/-- The name is the stem with a number behind it. -/
def IsNumbered (stem name : String) : Prop := ∃ k : Nat, name = stem ++ toString k

/-- Numbered names with stems apart are different. -/
theorem IsNumbered.ne {s s' c c' : String} (h : StemsApart s s') (hc : IsNumbered s c)
    (hc' : IsNumbered s' c') : c ≠ c' := by
  obtain ⟨k, rfl⟩ := hc
  obtain ⟨k', rfl⟩ := hc'
  exact append_ne_of_stemsApart h _ _

/-- A numbered name begins with the sigil of its stem. -/
theorem IsNumbered.head?_eq {stem c : String} (h : IsNumbered stem c) {sigil : Char}
    (hs : stem.toList.head? = some sigil) : c.toList.head? = some sigil := by
  obtain ⟨k, rfl⟩ := h
  rw [String.toList_append, List.head?_append, hs, Option.some_or]

/-- A name that begins otherwise is none with the stem. -/
theorem not_isNumbered {stem c : String} (h : Token.startsWith c stem = false) :
    ¬ IsNumbered stem c := by
  rintro ⟨k, rfl⟩
  have hpre : Token.startsWith (stem ++ toString k) stem = true := by
    rw [Token.startsWith_iff, String.toList_append]
    exact List.prefix_append _ _
  rw [h] at hpre
  exact absurd hpre (by simp)

/-- A canonical name is one identifier. -/
theorem IsNumbered.isSymbol {stem c : String} (hs : stem ∈ stems) (hc : IsNumbered stem c) :
    Token.isSymbol c = true := by
  obtain ⟨k, rfl⟩ := hc
  have hdigit : ∀ c ∈ (toString k).toList, Text.isNameChar c = true := fun c hc => by
    simp [Text.isNameChar, Text.isWord_of_isAsciiDigit (isAsciiDigit_of_mem_toString hc)]
  have hstem : ∃ sigil name, stem.toList = sigil :: name ∧ Text.isSigil sigil = true ∧
      ∀ c ∈ name, Text.isNameChar c = true := by
    simp only [stems, List.mem_cons, List.not_mem_nil, or_false] at hs
    rcases hs with rfl | rfl | rfl | rfl | rfl | rfl | rfl
    all_goals exact ⟨_, _, rfl, by decide, Text.forall_mem_of_all (by decide)⟩
  obtain ⟨sigil, name, hstem, hsigil, hname⟩ := hstem
  rw [Token.isSymbol, String.toList_append, hstem, List.cons_append, Text.isIdentifier_cons]
  refine ⟨hsigil, by simp, fun c hc => ?_⟩
  rcases List.mem_append.mp hc with hc | hc
  · exact hname c hc
  · exact hdigit c hc

/-- A canonical name has no dot and no colon. -/
theorem IsNumbered.not_mem {stem c : String} (hs : stem ∈ stems) (hc : IsNumbered stem c) :
    '.' ∉ c.toList ∧ ':' ∉ c.toList := by
  obtain ⟨k, rfl⟩ := hc
  have hdigits (d : Char) (hd : Text.isAsciiDigit d = false) : d ∉ (toString k).toList := by
    intro hmem
    rw [isAsciiDigit_of_mem_toString hmem] at hd
    exact absurd hd (by simp)
  have hstems := (by decide : ∀ stem ∈ stems, '.' ∉ stem.toList ∧ ':' ∉ stem.toList) stem hs
  rw [String.toList_append, List.mem_append, List.mem_append, not_or, not_or]
  exact ⟨⟨hstems.1, hdigits '.' (by decide)⟩, ⟨hstems.2, hdigits ':' (by decide)⟩⟩

/-- A canonical name ends in a digit. -/
theorem IsNumbered.getLast?_isDigit {stem c : String} (hc : IsNumbered stem c) :
    ∃ d ∈ c.toList.getLast?, Text.isDigit d = true := by
  obtain ⟨k, rfl⟩ := hc
  have hne : (toString k).toList ≠ [] := by
    rw [toList_toString]
    exact Nat.toDigits_ne_nil
  have hlast := List.getLast?_eq_some_getLast hne
  refine ⟨_, ?_, Text.isDigit_of_isAsciiDigit
    (isAsciiDigit_of_mem_toString (List.mem_of_getLast? hlast))⟩
  rw [String.toList_append, List.getLast?_append_of_ne_nil _ hne, hlast]
  rfl

/-! ### Lookup in a list of pairs -/

section

variable {α β : Type} [BEq α] [LawfulBEq α] {entries : List (α × β)}

/-- What is looked up in a list of pairs is in the list. -/
theorem mem_of_lookup_eq_some {a : α} {b : β} (h : entries.lookup a = some b) :
    (a, b) ∈ entries := by
  induction entries with
  | nil => simp at h
  | cons e rest ih =>
    obtain ⟨a', b'⟩ := e
    rw [List.lookup_cons] at h
    split at h
    · rename_i hab
      rw [beq_iff_eq.mp hab, Option.some.inj h]
      exact List.mem_cons_self
    · exact List.mem_cons_of_mem _ (ih h)

/-- Nothing is looked up just for what is no first component of the list. -/
theorem lookup_eq_none_iff {a : α} : entries.lookup a = none ↔ a ∉ entries.map Prod.fst := by
  induction entries with
  | nil => simp
  | cons e rest ih =>
    obtain ⟨a', b'⟩ := e
    rw [List.lookup_cons]
    split
    · rename_i hab
      simp [beq_iff_eq.mp hab]
    · rename_i hab
      have hne : a ≠ a' := fun h => by simp [h] at hab
      simp [ih, hne]

/-- Where no key stands twice, every pair is found. -/
theorem lookup_eq_some_iff (hd : (entries.map Prod.fst).Nodup) {a : α} {b : β} :
    entries.lookup a = some b ↔ (a, b) ∈ entries := by
  refine ⟨mem_of_lookup_eq_some, fun h => ?_⟩
  induction entries with
  | nil => simp at h
  | cons e rest ih =>
    obtain ⟨a', b'⟩ := e
    rw [List.map_cons, List.nodup_cons] at hd
    rw [List.lookup_cons]
    rcases List.mem_cons.mp h with heq | hrest
    · obtain ⟨rfl, rfl⟩ := Prod.mk.inj heq
      simp
    · have hne : (a == a') = false := by
        rw [beq_eq_false_iff_ne]
        rintro rfl
        exact hd.1 (List.mem_map.mpr ⟨_, hrest, rfl⟩)
      rw [hne]
      exact ih hd.2 hrest

end

namespace RenameTable

/-! ### Numbered tables -/

/-- No name stands in the table twice, and the name at an index has the canonical name of that
index. -/
structure Numbered (t : RenameTable) : Prop where
  nodup : t.names.Nodup
  entry : ∀ i e, t.entries[i]? = some e → e.2 = t.canonicalAt i

variable {t t' : RenameTable} {name name' c : String}

/-- The canonical names of different indices are different. -/
theorem canonicalAt_inj {i j : Nat} (h : t.canonicalAt i = t.canonicalAt j) : i = j := by
  have hs : toString (t.base + i) = toString (t.base + j) := by
    have := congrArg String.toList h
    rw [canonicalAt, canonicalAt, String.toList_append, String.toList_append] at this
    exact String.toList_inj.mp (List.append_cancel_left this)
  have := toString_inj hs
  omega

/-- Inserting a name keeps the stem of the table. -/
@[simp] theorem stem_insert (t : RenameTable) (name : String) : (t.insert name).stem = t.stem := by
  unfold insert
  split <;> rfl

/-- Inserting a name keeps the number that the table begins with. -/
@[simp] theorem base_insert (t : RenameTable) (name : String) : (t.insert name).base = t.base := by
  unfold insert
  split <;> rfl

/-- A table contains its names. -/
theorem contains_iff : t.contains name = true ↔ name ∈ t.names := by
  rw [contains, get?, names, Option.isSome_iff_ne_none, ne_eq, lookup_eq_none_iff, not_not]

/-- The names of a table are those that have a canonical name. -/
theorem mem_names_iff : name ∈ t.names ↔ ∃ c, t.get? name = some c := by
  rw [← contains_iff, contains, Option.isSome_iff_exists]

/-- Inserting a name adds it behind the others, unless it is there already. -/
theorem names_insert (t : RenameTable) (name : String) :
    (t.insert name).names = if name ∈ t.names then t.names else t.names ++ [name] := by
  rw [names, entries_insert]
  by_cases h : name ∈ t.names
  · rw [if_pos (contains_iff.mpr h), if_pos h, names]
  · rw [if_neg (fun hc => h (contains_iff.mp hc)), if_neg h, names, List.map_append]
    rfl

/-- The names after an insertion are those before it and the new one. -/
theorem mem_names_insert : name' ∈ (t.insert name).names ↔ name' ∈ t.names ∨ name' = name := by
  rw [names_insert]
  split
  · rename_i h
    exact ⟨Or.inl, fun h' => h'.elim id fun heq => heq ▸ h⟩
  · rw [List.mem_append, List.mem_singleton]

/-- What holds of all names and of a new one holds of all names after the insertion. -/
theorem forall_names_insert {P : String → Prop} (h : ∀ n ∈ t.names, P n) (hn : P name) :
    ∀ n ∈ (t.insert name).names, P n := by
  intro n hm
  rcases mem_names_insert.mp hm with hm | rfl
  · exact h n hm
  · exact hn

/-- Inserting two lists of names is inserting the one and then the other. -/
theorem insertAll_append (t : RenameTable) (ns ns' : List String) :
    t.insertAll (ns ++ ns') = (t.insertAll ns).insertAll ns' := List.foldl_append

/-- The names after several insertions are those before and the new ones. -/
theorem mem_names_insertAll {ns : List String} :
    name ∈ (t.insertAll ns).names ↔ name ∈ t.names ∨ name ∈ ns := by
  unfold insertAll
  induction ns generalizing t with
  | nil => simp
  | cons n ns ih => rw [List.foldl_cons, ih, mem_names_insert, List.mem_cons, or_assoc]

/-- The empty table is numbered. -/
theorem numbered_empty (stem : String) (base : Nat) : (empty stem base).Numbered where
  nodup := List.nodup_nil
  entry := by simp [empty]

/-- A numbered table is still numbered after an insertion. -/
theorem Numbered.insert (h : t.Numbered) (name : String) : (t.insert name).Numbered := by
  by_cases hc : t.contains name = true
  · rwa [RenameTable.insert, if_pos hc]
  · have hmem : name ∉ t.names := fun hm => hc (contains_iff.mpr hm)
    rw [RenameTable.insert, if_neg hc]
    constructor
    · show ((t.entries ++ [_]).map Prod.fst).Nodup
      rw [List.map_append, List.map_cons, List.map_nil]
      refine List.nodup_append.mpr ⟨h.nodup, by simp, fun a ha b hb => ?_⟩
      rintro rfl
      have heq : a = name := List.mem_singleton.mp hb
      exact hmem (heq ▸ ha)
    · intro i e he
      show e.2 = t.canonicalAt i
      rcases lt_trichotomy i t.entries.length with hi | rfl | hi
      · rw [List.getElem?_append_left hi] at he
        exact h.entry i e he
      · rw [List.getElem?_concat_length] at he
        rw [← Option.some.inj he]
        rfl
      · rw [List.getElem?_eq_none (by simp; omega)] at he
        exact absurd he (by simp)

/-- The canonical name of a name is that of its index. -/
theorem Numbered.get?_eq_some_iff (h : t.Numbered) :
    t.get? name = some c ↔ ∃ i, t.names[i]? = some name ∧ c = t.canonicalAt i := by
  rw [get?, lookup_eq_some_iff h.nodup]
  constructor
  · intro hm
    obtain ⟨i, hi⟩ := List.getElem?_of_mem hm
    exact ⟨i, by simp [names, hi], h.entry i _ hi⟩
  · rintro ⟨i, hi, rfl⟩
    rw [names, List.getElem?_map, Option.map_eq_some_iff] at hi
    obtain ⟨e, he, rfl⟩ := hi
    rw [← h.entry i e he]
    exact List.mem_of_getElem? he

/-- The canonical names of a numbered table are numbered with its stem. -/
theorem Numbered.isNumbered (h : t.Numbered) (hc : t.get? name = some c) :
    IsNumbered t.stem c := by
  obtain ⟨i, -, rfl⟩ := h.get?_eq_some_iff.mp hc
  exact ⟨t.base + i, rfl⟩

/-- Different names have different canonical names. -/
theorem Numbered.get?_inj (h : t.Numbered) (hc : t.get? name = some c)
    (hc' : t.get? name' = some c) : name = name' := by
  obtain ⟨i, hi, rfl⟩ := h.get?_eq_some_iff.mp hc
  obtain ⟨j, hj, hij⟩ := h.get?_eq_some_iff.mp hc'
  rw [canonicalAt_inj hij] at hi
  exact Option.some.inj (hi.symm.trans hj)

/-- A name without a canonical name is not in the table. -/
theorem get?_eq_none_iff : t.get? name = none ↔ name ∉ t.names := lookup_eq_none_iff

/-! ### Tables that have seen the images of the same names -/

/-- No other name of the set has the same image. -/
def Separates (g : String → String) (D : Set String) (name : String) : Prop :=
  ∀ n ∈ D, g n = g name → n = name

/-- The second table has seen the image of every name that the first one has seen, in order. All
these names lie in `D`. -/
structure Mirrors (g : String → String) (D : Set String) (t t' : RenameTable) : Prop where
  stem : t'.stem = t.stem
  base : t'.base = t.base
  names : t'.names = t.names.map g
  within : ∀ n ∈ t.names, n ∈ D

variable {g : String → String} {D : Set String}

/-- The empty table has seen the images of the names of the empty table. -/
theorem mirrors_empty (g : String → String) (D : Set String) (stem : String) (base : Nat) :
    Mirrors g D (empty stem base) (empty stem base) := ⟨rfl, rfl, rfl, by simp [names, empty]⟩

/-- A name whose image no other name shares is among some names if its image is among theirs. -/
theorem mem_map_iff_of_separates {names : List String} (hnames : ∀ n ∈ names, n ∈ D)
    (hg : Separates g D name) : g name ∈ names.map g ↔ name ∈ names := by
  rw [List.mem_map]
  constructor
  · rintro ⟨n, hn, heq⟩
    exact hg n (hnames n hn) heq ▸ hn
  · exact fun hn => ⟨name, hn, rfl⟩

/-- The image of a name is in the second table if the name is in the first one. -/
theorem Mirrors.mem_iff (h : Mirrors g D t t') (hg : Separates g D name) :
    g name ∈ t'.names ↔ name ∈ t.names := by
  rw [h.names, mem_map_iff_of_separates h.within hg]

/-- The second table contains the image of a name if the first one contains the name. -/
theorem Mirrors.contains_eq (h : Mirrors g D t t') (hg : Separates g D name) :
    t'.contains (g name) = t.contains name := by
  rw [Bool.eq_iff_iff, contains_iff, contains_iff, h.mem_iff hg]

/-- Inserting a name into the first table and its image into the second one keeps them in step. -/
theorem Mirrors.insert (h : Mirrors g D t t') (hg : Separates g D name) (hname : name ∈ D) :
    Mirrors g D (t.insert name) (t'.insert (g name)) := by
  refine ⟨by simp [h.stem], by simp [h.base], ?_, forall_names_insert h.within hname⟩
  rw [names_insert, names_insert]
  by_cases hn : name ∈ t.names
  · rw [if_pos hn, if_pos ((h.mem_iff hg).mpr hn), h.names]
  · rw [if_neg hn, if_neg fun hm => hn ((h.mem_iff hg).mp hm), h.names, List.map_append]
    rfl

/-- The tables name a name and its image alike. -/
theorem Mirrors.get?_eq (h : Mirrors g D t t') (hn : t.Numbered) (hn' : t'.Numbered)
    (hg : Separates g D name) : t'.get? (g name) = t.get? name := by
  cases hc : t.get? name with
  | none =>
    rw [get?_eq_none_iff] at hc ⊢
    exact fun hm => hc ((h.mem_iff hg).mp hm)
  | some c =>
    obtain ⟨i, hi, rfl⟩ := hn.get?_eq_some_iff.mp hc
    refine hn'.get?_eq_some_iff.mpr ⟨i, ?_, ?_⟩
    · rw [h.names, List.getElem?_map, hi]
      rfl
    · rw [canonicalAt, canonicalAt, h.stem, h.base]

end RenameTable

end InstrGraph
