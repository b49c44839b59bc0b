import InstrGraph.Proofs.Text.Numerals
import InstrGraph.UnitPaths
import Mathlib.Data.List.Basic
import Mathlib.Data.String.Basic

/-!
# Function names in file names

The name of a function stands in a file name without the signs at its front (`bareName`), with every
character replaced that a file name cannot hold, and with a part of its hash behind it if that has
changed it. The result is safe whatever the name is (`isFilePart_fileComponentWith`), and a safe
name stands for itself (`fileComponentWith_eq_self`), so doing this twice is doing it once.

Only a name that was changed has its hash behind it, so the hash keeps changed names apart from each
other, but not from a name that is spelled like that by itself, as what they become is
(`imitates_fileComponentWith`). `fileComponentWith_eq_iff` says when two names become one.
-/

namespace InstrGraph

/-! ### Safe texts -/

/-- A text that can be a part of a file name, and a whole one: it has no character that is reserved
for something else or a control character, and it is no name for a directory. -/
structure IsFilePart (s : String) : Prop where
  ne_empty : s ≠ ""
  ne_here : s ≠ "."
  ne_up : s ≠ ".."
  no_reserved : ∀ c ∈ s.toList, c ∉ "/\\:*?\"<>|".toList
  no_control : ∀ c ∈ s.toList, isControl c = false

/-- A character is safe if it is neither reserved nor a control character. -/
theorem isUnsafeInName_eq_false_iff {c : Char} :
    isUnsafeInName c = false ↔ c ∉ "/\\:*?\"<>|".toList ∧ isControl c = false := by
  rw [isUnsafeInName, Bool.or_eq_false_iff, and_comm, List.contains_eq_mem, decide_eq_false_iff_not]

/-- The character that stands for unsafe ones is safe. -/
theorem isUnsafeInName_underscore : isUnsafeInName '_' = false := by decide

/-- A text can be part of a file name if its characters are safe and it is no name for a
directory. -/
theorem isFilePart_iff {s : String} :
    IsFilePart s ↔ (s ≠ "" ∧ s ≠ "." ∧ s ≠ "..") ∧ ∀ c ∈ s.toList, isUnsafeInName c = false := by
  constructor
  · rintro ⟨hempty, hhere, hup, hreserved, hcontrol⟩
    exact ⟨⟨hempty, hhere, hup⟩, fun c hc =>
      isUnsafeInName_eq_false_iff.mpr ⟨hreserved c hc, hcontrol c hc⟩⟩
  · rintro ⟨⟨hempty, hhere, hup⟩, hsafe⟩
    exact ⟨hempty, hhere, hup, fun c hc => (isUnsafeInName_eq_false_iff.mp (hsafe c hc)).1,
      fun c hc => (isUnsafeInName_eq_false_iff.mp (hsafe c hc)).2⟩

/-- An underscore keeps a text from being empty or a name for a directory. -/
theorem isFilePart_of_underscore {s : String} (h : '_' ∈ s.toList)
    (hsafe : ∀ c ∈ s.toList, isUnsafeInName c = false) : IsFilePart s :=
  isFilePart_iff.mpr ⟨⟨fun hs => by simp [hs] at h, fun hs => by simp [hs] at h,
    fun hs => by simp [hs] at h⟩, hsafe⟩

/-! ### Clean names -/

/-- The text with an underscore for every unsafe character. -/
def replaceUnsafe (s : String) : String :=
  Token.onString (List.map fun c => if isUnsafeInName c then '_' else c) s

/-- A clean name has its unsafe characters replaced, and is an underscore instead of nothing or
dots. -/
theorem cleanName_eq (bare : String) :
    cleanName bare =
      if replaceUnsafe bare = "" ∨ replaceUnsafe bare = "." ∨ replaceUnsafe bare = ".." then "_"
      else replaceUnsafe bare :=
  if_congr (by simp [replaceUnsafe, or_assoc]) rfl rfl

/-- No unsafe character is left when they are replaced. -/
theorem mem_replaceUnsafe {s : String} {c : Char} (h : c ∈ (replaceUnsafe s).toList) :
    isUnsafeInName c = false := by
  rw [replaceUnsafe, Token.toList_onString] at h
  obtain ⟨d, -, rfl⟩ := List.mem_map.mp h
  split
  · exact isUnsafeInName_underscore
  · rename_i hd
    simpa using hd

/-- A text of safe characters is left as it is. -/
theorem replaceUnsafe_eq_self {s : String} (h : ∀ c ∈ s.toList, isUnsafeInName c = false) :
    replaceUnsafe s = s := by
  refine String.toList_inj.mp ?_
  rw [replaceUnsafe, Token.toList_onString]
  conv_rhs => rw [← List.map_id s.toList]
  exact List.map_congr_left fun c hc => by simp [h c hc]

/-- A clean name can be part of a file name. -/
theorem isFilePart_cleanName (bare : String) : IsFilePart (cleanName bare) := by
  rw [cleanName_eq]
  split
  · exact isFilePart_of_underscore (by simp) (by simp [isUnsafeInName_underscore])
  · rename_i hne
    push Not at hne
    exact isFilePart_iff.mpr ⟨hne, fun c hc => mem_replaceUnsafe hc⟩

/-- Nothing is replaced exactly in the texts that are safe already. -/
theorem cleanName_eq_self_iff {bare : String} : cleanName bare = bare ↔ IsFilePart bare := by
  refine ⟨fun h => h ▸ isFilePart_cleanName bare, fun h => ?_⟩
  obtain ⟨hne, hsafe⟩ := isFilePart_iff.mp h
  rw [cleanName_eq, replaceUnsafe_eq_self hsafe, if_neg]
  rintro (h | h | h)
  · exact hne.1 h
  · exact hne.2.1 h
  · exact hne.2.2 h

/-! ### Names without the signs at their front -/

/-- The name without the signs at its front. -/
def bareName (name : String) : String := Token.onString (List.dropWhile (· == '@')) name

/-- A bare name has no sigil. -/
theorem head?_bareName (name : String) : (bareName name).toList.head? ≠ some '@' := by
  rw [bareName, Token.toList_onString]
  intro h
  have := List.head?_dropWhile_not (· == '@') name.toList
  rw [h] at this
  simp at this

/-- A name without a sigil is bare. -/
theorem bareName_eq_self {name : String} (h : name.toList.head? ≠ some '@') :
    bareName name = name := by
  refine String.toList_inj.mp ?_
  rw [bareName, Token.toList_onString]
  cases hl : name.toList with
  | nil => rfl
  | cons c cs =>
    rw [hl] at h
    exact List.dropWhile_cons_of_neg (by simpa using h)

/-- Cleaning a name does not give it a sigil. -/
theorem head?_cleanName {bare : String} (h : bare.toList.head? ≠ some '@') :
    (cleanName bare).toList.head? ≠ some '@' := by
  rw [cleanName_eq]
  split
  · decide
  · rw [replaceUnsafe, Token.toList_onString, List.head?_map]
    intro hc
    obtain ⟨c, hhead, hc⟩ := Option.map_eq_some_iff.mp hc
    split at hc
    · exact absurd hc (by decide)
    · exact h (hc ▸ hhead)

/-! ### The part of a file name, with any hash -/

/-- A digit in lower case, to the base sixteen. -/
def isLowerHex (c : Char) : Bool := ('0' ≤ c && c ≤ '9') || ('a' ≤ c && c ≤ 'f')

/-- Eight digits of a hash. -/
structure IsHashPart (s : String) : Prop where
  length_eq : s.toList.length = 8
  isLowerHex : ∀ c ∈ s.toList, isLowerHex c = true

/-- The name of a function as a part of a file name, where `hash` is a part of a hash. -/
def fileComponentWith (hash : String → String) (name : String) : String :=
  if cleanName (bareName name) = bareName name then cleanName (bareName name)
  else cleanName (bareName name) ++ "_" ++ hash (bareName name)

/-- The eight digits of the hash of a text that may stand in a file name. -/
def hashPart (s : String) : String := String.ofList ((Blake3.hexHash s).take 8)

/-- The part of a file name that is used has digits of the hash in it. -/
theorem fileComponent_eq (name : String) :
    fileComponent name = fileComponentWith hashPart name := rfl

/-- Digits to the base sixteen are safe. -/
theorem isSafe_of_isLowerHex {c : Char} (h : isLowerHex c = true) : isUnsafeInName c = false := by
  have hbounds : ('0' ≤ c ∧ c ≤ '9') ∨ ('a' ≤ c ∧ c ≤ 'f') := by simpa [isLowerHex] using h
  have hnat : (0x30 ≤ c.toNat ∧ c.toNat ≤ 0x39) ∨ (0x61 ≤ c.toNat ∧ c.toNat ≤ 0x66) := hbounds
  refine isUnsafeInName_eq_false_iff.mpr ⟨fun hc => ?_, ?_⟩
  · have hreserved : "/\\:*?\"<>|".toList.all (fun d =>
        ¬ ((0x30 ≤ d.toNat ∧ d.toNat ≤ 0x39) ∨ (0x61 ≤ d.toNat ∧ d.toNat ≤ 0x66))) = true := by
      decide
    exact of_decide_eq_true (List.all_eq_true.mp hreserved c hc) hnat
  · simp only [isControl, Bool.or_eq_false_iff, decide_eq_false_iff_not, Bool.and_eq_false_iff]
    omega

/-- A digit to the base sixteen is written as one. -/
theorem isLowerHex_digitChar {n : Nat} (h : n < 16) : isLowerHex (Nat.digitChar n) = true := by
  have hall : ∀ d < 16, isLowerHex (Nat.digitChar d) = true := by decide
  exact hall n h

/-- The digits of a number to the base sixteen are such digits. -/
theorem isLowerHex_of_mem_hexDigits {width n : Nat} {c : Char} (h : c ∈ Text.hexDigits width n) :
    isLowerHex c = true := by
  induction width generalizing n with
  | zero => cases h
  | succ width ih =>
    rw [Text.hexDigits, List.mem_append, List.mem_singleton] at h
    rcases h with h | rfl
    · exact ih h
    · exact isLowerHex_digitChar (Nat.mod_lt _ (by decide))

/-- The hash has 64 digits. -/
theorem length_hexHash (s : String) : (Blake3.hexHash s).length = 64 := by
  simp [Blake3.hexHash, Blake3.Value.words, Blake3.octets]

/-- The digits that are taken of the hash are eight. -/
theorem isHashPart_hashPart (s : String) : IsHashPart (hashPart s) where
  length_eq := by simp [hashPart, length_hexHash]
  isLowerHex c hc := by
    rw [hashPart, String.toList_ofList] at hc
    obtain ⟨o, -, ho⟩ := List.mem_flatMap.mp (List.mem_of_mem_take hc)
    exact isLowerHex_of_mem_hexDigits ho

section

variable {hash : String → String} (hhash : ∀ s, IsHashPart (hash s))

/-- A safe name without a sign at its front stands for itself. -/
theorem fileComponentWith_eq_self {name : String} (hat : name.toList.head? ≠ some '@')
    (h : IsFilePart name) : fileComponentWith hash name = name := by
  have hclean : cleanName name = name := cleanName_eq_self_iff.mpr h
  rw [fileComponentWith, bareName_eq_self hat, if_pos hclean, hclean]

/-- The part of a file name for a function has no sigil. -/
theorem head?_fileComponentWith (hash : String → String) (name : String) :
    (fileComponentWith hash name).toList.head? ≠ some '@' := by
  rw [fileComponentWith]
  split
  · exact head?_cleanName (head?_bareName name)
  · have hne : (cleanName (bareName name)).toList ≠ [] := fun h =>
      (isFilePart_cleanName (bareName name)).ne_empty (by simpa using h)
    rw [String.toList_append, String.toList_append, List.append_assoc,
      List.head?_append_of_ne_nil _ hne]
    exact head?_cleanName (head?_bareName name)

include hhash

/-- The part of a file name for a function can be one. -/
theorem isFilePart_fileComponentWith (name : String) :
    IsFilePart (fileComponentWith hash name) := by
  rw [fileComponentWith]
  split
  · exact isFilePart_cleanName _
  · refine isFilePart_of_underscore (by simp) fun c hc => ?_
    simp only [String.toList_append, List.mem_append] at hc
    rcases hc with (hc | hc) | hc
    · exact (isFilePart_iff.mp (isFilePart_cleanName _)).2 c hc
    · exact List.mem_singleton.mp hc ▸ isUnsafeInName_underscore
    · exact isSafe_of_isLowerHex ((hhash _).isLowerHex c hc)

/-- What is made of a name is a name of which the same is made. -/
theorem fileComponentWith_fileComponentWith (name : String) :
    fileComponentWith hash (fileComponentWith hash name) = fileComponentWith hash name :=
  fileComponentWith_eq_self (head?_fileComponentWith hash name)
    (isFilePart_fileComponentWith hhash name)

end

/-! ### When two names become one -/

/-- The first name is what the second one becomes, which is not safe itself. -/
def Imitates (hash : String → String) (f g : String) : Prop :=
  ¬ IsFilePart (bareName g) ∧
    bareName f = cleanName (bareName g) ++ "_" ++ hash (bareName g)

section

variable {hash : String → String} {f g : String}

/-- A safe name is used as it is, without its sigil. -/
theorem fileComponentWith_of_isFilePart (h : IsFilePart (bareName f)) :
    fileComponentWith hash f = bareName f := by
  have hclean : cleanName (bareName f) = bareName f := cleanName_eq_self_iff.mpr h
  rw [fileComponentWith, if_pos hclean, hclean]

/-- An unsafe name is cleaned and gets digits of its hash. -/
theorem fileComponentWith_of_not_isFilePart (h : ¬ IsFilePart (bareName f)) :
    fileComponentWith hash f = cleanName (bareName f) ++ "_" ++ hash (bareName f) := by
  rw [fileComponentWith, if_neg fun hclean => h (cleanName_eq_self_iff.mp hclean)]

/-- Whatever has to be changed is imitated by what it becomes. -/
theorem imitates_fileComponentWith (h : ¬ IsFilePart (bareName g)) :
    Imitates hash (fileComponentWith hash g) g := by
  refine ⟨h, ?_⟩
  rw [bareName_eq_self (head?_fileComponentWith hash g), fileComponentWith_of_not_isFilePart h]

variable (hhash : ∀ s, IsHashPart (hash s))

include hhash

/-- A name that imitates what another one becomes is safe. -/
theorem Imitates.isFilePart (h : Imitates hash f g) : IsFilePart (bareName f) := by
  have hsafe := isFilePart_fileComponentWith hhash g
  rw [fileComponentWith_of_not_isFilePart h.1] at hsafe
  exact h.2 ▸ hsafe

/-- The hashes are as long as each other, so they end two texts at the same place. -/
theorem hash_eq_of_append_eq {s t x y : String} (h : s ++ hash x = t ++ hash y) :
    hash x = hash y := by
  have hlist : s.toList ++ (hash x).toList = t.toList ++ (hash y).toList := by
    simpa using congrArg String.toList h
  have hlength : (hash x).toList.length = (hash y).toList.length := by
    rw [(hhash x).length_eq, (hhash y).length_eq]
  exact String.toList_inj.mp (List.append_inj_right' hlist hlength)

/-- Names with different hashes make one part of a file name just if one of them imitates the other:
two safe names stay apart because they stay what they are, and two others because of their
hashes. -/
theorem fileComponentWith_eq_iff (hne : bareName f ≠ bareName g)
    (hdiffer : hash (bareName f) ≠ hash (bareName g)) :
    fileComponentWith hash f = fileComponentWith hash g ↔
      Imitates hash f g ∨ Imitates hash g f := by
  by_cases hf : IsFilePart (bareName f) <;> by_cases hg : IsFilePart (bareName g)
  · rw [fileComponentWith_of_isFilePart hf, fileComponentWith_of_isFilePart hg]
    exact iff_of_false hne (by rintro (h | h); exacts [h.1 hg, h.1 hf])
  · rw [fileComponentWith_of_isFilePart hf, fileComponentWith_of_not_isFilePart hg]
    exact ⟨fun h => .inl ⟨hg, h⟩, by rintro (h | h); exacts [h.2, absurd hf h.1]⟩
  · rw [fileComponentWith_of_not_isFilePart hf, fileComponentWith_of_isFilePart hg]
    exact ⟨fun h => .inr ⟨hf, h.symm⟩, by rintro (h | h); exacts [absurd hg h.1, h.2.symm]⟩
  · rw [fileComponentWith_of_not_isFilePart hf, fileComponentWith_of_not_isFilePart hg]
    refine iff_of_false (fun h => hdiffer (hash_eq_of_append_eq hhash h)) ?_
    rintro (h | h)
    · exact hf (h.isFilePart hhash)
    · exact hg (h.isFilePart hhash)

end

end InstrGraph
