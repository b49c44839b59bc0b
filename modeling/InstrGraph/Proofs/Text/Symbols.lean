import InstrGraph.Proofs.Text.Pieces
import InstrGraph.Token

/-!
# Renaming the identifiers of a string

The laws of `InstrGraph.Proofs.Text.Pieces` for strings. `Token.mapSymbols g` puts the image of
every identifier in its place; every `Token.rewrite` is of this form (`rewrite_eq_mapSymbols`).
-/

namespace InstrGraph.Token

/-- Two operations on a string, one after the other. -/
theorem onString_onString (f f' : List Char → List Char) (s : String) :
    onString f (onString f' s) = onString (fun cs => f (f' cs)) s := by simp [onString]

/-- Operations with the same result for the characters of a string have the same result for it. -/
theorem onString_congr {f f' : List Char → List Char} {s : String} (h : f s.toList = f' s.toList) :
    onString f s = onString f' s := by simp [onString, h]

/-- An operation that leaves the characters of a string alone leaves the string alone. -/
theorem onString_eq_self {f : List Char → List Char} {s : String} (h : f s.toList = s.toList) :
    onString f s = s := by simp [onString, h]

/-- The string is one identifier. -/
def isSymbol (t : String) : Bool := Text.isIdentifier t.toList

/-- The identifiers of a text are identifiers. -/
theorem isSymbol_of_mem {s t : String} (h : t ∈ symbols s) : isSymbol t = true := by
  obtain ⟨u, hu, rfl⟩ := List.mem_map.mp h
  simpa [isSymbol] using Text.isIdentifier_of_mem hu

/-- The identifiers of a string are those of its characters. -/
theorem mem_symbols_iff {s t : String} : t ∈ symbols s ↔ t.toList ∈ Text.identifiers s.toList := by
  rw [symbols, List.mem_map]
  constructor
  · rintro ⟨u, hu, rfl⟩
    simpa using hu
  · exact fun h => ⟨t.toList, h, by simp⟩

/-- An identifier has no identifiers but itself. -/
theorem symbols_of_isSymbol {t : String} (h : isSymbol t = true) : symbols t = [t] := by
  rw [symbols, Text.identifiers_identifier h]
  simp

/-- The string with every identifier replaced by its image. -/
def mapSymbols (g : String → String) (s : String) : String := rewrite (fun t => some (g t)) s

/-- A map of identifiers as a map of characters. -/
def onChars (g : String → String) (t : List Char) : List Char := (g (String.ofList t)).toList

/-- Renaming a string is renaming its characters. -/
theorem mapSymbols_eq_onString (g : String → String) (s : String) :
    mapSymbols g s = onString (Text.mapIdentifiers (onChars g)) s := rfl

/-- The characters of a renamed string. -/
@[simp] theorem toList_mapSymbols (g : String → String) (s : String) :
    (mapSymbols g s).toList = Text.mapIdentifiers (onChars g) s.toList := by
  simp [mapSymbols_eq_onString]

/-- Rewriting identifiers is mapping those that are not rewritten to themselves. -/
theorem rewrite_eq_mapSymbols (f : String → Option String) (s : String) :
    rewrite f s = mapSymbols (fun t => (f t).getD t) s := by
  rw [rewrite, mapSymbols_eq_onString]
  refine onString_congr ?_
  rw [Text.rewrite_eq_mapIdentifiers]
  refine Text.mapIdentifiers_congr fun t _ => ?_
  rw [onChars]
  cases f (String.ofList t) <;> simp

/-- The map sends the identifiers of the string to identifiers. -/
def KeepsSymbols (g : String → String) (s : String) : Prop :=
  ∀ t ∈ symbols s, isSymbol (g t) = true

variable {g g' : String → String} {s : String}

/-- A map that keeps the identifiers of a string keeps those of its characters. -/
theorem KeepsSymbols.onChars (h : KeepsSymbols g s) :
    Text.KeepsIdentifiers (onChars g) s.toList := by
  intro t ht
  exact h (String.ofList t) (List.mem_map.mpr ⟨t, ht, rfl⟩)

/-- The identifiers of a renamed text are the renamed ones. -/
theorem symbols_mapSymbols (h : KeepsSymbols g s) :
    symbols (mapSymbols g s) = (symbols s).map g := by
  rw [symbols, toList_mapSymbols, Text.identifiers_mapIdentifiers h.onChars, symbols,
    List.map_map, List.map_map]
  refine List.map_congr_left fun t _ => ?_
  simp [onChars]

/-- Only the identifiers that occur matter. -/
theorem mapSymbols_congr (h : ∀ t ∈ symbols s, g t = g' t) : mapSymbols g s = mapSymbols g' s := by
  refine onString_congr (Text.mapIdentifiers_congr fun t ht => ?_)
  exact congrArg String.toList (h (String.ofList t) (List.mem_map.mpr ⟨t, ht, rfl⟩))

/-- Renaming that leaves the identifiers alone changes nothing. -/
theorem mapSymbols_eq_self (h : ∀ t ∈ symbols s, g t = t) : mapSymbols g s = s := by
  refine onString_eq_self (Text.mapIdentifiers_eq_self fun t ht => ?_)
  have := h (String.ofList t) (List.mem_map.mpr ⟨t, ht, rfl⟩)
  simp only [this, String.toList_ofList]

/-- Two renamings are one. -/
theorem mapSymbols_mapSymbols (h : KeepsSymbols g s) :
    mapSymbols g' (mapSymbols g s) = mapSymbols (fun t => g' (g t)) s := by
  rw [mapSymbols_eq_onString g', mapSymbols_eq_onString g, onString_onString]
  refine onString_congr ?_
  rw [Text.mapIdentifiers_mapIdentifiers h.onChars]
  refine Text.mapIdentifiers_congr fun t _ => ?_
  simp [onChars]

/-- A map that is injective on the identifiers of two strings does not make them equal. -/
theorem mapSymbols_inj {s' : String} (hs : KeepsSymbols g s) (hs' : KeepsSymbols g s')
    (hg : ∀ t ∈ symbols s, ∀ u ∈ symbols s', g t = g u → t = u)
    (h : mapSymbols g s = mapSymbols g s') : s = s' := by
  have hchars := congrArg String.toList h
  rw [toList_mapSymbols, toList_mapSymbols] at hchars
  refine String.toList_inj.mp (Text.mapIdentifiers_inj hs.onChars hs'.onChars ?_ hchars)
  intro t ht u hu heq
  have := hg (String.ofList t) (List.mem_map.mpr ⟨t, ht, rfl⟩) (String.ofList u)
    (List.mem_map.mpr ⟨u, hu, rfl⟩) (String.toList_inj.mp heq)
  simpa using congrArg String.toList this

/-- Renaming an identifier gives its image. -/
theorem mapSymbols_symbol {t : String} (h : isSymbol t = true) : mapSymbols g t = g t := by
  have ht : t.toList ≠ [] := Text.ne_nil_of_isIdentifier h
  refine String.toList_inj.mp ?_
  rw [toList_mapSymbols]
  cases hc : t.toList with
  | nil => exact absurd hc ht
  | cons c n =>
    rw [isSymbol, hc] at h
    rw [Text.mapIdentifiers, Text.rewrite, Text.pieces_identifier h]
    simp [Text.Piece.renamed, onChars, ← hc]

/-! ### Sigils -/

/-- A text starts with another one if that is a prefix of it. -/
theorem startsWith_iff {t head : String} :
    startsWith t head = true ↔ head.toList <+: t.toList := by
  rw [startsWith, List.isPrefixOf_iff_prefix]

/-- A beginning can be dropped from just the texts that go on behind it. -/
theorem dropHead?_eq_some_iff {s head rest : String} :
    dropHead? s head = some rest ↔ s = head ++ rest := by
  rw [dropHead?]
  constructor
  · intro h
    split at h
    · rename_i hstarts
      obtain ⟨cs, hcs⟩ := startsWith_iff.mp hstarts
      rw [← Option.some.inj h, ← hcs, List.drop_left]
      exact String.toList_inj.mp (by simp [hcs])
    · simp at h
  · rintro rfl
    have hstarts : startsWith (head ++ rest) head = true :=
      startsWith_iff.mpr (by simp)
    simp [hstarts]

/-- A name is local if it begins with a percent sign. -/
theorem isLocal_iff {t : String} : isLocal t = true ↔ t.toList.head? = some '%' := by
  rw [isLocal, startsWith_iff]
  cases h : t.toList with
  | nil => simp
  | cons c cs => simp [eq_comm]

/-- A name is global if it begins with an at sign. -/
theorem isGlobal_iff {t : String} : isGlobal t = true ↔ t.toList.head? = some '@' := by
  rw [isGlobal, startsWith_iff]
  cases h : t.toList with
  | nil => simp
  | cons c cs => simp [eq_comm]

/-- No local name is global. -/
theorem isGlobal_of_isLocal {t : String} (h : isLocal t = true) : isGlobal t = false := by
  cases hg : isGlobal t with
  | false => rfl
  | true =>
    rw [isLocal_iff] at h
    rw [isGlobal_iff, h] at hg
    simp at hg

/-- An identifier is local or global. -/
theorem isGlobal_of_isSymbol {t : String} (h : isSymbol t = true) (hl : isLocal t = false) :
    isGlobal t = true := by
  rw [isGlobal_iff]
  cases hc : t.toList with
  | nil => simp [isSymbol, hc, Text.isIdentifier] at h
  | cons c cs =>
    rw [isSymbol, hc, Text.isIdentifier_cons] at h
    have hsigil := h.1
    simp only [Text.isSigil, Bool.or_eq_true, beq_iff_eq] at hsigil
    rcases hsigil with rfl | rfl
    · have : isLocal t = true := by rw [isLocal_iff, hc]; rfl
      rw [this] at hl
      exact absurd hl (by simp)
    · rfl

end InstrGraph.Token
