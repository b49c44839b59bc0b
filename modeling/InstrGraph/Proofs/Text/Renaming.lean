import InstrGraph.Proofs.Text.Symbols
import InstrGraph.Proofs.Text.Words

/-!
# Renaming a string and reading it

Reading the last word, trimming, stripping annotations and normalizing a label commute with the
renaming of identifiers, as far as the text has no double quotes. Where a double quote is taken
out, the characters around it may become one identifier.
-/

namespace InstrGraph.Token

variable {f : List Char → List Char} {g : String → String} {s t : String}

/-- Renaming and leaving out parts of a text can be done in either order. -/
theorem onString_mapSymbols (k : Text.Cut f) (h : KeepsSymbols g s) :
    onString f (mapSymbols g s) = mapSymbols g (onString f s) := by
  rw [mapSymbols_eq_onString, mapSymbols_eq_onString, onString_onString, onString_onString]
  exact onString_congr (k.mapIdentifiers h.onChars)

/-- What is left of a text has no identifiers of its own. -/
theorem mem_symbols_onString (k : Text.Cut f) (h : t ∈ symbols (onString f s)) : t ∈ symbols s := by
  rw [mem_symbols_iff, toList_onString] at h
  exact mem_symbols_iff.mpr (k.mem_identifiers h)

/-! ### Characters that renaming does not touch -/

/-- Renaming does not touch characters that are in no identifier. -/
theorem any_mapSymbols (h : KeepsSymbols g s) {p : Char → Bool} (hp : Text.Foreign p) :
    (mapSymbols g s).toList.any p = s.toList.any p := by
  rw [toList_mapSymbols, Text.any_mapIdentifiers h.onChars hp]

/-- Renaming brings up no character that identifiers do not have. -/
theorem forall_mem_mapSymbols (h : KeepsSymbols g s) {p : Char → Bool} (hp : Text.Foreign p)
    (hs : ∀ c ∈ s.toList, p c = false) : ∀ c ∈ (mapSymbols g s).toList, p c = false := by
  have hany : s.toList.any p = false := List.any_eq_false.mpr fun c hc => by simp [hs c hc]
  rw [← any_mapSymbols h hp] at hany
  exact fun c hc => Bool.eq_false_iff.mpr (List.any_eq_false.mp hany c hc)

/-- A string is empty if it has no characters. -/
theorem isEmpty_eq (s : String) : s.isEmpty = s.toList.isEmpty := by
  rw [Bool.eq_iff_iff, String.isEmpty_iff, List.isEmpty_iff, ← String.toList_eq_nil_iff]

/-- Renaming does not make a text empty. -/
theorem isEmpty_mapSymbols (h : KeepsSymbols g s) : (mapSymbols g s).isEmpty = s.isEmpty := by
  rw [isEmpty_eq, isEmpty_eq, toList_mapSymbols, Text.isEmpty_mapIdentifiers h.onChars]

/-- The map sends local names to local names and global names to global names. -/
def KeepsSigils (g : String → String) (s : String) : Prop :=
  ∀ t ∈ symbols s, (g t).toList.head? = t.toList.head?

/-- A text begins as before when sigils are kept. -/
theorem head?_mapSymbols (h : KeepsSymbols g s) (hs : KeepsSigils g s) :
    (mapSymbols g s).toList.head? = s.toList.head? := by
  rw [toList_mapSymbols]
  refine Text.head?_mapIdentifiers h.onChars fun t ht => ?_
  simpa [onChars] using hs (String.ofList t) (mem_symbols_iff.mpr (by simpa using ht))

/-- Whether a text is local is seen from its first character. -/
theorem isLocal_eq_of_head?_eq (h : s.toList.head? = t.toList.head?) : isLocal s = isLocal t := by
  rw [Bool.eq_iff_iff, isLocal_iff, isLocal_iff, h]

/-- A text stays local when sigils are kept. -/
theorem isLocal_mapSymbols (h : KeepsSymbols g s) (hs : KeepsSigils g s) :
    isLocal (mapSymbols g s) = isLocal s := isLocal_eq_of_head?_eq (head?_mapSymbols h hs)

/-! ### Texts without double quotes -/

/-- The text has no double quote. -/
def Unquoted (s : String) : Prop := '"' ∉ s.toList

instance (s : String) : Decidable (Unquoted s) := inferInstanceAs (Decidable (_ ∉ _))

/-- Renaming brings no double quotes. -/
theorem Unquoted.mapSymbols (hk : KeepsSymbols g s) (h : Unquoted s) :
    Unquoted (mapSymbols g s) := by
  have hany := any_mapSymbols hk (p := (· == '"')) (Text.foreign_beq (by decide) (by decide))
  intro hc
  have : s.toList.any (· == '"') = true := by
    rw [← hany]
    exact List.any_eq_true.mpr ⟨_, hc, by decide⟩
  obtain ⟨c, hc, heq⟩ := List.any_eq_true.mp this
  exact h (beq_iff_eq.mp heq ▸ hc)

/-- What stripping does to a text without double quotes. -/
def cutAnnotations : Text.Cut fun cs => Text.trimEnd (Text.cutAttachments cs) :=
  (Text.Cut.trimEndOf Text.foreign_isBlank).comp .attachments

/-- A text without double quotes loses its attachments and the blanks in front of them. -/
theorem stripAnnotations_eq (h : Unquoted s) :
    stripAnnotations s = onString (fun cs => Text.trimEnd (Text.cutAttachments cs)) s := by
  refine onString_congr ?_
  rw [Text.stripAnnotations]
  refine List.filter_eq_self.mpr fun c hc => ?_
  rw [decide_eq_true_iff]
  rintro rfl
  exact h ((cutAnnotations.apply_infix _).mem hc)

/-- Renaming and dropping annotations can be done in either order in texts without double quotes. -/
theorem stripAnnotations_mapSymbols (hq : Unquoted s) (h : KeepsSymbols g s) :
    stripAnnotations (mapSymbols g s) = mapSymbols g (stripAnnotations s) := by
  rw [stripAnnotations_eq hq, stripAnnotations_eq (hq.mapSymbols h),
    onString_mapSymbols cutAnnotations h]

/-- A text that is renamed to an identifier is one. -/
theorem isSymbol_of_mapSymbols (hk : KeepsSymbols g s) (h : isSymbol (mapSymbols g s) = true) :
    isSymbol s = true := by
  have hpieces := Text.pieces_mapIdentifiers hk.onChars
  rw [← toList_mapSymbols] at hpieces
  cases hcs : (mapSymbols g s).toList with
  | nil => exact absurd hcs (Text.ne_nil_of_isIdentifier h)
  | cons c n =>
    rw [isSymbol, hcs] at h
    rw [hcs, Text.pieces_identifier h] at hpieces
    obtain ⟨p, hp, hident⟩ := List.map_eq_singleton_iff.mp hpieces.symm
    cases p with
    | other d => simp [Text.Piece.mapIdent] at hident
    | ident d m =>
      have hrender := Text.render_pieces s.toList
      rw [hp] at hrender
      have hmem : d :: m ∈ Text.identifiers s.toList := by
        rw [Text.identifiers, hp]
        exact List.mem_singleton_self _
      rw [isSymbol, ← hrender]
      simpa [Text.render, Text.Piece.chars] using Text.isIdentifier_of_mem hmem

/-- An identifier has no double quote. -/
theorem unquoted_of_isSymbol (h : isSymbol t = true) : Unquoted t := by
  intro hq
  have := Text.foreign_beq (d := '"') (by decide) (by decide) _ h _ hq
  simp at this

/-! ### Labels -/

/-- The last word of an identifier is the identifier. -/
theorem last_of_isSymbol (h : isSymbol t = true) : last t = t := by
  refine onString_eq_self ?_
  rw [Text.lastToken_eq, Text.words_of_not_isBlank (Text.foreign_isBlank _ h)
    (Text.ne_nil_of_isIdentifier h), List.getLast?_singleton, Option.getD_some]
  exact Text.trimEndOf_eq_self fun c hc => Text.foreign_comma _ h c (List.mem_of_getLast? hc)

/-- The last word is a local name without colons: the label is written as the passes write it. -/
structure WritesLocal (s : String) : Prop where
  isSymbol : isSymbol (last s) = true
  isLocal : isLocal (last s) = true
  noColon : ':' ∉ (last s).toList

instance (s : String) : Decidable (WritesLocal s) :=
  decidable_of_iff (Token.isSymbol (last s) = true ∧ Token.isLocal (last s) = true ∧
      ':' ∉ (last s).toList)
    ⟨fun h => ⟨h.1, h.2.1, h.2.2⟩, fun h => ⟨h.isSymbol, h.isLocal, h.noColon⟩⟩

/-- The name at the end of a label is one of its identifiers. -/
theorem WritesLocal.mem_symbols (h : WritesLocal s) : last s ∈ symbols s := by
  refine mem_symbols_onString .lastToken (s := s) ?_
  rw [show onString Text.lastToken s = last s from rfl, symbols_of_isSymbol h.isSymbol]
  exact List.mem_singleton_self _

/-- A label that is written as the passes write it stands for its last word. -/
theorem normalizeLabel_eq_last (hq : Unquoted s) (h : WritesLocal s) :
    normalizeLabel s = last s := by
  have hlocal := isLocal_iff.mp h.isLocal
  have hcolon := h.noColon
  rw [last, toList_onString] at hlocal hcolon
  exact onString_congr (Text.normalizeLabel_eq_lastToken hq hlocal
    fun hlast => hcolon (List.mem_of_getLast? hlast))

/-- A word that is written as a label is, with no colon at its end, is a label. -/
theorem normalizeLabel_eq_self (hq : Unquoted s) (hlocal : isLocal s = true) (hlast : last s = s)
    (hcolon : s.toList.getLast? ≠ some ':') : normalizeLabel s = s := by
  have hchars : Text.lastToken s.toList = s.toList := by
    have hself := congrArg String.toList hlast
    rwa [last, toList_onString] at hself
  have hnormal := Text.normalizeLabel_eq_lastToken hq (by rw [hchars, isLocal_iff.mp hlocal])
    (by rwa [hchars])
  exact onString_eq_self (hnormal.trans hchars)

/-- A label is its own last word. -/
theorem last_normalizeLabel (s : String) : last (normalizeLabel s) = normalizeLabel s := by
  rw [last, normalizeLabel, onString_onString]
  exact onString_congr (Text.lastToken_normalizeLabel _)

/-- No double quote is left in a label. -/
theorem unquoted_normalizeLabel (s : String) : Unquoted (normalizeLabel s) := by
  rw [Unquoted, normalizeLabel, toList_onString]
  exact Text.quote_not_mem_normalizeLabel _

/-- A label is one word. -/
theorem not_isBlank_of_mem_normalizeLabel (s : String) :
    ∀ c ∈ (normalizeLabel s).toList, Text.isBlank c = false := by
  rw [normalizeLabel, toList_onString]
  exact Text.not_isBlank_of_mem_normalizeLabel _

/-- Renaming and taking the last token can be done in either order. -/
theorem last_mapSymbols (h : KeepsSymbols g s) : last (mapSymbols g s) = mapSymbols g (last s) :=
  onString_mapSymbols .lastToken h

/-- Trimming a string is trimming its characters. -/
theorem toList_trim (s : String) : (trim s).toList = Text.trim s.toList := toList_onString ..

/-- Renaming and trimming can be done in either order. -/
theorem trim_mapSymbols (h : KeepsSymbols g s) : trim (mapSymbols g s) = mapSymbols g (trim s) :=
  onString_mapSymbols .trim h

/-- A label stays as the passes write it if it is renamed to a local name without colons. -/
theorem WritesLocal.mapSymbols (hk : KeepsSymbols g s) (h : WritesLocal s)
    (hlocal : Token.isLocal (g (last s)) = true) (hcolon : ':' ∉ (g (last s)).toList) :
    WritesLocal (mapSymbols g s) := by
  have hlast : last (Token.mapSymbols g s) = g (last s) := by
    rw [last_mapSymbols hk, mapSymbols_symbol h.isSymbol]
  exact ⟨by rw [hlast]; exact hk _ h.mem_symbols, by rw [hlast]; exact hlocal,
    by rw [hlast]; exact hcolon⟩

end InstrGraph.Token
