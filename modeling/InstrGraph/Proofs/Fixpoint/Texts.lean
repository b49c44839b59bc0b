import InstrGraph.Proofs.Canonical.Cache
import InstrGraph.Proofs.Fixpoint.Images

/-!
# What is read off the canonical form of a text

The canonical form of a text has no annotations, and where the text had an identifier it has the
canonical one. So a name that is read off a field of a well-named function, as the last word, as the
only word or in front of an equals sign, is read off the canonical field in canonical form.
-/

namespace InstrGraph

namespace PassContext.Tabled

open Text (Inert Stripped)
open Pass (Hides HidesWord)

variable {f : Function} {ctx : PassContext} {s t v : String}

/-- The canonical forms of identifiers are identifiers. -/
theorem keepsSymbols (h : ctx.Tabled f) (s : String) :
    Token.KeepsSymbols ctx.canonicalSymbol s :=
  keepsSymbols_canonicalSymbol h.collected.sound s

/-- The canonical form of an identifier is one. -/
theorem isSymbol_canonicalSymbol (h : ctx.Tabled f) (ht : Token.isSymbol t = true) :
    Token.isSymbol (ctx.canonicalSymbol t) = true :=
  Pass.isSymbol_images h.collected.sound ht

/-- The canonical form of an identifier has its sigil. -/
theorem head?_canonicalSymbol (h : ctx.Tabled f) (ht : Token.isSymbol t = true) :
    (ctx.canonicalSymbol t).toList.head? = t.toList.head? :=
  h.head?_image ht (h.image_canonicalSymbol ht)

/-- The canonical form of a local name is local, and that of another name is not. -/
theorem isLocal_canonicalSymbol (h : ctx.Tabled f) (ht : Token.isSymbol t = true) :
    Token.isLocal (ctx.canonicalSymbol t) = Token.isLocal t :=
  Token.isLocal_eq_of_head?_eq (h.head?_canonicalSymbol ht)

/-- Renaming a text of one word that is an identifier. -/
theorem words_mapSymbols (h : ctx.Tabled f) (hv : Token.isSymbol v = true)
    (hs : Text.words s.toList = [v.toList]) :
    Text.words (Token.mapSymbols ctx.canonicalSymbol s).toList =
      [(ctx.canonicalSymbol v).toList] := by
  rw [Token.toList_mapSymbols, Text.words_mapIdentifiers (h.keepsSymbols s).onChars, hs,
    List.map_singleton, ← Token.toList_mapSymbols, Token.mapSymbols_symbol hv]

section

variable (h : ctx.Tabled f) (hp : Inert ctx.config.constantPlaceholder.toList)

include h hp

/-- The identifiers of a text after the passes are those of the stripped text in canonical form. -/
theorem symbols_text_runPasses (s : String) : Token.symbols (runPasses ctx s).text =
    (Token.symbols (Token.stripAnnotations s)).map ctx.canonicalSymbol :=
  symbols_runPasses h.collected.sound (fun c hc => (hp.plain c hc).1) s

/-- A canonical text has no annotations. -/
theorem stripped_runPasses (hq : Token.Unquoted s) :
    Stripped (runPasses ctx s).text.toList := by
  refine (hides_runPasses h.collected.sound s).stripped hp ?_
  rw [renamed, Token.toList_mapSymbols]
  refine Stripped.mapIdentifiers ?_ (h.keepsSymbols _).onChars
  rw [Token.stripAnnotations, Token.toList_onString]
  exact Text.stripped_stripAnnotations hq

/-- A text after the passes has nothing to strip any more. -/
theorem stripAnnotations_runPasses (hq : Token.Unquoted s) :
    Token.stripAnnotations (runPasses ctx s).text = (runPasses ctx s).text :=
  Token.onString_eq_self (h.stripped_runPasses hp hq).stripAnnotations_eq

/-- The last word of a canonical text hides what the last word of the text has become. -/
theorem hidesWord_last_runPasses (s : String) :
    HidesWord ctx.config.constantPlaceholder.toList
      (Token.mapSymbols ctx.canonicalSymbol (Token.last (Token.stripAnnotations s))).toList
      (Token.last (runPasses ctx s).text).toList := by
  have hlast := (hides_runPasses h.collected.sound s).last hp
  rwa [renamed, Token.last_mapSymbols (h.keepsSymbols _)] at hlast

/-- A text whose only word is an identifier, in canonical form. -/
theorem words_runPasses (hv : Token.isSymbol v = true)
    (hs : Text.words (Token.stripAnnotations s).toList = [v.toList]) :
    Text.words (runPasses ctx s).text.toList = [(ctx.canonicalSymbol v).toList] :=
  (hides_runPasses h.collected.sound s).words_eq hp (h.isSymbol_canonicalSymbol hv)
    (h.words_mapSymbols hv hs)

/-- A blank text, in canonical form. -/
theorem words_runPasses_of_nil (hs : Text.words (Token.stripAnnotations s).toList = []) :
    Text.words (runPasses ctx s).text.toList = [] := by
  have hwords := (hides_runPasses h.collected.sound s).words hp
  rw [renamed, Token.toList_mapSymbols, Text.words_mapIdentifiers (h.keepsSymbols _).onChars,
    hs] at hwords
  generalize Text.words (runPasses ctx s).text.toList = ws at hwords
  cases hwords
  rfl

/-- What stands in front of the equals sign of a canonical text. -/
theorem assigned_runPasses (s : String) :
    Hides ctx.config.constantPlaceholder.toList
        (Token.mapSymbols ctx.canonicalSymbol (Instruction.assigned (Token.stripAnnotations s)))
        (Instruction.assigned (runPasses ctx s).text) ∧
      (runPasses ctx s).text.toList.any (· == '=') =
        (Token.stripAnnotations s).toList.any (· == '=') := by
  have hkeeps := h.keepsSymbols (Token.stripAnnotations s)
  obtain ⟨hleft, hany⟩ := (hides_runPasses h.collected.sound s).assigned hp
  rw [renamed, Token.any_mapSymbols hkeeps (Text.foreign_beq (by decide) (by decide))] at hany
  refine ⟨?_, hany⟩
  rw [← Instruction.assigned_mapSymbols hkeeps]
  exact hleft

/-- A local name that is the only word of a renamed text with hidden constants was the only word
before. -/
theorem exists_word_of_hides {s' w : String}
    (hs : Hides ctx.config.constantPlaceholder.toList (Token.mapSymbols ctx.canonicalSymbol s) s')
    (hw : Text.words s'.toList = [w.toList]) (hl : Token.isLocal w = true) :
    ∃ v : String, Text.words s.toList = [v.toList] ∧ Token.isLocal v = true := by
  have hall := hs.words hp
  rw [hw, Token.toList_mapSymbols, Text.words_mapIdentifiers (h.keepsSymbols s).onChars] at hall
  generalize Text.words s.toList = ws at hall
  cases ws with
  | nil => cases hall
  | cons u us =>
    cases hall with
    | cons hu hus =>
      obtain rfl : us = [] := by
        cases us with
        | nil => rfl
        | cons => cases hus
      refine ⟨String.ofList u, by rw [String.toList_ofList], ?_⟩
      have hhead := (hu.head?_eq_iff hp).mp (Token.isLocal_iff.mp hl)
      rw [← Token.isLocal_mapSymbols (h.keepsSymbols _) fun t ht =>
        h.head?_canonicalSymbol (Token.isSymbol_of_mem ht), Token.isLocal_iff,
        Token.toList_mapSymbols, String.toList_ofList, hhead]

end

end PassContext.Tabled

end InstrGraph
