import InstrGraph.Canonical.Pass
import InstrGraph.Proofs.Text.Attributes
import InstrGraph.Proofs.Text.Renaming
import InstrGraph.Proofs.Text.Stripped

/-!
# Hiding constants a second time

Hiding goes over a text twice, once for each form of an immediate. Neither brings up an immediate of
the other form, and each leaves of its own form only what is kept. So a second time nothing is
hidden any more (`hideConstants_hideConstants`), and nothing is found mentioned that was not
mentioned before (`mentions_hideConstants_hideConstants`).

What can be read off a text with identifiers in the right places can be read off the text with its
constants hidden (`Hides`): its identifiers, its last word, a single word, the text in front of an
equals sign.
-/

namespace InstrGraph

/-- An identifier has no annotations. -/
theorem Token.stripAnnotations_of_isSymbol {t : String} (h : Token.isSymbol t = true) :
    Token.stripAnnotations t = t :=
  Token.onString_eq_self (Text.Stripped.of_isIdentifier h).stripAnnotations_eq

namespace Pass

open Text (Hidden HiddenWord Inert ImmediateForm)

variable {ctx ctx' : PassContext} {form form' : ImmediateForm} {s s' : String}

/-- The second text is the first with constants hidden. -/
def Hides (placeholder : List Char) (s s' : String) : Prop :=
  ∃ middle, Hidden .typed placeholder s.toList middle ∧
    Hidden .dereferenceable placeholder middle s'.toList

/-- Hiding the constants of one form hides values of the text. -/
theorem hidden_hideForm (ctx : PassContext) (form : ImmediateForm) (s : String) :
    Hidden form ctx.config.constantPlaceholder.toList s.toList
      (hideForm ctx form s).text.toList := by
  rw [hideForm, Token.toList_onString]
  exact Text.hidden_hideImmediates ..

/-- Hiding constants hides values of the text, first those of one form and then those of the
other. -/
theorem hides_hideConstants (ctx : PassContext) (s : String) :
    Hides ctx.config.constantPlaceholder.toList s (hideConstants ctx s).text :=
  ⟨_, hidden_hideForm ctx .typed s, hidden_hideForm ctx .dereferenceable _⟩

/-- The text with its constants hidden, in two steps. -/
theorem text_hideConstants (ctx : PassContext) (s : String) : (hideConstants ctx s).text =
    (hideForm ctx .dereferenceable (hideForm ctx .typed s).text).text := rfl

/-- Hiding constants mentions those of the one form and then those of the other that are left. -/
theorem mentions_hideConstants (ctx : PassContext) (s : String) : (hideConstants ctx s).mentions =
    (hideForm ctx .typed s).mentions ++
      (hideForm ctx .dereferenceable (hideForm ctx .typed s).text).mentions := rfl

/-- Hiding the constants of a form mentions the immediates of this form. -/
theorem mem_mentions_hideForm {m : Mention} : m ∈ (hideForm ctx form s).mentions ↔
    ∃ i ∈ Text.immediates form s.toList, .constant (String.ofList i.value) = m := List.mem_map

/-- Hiding depends on the common constants and on the configuration. -/
theorem hideConstants_congr (hfrequency : ctx'.frequency = ctx.frequency)
    (hconfig : ctx'.config = ctx.config) : hideConstants ctx' = hideConstants ctx := by
  have hkeeps : ctx'.keepsConstant = ctx.keepsConstant := by
    funext value
    simp only [PassContext.keepsConstant, hfrequency, hconfig]
  funext text
  simp only [hideConstants, hideForm, hkeeps, hconfig]

/-- The immediates of a text are kept, so nothing of that form is hidden. -/
theorem text_hideForm_eq_self
    (h : ∀ m ∈ Text.immediates form s.toList, ctx.keepsConstant (String.ofList m.value) = true) :
    (hideForm ctx form s).text = s := by
  rw [hideForm]
  refine Token.onString_eq_self ?_
  rw [Text.hideImmediates_eq]
  exact Text.hideFrom_eq_self false s.toList h

/-- A text of one word that opens no attribute stays as it is. -/
theorem text_hideConstants_of_not_isBlank (hblank : ∀ c ∈ s.toList, Text.isBlank c = false)
    (hattr : ¬ Text.OpensAttribute s.toList) : (hideConstants ctx s).text = s := by
  have hform (form : ImmediateForm) : (hideForm ctx form s).text = s :=
    Token.onString_eq_self (Text.hideImmediates_eq_self hblank hattr)
  rw [text_hideConstants, hform, hform]

/-- A last word that begins like an identifier and opens no attribute stays the last word. -/
theorem last_hideConstants
    (hsigil : ∃ c, (Token.last s).toList.head? = some c ∧ Text.isSigil c = true)
    (hattr : ¬ Text.OpensAttribute (Token.last s).toList) :
    Token.last (hideConstants ctx s).text = Token.last s := by
  have hform (form : ImmediateForm) {s : String}
      (hsigil : ∃ c, (Token.last s).toList.head? = some c ∧ Text.isSigil c = true)
      (hattr : ¬ Text.OpensAttribute (Token.last s).toList) :
      Token.last (hideForm ctx form s).text = Token.last s := by
    rw [Token.last, Token.toList_onString] at hsigil hattr
    rw [hideForm, Token.last, Token.last, Token.onString_onString]
    exact Token.onString_congr (Text.lastToken_hideImmediates hsigil hattr)
  have htyped := hform .typed hsigil hattr
  rw [text_hideConstants, hform .dereferenceable (by rwa [htyped]) (by rwa [htyped]), htyped]

section

variable (hp : Inert ctx.config.constantPlaceholder.toList)

include hp

/-- What hiding the immediates of one form leaves of that form is kept. -/
theorem keepsConstant_of_mem_hideForm (s : String) :
    ∀ m ∈ Text.immediates form (hideForm ctx form s).text.toList,
      ctx.keepsConstant (String.ofList m.value) = true := by
  intro m hm
  rw [hideForm, Token.toList_onString, Text.hideImmediates_eq, Text.immediates_eq] at hm
  exact Text.keep_of_mem_immediatesFrom_hideFrom hp false s.toList m hm

/-- Hiding the immediates of one form brings up none of either form. -/
theorem mem_immediates_of_hideForm {m : Text.Immediate}
    (hm : m ∈ Text.immediates form' (hideForm ctx form s).text.toList) :
    m ∈ Text.immediates form' s.toList :=
  Text.immediatesFrom_of_hidden hp (hidden_hideForm ctx form s) false m hm

/-- In a text with its constants hidden, nothing is hidden again. -/
theorem hideForm_hideConstants (s : String) (form : ImmediateForm) :
    (hideForm ctx form (hideConstants ctx s).text).text = (hideConstants ctx s).text := by
  rw [text_hideConstants]
  refine text_hideForm_eq_self fun m hm => ?_
  cases form with
  | typed => exact keepsConstant_of_mem_hideForm hp s m (mem_immediates_of_hideForm hp hm)
  | dereferenceable => exact keepsConstant_of_mem_hideForm hp _ m hm

/-- A second time nothing is hidden any more. -/
theorem hideConstants_hideConstants (s : String) :
    (hideConstants ctx (hideConstants ctx s).text).text = (hideConstants ctx s).text := by
  rw [text_hideConstants ctx (hideConstants ctx s).text, hideForm_hideConstants hp,
    hideForm_hideConstants hp]

/-- A second time nothing new is found mentioned. -/
theorem mentions_hideConstants_hideConstants {s : String} {m : Mention}
    (hm : m ∈ (hideConstants ctx (hideConstants ctx s).text).mentions) :
    m ∈ (hideConstants ctx s).mentions := by
  rw [mentions_hideConstants, hideForm_hideConstants hp, text_hideConstants,
    List.mem_append] at hm
  rw [mentions_hideConstants, List.mem_append]
  refine hm.imp (fun hm => ?_) fun hm => ?_
  · obtain ⟨i, hi, heq⟩ := mem_mentions_hideForm.mp hm
    have hi : i ∈ Text.immediates .typed (hideForm ctx .typed s).text.toList :=
      mem_immediates_of_hideForm hp hi
    exact mem_mentions_hideForm.mpr ⟨i, mem_immediates_of_hideForm hp hi, heq⟩
  · obtain ⟨i, hi, heq⟩ := mem_mentions_hideForm.mp hm
    exact mem_mentions_hideForm.mpr ⟨i, mem_immediates_of_hideForm hp hi, heq⟩

end

/-! ### Reading a text whose constants are hidden -/

/-- The second word is the first with constants hidden. -/
def HidesWord (placeholder w w' : List Char) : Prop :=
  ∃ middle, HiddenWord .typed placeholder w middle ∧
    HiddenWord .dereferenceable placeholder middle w'

namespace HidesWord

variable {placeholder w w' : List Char}

/-- An identifier is not changed by hiding values. -/
theorem eq_of_isIdentifier (h : HidesWord placeholder w w') (hw : Text.isIdentifier w = true) :
    w' = w := by
  obtain ⟨middle, h, h'⟩ := h
  obtain rfl := h.eq_of_isIdentifier hw
  exact h'.eq_of_isIdentifier hw

variable (hp : Inert placeholder)

include hp

/-- A word that hiding values makes an identifier has been that identifier before. -/
theorem eq_of_isIdentifier' (h : HidesWord placeholder w w') (hw : Text.isIdentifier w' = true) :
    w' = w := by
  obtain ⟨middle, h, h'⟩ := h
  obtain rfl := h'.eq_of_isIdentifier' hp hw
  exact h.eq_of_isIdentifier' hp hw

/-- Hiding values in a word does not change its identifiers. -/
theorem identifiers_eq (h : HidesWord placeholder w w') :
    Text.identifiers w' = Text.identifiers w := by
  obtain ⟨middle, h, h'⟩ := h
  rw [h'.identifiers_eq hp, h.identifiers_eq hp]

/-- Hiding values in a word does not change whether it begins with a percent sign. -/
theorem head?_eq_iff (h : HidesWord placeholder w w') :
    w'.head? = some '%' ↔ w.head? = some '%' := by
  obtain ⟨middle, h, h'⟩ := h
  rw [h'.head?_eq_iff hp, h.head?_eq_iff hp]

end HidesWord

namespace Hides

variable {placeholder : List Char} {v : String}

variable (hp : Inert placeholder)

include hp

/-- Hiding brings up no annotations. -/
theorem stripped (h : Hides placeholder s s') (hs : Text.Stripped s.toList) :
    Text.Stripped s'.toList := by
  obtain ⟨middle, h, h'⟩ := h
  exact .hidden hp h' (.hidden hp h hs)

/-- The last token of a text with hidden values is its last token with values hidden. -/
theorem last (h : Hides placeholder s s') :
    HidesWord placeholder (Token.last s).toList (Token.last s').toList := by
  obtain ⟨middle, h, h'⟩ := h
  rw [Token.last, Token.last, Token.toList_onString, Token.toList_onString]
  exact ⟨_, h.lastToken hp, h'.lastToken hp⟩

/-- The words of a text with hidden values are its words with values hidden. -/
theorem words (h : Hides placeholder s s') :
    List.Forall₂ (HidesWord placeholder) (Text.words s.toList) (Text.words s'.toList) := by
  obtain ⟨middle, h, h'⟩ := h
  have hwords := h.words hp
  have hwords' := h'.words hp
  generalize Text.words s.toList = ws at hwords
  generalize Text.words middle = ms at hwords hwords'
  generalize Text.words s'.toList = ws' at hwords'
  induction hwords generalizing ws' with
  | nil =>
    cases hwords'
    exact .nil
  | cons hw _ ih =>
    cases hwords' with
    | cons hw' hws' => exact .cons ⟨_, hw, hw'⟩ (ih _ hws')

/-- A text of one word that is an identifier stays one. -/
theorem words_eq (h : Hides placeholder s s') (hv : Token.isSymbol v = true)
    (hs : Text.words s.toList = [v.toList]) : Text.words s'.toList = [v.toList] := by
  have hwords := h.words hp
  rw [hs] at hwords
  generalize Text.words s'.toList = ws at hwords
  cases hwords with
  | cons hw hws =>
    cases hws
    rw [hw.eq_of_isIdentifier hv]

/-- The text in front of an equals sign. -/
theorem assigned (h : Hides placeholder s s') :
    Hides placeholder (Token.onString (List.takeWhile fun c => !(c == '=')) s)
        (Token.onString (List.takeWhile fun c => !(c == '=')) s') ∧
      s'.toList.any (· == '=') = s.toList.any (· == '=') := by
  obtain ⟨middle, h, h'⟩ := h
  have hleft := h.takeWhile_assigned hp
  have hleft' := h'.takeWhile_assigned hp
  refine ⟨⟨middle.takeWhile fun c => !(c == '='), ?_, ?_⟩, hleft'.2.trans hleft.2⟩
  · rw [Token.toList_onString]
    exact hleft.1
  · rw [Token.toList_onString]
    exact hleft'.1

end Hides

end Pass

end InstrGraph
