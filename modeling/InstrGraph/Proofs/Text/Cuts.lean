import InstrGraph.Proofs.Text.Classes
import InstrGraph.Text.Annotation
import InstrGraph.Text.Label

/-!
# Operations that cut between the pieces of a text

Stripping attachments, trimming and taking the last word leave a part of a text. None of them cuts
an identifier in two, and which part is left does not depend on how the identifiers are spelt: it
is chosen by the pieces alone (`Cut`). So such an operation commutes with renaming
(`Cut.mapIdentifiers`) and brings up no identifier that was not there (`Cut.mem_identifiers`).
-/

namespace InstrGraph.Text

/-! ### Classes of characters outside of identifiers -/

/-- No identifier has a character of the class. -/
def Foreign (p : Char → Bool) : Prop := ∀ t, isIdentifier t = true → ∀ c ∈ t, p c = false

/-- No identifier has blanks. -/
theorem foreign_isBlank : Foreign isBlank := fun _ ht => isBlank_of_mem_identifier ht

/-- A character that is neither a sigil nor part of names is in no identifier. -/
theorem foreign_beq {d : Char} (hs : isSigil d = false) (hn : isNameChar d = false) :
    Foreign (· == d) := by
  intro t ht
  refine forall_mem_identifier ht (fun c hc => ?_) (fun c hc => ?_)
  · rw [beq_eq_false_iff_ne]
    rintro rfl
    rw [hc] at hs
    exact absurd hs (by simp)
  · rw [beq_eq_false_iff_ne]
    rintro rfl
    rw [hc] at hn
    exact absurd hn (by simp)

/-- No identifier has a comma. -/
theorem foreign_comma : Foreign (· == ',') := foreign_beq (by decide) (by decide)

namespace Piece

/-- The piece is a character of the class. -/
def isOther (p : Char → Bool) : Piece → Bool
  | other c => p c
  | ident _ _ => false

/-- Renaming an identifier does not make a character out of it. -/
@[simp] theorem isOther_mapIdent (p : Char → Bool) (g : List Char → List Char) (q : Piece) :
    (mapIdent g q).isOther p = q.isOther p := by cases q <;> rfl

/-- No piece is empty. -/
theorem chars_ne_nil (q : Piece) : q.chars ≠ [] := by cases q <;> simp [chars]

/-- An identifier has no character of a foreign class. -/
theorem forall_mem_chars {p : Char → Bool} (hp : Foreign p) {s : Char} {n : List Char}
    (h : (ident s n).Valid) : ∀ c ∈ s :: n, p c = false := hp _ (valid_ident.mp h)

end Piece

/-- No pieces make the empty text. -/
@[simp] theorem render_nil : render [] = [] := rfl

/-- The first piece stands at the beginning of the text. -/
@[simp] theorem render_cons (q : Piece) (ps : List Piece) :
    render (q :: ps) = q.chars ++ render ps := rfl

/-- A text is empty if it has no pieces. -/
@[simp] theorem render_isEmpty (ps : List Piece) : (render ps).isEmpty = ps.isEmpty := by
  cases ps with
  | nil => rfl
  | cons q ps =>
    have := q.chars_ne_nil
    simp [this]

/-! ### Cuts -/

/-- The operation leaves some of the pieces of a text that stand next to each other, and chooses
them without regard to what the identifiers are. -/
structure Cut (f : List Char → List Char) where
  /-- The pieces that are left. -/
  onPieces : List Piece → List Piece
  render_eq : ∀ ps, (∀ p ∈ ps, p.Valid) → f (render ps) = render (onPieces ps)
  isInfix : ∀ ps, onPieces ps <:+: ps
  map_eq : ∀ (g : List Char → List Char) (ps : List Piece),
    onPieces (ps.map (Piece.mapIdent g)) = (onPieces ps).map (Piece.mapIdent g)

namespace Cut

variable {f f' : List Char → List Char} {g : List Char → List Char} {cs : List Char}

/-- One cut after the other. -/
def comp (k : Cut f) (k' : Cut f') : Cut fun cs => f (f' cs) where
  onPieces ps := k.onPieces (k'.onPieces ps)
  render_eq ps h := by
    rw [k'.render_eq ps h]
    exact k.render_eq _ fun p hp => h p ((k'.isInfix ps).mem hp)
  isInfix ps := (k.isInfix _).trans (k'.isInfix ps)
  map_eq g ps := by rw [k'.map_eq, k.map_eq]

/-- The pieces of what an operation leaves are the pieces that it leaves. -/
theorem pieces_eq (k : Cut f) (cs : List Char) : pieces (f cs) = k.onPieces (pieces cs) := by
  have h := k.render_eq (pieces cs) (wellCut_pieces cs).valid
  rw [render_pieces] at h
  rw [h]
  exact pieces_render ((wellCut_pieces cs).of_isInfix (k.isInfix _))

/-- No identifier comes up that was not there. -/
theorem mem_identifiers (k : Cut f) {t : List Char} (h : t ∈ identifiers (f cs)) :
    t ∈ identifiers cs := by
  obtain ⟨p, hp, ht⟩ := mem_identifiers_iff.mp h
  rw [k.pieces_eq] at hp
  exact mem_identifiers_iff.mpr ⟨p, (k.isInfix _).mem hp, ht⟩

/-- What is left stands in the text. -/
theorem apply_infix (k : Cut f) (cs : List Char) : f cs <:+: cs := by
  obtain ⟨before, after, h⟩ := k.isInfix (pieces cs)
  refine ⟨render before, render after, ?_⟩
  rw [← render_pieces (f cs), k.pieces_eq]
  calc render before ++ render (k.onPieces (pieces cs)) ++ render after
      = render (before ++ k.onPieces (pieces cs) ++ after) := by simp [render]
    _ = cs := by rw [h, render_pieces]

/-- A renaming that keeps the identifiers of a text keeps those of what an operation leaves of
it. -/
theorem keepsIdentifiers (k : Cut f) (h : KeepsIdentifiers g cs) : KeepsIdentifiers g (f cs) :=
  fun _ ht => h _ (k.mem_identifiers ht)

/-- A cut commutes with renaming. -/
theorem mapIdentifiers (k : Cut f) (h : KeepsIdentifiers g cs) :
    f (mapIdentifiers g cs) = Text.mapIdentifiers g (f cs) := by
  have hvalid : ∀ p ∈ (pieces cs).map (Piece.mapIdent g), p.Valid := by
    rw [← pieces_mapIdentifiers h]
    exact (wellCut_pieces _).valid
  calc f (Text.mapIdentifiers g cs) = f (render ((pieces cs).map (Piece.mapIdent g))) := by
        rw [mapIdentifiers_eq_render h]
    _ = render (k.onPieces ((pieces cs).map (Piece.mapIdent g))) := k.render_eq _ hvalid
    _ = render ((pieces (f cs)).map (Piece.mapIdent g)) := by rw [k.map_eq, k.pieces_eq]
    _ = Text.mapIdentifiers g (f cs) := (mapIdentifiers_eq_render (k.keepsIdentifiers h)).symm

end Cut

/-! ### Beginnings and ends -/

/-- Dropping characters that are in no identifier from the beginning drops pieces. -/
theorem dropWhile_render {p : Char → Bool} (hp : Foreign p) {ps : List Piece}
    (h : ∀ q ∈ ps, q.Valid) :
    (render ps).dropWhile p = render (ps.dropWhile (Piece.isOther p)) := by
  induction ps with
  | nil => rfl
  | cons q ps ih =>
    cases q with
    | ident s n =>
      have hv : (Piece.ident s n).Valid := h _ (by simp)
      have hs : p s = false := Piece.forall_mem_chars hp hv s (by simp)
      simp [Piece.chars, Piece.isOther, hs]
    | other c =>
      have ih := ih fun r hr => h r (by simp [hr])
      cases hc : p c <;> simp [Piece.chars, Piece.isOther, hc, ih]

/-- Dropping characters from the beginning. -/
def Cut.dropWhile {p : Char → Bool} (hp : Foreign p) : Cut (List.dropWhile p) where
  onPieces := List.dropWhile (Piece.isOther p)
  render_eq _ h := dropWhile_render hp h
  isInfix _ := (List.dropWhile_suffix _).isInfix
  map_eq g ps := by
    rw [List.dropWhile_map]
    congr 2
    funext q
    exact Piece.isOther_mapIdent p g q

/-- Taking the text up to a character that is in no identifier takes pieces. -/
theorem takeWhile_render {p : Char → Bool} (hp : Foreign p) {ps : List Piece}
    (h : ∀ q ∈ ps, q.Valid) :
    (render ps).takeWhile (fun c => !p c) = render (ps.takeWhile fun q => !q.isOther p) := by
  induction ps with
  | nil => rfl
  | cons q ps ih =>
    have ih := ih fun r hr => h r (by simp [hr])
    cases q with
    | ident s n =>
      have hn : ∀ c ∈ s :: n, (!p c) = true := fun c hc => by
        simp [Piece.forall_mem_chars hp (h _ (by simp)) c hc]
      rw [render_cons, show (Piece.ident s n).chars = s :: n from rfl,
        List.takeWhile_append_of_pos hn, ih]
      rfl
    | other c => cases hc : p c <;> simp [Piece.chars, Piece.isOther, hc, ih]

/-- Leaving what stands before the first character of a class. -/
def Cut.takeWhile {p : Char → Bool} (hp : Foreign p) : Cut (List.takeWhile fun c => !p c) where
  onPieces := List.takeWhile fun q => !q.isOther p
  render_eq _ h := takeWhile_render hp h
  isInfix _ := (List.takeWhile_prefix _).isInfix
  map_eq g ps := by
    rw [List.takeWhile_map]
    congr 2
    funext q
    simp

/-- Trimming the end of a text stops at characters that are not of the class. -/
theorem trimEndOf_append {p : Char → Bool} {t : List Char} (ht : ∀ c ∈ t, p c = false)
    (cs : List Char) : trimEndOf p (t ++ cs) = t ++ trimEndOf p cs := by
  induction t with
  | nil => rfl
  | cons c t ih =>
    rw [List.cons_append, trimEndOf_cons, ih fun d hd => ht d (by simp [hd])]
    simp [ht c (by simp)]

/-- The pieces without the characters of a class at their end. -/
def Piece.trimEndOf (p : Char → Bool) : List Piece → List Piece
  | [] => []
  | q :: ps =>
    let rest := trimEndOf p ps
    if rest.isEmpty && q.isOther p then [] else q :: rest

/-- Trimming characters that are in no identifier off the end takes pieces away. -/
theorem trimEndOf_render {p : Char → Bool} (hp : Foreign p) {ps : List Piece}
    (h : ∀ q ∈ ps, q.Valid) : trimEndOf p (render ps) = render (Piece.trimEndOf p ps) := by
  induction ps with
  | nil => rfl
  | cons q ps ih =>
    have ih := ih fun r hr => h r (by simp [hr])
    cases q with
    | ident s n =>
      rw [render_cons, show (Piece.ident s n).chars = s :: n from rfl,
        trimEndOf_append (Piece.forall_mem_chars hp (h _ (by simp))), ih]
      simp [Piece.trimEndOf, Piece.isOther, Piece.chars]
    | other c =>
      show trimEndOf p (c :: render ps) = _
      rw [trimEndOf_cons, ih, render_isEmpty, Piece.trimEndOf]
      cases hif : (Piece.trimEndOf p ps).isEmpty && p c <;> simp [Piece.isOther, Piece.chars, hif]

/-- Trimming characters from the end. -/
def Cut.trimEndOf {p : Char → Bool} (hp : Foreign p) : Cut (Text.trimEndOf p) where
  onPieces := Piece.trimEndOf p
  render_eq _ h := trimEndOf_render hp h
  isInfix ps := by
    refine List.IsPrefix.isInfix ?_
    induction ps with
    | nil => exact List.prefix_rfl
    | cons q ps ih =>
      rw [Piece.trimEndOf]
      split
      · exact List.nil_prefix
      · exact List.cons_prefix_cons.mpr ⟨rfl, ih⟩
  map_eq g ps := by
    induction ps with
    | nil => rfl
    | cons q ps ih =>
      rw [List.map_cons, Piece.trimEndOf, ih, Piece.trimEndOf]
      cases hif : (Piece.trimEndOf p ps).isEmpty && q.isOther p <;> simp [hif]

/-- Trimming blanks from both ends. -/
def Cut.trim : Cut Text.trim :=
  (Cut.trimEndOf foreign_isBlank).comp (Cut.dropWhile foreign_isBlank)

/-! ### Attachments -/

/-- What opens an attachment is an exclamation mark behind blanks. -/
theorem opensAttachment_eq (cs : List Char) :
    opensAttachment cs = ((cs.dropWhile isBlank).head? == some '!') := by
  rw [opensAttachment]
  split
  · rename_i h
    rw [h]
    rfl
  · rename_i h
    cases hd : cs.dropWhile isBlank with
    | nil => rfl
    | cons c rest =>
      have hc : c ≠ '!' := by
        rintro rfl
        exact h rest hd
      simp [hc]

/-- The pieces begin with `!`, after blanks or at once. -/
def Piece.opensAttachment (ps : List Piece) : Bool :=
  (ps.dropWhile (isOther isBlank)).head?.any (isOther (· == '!'))

/-- Whether a text opens an attachment is seen from its pieces. -/
theorem opensAttachment_render {ps : List Piece} (h : ∀ q ∈ ps, q.Valid) :
    opensAttachment (render ps) = Piece.opensAttachment ps := by
  rw [opensAttachment_eq, dropWhile_render foreign_isBlank h, Piece.opensAttachment]
  have h : ∀ q ∈ ps.dropWhile (Piece.isOther isBlank), q.Valid :=
    fun q hq => h q ((List.dropWhile_suffix _).mem hq)
  generalize ps.dropWhile (Piece.isOther isBlank) = qs at h
  cases qs with
  | nil => rfl
  | cons q qs =>
    cases q with
    | other c => rfl
    | ident s n =>
      have hv : (Piece.ident s n).Valid := h _ (by simp)
      have hs : (s == '!') = false :=
        Piece.forall_mem_chars (foreign_beq (by decide) (by decide)) hv s (by simp)
      simpa [Piece.chars, Piece.isOther] using hs

/-- The pieces before the first attachment. -/
def Piece.cutAttachments : List Piece → List Piece
  | [] => []
  | q :: ps => if q.isOther (· == ',') && opensAttachment ps then [] else q :: cutAttachments ps

/-- A text without commas in front is kept when attachments are cut off. -/
theorem cutAttachments_append {t : List Char} (ht : ∀ c ∈ t, (c == ',') = false)
    (cs : List Char) : cutAttachments (t ++ cs) = t ++ cutAttachments cs := by
  induction t with
  | nil => rfl
  | cons c t ih =>
    rw [List.cons_append, cutAttachments, ih fun d hd => ht d (by simp [hd])]
    simp [ht c (by simp)]

/-- Cutting off the attachments of a text cuts off pieces. -/
theorem cutAttachments_render {ps : List Piece} (h : ∀ q ∈ ps, q.Valid) :
    cutAttachments (render ps) = render (Piece.cutAttachments ps) := by
  induction ps with
  | nil => rfl
  | cons q ps ih =>
    have hps : ∀ r ∈ ps, r.Valid := fun r hr => h r (by simp [hr])
    cases q with
    | ident s n =>
      rw [render_cons, show (Piece.ident s n).chars = s :: n from rfl,
        cutAttachments_append (Piece.forall_mem_chars foreign_comma (h _ (by simp))), ih hps]
      simp [Piece.cutAttachments, Piece.isOther, Piece.chars]
    | other c =>
      show cutAttachments (c :: render ps) = _
      rw [cutAttachments, opensAttachment_render hps, ih hps, Piece.cutAttachments]
      cases hif : (c == ',') && Piece.opensAttachment ps <;> simp [Piece.isOther, Piece.chars, hif]

/-- Leaving what stands before the first attachment. -/
def Cut.attachments : Cut cutAttachments where
  onPieces := Piece.cutAttachments
  render_eq _ h := cutAttachments_render h
  isInfix ps := by
    refine List.IsPrefix.isInfix ?_
    induction ps with
    | nil => exact List.prefix_rfl
    | cons q ps ih =>
      rw [Piece.cutAttachments]
      split
      · exact List.nil_prefix
      · exact List.cons_prefix_cons.mpr ⟨rfl, ih⟩
  map_eq g ps := by
    have hopens (ps : List Piece) : Piece.opensAttachment (ps.map (Piece.mapIdent g)) =
        Piece.opensAttachment ps := by
      have hdrop := (Cut.dropWhile foreign_isBlank).map_eq g ps
      rw [Piece.opensAttachment, show (ps.map (Piece.mapIdent g)).dropWhile _ = _ from hdrop,
        List.head?_map, Option.any_map]
      congr 1
      funext q
      exact Piece.isOther_mapIdent _ g q
    induction ps with
    | nil => rfl
    | cons q ps ih =>
      rw [List.map_cons, Piece.cutAttachments, ih, hopens, Piece.isOther_mapIdent,
        Piece.cutAttachments]
      split
      · rfl
      · rfl

/-! ### Words -/

/-- The maximal runs of pieces that are not blank, with the run that is still open in front. -/
def Piece.wordsOpen : List Piece → List Piece × List (List Piece)
  | [] => ([], [])
  | q :: ps =>
    let (run, runs) := wordsOpen ps
    if q.isOther isBlank then ([], if run.isEmpty then runs else run :: runs)
    else (q :: run, runs)

/-- The maximal runs of pieces that are not blank. -/
def Piece.words (ps : List Piece) : List (List Piece) :=
  let (run, runs) := wordsOpen ps
  if run.isEmpty then runs else run :: runs

/-- A text without blanks in front belongs to the run of characters that is still open. -/
theorem wordsOpen_append {t : List Char} (ht : ∀ c ∈ t, isBlank c = false) (cs : List Char) :
    wordsOpen (t ++ cs) = (t ++ (wordsOpen cs).1, (wordsOpen cs).2) := by
  induction t with
  | nil => rfl
  | cons c t ih =>
    rw [List.cons_append, wordsOpen, ih fun d hd => ht d (by simp [hd])]
    simp [ht c (by simp)]

/-- The words of a text are made of its pieces, with the word that is still open. -/
theorem wordsOpen_render {ps : List Piece} (h : ∀ q ∈ ps, q.Valid) :
    wordsOpen (render ps) =
      (render (Piece.wordsOpen ps).1, (Piece.wordsOpen ps).2.map render) := by
  induction ps with
  | nil => rfl
  | cons q ps ih =>
    have ih := ih fun r hr => h r (by simp [hr])
    cases q with
    | ident s n =>
      rw [render_cons, show (Piece.ident s n).chars = s :: n from rfl,
        wordsOpen_append (Piece.forall_mem_chars foreign_isBlank (h _ (by simp))), ih]
      simp [Piece.wordsOpen, Piece.isOther, Piece.chars]
    | other c =>
      show wordsOpen (c :: render ps) = _
      rw [wordsOpen, ih, Piece.wordsOpen]
      cases hb : isBlank c with
      | false => simp [Piece.isOther, hb, Piece.chars]
      | true =>
        cases hr : (Piece.wordsOpen ps).1.isEmpty <;> simp [Piece.isOther, hb, hr]

/-- The words of a text are made of its pieces. -/
theorem words_render {ps : List Piece} (h : ∀ q ∈ ps, q.Valid) :
    words (render ps) = (Piece.words ps).map render := by
  rw [words, wordsOpen_render h, Piece.words]
  cases hr : (Piece.wordsOpen ps).1.isEmpty <;> simp [hr]

namespace Piece

/-- Renaming the identifiers does not change where words begin and end, with the word that is still
open. -/
theorem wordsOpen_map (g : List Char → List Char) (ps : List Piece) :
    wordsOpen (ps.map (mapIdent g)) =
      ((wordsOpen ps).1.map (mapIdent g), (wordsOpen ps).2.map (List.map (mapIdent g))) := by
  induction ps with
  | nil => rfl
  | cons q ps ih =>
    rw [List.map_cons, wordsOpen, ih, wordsOpen, isOther_mapIdent]
    cases hb : q.isOther isBlank with
    | false => simp
    | true => cases hr : (wordsOpen ps).1.isEmpty <;> simp [hr]

/-- Renaming the identifiers does not change where words begin and end. -/
theorem words_map (g : List Char → List Char) (ps : List Piece) :
    words (ps.map (mapIdent g)) = (words ps).map (List.map (mapIdent g)) := by
  rw [words, wordsOpen_map, words]
  cases hr : (wordsOpen ps).1.isEmpty <;> simp [hr]

/-- A word is made of pieces next to each other, and the word that is still open is at the
beginning. -/
theorem wordsOpen_infix (ps : List Piece) :
    (wordsOpen ps).1 <+: ps ∧ ∀ w ∈ (wordsOpen ps).2, w <:+: ps := by
  induction ps with
  | nil => simp [wordsOpen]
  | cons q ps ih =>
    obtain ⟨hrun, hruns⟩ := ih
    have hruns : ∀ w ∈ (wordsOpen ps).2, w <:+: q :: ps := fun w hw =>
      (hruns w hw).trans (List.suffix_cons _ _).isInfix
    rw [wordsOpen]
    cases q.isOther isBlank with
    | false => exact ⟨List.cons_prefix_cons.mpr ⟨rfl, hrun⟩, hruns⟩
    | true =>
      refine ⟨List.nil_prefix, fun w hw => ?_⟩
      simp only [if_true] at hw
      split at hw
      · exact hruns w hw
      · rcases List.mem_cons.mp hw with rfl | hw
        · exact hrun.isInfix.trans (List.suffix_cons _ _).isInfix
        · exact hruns w hw

/-- A word is made of pieces next to each other. -/
theorem words_infix {ps w : List Piece} (h : w ∈ words ps) : w <:+: ps := by
  obtain ⟨hrun, hruns⟩ := wordsOpen_infix ps
  rw [words] at h
  split at h
  rename_i run runs heq
  rw [heq] at hrun hruns
  split at h
  · exact hruns w h
  · rcases List.mem_cons.mp h with rfl | h
    · exact hrun.isInfix
    · exact hruns w h

end Piece

/-- Leaving the last word. -/
def Cut.lastWord : Cut fun cs => (words cs).getLast?.getD [] where
  onPieces ps := (Piece.words ps).getLast?.getD []
  render_eq ps h := by
    rw [words_render h, List.getLast?_map]
    cases (Piece.words ps).getLast? <;> rfl
  isInfix ps := by
    cases h : (Piece.words ps).getLast? with
    | none => exact List.nil_infix
    | some w => exact Piece.words_infix (List.mem_of_getLast? h)
  map_eq g ps := by
    rw [Piece.words_map, List.getLast?_map]
    cases (Piece.words ps).getLast? <;> rfl

/-- The last token is the last word without the commas at its end, and nothing if there is no
word. -/
theorem lastToken_eq (cs : List Char) :
    lastToken cs = trimEndOf (· == ',') ((words cs).getLast?.getD []) := by
  rw [lastToken]
  split
  · rename_i h
    rw [h]
    rfl
  · rename_i h
    rw [h]
    rfl

/-- Leaving the last word without commas. -/
def Cut.lastToken : Cut Text.lastToken :=
  let k := (Cut.trimEndOf foreign_comma).comp Cut.lastWord
  { k with render_eq := fun ps h => (lastToken_eq _).trans (k.render_eq ps h) }

/-! ### What renaming keeps -/

/-- Whether a character of the class is in a text is seen from its pieces, if it is in no
identifier. -/
theorem any_render {p : Char → Bool} (hp : Foreign p) {ps : List Piece}
    (h : ∀ q ∈ ps, q.Valid) : (render ps).any p = ps.any (Piece.isOther p) := by
  induction ps with
  | nil => rfl
  | cons q ps ih =>
    rw [render_cons, List.any_append, ih fun r hr => h r (by simp [hr]), List.any_cons]
    congr 1
    cases q with
    | other c => simp [Piece.chars, Piece.isOther]
    | ident s n =>
      rw [show (Piece.ident s n).isOther p = false from rfl, List.any_eq_false]
      intro c hc
      simp [Piece.forall_mem_chars hp (h _ (by simp)) c hc]

section

variable {g : List Char → List Char} {cs : List Char}

/-- Renaming brings in no character of a foreign class, and takes none away. -/
theorem any_mapIdentifiers (h : KeepsIdentifiers g cs) {p : Char → Bool} (hp : Foreign p) :
    (mapIdentifiers g cs).any p = cs.any p := by
  have hvalid := (wellCut_pieces (mapIdentifiers g cs)).valid
  calc (mapIdentifiers g cs).any p
      = ((pieces cs).map (Piece.mapIdent g)).any (Piece.isOther p) := by
        rw [← pieces_mapIdentifiers h, ← any_render hp hvalid, render_pieces]
    _ = (pieces cs).any (Piece.isOther p) := by
        rw [List.any_map]
        congr 1
        funext q
        exact Piece.isOther_mapIdent p g q
    _ = cs.any p := by rw [← any_render hp (wellCut_pieces cs).valid, render_pieces]

/-- Renaming the identifiers of a text does not make it empty. -/
theorem isEmpty_mapIdentifiers (h : KeepsIdentifiers g cs) :
    (mapIdentifiers g cs).isEmpty = cs.isEmpty := by
  rw [mapIdentifiers_eq_render h, render_isEmpty, List.isEmpty_map, ← render_isEmpty,
    render_pieces]

/-- Renaming that keeps sigils keeps the first character. -/
theorem head?_mapIdentifiers (h : KeepsIdentifiers g cs)
    (hs : ∀ t ∈ identifiers cs, (g t).head? = t.head?) :
    (mapIdentifiers g cs).head? = cs.head? := by
  have hcs := render_pieces cs
  rw [mapIdentifiers_eq_render h]
  unfold identifiers at hs
  cases hp : pieces cs with
  | nil =>
    rw [hp] at hcs
    rw [← hcs]
    rfl
  | cons q ps =>
    rw [hp] at hcs hs
    rw [← hcs]
    cases q with
    | other c => rfl
    | ident s n =>
      have ht := hs (s :: n) (by simp [Piece.ident?])
      cases hg : g (s :: n) with
      | nil => simp [hg] at ht
      | cons s' n' =>
        rw [hg] at ht
        simpa [Piece.mapIdent, Piece.chars, hg] using ht

end

end InstrGraph.Text
