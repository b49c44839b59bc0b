import InstrGraph.Text.Identifier
import Mathlib.Data.List.Chain
import Mathlib.Tactic.SplitIfs

/-!
# Cutting a text into pieces is exact

`pieces` and `render` are inverse to each other: a text is always the rendering of its pieces
(`render_pieces`), and the pieces that come out of a text are exactly the *well cut* lists
(`wellCut_pieces`, `pieces_render`). A list is well cut if its identifiers are identifiers and no
piece can take up characters of the next one.

From this follow the laws of rewriting, for maps that send identifiers to identifiers:

* `pieces_mapIdentifiers`, `identifiers_mapIdentifiers`: the pieces stay where they are.
* `mapIdentifiers_mapIdentifiers`: two rewritings are one.
* `mapIdentifiers_congr`, `mapIdentifiers_eq_self`: only the identifiers that occur matter.
* `mapIdentifiers_inj`: if the map is injective on them, so is the rewriting.
-/

namespace InstrGraph.Text

/-! ### Identifiers -/

/-- A sigil and at least one name character. -/
def isIdentifier : List Char → Bool
  | sigil :: name => isSigil sigil && !name.isEmpty && name.all isNameChar
  | [] => false

/-- An identifier is a sigil and at least one character of names. -/
theorem isIdentifier_cons {s : Char} {n : List Char} :
    isIdentifier (s :: n) = true ↔
      isSigil s = true ∧ n ≠ [] ∧ ∀ c ∈ n, isNameChar c = true := by
  simp [isIdentifier, and_assoc]

/-- No identifier is empty. -/
theorem ne_nil_of_isIdentifier {t : List Char} (h : isIdentifier t = true) : t ≠ [] := by
  rintro rfl
  simp [isIdentifier] at h

/-- An identifier begins with a sigil. -/
theorem head?_of_isIdentifier {t : List Char} (h : isIdentifier t = true) :
    ∃ c, t.head? = some c ∧ isSigil c = true := by
  obtain ⟨c, n, rfl⟩ := List.exists_cons_of_ne_nil (ne_nil_of_isIdentifier h)
  exact ⟨c, rfl, (isIdentifier_cons.mp h).1⟩

/-- What holds of all characters of a list is found out by going over the list. -/
theorem forall_mem_of_all {P : Char → Prop} [DecidablePred P] {cs : List Char}
    (h : (cs.all fun c => decide (P c)) = true) : ∀ c ∈ cs, P c := by simpa using h

/-- No sigil is a name character. -/
theorem isNameChar_of_isSigil {c : Char} (h : isSigil c = true) : isNameChar c = false := by
  simp only [isSigil, Bool.or_eq_true, beq_iff_eq] at h
  rcases h with rfl | rfl <;> decide

namespace Piece

/-- The piece could take up name characters that follow it. -/
def isOpen : Piece → Bool
  | other c => isSigil c
  | ident _ _ => true

/-- The piece begins with a name character. -/
def startsWithName : Piece → Bool
  | other c => isNameChar c
  | ident _ _ => false

/-- If the piece is an identifier, it is one. -/
def Valid (p : Piece) : Prop := ∀ t, p.ident? = some t → isIdentifier t = true

/-- A single character is always a valid piece. -/
@[simp] theorem valid_other (c : Char) : (other c).Valid := by simp [Valid, ident?]

/-- A piece with a sigil is valid if its characters make an identifier. -/
@[simp] theorem valid_ident {s : Char} {n : List Char} :
    (ident s n).Valid ↔ isIdentifier (s :: n) = true := by simp [Valid, ident?]

/-- The piece with its identifier replaced. -/
def mapIdent (g : List Char → List Char) : Piece → Piece
  | other c => other c
  | ident s n => ident ((g (s :: n)).headD s) (g (s :: n)).tail

/-- A piece that is renamed to an identifier stands for that identifier. -/
theorem chars_mapIdent_ident {g : List Char → List Char} {s : Char} {n : List Char}
    (h : isIdentifier (g (s :: n)) = true) : (mapIdent g (ident s n)).chars = g (s :: n) := by
  cases hg : g (s :: n) with
  | nil => simp [hg, isIdentifier] at h
  | cons s' n' => simp [mapIdent, chars, hg]

/-- The identifier of a renamed piece is the renamed one. -/
theorem ident?_mapIdent {g : List Char → List Char} {p : Piece}
    (h : ∀ t, p.ident? = some t → isIdentifier (g t) = true) :
    (mapIdent g p).ident? = p.ident?.map g := by
  cases p with
  | other c => rfl
  | ident s n =>
    have hs := chars_mapIdent_ident (h (s :: n) rfl)
    simpa [mapIdent, ident?, chars] using hs

end Piece

/-! ### Well cut lists -/

/-- No piece of the list can take up characters of the next one. -/
structure WellCut (ps : List Piece) : Prop where
  valid : ∀ p ∈ ps, p.Valid
  apart : ps.IsChain fun p q => p.isOpen = true → q.startsWithName = false

namespace WellCut

/-- No pieces are well cut. -/
theorem nil : WellCut [] := ⟨by simp, List.isChain_nil⟩

/-- Pieces are well cut if the others are and the first one cannot take up what follows it. -/
theorem cons_iff {p : Piece} {ps : List Piece} :
    WellCut (p :: ps) ↔ p.Valid ∧
      (p.isOpen = true → ∀ q ∈ ps.head?, q.startsWithName = false) ∧ WellCut ps := by
  constructor
  · rintro ⟨hv, ha⟩
    rw [List.isChain_cons] at ha
    exact ⟨hv p (by simp), fun ho q hq => ha.1 q hq ho,
      fun q hq => hv q (by simp [hq]), ha.2⟩
  · rintro ⟨hp, hh, hv, ha⟩
    refine ⟨?_, ?_⟩
    · intro q hq
      rcases List.mem_cons.mp hq with rfl | hq
      · exact hp
      · exact hv q hq
    · rw [List.isChain_cons]
      exact ⟨fun q hq ho => hh ho q hq, ha⟩

/-- A part of a well cut list is well cut. -/
theorem of_isInfix {ps qs : List Piece} (h : WellCut ps) (hq : qs <:+: ps) : WellCut qs :=
  ⟨fun p hp => h.valid p (hq.mem hp), h.apart.infix hq⟩

end WellCut

/-- Nothing is taken up from what does not begin with a character of names. -/
theorem takeName_of_head {ps : List Piece}
    (h : ∀ q ∈ ps.head?, q.startsWithName = false) : Piece.takeName ps = ([], ps) := by
  cases ps with
  | nil => rfl
  | cons p ps =>
    cases p with
    | ident s n => rfl
    | other c =>
      have hc : isNameChar c = false := h (.other c) rfl
      simp [Piece.takeName, hc]

/-- Characters of names are taken up to where they end. -/
theorem takeName_append {n : List Char} (hn : ∀ c ∈ n, isNameChar c = true) {ps : List Piece}
    (h : ∀ q ∈ ps.head?, q.startsWithName = false) :
    Piece.takeName (n.map Piece.other ++ ps) = (n, ps) := by
  induction n with
  | nil => simpa using takeName_of_head h
  | cons c n ih =>
    have hc : isNameChar c = true := hn c (by simp)
    simp only [List.map_cons, List.cons_append, Piece.takeName, hc, if_true]
    rw [ih fun d hd => hn d (by simp [hd])]

/-- A character that is no sigil becomes a piece of its own. -/
theorem push_of_not_isSigil {c : Char} (h : isSigil c = false) (ps : List Piece) :
    Piece.push c ps = .other c :: ps := by simp [Piece.push, h]

/-- Characters that are no sigils belong to no identifier, unless one begins before them. -/
theorem foldr_push_of_not_isSigil {n : List Char} (h : ∀ c ∈ n, isSigil c = false)
    (ps : List Piece) : n.foldr Piece.push ps = n.map Piece.other ++ ps := by
  induction n with
  | nil => rfl
  | cons c n ih =>
    rw [List.foldr_cons, ih fun d hd => h d (by simp [hd])]
    exact push_of_not_isSigil (h c (by simp)) _

/-- The pieces of a text can be worked out from those of its end. -/
theorem pieces_append (cs ds : List Char) :
    pieces (cs ++ ds) = cs.foldr Piece.push (pieces ds) := by simp [pieces]

/-- No character of names is a sigil. -/
theorem not_isSigil_of_isNameChar {c : Char} (h : isNameChar c = true) : isSigil c = false := by
  cases hs : isSigil c with
  | false => rfl
  | true => rw [isNameChar_of_isSigil hs] at h; exact absurd h (by simp)

/-- Cutting the rendering of a well cut list gives the list back. -/
theorem pieces_render {ps : List Piece} (h : WellCut ps) : pieces (render ps) = ps := by
  induction ps with
  | nil => rfl
  | cons p ps ih =>
    obtain ⟨hp, hh, hps⟩ := WellCut.cons_iff.mp h
    have hr : render (p :: ps) = p.chars ++ render ps := rfl
    rw [hr, pieces_append, ih hps]
    cases p with
    | other c =>
      show Piece.push c ps = .other c :: ps
      unfold Piece.push
      cases hs : isSigil c with
      | false => simp
      | true => simp [takeName_of_head (hh hs)]
    | ident s n =>
      obtain ⟨hs, hn, hname⟩ := isIdentifier_cons.mp (Piece.valid_ident.mp hp)
      have hfold : n.foldr Piece.push ps = n.map Piece.other ++ ps :=
        foldr_push_of_not_isSigil (fun c hc => not_isSigil_of_isNameChar (hname c hc)) ps
      show Piece.push s (n.foldr Piece.push ps) = .ident s n :: ps
      rw [hfold, Piece.push, takeName_append hname (hh rfl)]
      simp [hs, hn]

/-- What is taken up are the characters of names at the beginning, all of them. -/
theorem takeName_spec (ps : List Piece) :
    (∀ c ∈ (Piece.takeName ps).1, isNameChar c = true) ∧
      (∀ q ∈ (Piece.takeName ps).2.head?, q.startsWithName = false) ∧
      (Piece.takeName ps).2 <:+ ps := by
  induction ps with
  | nil => simp [Piece.takeName]
  | cons p ps ih =>
    cases p with
    | ident s n => simp [Piece.takeName, Piece.startsWithName]
    | other c =>
      cases hc : isNameChar c with
      | false => simp [Piece.takeName, hc, Piece.startsWithName]
      | true =>
        simp only [Piece.takeName, hc, if_true]
        refine ⟨?_, ih.2.1, ih.2.2.trans (List.suffix_cons _ _)⟩
        intro d hd
        rcases List.mem_cons.mp hd with rfl | hd
        · exact hc
        · exact ih.1 d hd

/-- What a text is cut into is well cut. -/
theorem wellCut_pieces (cs : List Char) : WellCut (pieces cs) := by
  induction cs with
  | nil => exact WellCut.nil
  | cons c cs ih =>
    show WellCut (Piece.push c (pieces cs))
    obtain ⟨hname, hhead, hsuffix⟩ := takeName_spec (pieces cs)
    unfold Piece.push
    split_ifs with hif
    · rw [Bool.and_eq_true] at hif
      have hn : (Piece.takeName (pieces cs)).1 ≠ [] := by
        intro hnil
        rw [hnil] at hif
        simp at hif
      refine WellCut.cons_iff.mpr ⟨?_, fun _ => hhead, ih.of_isInfix hsuffix.isInfix⟩
      exact Piece.valid_ident.mpr (isIdentifier_cons.mpr ⟨hif.1, hn, hname⟩)
    · refine WellCut.cons_iff.mpr ⟨Piece.valid_other c, fun ho q hq => ?_, ih⟩
      have ho : isSigil c = true := ho
      -- the sigil took no name, so no name follows it
      have hn : (Piece.takeName (pieces cs)).1 = [] := by simpa [ho] using hif
      cases hp : pieces cs with
      | nil => simp [hp] at hq
      | cons p ps =>
        rw [hp] at hq hn
        obtain rfl : p = q := by simpa using hq
        cases p with
        | ident s n => rfl
        | other d =>
          show isNameChar d = false
          cases hd : isNameChar d with
          | false => rfl
          | true => simp [Piece.takeName, hd] at hn

/-- A text's identifiers are those of its pieces. -/
theorem mem_identifiers_iff {cs t : List Char} :
    t ∈ identifiers cs ↔ ∃ p ∈ pieces cs, p.ident? = some t :=
  List.mem_filterMap

/-- The identifiers of a text are identifiers. -/
theorem isIdentifier_of_mem {cs t : List Char} (h : t ∈ identifiers cs) :
    isIdentifier t = true := by
  obtain ⟨p, hp, ht⟩ := mem_identifiers_iff.mp h
  exact (wellCut_pieces cs).valid p hp t ht

/-- An identifier is one piece. -/
theorem pieces_identifier {s : Char} {n : List Char} (h : isIdentifier (s :: n) = true) :
    pieces (s :: n) = [.ident s n] := by
  have hw : WellCut [.ident s n] :=
    ⟨by simpa using h, List.isChain_singleton _⟩
  have := pieces_render hw
  simpa [render, Piece.chars] using this

/-- An identifier has no identifiers but itself. -/
theorem identifiers_identifier {t : List Char} (h : isIdentifier t = true) :
    identifiers t = [t] := by
  cases t with
  | nil => simp [isIdentifier] at h
  | cons s n => simp [identifiers, pieces_identifier h, Piece.ident?]

/-! ### Identifiers, character by character -/

/-- The pieces that a name is taken from begin with the name characters of the text. -/
theorem takeName_pieces (cs : List Char) :
    (Piece.takeName (pieces cs)).1 = cs.takeWhile isNameChar := by
  induction cs with
  | nil => rfl
  | cons c cs ih =>
    show (Piece.takeName (Piece.push c (pieces cs))).1 = _
    cases hc : isNameChar c with
    | true =>
      rw [push_of_not_isSigil (not_isSigil_of_isNameChar hc)]
      simp [Piece.takeName, hc, ih]
    | false =>
      rw [List.takeWhile_cons_of_neg (by simp [hc]), takeName_of_head]
      intro q hq
      unfold Piece.push at hq
      split at hq
      · obtain rfl : Piece.ident _ _ = q := by simpa using hq
        rfl
      · obtain rfl : Piece.other c = q := by simpa using hq
        exact hc

/-- The pieces that are taken up are no identifiers. -/
theorem filterMap_takeName (ps : List Piece) :
    (Piece.takeName ps).2.filterMap Piece.ident? = ps.filterMap Piece.ident? := by
  induction ps with
  | nil => rfl
  | cons p ps ih =>
    cases p with
    | ident s n => rfl
    | other c =>
      cases hc : isNameChar c with
      | true =>
        simp only [Piece.takeName, hc, if_true]
        exact ih
      | false => simp [Piece.takeName, hc]

/-- A sigil begins an identifier if a name character follows it. -/
theorem identifiers_cons (c : Char) (cs : List Char) :
    identifiers (c :: cs) =
      if isSigil c && !(cs.takeWhile isNameChar).isEmpty then
        (c :: cs.takeWhile isNameChar) :: identifiers cs
      else identifiers cs := by
  show (Piece.push c (pieces cs)).filterMap Piece.ident? = _
  rw [Piece.push, takeName_pieces]
  split
  · rw [List.filterMap_cons, filterMap_takeName]
    rfl
  · rfl

/-- A character that is no sigil does not matter for the identifiers behind it. -/
theorem identifiers_cons_of_not_isSigil {c : Char} (h : isSigil c = false) (cs : List Char) :
    identifiers (c :: cs) = identifiers cs := by simp [identifiers_cons, h]

/-- Characters that are no sigils begin no identifier. -/
theorem identifiers_append_of_not_isSigil {run : List Char} (h : ∀ c ∈ run, isSigil c = false)
    (cs : List Char) : identifiers (run ++ cs) = identifiers cs := by
  induction run with
  | nil => rfl
  | cons c run ih =>
    rw [List.cons_append, identifiers_cons_of_not_isSigil (h c (by simp))]
    exact ih fun d hd => h d (by simp [hd])

/-! ### Rewriting by a map -/

/-- The text with every identifier replaced by its image. -/
def mapIdentifiers (g : List Char → List Char) (cs : List Char) : List Char :=
  rewrite (fun t => some (g t)) cs

/-- Rewriting the identifiers of a text is mapping those that are not rewritten to themselves. -/
theorem rewrite_eq_mapIdentifiers (f : List Char → Option (List Char)) (cs : List Char) :
    rewrite f cs = mapIdentifiers (fun t => (f t).getD t) cs := by
  have h : Piece.renamed f = Piece.renamed fun t => some ((f t).getD t) := by
    funext p
    cases p <;> rfl
  rw [mapIdentifiers, rewrite, rewrite, h]

/-- The map sends the identifiers of the text to identifiers. -/
def KeepsIdentifiers (g : List Char → List Char) (cs : List Char) : Prop :=
  ∀ t ∈ identifiers cs, isIdentifier (g t) = true

section

variable {g g' : List Char → List Char} {cs : List Char}

/-- Renaming the identifiers of a text is renaming its pieces. -/
theorem mapIdentifiers_eq_render (h : KeepsIdentifiers g cs) :
    mapIdentifiers g cs = render ((pieces cs).map (Piece.mapIdent g)) := by
  unfold mapIdentifiers rewrite render
  rw [List.flatMap_map]
  refine List.flatMap_congr fun p hp => ?_
  cases p with
  | other c => rfl
  | ident s n =>
    have ht : s :: n ∈ identifiers cs := mem_identifiers_iff.mpr ⟨_, hp, rfl⟩
    exact (Piece.chars_mapIdent_ident (h _ ht)).symm

/-- Replacing identifiers by identifiers keeps a list well cut. -/
theorem WellCut.map_mapIdent {ps : List Piece} (h : WellCut ps)
    (hg : ∀ p ∈ ps, ∀ t, p.ident? = some t → isIdentifier (g t) = true) :
    WellCut (ps.map (Piece.mapIdent g)) := by
  constructor
  · intro q hq
    obtain ⟨p, hp, rfl⟩ := List.mem_map.mp hq
    intro t ht
    rw [Piece.ident?_mapIdent (hg p hp)] at ht
    obtain ⟨u, hu, rfl⟩ := Option.map_eq_some_iff.mp ht
    exact hg p hp u hu
  · refine List.isChain_map_of_isChain _ ?_ h.apart
    intro a b hab ho
    cases b with
    | ident s n => rfl
    | other c => exact hab (by cases a <;> exact ho)

/-- Rewriting replaces the identifiers where they stand. -/
theorem pieces_mapIdentifiers (h : KeepsIdentifiers g cs) :
    pieces (mapIdentifiers g cs) = (pieces cs).map (Piece.mapIdent g) := by
  rw [mapIdentifiers_eq_render h]
  refine pieces_render ((wellCut_pieces cs).map_mapIdent ?_)
  exact fun p hp t ht => h t (mem_identifiers_iff.mpr ⟨p, hp, ht⟩)

/-- The identifiers of a renamed text are the renamed ones. -/
theorem identifiers_mapIdentifiers (h : KeepsIdentifiers g cs) :
    identifiers (mapIdentifiers g cs) = (identifiers cs).map g := by
  unfold identifiers
  rw [pieces_mapIdentifiers h, List.filterMap_map, List.map_filterMap]
  refine List.filterMap_congr fun p hp => ?_
  exact Piece.ident?_mapIdent fun t ht => h t (mem_identifiers_iff.mpr ⟨p, hp, ht⟩)

/-- Only the identifiers that occur matter. -/
theorem mapIdentifiers_congr (h : ∀ t ∈ identifiers cs, g t = g' t) :
    mapIdentifiers g cs = mapIdentifiers g' cs := by
  unfold mapIdentifiers rewrite
  refine List.flatMap_congr fun p hp => ?_
  cases p with
  | other c => rfl
  | ident s n =>
    have ht : s :: n ∈ identifiers cs := mem_identifiers_iff.mpr ⟨_, hp, rfl⟩
    simp [Piece.renamed, h _ ht]

/-- Renaming identifiers to themselves changes nothing. -/
theorem mapIdentifiers_id (cs : List Char) : mapIdentifiers (fun t => t) cs = cs :=
  (rewrite_eq_mapIdentifiers (fun _ => none) cs).symm.trans (rewrite_none cs)

/-- Rewriting that leaves the identifiers alone changes nothing. -/
theorem mapIdentifiers_eq_self (h : ∀ t ∈ identifiers cs, g t = t) : mapIdentifiers g cs = cs := by
  rw [mapIdentifiers_congr h, mapIdentifiers_id]

/-- Two rewritings are one. -/
theorem mapIdentifiers_mapIdentifiers (h : KeepsIdentifiers g cs) :
    mapIdentifiers g' (mapIdentifiers g cs) = mapIdentifiers (fun t => g' (g t)) cs := by
  show (pieces (mapIdentifiers g cs)).flatMap (Piece.renamed fun t => some (g' t)) =
    (pieces cs).flatMap (Piece.renamed fun t => some (g' (g t)))
  rw [pieces_mapIdentifiers h, List.flatMap_map]
  refine List.flatMap_congr fun p hp => ?_
  cases p with
  | other c => rfl
  | ident s n =>
    have ht : s :: n ∈ identifiers cs := mem_identifiers_iff.mpr ⟨_, hp, rfl⟩
    show g' (Piece.mapIdent g (.ident s n)).chars = g' (g (s :: n))
    rw [Piece.chars_mapIdent_ident (h _ ht)]

/-- A map that is injective on the identifiers of two texts does not make them equal. -/
theorem mapIdentifiers_inj {ds : List Char} (hc : KeepsIdentifiers g cs)
    (hd : KeepsIdentifiers g ds)
    (hg : ∀ t ∈ identifiers cs, ∀ u ∈ identifiers ds, g t = g u → t = u)
    (h : mapIdentifiers g cs = mapIdentifiers g ds) : cs = ds := by
  have hp := congrArg pieces h
  rw [pieces_mapIdentifiers hc, pieces_mapIdentifiers hd] at hp
  suffices hs : pieces cs = pieces ds by
    calc cs = render (pieces cs) := (render_pieces cs).symm
      _ = render (pieces ds) := by rw [hs]
      _ = ds := render_pieces ds
  have hc' : ∀ p ∈ pieces cs, ∀ t, p.ident? = some t → t ∈ identifiers cs :=
    fun p hp t ht => mem_identifiers_iff.mpr ⟨p, hp, ht⟩
  have hd' : ∀ p ∈ pieces ds, ∀ t, p.ident? = some t → t ∈ identifiers ds :=
    fun p hp t ht => mem_identifiers_iff.mpr ⟨p, hp, ht⟩
  revert hp hc' hd'
  generalize pieces cs = ps
  generalize pieces ds = qs
  intro hp hc' hd'
  induction ps generalizing qs with
  | nil => exact (List.map_eq_nil_iff.mp hp.symm).symm
  | cons p ps ih =>
    cases qs with
    | nil => simp at hp
    | cons q qs =>
      simp only [List.map_cons, List.cons.injEq] at hp
      have hps := ih qs hp.2 (fun r hr => hc' r (by simp [hr])) (fun r hr => hd' r (by simp [hr]))
      suffices p = q by rw [this, hps]
      cases p with
      | other c =>
        cases q with
        | other d => exact hp.1
        | ident s n => simp [Piece.mapIdent] at hp
      | ident s n =>
        cases q with
        | other d => simp [Piece.mapIdent] at hp
        | ident s' n' =>
          have ht := hc' (.ident s n) (by simp) _ rfl
          have hu := hd' (.ident s' n') (by simp) _ rfl
          have h1 := congrArg Piece.chars hp.1
          rw [Piece.chars_mapIdent_ident (hc _ ht), Piece.chars_mapIdent_ident (hd _ hu)] at h1
          have := hg _ ht _ hu h1
          simpa using this

end

end InstrGraph.Text
