import InstrGraph.Proofs.Text.Symbols

/-!
# The text between the identifiers

A text is cut at its identifiers: into what stands in front of the first one, and the identifiers,
each with what stands behind it. Put together, the parts are the text (`Token.text_cut`). A part
between two identifiers may be empty, since one ends where the sigil of the next one stands.

Rewriting replaces the identifiers of a cut text and nothing else (`Token.cut_mapSymbols`), as long
as every new name is an identifier. So what a rewriting does to a text is known from what it does to
identifiers.
-/

namespace InstrGraph

/-! ### Cutting at the identifiers -/

namespace Text.Piece

/-- The text in front of the first identifier, and the identifiers with the text behind each. -/
def cut : List Piece → List Char × List (List Char × List Char)
  | [] => ([], [])
  | .other c :: ps => (c :: (cut ps).1, (cut ps).2)
  | .ident s n :: ps => ([], (s :: n, (cut ps).1) :: (cut ps).2)

/-- What a text is cut into are its identifiers. -/
theorem map_fst_cut (ps : List Piece) : (cut ps).2.map Prod.fst = ps.filterMap ident? := by
  induction ps with
  | nil => rfl
  | cons p ps ih =>
    cases p with
    | other c => exact ih
    | ident s n => exact congrArg _ ih

/-- The gaps and the identifiers of a text make the text again. -/
theorem render_cut (ps : List Piece) :
    (cut ps).1 ++ (cut ps).2.flatMap (fun p => p.1 ++ p.2) = render ps := by
  induction ps with
  | nil => rfl
  | cons p ps ih =>
    cases p with
    | other c => exact congrArg _ ih
    | ident s n => simpa [cut, render, chars] using ih

/-- Renaming identifiers leaves the gaps alone. -/
theorem cut_map_mapIdent {g : List Char → List Char} {ps : List Piece}
    (h : ∀ p ∈ ps, ∀ t, p.ident? = some t → isIdentifier (g t) = true) :
    cut (ps.map (mapIdent g)) = ((cut ps).1, (cut ps).2.map fun p => (g p.1, p.2)) := by
  induction ps with
  | nil => rfl
  | cons p ps ih =>
    obtain ⟨hp, hps⟩ := List.forall_mem_cons.mp h
    cases p with
    | other c => simp [mapIdent, cut, ih hps]
    | ident s n =>
      have hname := chars_mapIdent_ident (hp (s :: n) rfl)
      simp only [mapIdent, chars] at hname
      simp only [List.map_cons, mapIdent, cut, ih hps, hname]

end Text.Piece

namespace Token

/-- A text cut at its identifiers. -/
structure Cut where
  /-- What stands in front of the first identifier. -/
  head : String
  /-- The identifiers, each with what stands behind it. -/
  tail : List (String × String)
  deriving DecidableEq, Repr

namespace Cut

variable (c : Cut)

/-- The parts put together. -/
def text : String := c.head ++ String.join (c.tail.map fun p => p.1 ++ p.2)

/-- The identifiers, from left to right. -/
def symbols : List String := c.tail.map Prod.fst

/-- The text in front of the first identifier, between two of them and behind the last one. -/
def gaps : List String := c.head :: c.tail.map Prod.snd

/-- The identifiers replaced by their images. -/
def map (g : String → String) : Cut := { c with tail := c.tail.map fun p => (g p.1, p.2) }

/-- A cut text that is renamed has its gaps. -/
theorem gaps_map (g : String → String) : (c.map g).gaps = c.gaps := by simp [map, gaps]

end Cut

/-- The text, cut at its identifiers. -/
def cut (s : String) : Cut :=
  let (head, tail) := Text.Piece.cut (Text.pieces s.toList)
  ⟨String.ofList head, tail.map fun p => (String.ofList p.1, String.ofList p.2)⟩

/-- A text that is cut and put together is the text again. -/
theorem text_cut (s : String) : (cut s).text = s := by
  refine String.toList_inj.mp ?_
  have hrender := Text.Piece.render_cut (Text.pieces s.toList)
  rw [Text.render_pieces] at hrender
  rw [Cut.text, cut, String.toList_append, String.toList_join, List.flatMap_map]
  simpa [List.flatMap_map] using hrender

/-- The identifiers of a cut text are those of the text. -/
theorem symbols_cut (s : String) : (cut s).symbols = symbols s := by
  rw [symbols, Text.identifiers, ← Text.Piece.map_fst_cut, List.map_map]
  simp [cut, Cut.symbols]

/-- The identifier that comes in the place of one. -/
def image (f : String → Option String) (t : String) : String := (f t).getD t

/-- Ask `f` for a new name, and then `g` for one of what is there. -/
def andThen (f g : String → Option String) (t : String) : Option String :=
  match f t with
  | none => g t
  | some u => some (image g u)

variable {f : String → Option String} {s : String}

/-- One rewriting after the other makes of an identifier what the second one makes of what the first
one does. -/
theorem image_andThen (f g : String → Option String) (t : String) :
    image (andThen f g) t = image g (image f t) := by
  cases h : f t <;> simp [image, andThen, h]

/-- A rewriting with identifiers keeps those of a text. -/
theorem keepsSymbols_image (h : ∀ t ∈ symbols s, ∀ u ∈ f t, isSymbol u = true) :
    KeepsSymbols (image f) s := by
  intro t ht
  cases hf : f t with
  | none => simpa [image, hf] using isSymbol_of_mem ht
  | some u => simpa [image, hf] using h t ht u hf

/-- Rewriting a text is mapping its identifiers. -/
theorem rewrite_eq_mapSymbols_image (f : String → Option String) (s : String) :
    rewrite f s = mapSymbols (image f) s := rewrite_eq_mapSymbols f s

/-- Replacing identifiers by identifiers leaves a cut text cut where it was. -/
theorem cut_mapSymbols {g : String → String} (h : KeepsSymbols g s) :
    cut (mapSymbols g s) = (cut s).map g := by
  rw [cut, toList_mapSymbols, Text.pieces_mapIdentifiers h.onChars, Text.Piece.cut_map_mapIdent]
  · simp [cut, Cut.map, onChars]
  · exact fun p hp t ht => h.onChars t (Text.mem_identifiers_iff.mpr ⟨p, hp, ht⟩)

/-- Rewriting replaces the identifiers one by one and keeps the text between them. A second
rewriting could be done in one with the first. Without any new name the text stays, which its
identifiers and the text between them make up. -/
theorem rewrite_replaces (h : ∀ t ∈ symbols s, ∀ u ∈ f t, isSymbol u = true) :
    symbols (rewrite f s) = (symbols s).map (image f) ∧
      (cut (rewrite f s)).gaps = (cut s).gaps ∧
      (∀ g, rewrite g (rewrite f s) = rewrite (andThen f g) s) ∧
      rewrite (fun _ => none) s = s ∧
      (cut s).symbols = symbols s ∧ (cut s).text = s := by
  have hkeeps := keepsSymbols_image h
  simp only [rewrite_eq_mapSymbols_image]
  refine ⟨symbols_mapSymbols hkeeps, ?_, fun g => ?_, ?_, symbols_cut s, text_cut s⟩
  · rw [cut_mapSymbols hkeeps, Cut.gaps_map]
  · rw [mapSymbols_mapSymbols hkeeps]
    exact mapSymbols_congr fun t _ => (image_andThen f g t).symm
  · exact mapSymbols_eq_self fun t _ => rfl

/-- New names for two identifiers of a text. -/
def renameExample (t : String) : Option String :=
  if t = "%a" then some "@long.name" else if t = "%1:" then some "%2" else none

/-- Identifiers that touch each other, a sigil of none, and a name within a name. -/
theorem rewrite_replaces_of_renameExample :
    rewrite renameExample "%%a@b, x%1:%10 @" = "%@long.name@b, x%2%10 @" ∧
      (cut "%%a@b, x%1:%10 @").gaps = ["%", "", ", x", "", " @"] ∧
      symbols (rewrite renameExample "%%a@b, x%1:%10 @") =
        (symbols "%%a@b, x%1:%10 @").map (image renameExample) ∧
      (cut (rewrite renameExample "%%a@b, x%1:%10 @")).gaps = (cut "%%a@b, x%1:%10 @").gaps ∧
      (∀ g, rewrite g (rewrite renameExample "%%a@b, x%1:%10 @") =
        rewrite (andThen renameExample g) "%%a@b, x%1:%10 @") ∧
      rewrite (fun _ => none) "%%a@b, x%1:%10 @" = "%%a@b, x%1:%10 @" ∧
      (cut "%%a@b, x%1:%10 @").symbols = symbols "%%a@b, x%1:%10 @" ∧
      (cut "%%a@b, x%1:%10 @").text = "%%a@b, x%1:%10 @" := by
  refine ⟨by decide +kernel, by decide +kernel, rewrite_replaces ?_⟩
  have hsymbols : symbols "%%a@b, x%1:%10 @" = ["%a", "@b", "%1:", "%10"] := by decide +kernel
  rw [hsymbols]
  decide +kernel

end Token

end InstrGraph
