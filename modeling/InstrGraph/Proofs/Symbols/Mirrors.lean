import InstrGraph.Proofs.Symbols.Collect

/-!
# Two collections side by side

One collection is shown names, another the images of these names under a map that keeps apart what
is noted. Then the tables of the second hold the images of what the tables of the first hold, in the
same order (`SymbolTables.Mirrors`, kept by every step by `SymbolTables.Mirrors.note`): first sight
depends on where names stand, and not on how they are spelt.

This is said of the parameters, labels, variables and callees. What else is noted depends on the
metadata, which knows names and not their images.
-/

namespace InstrGraph

namespace Sighting

/-- The name that is shown. -/
def name : Sighting → String
  | param n => n
  | label n => n
  | token _ t => t

/-- The sighting of the image. -/
def map (g : String → String) : Sighting → Sighting
  | param n => param (g n)
  | label n => label (g n)
  | token id t => token id (g t)

/-- The name lies in `D`, or it is an identifier and lies in `E`. -/
def Within (D E : Set String) : Sighting → Prop
  | param n => n ∈ D
  | label n => n ∈ D
  | token _ t => t ∈ E

end Sighting

/-- The second tables hold the images of the names of the first. -/
structure SymbolTables.Mirrors (g : String → String) (D : Set String) (s s' : SymbolTables) :
    Prop where
  params : s.params.Mirrors g D s'.params
  labels : s.labels.Mirrors g D s'.labels
  vars : s.vars.Mirrors g D s'.vars
  calls : s.calls.Mirrors g D s'.calls
  exempt : s'.exemptCalls = s.exemptCalls.map g
  exempt_within : ∀ n ∈ s.exemptCalls, n ∈ D

/-- The second context tells the images of identifiers of `E` apart as the first one tells the
identifiers apart. What is noted of them lies in `D`. -/
structure CollectContext.Mirrors (g : String → String) (D E : Set String)
    (ctx ctx' : CollectContext) : Prop where
  isLocal : ∀ t ∈ E, Token.isLocal (g t) = Token.isLocal t
  defined : ∀ t ∈ E, ctx'.defined.contains (g t) = ctx.defined.contains t
  defined_within : ∀ t ∈ E, t ∈ ctx.defined → t ∈ D
  global_within : ∀ t ∈ E, Token.isLocal t = false → t ∈ D
  callees : ∀ t ∈ E, Token.isLocal t = false →
    ctx'.callees.contains (g t) = ctx.callees.contains t
  hasGlobal : ∀ t ∈ E, Token.isLocal t = false →
    ctx'.metadata.hasGlobal (g t) = ctx.metadata.hasGlobal t
  isCommonCall : ∀ t ∈ E, Token.isLocal t = false →
    ctx'.frequency.isCommonCall (g t) = ctx.frequency.isCommonCall t

section

open RenameTable (Separates)

variable {g : String → String} {D E : Set String} {ctx ctx' : CollectContext} {c c' : Collection}
  {s s' : SymbolTables} {t : String}

/-- The images of names contain that of a name if the names contain it. -/
theorem contains_map_of_separates {names : List String} (hnames : ∀ n ∈ names, n ∈ D)
    (hg : Separates g D t) : (names.map g).contains (g t) = names.contains t := by
  rw [Bool.eq_iff_iff, List.contains_iff_mem, List.contains_iff_mem,
    RenameTable.mem_map_iff_of_separates hnames hg]

namespace SymbolTables.Mirrors

/-- Empty tables mirror each other. -/
theorem empty (g : String → String) (D : Set String) (style : Config.LabelStyle)
    (renameGlobals : Bool) :
    (SymbolTables.empty style renameGlobals).Mirrors g D (.empty style renameGlobals) where
  params := RenameTable.mirrors_empty ..
  labels := RenameTable.mirrors_empty ..
  vars := RenameTable.mirrors_empty ..
  calls := RenameTable.mirrors_empty ..
  exempt := rfl
  exempt_within := by simp [SymbolTables.empty]

/-- Noting a parameter and its image keeps the tables mirroring each other. -/
theorem noteParam (h : s.Mirrors g D s') (hg : Separates g D t) (ht : t ∈ D) :
    (s.noteParam t).Mirrors g D (s'.noteParam (g t)) := { h with params := h.params.insert hg ht }

/-- Noting a label and its image keeps the tables mirroring each other. -/
theorem noteLabel (h : s.Mirrors g D s') (hg : Separates g D t) (ht : t ∈ D) :
    (s.noteLabel t).Mirrors g D (s'.noteLabel (g t)) := { h with labels := h.labels.insert hg ht }

/-- Noting a variable and its image keeps the tables mirroring each other. -/
theorem noteVar (h : s.Mirrors g D s') (hg : Separates g D t) (ht : t ∈ D) :
    (s.noteVar t).Mirrors g D (s'.noteVar (g t)) := { h with vars := h.vars.insert hg ht }

/-- Noting a call and its image keeps the tables mirroring each other. -/
theorem noteCall (h : s.Mirrors g D s') (hg : Separates g D t) (ht : t ∈ D) :
    (s.noteCall t).Mirrors g D (s'.noteCall (g t)) := { h with calls := h.calls.insert hg ht }

/-- Noting a call that keeps its name and its image keeps the tables mirroring each other. -/
theorem noteExemptCall (h : s.Mirrors g D s') (hg : Separates g D t) (ht : t ∈ D) :
    (s.noteExemptCall t).Mirrors g D (s'.noteExemptCall (g t)) where
  params := h.params
  labels := h.labels
  vars := h.vars
  calls := h.calls
  exempt := by
    show pushUnique s'.exemptCalls (g t) = (pushUnique s.exemptCalls t).map g
    rw [pushUnique, pushUnique, h.exempt, contains_map_of_separates h.exempt_within hg]
    split
    · rfl
    · rw [List.map_append, List.map_singleton]
  exempt_within := by
    intro n hn
    rcases mem_pushUnique.mp hn with hn | rfl
    · exact h.exempt_within n hn
    · exact ht

/-- Whether a name is already known as a parameter or a label. -/
theorem contains_eq (h : s.Mirrors g D s') (hg : Separates g D t) :
    (s'.params.contains (g t) || s'.labels.contains (g t)) =
      (s.params.contains t || s.labels.contains t) := by
  rw [h.params.contains_eq hg, h.labels.contains_eq hg]

/-- An aggregate type, or a name that is missing, is noted in no table that is compared. -/
theorem seeLocal (h : c.symbols.Mirrors g D c'.symbols) (hctx : ctx.Mirrors g D E ctx')
    (hg : Separates g D t) (ht : t ∈ E) (id id' : Option UInt32) :
    (Collection.seeLocal ctx id c t).symbols.Mirrors g D
      (Collection.seeLocal ctx' id' c' (g t)).symbols := by
  -- behind the first two cases only the aggregate types and the reports change
  have hrest (ctx : CollectContext) (id : Option UInt32) (c : Collection) (t : String)
      (hp : (c.symbols.params.contains t || c.symbols.labels.contains t) = false)
      (hd : ctx.defined.contains t = false) :
      ∃ structs, (Collection.seeLocal ctx id c t).symbols = { c.symbols with structs } := by
    unfold Collection.seeLocal
    rw [hp, hd]
    simp only [Bool.false_eq_true, if_false]
    split
    · exact ⟨_, rfl⟩
    · split
      · exact ⟨_, rfl⟩
      · split
        · exact ⟨c.symbols.structs, by simp⟩
        · exact ⟨c.symbols.structs, rfl⟩
  cases hp : c.symbols.params.contains t || c.symbols.labels.contains t with
  | true =>
    have hp' := (h.contains_eq hg).trans hp
    unfold Collection.seeLocal
    rw [hp, hp']
    exact h
  | false =>
    have hp' := (h.contains_eq hg).trans hp
    cases hd : ctx.defined.contains t with
    | true =>
      have hd' := (hctx.defined t ht).trans hd
      unfold Collection.seeLocal
      rw [hp, hp', hd, hd']
      exact h.noteVar hg (hctx.defined_within t ht (List.contains_iff_mem.mp hd))
    | false =>
      have hd' := (hctx.defined t ht).trans hd
      obtain ⟨structs, heq⟩ := hrest ctx id c t hp hd
      obtain ⟨structs', heq'⟩ := hrest ctx' id' c' (g t) hp' hd'
      rw [heq, heq']
      exact { h with }

/-- Seeing a global name and its image keeps the tables mirroring each other. -/
theorem seeGlobal (h : c.symbols.Mirrors g D c'.symbols) (hctx : ctx.Mirrors g D E ctx')
    (hg : Separates g D t) (ht : t ∈ E) (hl : Token.isLocal t = false) (id id' : Option UInt32) :
    (Collection.seeGlobal ctx id c t).symbols.Mirrors g D
      (Collection.seeGlobal ctx' id' c' (g t)).symbols := by
  have hmem := hctx.global_within t ht hl
  unfold Collection.seeGlobal
  rw [hctx.hasGlobal t ht hl, hctx.isCommonCall t ht hl, hctx.callees t ht hl]
  split
  · exact { h with }
  · split
    · exact h.noteExemptCall hg hmem
    · split
      · exact h.noteCall hg hmem
      · simpa using h

/-- One step of both collections. -/
theorem note (h : c.symbols.Mirrors g D c'.symbols) (hctx : ctx.Mirrors g D E ctx')
    {e : Sighting} (hg : Separates g D e.name)
    (he : e.Within D E) :
    (Collection.note ctx c e).symbols.Mirrors g D
      (Collection.note ctx' c' (e.map g)).symbols := by
  cases e with
  | param n => exact h.noteParam hg he
  | label n => exact h.noteLabel hg he
  | token id t =>
    show (Collection.see ctx id c t).symbols.Mirrors g D (Collection.see ctx' id c' (g t)).symbols
    unfold Collection.see
    rw [hctx.isLocal t he]
    cases hl : Token.isLocal t with
    | true => exact h.seeLocal hctx hg he id id
    | false => exact h.seeGlobal hctx hg he hl id id

/-- A run of both collections. -/
theorem foldl_note (hctx : ctx.Mirrors g D E ctx') {es : List Sighting}
    (hg : ∀ e ∈ es, Separates g D e.name) (hes : ∀ e ∈ es, e.Within D E)
    (h : c.symbols.Mirrors g D c'.symbols) :
    (es.foldl (Collection.note ctx) c).symbols.Mirrors g D
      ((es.map (Sighting.map g)).foldl (Collection.note ctx') c').symbols := by
  induction es generalizing c c' with
  | nil => exact h
  | cons e es ih =>
    exact ih (fun e' he' => hg e' (List.mem_cons_of_mem _ he'))
      (fun e' he' => hes e' (List.mem_cons_of_mem _ he'))
      (h.note hctx (hg e List.mem_cons_self) (hes e List.mem_cons_self))

end SymbolTables.Mirrors

end

end InstrGraph
