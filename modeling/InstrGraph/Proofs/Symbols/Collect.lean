import InstrGraph.Proofs.Symbols.Sightings
import InstrGraph.Proofs.Symbols.Tables
import InstrGraph.Proofs.Text.Suffix

/-!
# What the collected tables hold

Seeing an identifier enters at most one name into at most one table (`SymbolTables.Sees`). Which
aggregate type is entered is what `CollectContext.typeKey?` says.

The tables of a function are sound, and each holds names of its kind only (`Collected`): variables
that the function defines, aggregate types that the metadata knows, callees that are not common.
The tables only grow, so every local name that the function introduces is known in the end
(`Collection.knows_of_introduces`), and of every other one the type that it stands for
(`Collection.knowsType_of_mem`).
-/

namespace InstrGraph

namespace Token

/-- A local name is still local without its suffix. -/
theorem isLocal_stripSuffix {t : String} (h : isSymbol t = true) (hl : isLocal t = true) :
    isLocal (stripSuffix t) = true := by
  rw [isLocal_iff] at hl ⊢
  rw [head?_stripSuffix h, hl]

/-- A normalized label is a local name. -/
theorem isLocal_normalizeLabel (s : String) : isLocal (normalizeLabel s) = true := by
  rw [isLocal_iff, normalizeLabel, toList_onString]
  exact Text.normalizeLabel_head s.toList

end Token

/-! ### What seeing an identifier does -/

/-- The aggregate type that an identifier stands for, if it is none of a parameter, a label and a
variable that the function defines. -/
def CollectContext.typeKey? (ctx : CollectContext) (s : SymbolTables) (t : String) :
    Option String :=
  if !Token.isLocal t || s.params.contains t || s.labels.contains t || ctx.defined.contains t then
    none
  else if ctx.metadata.hasStruct (Token.stripSuffix t) then some (Token.stripSuffix t)
  else if ctx.metadata.hasStruct t then some t
  else none

/-- What becomes of the tables when an identifier is seen. -/
inductive SymbolTables.Sees (ctx : CollectContext) (s : SymbolTables) (t : String) :
    SymbolTables → Prop
  /-- It is a parameter or label, or its name is missing in the metadata. -/
  | nothing (hkey : ctx.typeKey? s t = none) : Sees ctx s t s
  | var (hl : Token.isLocal t = true) (hd : t ∈ ctx.defined) : Sees ctx s t (s.noteVar t)
  | type {key : String} (hkey : ctx.typeKey? s t = some key) : Sees ctx s t (s.noteStruct key)
  | global (hl : Token.isLocal t = false) (hg : ctx.metadata.hasGlobal t = true) :
    Sees ctx s t (s.noteGlobal t)
  | exempt (hl : Token.isLocal t = false) (hg : ctx.metadata.hasGlobal t = false)
    (hc : ctx.frequency.isCommonCall t = true) : Sees ctx s t (s.noteExemptCall t)
  | call (hl : Token.isLocal t = false) (hg : ctx.metadata.hasGlobal t = false)
    (hc : ctx.frequency.isCommonCall t = false) (hcallee : t ∈ ctx.callees) :
    Sees ctx s t (s.noteCall t)

namespace CollectContext

variable {ctx : CollectContext} {s : SymbolTables} {t key : String}

/-- A name that is not local stands for no aggregate type. -/
theorem typeKey?_of_not_isLocal (h : Token.isLocal t = false) : ctx.typeKey? s t = none := by
  simp [typeKey?, h]

/-- A variable that the function defines stands for no aggregate type. -/
theorem typeKey?_of_mem_defined (h : t ∈ ctx.defined) : ctx.typeKey? s t = none := by
  simp [typeKey?, h]

/-- The type is the name without its suffix or the name itself, and the metadata knows it. -/
theorem typeKey?_eq_some (h : ctx.typeKey? s t = some key) :
    Token.isLocal t = true ∧ ctx.metadata.hasStruct key = true ∧
      (key = Token.stripSuffix t ∨ key = t) := by
  unfold typeKey? at h
  split_ifs at h with hnot hbase hname
  · obtain rfl := Option.some.inj h
    exact ⟨by simp_all, hbase, Or.inl rfl⟩
  · obtain rfl := Option.some.inj h
    exact ⟨by simp_all, hname, Or.inr rfl⟩

/-- The aggregate type that an identifier stands for has a local name. -/
theorem isLocal_of_typeKey? (ht : Token.isSymbol t = true) (h : ctx.typeKey? s t = some key) :
    Token.isLocal key = true := by
  obtain ⟨hl, -, rfl | rfl⟩ := typeKey?_eq_some h
  · exact Token.isLocal_stripSuffix ht hl
  · exact hl

end CollectContext

namespace Collection

variable {ctx : CollectContext} {id : Option UInt32} {c : Collection} {t : String}

/-- What becomes of the tables when a local name is seen. -/
theorem sees_seeLocal (hl : Token.isLocal t = true) :
    c.symbols.Sees ctx t (seeLocal ctx id c t).symbols := by
  unfold seeLocal
  split
  · rename_i hknown
    refine .nothing ?_
    rw [Bool.or_eq_true] at hknown
    rcases hknown with hknown | hknown <;> simp [CollectContext.typeKey?, hknown]
  · rename_i hunknown
    rw [Bool.or_eq_true, not_or, Bool.not_eq_true, Bool.not_eq_true] at hunknown
    split
    · rename_i hdefined
      exact .var hl (List.contains_iff_mem.mp hdefined)
    · rename_i hdefined
      rw [List.contains_iff_mem] at hdefined
      dsimp only
      split
      · rename_i hbase
        exact .type (by simp [CollectContext.typeKey?, hl, hunknown, hdefined, hbase])
      · rename_i hbase
        split
        · rename_i hname
          exact .type (by simp [CollectContext.typeKey?, hl, hunknown, hdefined, hbase, hname])
        · rename_i hname
          have hkey : ctx.typeKey? c.symbols t = none := by
            simp [CollectContext.typeKey?, hbase, hname]
          split
          · rw [symbols_reportGap]
            exact .nothing hkey
          · exact .nothing hkey

/-- What becomes of the tables when a global name is seen. -/
theorem sees_seeGlobal (hl : Token.isLocal t = false) :
    c.symbols.Sees ctx t (seeGlobal ctx id c t).symbols := by
  unfold seeGlobal
  split
  · rename_i hknown
    exact .global hl hknown
  · rename_i hknown
    rw [Bool.not_eq_true] at hknown
    split
    · rename_i hcommon
      exact .exempt hl hknown hcommon
    · rename_i hcommon
      rw [Bool.not_eq_true] at hcommon
      split
      · rename_i hcallee
        exact .call hl hknown hcommon (List.contains_iff_mem.mp hcallee)
      · rw [symbols_reportGap]
        exact .nothing (CollectContext.typeKey?_of_not_isLocal hl)

/-- All that seeing an identifier may do to the tables. -/
theorem sees_see (ctx : CollectContext) (id : Option UInt32) (c : Collection) (t : String) :
    c.symbols.Sees ctx t (see ctx id c t).symbols := by
  unfold see
  split
  · rename_i hl
    exact sees_seeLocal hl
  · rename_i hl
    exact sees_seeGlobal (by simpa using hl)

end Collection

/-! ### Names of the right kind -/

/-- The tables are sound, and each holds names of its kind. -/
structure Collected (ctx : CollectContext) (s : SymbolTables) : Prop where
  sound : s.Sound
  vars : ∀ n ∈ s.vars.names, Token.isLocal n = true ∧ n ∈ ctx.defined
  labels : ∀ n ∈ s.labels.names, Token.isLocal n = true
  structs : ∀ n ∈ s.structs.names, Token.isLocal n = true ∧ ctx.metadata.hasStruct n = true
  calls : ∀ n ∈ s.calls.names, Token.isGlobal n = true ∧ ctx.metadata.hasGlobal n = false ∧
    ctx.frequency.isCommonCall n = false ∧ n ∈ ctx.callees
  globals : ∀ t ∈ s.globals, ∀ n ∈ t.names, Token.isGlobal n = true ∧
    ctx.metadata.hasGlobal n = true
  exempt : ∀ n ∈ s.exemptCalls, Token.isGlobal n = true ∧ ctx.metadata.hasGlobal n = false ∧
    ctx.frequency.isCommonCall n = true

namespace Collected

variable {ctx : CollectContext} {c : Collection} {s : SymbolTables} {t : String}

/-- Empty tables hold names of their kinds. -/
theorem empty (ctx : CollectContext) (style : Config.LabelStyle) (renameGlobals : Bool) :
    Collected ctx (.empty style renameGlobals) where
  sound := SymbolTables.sound_empty style renameGlobals
  vars := by simp [SymbolTables.empty, RenameTable.empty, RenameTable.names]
  labels := by simp [SymbolTables.empty, RenameTable.empty, RenameTable.names]
  structs := by simp [SymbolTables.empty, RenameTable.empty, RenameTable.names]
  calls := by simp [SymbolTables.empty, RenameTable.empty, RenameTable.names]
  globals := by
    intro t ht n hn
    cases renameGlobals with
    | false => simp [SymbolTables.empty] at ht
    | true =>
      obtain rfl : RenameTable.empty "@global_var_" 0 = t := by simpa [SymbolTables.empty] using ht
      simp [RenameTable.empty, RenameTable.names] at hn
  exempt := by simp [SymbolTables.empty]

/-- Noting a parameter keeps the tables holding names of their kinds. -/
theorem noteParam (h : Collected ctx s) (name : String) : Collected ctx (s.noteParam name) :=
  { h with sound := h.sound.noteParam name }

/-- Noting a label keeps the tables holding names of their kinds. -/
theorem noteLabel (h : Collected ctx s) (name : String) :
    Collected ctx (s.noteLabel (Token.normalizeLabel name)) :=
  { h with
    sound := h.sound.noteLabel _
    labels := RenameTable.forall_names_insert h.labels (Token.isLocal_normalizeLabel name) }

/-- Seeing an identifier keeps the tables holding names of their kinds. -/
theorem see (h : Collected ctx c.symbols) (id : Option UInt32) (ht : Token.isSymbol t = true) :
    Collected ctx (Collection.see ctx id c t).symbols := by
  have hglobal (hl : Token.isLocal t = false) : Token.isGlobal t = true :=
    Token.isGlobal_of_isSymbol ht hl
  have hsees := Collection.sees_see ctx id c t
  generalize (Collection.see ctx id c t).symbols = s' at hsees ⊢
  cases hsees with
  | nothing => exact h
  | var hl hd =>
    exact { h with
      sound := h.sound.noteVar t
      vars := RenameTable.forall_names_insert h.vars ⟨hl, hd⟩ }
  | type hkey =>
    have hlocal := CollectContext.isLocal_of_typeKey? ht hkey
    exact { h with
      sound := h.sound.noteStruct _
      structs := RenameTable.forall_names_insert h.structs
        ⟨hlocal, (CollectContext.typeKey?_eq_some hkey).2.1⟩ }
  | global hl hg =>
    refine { h with sound := h.sound.noteGlobal t, globals := fun table htable => ?_ }
    obtain ⟨before, hbefore, rfl⟩ := Option.map_eq_some_iff.mp htable
    exact RenameTable.forall_names_insert (h.globals before hbefore) ⟨hglobal hl, hg⟩
  | exempt hl hg hc =>
    refine { h with sound := h.sound.noteExemptCall t, exempt := fun n hn => ?_ }
    rcases mem_pushUnique.mp hn with hn | rfl
    · exact h.exempt n hn
    · exact ⟨hglobal hl, hg, hc⟩
  | call hl hg hc hcallee =>
    exact { h with
      sound := h.sound.noteCall t
      calls := RenameTable.forall_names_insert h.calls ⟨hglobal hl, hg, hc, hcallee⟩ }

end Collected

/-- The tables of a function hold names of their kinds. -/
theorem collected_collectSymbols (metadata : Metadata) (frequency : FrequencyTables)
    (config : Config.Canonicalize) (f : Function) :
    Collected (f.collectContext metadata frequency)
      (collectSymbols metadata frequency config f).1 := by
  rw [collectSymbols_eq_foldl]
  refine Function.collection_induction (Collected.empty _ _ _) fun c e he h => ?_
  cases e with
  | param name => exact h.noteParam name
  | label name =>
    rcases Function.sighting_cases he with ⟨p, -, he⟩ | ⟨b, -, he⟩ | ⟨id, s, -, u, -, he⟩
    · simp at he
    · rw [Sighting.label.inj he]
      exact h.noteLabel b.label
    · simp at he
  | token id t => exact h.see id (Function.isSymbol_of_mem_sightings he)

/-- If globals keep their names they have no table. -/
theorem globals_collectSymbols {config : Config.Canonicalize} (hg : config.renameGlobals = false)
    (metadata : Metadata) (frequency : FrequencyTables) (f : Function) :
    (collectSymbols metadata frequency config f).1.globals = none := by
  have hempty : (SymbolTables.empty config.labelStyle config.renameGlobals).globals = none := by
    simp [SymbolTables.empty, hg]
  have hnote (ctx : CollectContext) (c : Collection) (e : Sighting)
      (h : c.symbols.globals = none) : (Collection.note ctx c e).symbols.globals = none := by
    cases e with
    | param n => exact h
    | label n => exact h
    | token id t =>
      show (Collection.see ctx id c t).symbols.globals = none
      have hsees := Collection.sees_see ctx id c t
      generalize (Collection.see ctx id c t).symbols = s' at hsees ⊢
      cases hsees with
      | global => exact Option.map_eq_none_iff.mpr h
      | nothing | var | type | exempt | call => exact h
  rw [collectSymbols_eq_foldl]
  exact Function.collection_induction (P := fun s => s.globals = none) hempty
    fun c e _ h => hnote _ c e h

/-! ### The tables grow -/

/-- The tables of locals and types of the second have all names of those of the first. -/
structure SymbolTables.Grows (s s' : SymbolTables) : Prop where
  params : s.params.names ⊆ s'.params.names
  labels : s.labels.names ⊆ s'.labels.names
  vars : s.vars.names ⊆ s'.vars.names
  structs : s.structs.names ⊆ s'.structs.names

namespace SymbolTables

/-- Tables have all of their names. -/
theorem Grows.refl (s : SymbolTables) : s.Grows s :=
  ⟨List.Subset.refl _, List.Subset.refl _, List.Subset.refl _, List.Subset.refl _⟩

/-- Names that are kept twice are kept. -/
theorem Grows.trans {s s' s'' : SymbolTables} (h : s.Grows s') (h' : s'.Grows s'') :
    s.Grows s'' where
  params _ hn := h'.params (h.params hn)
  labels _ hn := h'.labels (h.labels hn)
  vars _ hn := h'.vars (h.vars hn)
  structs _ hn := h'.structs (h.structs hn)

end SymbolTables

/-- Inserting a name keeps the names of a table. -/
theorem RenameTable.names_subset_insert (t : RenameTable) (name : String) :
    t.names ⊆ (t.insert name).names := fun _ hn => mem_names_insert.mpr (Or.inl hn)

namespace Collection

open SymbolTables (Grows)
open RenameTable (names_subset_insert)

variable {ctx : CollectContext} {t : String}

/-- Seeing an identifier keeps all names. -/
theorem grows_see (ctx : CollectContext) (id : Option UInt32) (c : Collection) (t : String) :
    c.symbols.Grows (see ctx id c t).symbols := by
  have hrefl := Grows.refl c.symbols
  have hsees := sees_see ctx id c t
  generalize (see ctx id c t).symbols = s' at hsees ⊢
  cases hsees with
  | nothing => exact hrefl
  | var => exact { hrefl with vars := names_subset_insert _ t }
  | type => exact { hrefl with structs := names_subset_insert _ _ }
  | global | exempt | call => exact { hrefl with }

/-- Noting a sighting keeps all names. -/
theorem grows_note (ctx : CollectContext) (c : Collection) (e : Sighting) :
    c.symbols.Grows (note ctx c e).symbols := by
  cases e with
  | param n => exact { Grows.refl c.symbols with params := names_subset_insert _ n }
  | label n => exact { Grows.refl c.symbols with labels := names_subset_insert _ n }
  | token id t => exact grows_see ctx id c t

/-- Noting several sightings keeps all names. -/
theorem grows_foldl_note (ctx : CollectContext) (es : List Sighting) (c : Collection) :
    c.symbols.Grows (es.foldl (note ctx) c).symbols := by
  induction es generalizing c with
  | nil => exact .refl _
  | cons e es ih => exact (grows_note ctx c e).trans (ih _)

/-- What a sighting brings about, and what growth does not undo, holds at the end of a run. -/
theorem of_mem_run {P : SymbolTables → Prop} (hgrows : ∀ s s', s.Grows s' → P s → P s')
    {es : List Sighting} {e : Sighting} (he : e ∈ es) (hnote : ∀ c, P (note ctx c e).symbols)
    (c : Collection) : P (es.foldl (note ctx) c).symbols := by
  obtain ⟨before, after, rfl⟩ := List.append_of_mem he
  rw [List.foldl_append, List.foldl_cons]
  exact hgrows _ _ (grows_foldl_note ctx after _) (hnote _)

end Collection

/-! ### Every name that a function introduces is known -/

/-- The name is a parameter, a label or a variable. -/
def SymbolTables.Knows (s : SymbolTables) (t : String) : Prop :=
  t ∈ s.params.names ∨ t ∈ s.labels.names ∨ t ∈ s.vars.names

/-- A local name that is known stays known when tables grow. -/
theorem SymbolTables.Knows.grows {s s' : SymbolTables} {t : String} (hs : s.Grows s')
    (h : s.Knows t) : s'.Knows t :=
  h.imp (@hs.params t) (Or.imp (@hs.labels t) (@hs.vars t))

/-- If the name is none of a parameter, label or variable, then the aggregate type is known that it
stands for, the name without its suffix first. -/
def SymbolTables.KnowsType (metadata : Metadata) (s : SymbolTables) (t : String) : Prop :=
  s.Knows t ∨
    (metadata.hasStruct (Token.stripSuffix t) = true → Token.stripSuffix t ∈ s.structs.names) ∧
      (metadata.hasStruct (Token.stripSuffix t) = false → metadata.hasStruct t = true →
        t ∈ s.structs.names)

/-- An aggregate type that is known stays known when tables grow. -/
theorem SymbolTables.KnowsType.grows {metadata : Metadata} {s s' : SymbolTables} {t : String}
    (hs : s.Grows s') (h : s.KnowsType metadata t) : s'.KnowsType metadata t :=
  h.imp (.grows hs) fun ht =>
    ⟨fun hbase => hs.structs (ht.1 hbase), fun hbase hname => hs.structs (ht.2 hbase hname)⟩

/-- The sighting introduces a local name: as a parameter, as a label, or as a variable that the
function defines. -/
def Sighting.Introduces (ctx : CollectContext) (t : String) : Sighting → Prop
  | param n => n = t
  | label n => n = t
  | token _ u => u = t ∧ Token.isLocal t = true ∧ t ∈ ctx.defined

namespace Collection

variable {ctx : CollectContext} {id : Option UInt32} {c : Collection} {t u : String}

/-- An introduced name becomes known, if it is not already. -/
theorem knows_note {e : Sighting} (h : e.Introduces ctx t) (c : Collection) :
    (note ctx c e).symbols.Knows t := by
  cases e with
  | param n =>
    obtain rfl : n = t := h
    exact Or.inl (RenameTable.mem_names_insert.mpr (Or.inr rfl))
  | label n =>
    obtain rfl : n = t := h
    exact Or.inr (Or.inl (RenameTable.mem_names_insert.mpr (Or.inr rfl)))
  | token id u =>
    obtain ⟨rfl, hlocal, hdefined⟩ := h
    show (see ctx id c u).symbols.Knows u
    rw [see, if_pos hlocal, seeLocal]
    split
    · rename_i hknown
      rw [Bool.or_eq_true, RenameTable.contains_iff, RenameTable.contains_iff] at hknown
      exact hknown.imp_right Or.inl
    · rw [if_pos (List.contains_iff_mem.mpr hdefined)]
      exact Or.inr (Or.inr (RenameTable.mem_names_insert.mpr (Or.inr rfl)))

/-- After a run every name is known that has been introduced on the way. -/
theorem knows_of_introduces {es : List Sighting} {e : Sighting} (he : e ∈ es)
    (h : e.Introduces ctx t) (c : Collection) : (es.foldl (note ctx) c).symbols.Knows t := by
  have hgrows (s s' : SymbolTables) (hs : s.Grows s') (h : s.Knows t) : s'.Knows t := h.grows hs
  exact of_mem_run hgrows he (knows_note h) c

/-- Seeing a local name makes it known, or the type that it stands for. -/
theorem knowsType_note (hl : Token.isLocal t = true) (id : Option UInt32) (c : Collection) :
    (note ctx c (.token id t)).symbols.KnowsType ctx.metadata t := by
  show (see ctx id c t).symbols.KnowsType ctx.metadata t
  have hinsert (table : RenameTable) (n : String) : n ∈ (table.insert n).names :=
    RenameTable.mem_names_insert.mpr (Or.inr rfl)
  rw [see, if_pos hl, seeLocal]
  split
  · rename_i hknown
    rw [Bool.or_eq_true, RenameTable.contains_iff, RenameTable.contains_iff] at hknown
    exact Or.inl (hknown.imp_right Or.inl)
  · split
    · exact Or.inl (Or.inr (Or.inr (hinsert _ t)))
    · right
      dsimp only
      split
      · rename_i hbase
        exact ⟨fun _ => hinsert _ _, fun hno => by simp [hbase] at hno⟩
      · rename_i hbase
        refine ⟨fun hyes => absurd hyes hbase, fun _ hname => ?_⟩
        rw [if_pos hname]
        exact hinsert _ t

/-- After a run every local name that has been seen is known, or the type that it stands for. -/
theorem knowsType_of_mem {es : List Sighting} (he : .token id t ∈ es)
    (hl : Token.isLocal t = true) (c : Collection) :
    (es.foldl (note ctx) c).symbols.KnowsType ctx.metadata t := by
  have hgrows (s s' : SymbolTables) (hs : s.Grows s') (h : s.KnowsType ctx.metadata t) :
      s'.KnowsType ctx.metadata t := h.grows hs
  exact of_mem_run hgrows he (knowsType_note hl id) c

end Collection

end InstrGraph
