import InstrGraph.Proofs.Renaming.Records

/-!
# The symbols of a renamed function

A function and a renamed one are collected side by side. Parameters, labels and variables are
noted under their new names, at the same places of the same tables; everything else that is
collected, the warnings among it, is the same (`Collection.Renamed`).

So the tables give a name that was moved and its new name the same canonical name
(`Renamed.get?_rename`), and treat alike every name that has nothing to do with the renaming
(`Renamed.get?_of_untouched`).
-/

namespace InstrGraph

/-! ### Plain names -/

namespace PlainLocal

variable {metadata : Metadata} {t : String}

/-- A plain name does not begin like the name of a type, of which `%struct.` and others are
beginnings. -/
theorem isStructLike_of_prefix (h : PlainLocal metadata t) {u : String}
    (hu : u.toList <+: t.toList) : Token.isStructLike u = false := by
  have hnot (head : String) (hmem : head ∈ ["%struct", "%class.", "%union.", "%label_", "%block_"])
      {long : List Char} (hlong : head.toList <+: long) : ¬ long <+: u.toList := fun hpre => by
    have := h.noHead head hmem
    rw [Token.startsWith_iff.mpr ((hlong.trans hpre).trans hu)] at this
    exact absurd this (by simp)
  rw [Token.isStructLike, Text.isStructLike, List.any_eq_false]
  intro long hlong
  rw [List.isPrefixOf_iff_prefix]
  simp only [Text.aggregateHeads, List.mem_cons, List.not_mem_nil, or_false] at hlong
  rcases hlong with rfl | rfl | rfl
  · exact hnot "%struct" (by simp) (by decide)
  · exact hnot "%class." (by simp) (by decide)
  · exact hnot "%union." (by simp) (by decide)

/-- A plain local name is not spelled like an aggregate type. -/
theorem not_isStructLike (h : PlainLocal metadata t) : Token.isStructLike t = false :=
  h.isStructLike_of_prefix List.prefix_rfl

/-- A plain local name is not spelled like an aggregate type without its suffix either. -/
theorem not_isStructLike_base (h : PlainLocal metadata t) :
    Token.isStructLike (Token.stripSuffix t) = false :=
  h.isStructLike_of_prefix (Token.stripSuffix_prefix t)

/-- A plain name is a parameter, a label or a variable, or nothing at all. -/
theorem seeLocal_eq {ctx : CollectContext} (h : PlainLocal ctx.metadata t) (id : Option UInt32)
    (c : Collection) :
    Collection.seeLocal ctx id c t =
      if c.symbols.params.contains t || c.symbols.labels.contains t then c
      else if ctx.defined.contains t then { c with symbols := c.symbols.noteVar t }
      else c := by
  simp [Collection.seeLocal, h.noStruct, h.noStructBase, h.not_isStructLike]

end PlainLocal

/-! ### Side by side -/

/-- The second collection has noted the new names where the first one has noted the old ones, and
nothing else is different. -/
structure Collection.Renamed (g : String → String) (D : Set String) (c c' : Collection) : Prop where
  tables : c.symbols.Mirrors g D c'.symbols
  structs : c'.symbols.structs = c.symbols.structs
  calls : c'.symbols.calls = c.symbols.calls
  globals : c'.symbols.globals = c.symbols.globals
  exempt : c'.symbols.exemptCalls = c.symbols.exemptCalls
  diagnostics : c'.diagnostics = c.diagnostics
  reported : c'.reported = c.reported

namespace Collection.Renamed

variable {g : String → String} {D : Set String} {ctx : CollectContext} {c c' : Collection}

/-- A gap that both collections report keeps them in step. -/
theorem reportGap (h : c.Renamed g D c') (id : Option UInt32) (what name : String) :
    (c.reportGap id what name).Renamed g D (c'.reportGap id what name) := by
  unfold Collection.reportGap
  rw [h.reported]
  split
  · exact h
  · refine { h with diagnostics := ?_, reported := ?_ }
    · show c'.diagnostics ++ _ = c.diagnostics ++ _
      rw [h.diagnostics]
    · rfl

/-- An aggregate type that both collections note keeps them in step. -/
theorem noteStruct (h : c.Renamed g D c') (name : String) :
    Collection.Renamed g D { c with symbols := c.symbols.noteStruct name }
      { c' with symbols := c'.symbols.noteStruct name } :=
  { h with
    tables := { h.tables with }
    structs := congrArg (RenameTable.insert · name) h.structs }

/-- A global that both collections note keeps them in step. -/
theorem noteGlobal (h : c.Renamed g D c') (name : String) :
    Collection.Renamed g D { c with symbols := c.symbols.noteGlobal name }
      { c' with symbols := c'.symbols.noteGlobal name } :=
  { h with
    tables := { h.tables with }
    globals := congrArg (Option.map (RenameTable.insert · name)) h.globals }

end Collection.Renamed

namespace LocalRenaming

variable {metadata : Metadata} {frequency : FrequencyTables} {config : Config.Canonicalize}
  {f : Function} {ρ : String → String} {s t : String} {id : Option UInt32} {c c' : Collection}

/-- A name that is moved is local before and after. -/
theorem eq_of_not_isLocal (h : LocalRenaming metadata f ρ) (ht : t ∈ f.symbols)
    (hl : Token.isLocal t = false) : ρ t = t := by
  by_contra hmoved
  rw [(h.plain t ht hmoved).1.isLocal] at hl
  exact absurd hl (by simp)

/-- A renamed identifier of the function is the new name. -/
theorem mapSymbols_eq (ht : t ∈ f.symbols) : Token.mapSymbols ρ t = ρ t :=
  Token.mapSymbols_symbol (Function.isSymbol_of_mem_symbols ht)

/-- An identifier in scope is one of the function. -/
theorem mem_symbols_of_isSymbol (hs : s ∈ f.scope) (hsym : Token.isSymbol s = true) :
    s ∈ f.symbols := hs.2 s (by rw [Token.symbols_of_isSymbol hsym]; exact List.mem_cons_self)

/-- The identifiers of a function are in its scope. -/
theorem mem_scope_of_mem_symbols (ht : t ∈ f.symbols) : t ∈ f.scope :=
  Function.symbol_mem_scope (Function.isSymbol_of_mem_symbols ht) ht

/-- The renamed function is collected in a context that mirrors that of the function. -/
theorem contextMirrors (h : LocalRenaming metadata f ρ) (hw : f.PlainlyWritten)
    (frequency : FrequencyTables) :
    (f.collectContext metadata frequency).Mirrors (Token.mapSymbols ρ) f.scope
      {t | t ∈ f.symbols} ((f.rename ρ).collectContext metadata frequency) where
  isLocal t ht :=
    have hs := mem_scope_of_mem_symbols ht
    Token.isLocal_mapSymbols (h.keepsSymbols hs) (h.keepsSigils hs)
  defined t ht := by
    show (f.rename ρ).definedVars.contains _ = f.definedVars.contains t
    rw [h.definedVars_rename hw]
    exact contains_map_of_separates hw.unquoted.definedVars_mem_scope
      (h.separates (mem_scope_of_mem_symbols ht))
  defined_within t ht _ := mem_scope_of_mem_symbols ht
  global_within t ht _ := mem_scope_of_mem_symbols ht
  callees t ht _ := by
    show (f.rename ρ).callees.contains _ = f.callees.contains t
    rw [h.callees_rename hw]
    exact contains_map_of_separates hw.unquoted.callees_mem_scope
      (h.separates (mem_scope_of_mem_symbols ht))
  hasGlobal t ht hl := by
    rw [mapSymbols_eq ht, h.eq_of_not_isLocal ht hl]
    rfl
  isCommonCall t ht hl := by
    rw [mapSymbols_eq ht, h.eq_of_not_isLocal ht hl]
    rfl

/-- What a renamed function looks its names up in is the same. -/
theorem metadata_rename : ((f.rename ρ).collectContext metadata frequency).metadata =
    (f.collectContext metadata frequency).metadata := rfl

/-- The frequency tables stay the same in a renamed function. -/
theorem frequency_rename : ((f.rename ρ).collectContext metadata frequency).frequency =
    (f.collectContext metadata frequency).frequency := rfl

/-- Seeing a local name in the function and the new name in the renamed one keeps the collections in
step. -/
theorem renamed_seeLocal (h : LocalRenaming metadata f ρ) (hw : f.PlainlyWritten)
    (hc : c.Renamed (Token.mapSymbols ρ) f.scope c') (hmem : t ∈ f.symbols) :
    (Collection.seeLocal (f.collectContext metadata frequency) id c t).Renamed
      (Token.mapSymbols ρ) f.scope
      (Collection.seeLocal ((f.rename ρ).collectContext metadata frequency) id c' (ρ t)) := by
  have heq : Token.mapSymbols ρ t = ρ t := mapSymbols_eq hmem
  have ht := mem_scope_of_mem_symbols hmem
  have hknown := hc.tables.contains_eq (h.separates ht)
  have hdefined := (h.contextMirrors hw frequency).defined t hmem
  have hvar := hc.tables.noteVar (h.separates ht) ht
  rw [heq] at hknown hdefined hvar
  by_cases hmoved : ρ t = t
  · rw [hmoved] at hknown hdefined hvar ⊢
    unfold Collection.seeLocal
    rw [hknown, hdefined, metadata_rename]
    split
    · exact hc
    · split
      · exact { hc with tables := hvar }
      · dsimp only
        split
        · exact hc.noteStruct _
        · split
          · exact hc.noteStruct _
          · split
            · exact hc.reportGap _ _ _
            · exact hc
  · obtain ⟨hold, hnew⟩ := h.plain t hmem hmoved
    rw [PlainLocal.seeLocal_eq hold, PlainLocal.seeLocal_eq hnew, hknown, hdefined]
    split
    · exact hc
    · split
      · exact { hc with tables := hvar }
      · exact hc

/-- Seeing a global name in both functions keeps the collections in step. -/
theorem renamed_seeGlobal (h : LocalRenaming metadata f ρ) (hw : f.PlainlyWritten)
    (hc : c.Renamed (Token.mapSymbols ρ) f.scope c') (hmem : t ∈ f.symbols)
    (hl : Token.isLocal t = false) :
    (Collection.seeGlobal (f.collectContext metadata frequency) id c t).Renamed
      (Token.mapSymbols ρ) f.scope
      (Collection.seeGlobal ((f.rename ρ).collectContext metadata frequency) id c' t) := by
  have heq : Token.mapSymbols ρ t = t := (mapSymbols_eq hmem).trans (h.eq_of_not_isLocal hmem hl)
  have ht := mem_scope_of_mem_symbols hmem
  have hcallees := (h.contextMirrors hw frequency).callees t hmem hl
  have hcall := hc.tables.noteCall (h.separates ht) ht
  have hexempt := hc.tables.noteExemptCall (h.separates ht) ht
  rw [heq] at hcallees hcall hexempt
  unfold Collection.seeGlobal
  rw [hcallees, metadata_rename, frequency_rename]
  split
  · exact hc.noteGlobal _
  · split
    · exact { hc with
        tables := hexempt
        exempt := congrArg (pushUnique · t) hc.exempt }
    · split
      · exact { hc with
          tables := hcall
          calls := congrArg (RenameTable.insert · t) hc.calls }
      · exact hc.reportGap _ _ _

/-- One step of both collections. -/
theorem renamed_note (h : LocalRenaming metadata f ρ) (hw : f.PlainlyWritten)
    (hc : c.Renamed (Token.mapSymbols ρ) f.scope c') {e : Sighting} (he : e ∈ f.sightings) :
    (Collection.note (f.collectContext metadata frequency) c e).Renamed
      (Token.mapSymbols ρ) f.scope
      (Collection.note ((f.rename ρ).collectContext metadata frequency) c'
        (e.map (Token.mapSymbols ρ))) := by
  have hscope := hw.sighting_mem_scope he
  cases e with
  | param n => exact { hc with tables := hc.tables.noteParam (h.separates hscope) hscope }
  | label n => exact { hc with tables := hc.tables.noteLabel (h.separates hscope) hscope }
  | token id t =>
    have hscope : t ∈ f.scope := hscope
    have hmem : t ∈ f.symbols :=
      mem_symbols_of_isSymbol hscope (Function.isSymbol_of_mem_sightings he)
    simp only [Sighting.map, Collection.note, Collection.see]
    rw [Token.isLocal_mapSymbols (h.keepsSymbols hscope) (h.keepsSigils hscope),
      mapSymbols_eq hmem]
    cases hl : Token.isLocal t with
    | true => exact h.renamed_seeLocal hw hc hmem
    | false =>
      rw [h.eq_of_not_isLocal hmem hl]
      exact h.renamed_seeGlobal hw hc hmem hl

/-- A function and a renamed one, collected side by side. -/
theorem renamed_collection (h : LocalRenaming metadata f ρ) (hw : f.PlainlyWritten)
    (frequency : FrequencyTables) (config : Config.Canonicalize) :
    (f.collection metadata frequency config).Renamed (Token.mapSymbols ρ) f.scope
      ((f.rename ρ).collection metadata frequency config) := by
  rw [Function.collection, Function.collection, h.sightings_rename hw]
  suffices hall : ∀ (es : List Sighting), (∀ e ∈ es, e ∈ f.sightings) → ∀ c c' : Collection,
      c.Renamed (Token.mapSymbols ρ) f.scope c' →
      (es.foldl (Collection.note (f.collectContext metadata frequency)) c).Renamed
        (Token.mapSymbols ρ) f.scope
        ((es.map (Sighting.map (Token.mapSymbols ρ))).foldl
          (Collection.note ((f.rename ρ).collectContext metadata frequency)) c') by
    refine hall _ (fun _ he => he) _ _ ?_
    exact ⟨SymbolTables.Mirrors.empty .., rfl, rfl, rfl, rfl, rfl, rfl⟩
  intro es hes
  induction es with
  | nil => exact fun c c' hc => hc
  | cons e es ih =>
    intro c c' hc
    exact ih (fun e' he' => hes e' (List.mem_cons_of_mem _ he')) _ _
      (h.renamed_note hw hc (hes e List.mem_cons_self))

end LocalRenaming

/-- A name that a function introduces is introduced by something that it shows the collection. -/
theorem Function.exists_sighting {f : Function} (metadata : Metadata)
    (frequency : FrequencyTables) {t : String} (h : f.Introduces t)
    (hl : Token.isLocal t = true) :
    ∃ e ∈ f.sightings, e.Introduces (f.collectContext metadata frequency) t := by
  rcases h with h | h | ⟨hdefined, s, hs, ht⟩
  · obtain ⟨n, hn, rfl⟩ := List.mem_map.mp h
    exact ⟨.param _, by simp [sightings, List.mem_map_of_mem hn], rfl⟩
  · obtain ⟨b, hb, rfl⟩ := List.mem_map.mp h
    refine ⟨.label (Token.normalizeLabel b.label), ?_, rfl⟩
    exact List.mem_append_left _ (List.mem_append_right _ (List.mem_map.mpr ⟨b, hb, rfl⟩))
  · have htoken (id : Option UInt32) : Sighting.token id t ∈ Sighting.ofText id s :=
      List.mem_map.mpr ⟨t, ht, rfl⟩
    rcases List.mem_append.mp hs with hs | hs
    · refine ⟨.token none t, ?_, rfl, hl, hdefined⟩
      exact List.mem_append_left _ (List.mem_append_left _ (List.mem_append_right _
        (List.mem_flatMap.mpr ⟨s, hs, htoken none⟩)))
    · obtain ⟨i, hi, hs⟩ := List.mem_flatMap.mp hs
      refine ⟨.token (some i.id) t, ?_, rfl, hl, hdefined⟩
      exact List.mem_append_right _ (List.mem_flatMap.mpr
        ⟨i, hi, List.mem_flatMap.mpr ⟨s, hs, htoken _⟩⟩)

/-! ### What the tables say -/

/-- The name has nothing to do with the renaming: it is none that is moved and no new one. -/
def Untouched (f : Function) (ρ : String → String) (x : String) : Prop :=
  ∀ t ∈ f.symbols, ρ t ≠ t → t ≠ x ∧ ρ t ≠ x

namespace RenameTable.Mirrors

variable {metadata : Metadata} {f : Function} {ρ : String → String} {t t' : RenameTable}
  {x : String}

/-- The tables name an identifier and its new name alike. -/
theorem get?_rename (hm : t.Mirrors (Token.mapSymbols ρ) f.scope t')
    (h : LocalRenaming metadata f ρ) (ht : t.Numbered) (ht' : t'.Numbered) (hx : x ∈ f.symbols) :
    t'.get? (ρ x) = t.get? x := by
  rw [← LocalRenaming.mapSymbols_eq (ρ := ρ) hx]
  exact hm.get?_eq ht ht' (h.separates (LocalRenaming.mem_scope_of_mem_symbols hx))

/-- The tables treat a name alike that has nothing to do with the renaming. -/
theorem get?_of_untouched (hm : t.Mirrors (Token.mapSymbols ρ) f.scope t')
    (h : LocalRenaming metadata f ρ) (ht : t.Numbered) (ht' : t'.Numbered)
    (hsym : Token.isSymbol x = true) (hx : Untouched f ρ x) : t'.get? x = t.get? x := by
  by_cases hmem : x ∈ f.symbols
  · have hfix : ρ x = x := by
      by_contra hmoved
      exact (hx x hmem hmoved).1 rfl
    have := hm.get?_rename h ht ht' hmem
    rwa [hfix] at this
  · have hnone : x ∉ t.names := fun hn =>
      hmem (LocalRenaming.mem_symbols_of_isSymbol (hm.within x hn) hsym)
    have hnone' : x ∉ t'.names := by
      rw [hm.names, List.mem_map]
      rintro ⟨n, hn, heq⟩
      -- a text that becomes an identifier is an identifier
      have hsymbols := Token.symbols_mapSymbols (h.keepsSymbols (hm.within n hn))
      rw [heq, Token.symbols_of_isSymbol hsym] at hsymbols
      obtain ⟨u, hu, hux⟩ := List.mem_map.mp (hsymbols ▸ List.mem_singleton_self x)
      have hu := (hm.within n hn).2 u hu
      by_cases hmoved : ρ u = u
      · rw [← hux, hmoved] at hmem
        exact hmem hu
      · exact (hx u hu hmoved).2 hux
    rw [get?_eq_none_iff.mpr hnone, get?_eq_none_iff.mpr hnone']

end RenameTable.Mirrors

end InstrGraph
