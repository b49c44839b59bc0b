import InstrGraph.Proofs.Fixpoint.Records

/-!
# The tables of a canonical function

The canonical form of a well-named function is collected side by side with the function. What the
tables of the function know by name, those of the canonical form know by canonical name, in the same
order, so it gets that very name again (`RenameTable.Identical`). No aggregate types are known any
more: where one was, there is a canonical name.
-/

namespace InstrGraph

namespace RenameTable

/-- Every name is its own canonical name. -/
def Identical (t : RenameTable) : Prop := ∀ e ∈ t.entries, e.2 = e.1

instance (t : RenameTable) : Decidable t.Identical :=
  inferInstanceAs (Decidable (∀ e ∈ t.entries, e.2 = e.1))

variable {g : String → String} {D : Set String} {t t' : RenameTable} {name c : String}

/-- In a table where every name is its own canonical name, it is what is looked up for it. -/
theorem Identical.eq_of_get? (h : t.Identical) (hc : t.get? name = some c) : c = name :=
  h _ (mem_of_lookup_eq_some hc)

/-- A table that has seen the canonical names of another one leaves them as they are. -/
theorem Mirrors.identical (hm : Mirrors g D t t') (ht : t.Numbered) (ht' : t'.Numbered)
    (h : ∀ n c, t.get? n = some c → g n = c) : t'.Identical := by
  intro e he
  obtain ⟨i, hi⟩ := List.getElem?_of_mem he
  have hname : t'.names[i]? = some e.1 := by simp [RenameTable.names, hi]
  rw [hm.names, List.getElem?_map, Option.map_eq_some_iff] at hname
  obtain ⟨n, hn, heq⟩ := hname
  have hc : t.get? n = some (t.canonicalAt i) := ht.get?_eq_some_iff.mpr ⟨i, hn, rfl⟩
  rw [ht'.entry i e hi, ← heq, h n _ hc, canonicalAt, canonicalAt, hm.stem, hm.base]

end RenameTable

namespace PassContext.Tabled

open Pass

variable {f : Function} {ctx : PassContext} {p : Pass} {t c : String}

/-- No two tables know one identifier. -/
theorem canonicalSymbol_of_lookup (h : ctx.Tabled f) (hp : p ∈ [Pass.labels, .locals, .calls])
    (hc : ctx.symbols.lookup p t = some c) : ctx.canonicalSymbol t = c := by
  have hlocal (ht : ctx.symbols.Knows t) : t ∉ ctx.symbols.calls.names := fun hn => by
    have := (h.collected.calls t hn).1
    rw [Token.isGlobal_of_isLocal (h.localName_of_knows ht).isLocal] at this
    exact absurd this (by simp)
  have hlabel (hl : t ∈ ctx.symbols.labels.names)
      (hn : t ∈ ctx.symbols.params.names ∨ t ∈ ctx.symbols.vars.names) : False := by
    rcases hn with hn | hn
    · exact h.wellNamed.params_labels t (h.params t hn) (h.labels t hl)
    · exact h.wellNamed.labels_vars t (h.labels t hl) (h.vars t hn)
  have hknown : ctx.symbols.Knows t ∨ t ∈ ctx.symbols.calls.names := by
    rcases h.mem_names_of_lookup hc with ⟨-, hn⟩ | ⟨-, hn⟩ | ⟨-, hn⟩ | ⟨rfl, -⟩
    · exact Or.inl (Or.inr (Or.inl hn))
    · exact Or.inl (hn.imp_right Or.inr)
    · exact Or.inr hn
    · simp at hp
  obtain ⟨q, d, hsome⟩ := exists_canonical? hknown
  have hpq : p = q := by
    rcases h.names_of_canonical? hsome with ⟨rfl, hq⟩ | ⟨rfl, hq⟩ | ⟨rfl, hq⟩ <;>
      rcases h.mem_names_of_lookup hc with ⟨rfl, hn⟩ | ⟨rfl, hn⟩ | ⟨rfl, hn⟩ | ⟨rfl, -⟩
    · rfl
    · exact (hlabel hq hn).elim
    · exact absurd hn (hlocal (Or.inr (Or.inl hq)))
    · simp at hp
    · exact (hlabel hn hq).elim
    · rfl
    · exact absurd hn (hlocal (hq.imp_right Or.inr))
    · simp at hp
    · exact absurd hq (hlocal (Or.inr (Or.inl hn)))
    · exact absurd hq (hlocal (hn.imp_right Or.inr))
    · rfl
    · simp at hp
  have hd := (lookup_of_canonical? hsome).2
  rw [← hpq, hc] at hd
  rw [h.canonicalSymbol_of_canonical? hsome, Option.some.inj hd]

/-- A label has the canonical name of its table. -/
theorem canonicalSymbol_of_label (h : ctx.Tabled f) (hc : ctx.symbols.labels.get? t = some c) :
    ctx.canonicalSymbol t = c := h.canonicalSymbol_of_lookup (p := .labels) (by simp) hc

/-- A parameter has the canonical name of its table. -/
theorem canonicalSymbol_of_param (h : ctx.Tabled f) (hc : ctx.symbols.params.get? t = some c) :
    ctx.canonicalSymbol t = c := by
  refine h.canonicalSymbol_of_lookup (p := .locals) (by simp) ?_
  simp only [SymbolTables.lookup, hc]

/-- A variable has the canonical name of its table. -/
theorem canonicalSymbol_of_var (h : ctx.Tabled f) (hc : ctx.symbols.vars.get? t = some c) :
    ctx.canonicalSymbol t = c := by
  have hvar : t ∈ ctx.symbols.vars.names := by
    by_contra hn
    rw [RenameTable.get?_eq_none_iff.mpr hn] at hc
    simp at hc
  have hparam : ctx.symbols.params.get? t = none := by
    refine RenameTable.get?_eq_none_iff.mpr fun hn => ?_
    exact h.wellNamed.params_vars t (h.params t hn) (h.vars t hvar)
  refine h.canonicalSymbol_of_lookup (p := .locals) (by simp) ?_
  simp only [SymbolTables.lookup, hparam, hc]

/-- A call has the canonical name of its table. -/
theorem canonicalSymbol_of_call (h : ctx.Tabled f) (hc : ctx.symbols.calls.get? t = some c) :
    ctx.canonicalSymbol t = c := h.canonicalSymbol_of_lookup (p := .calls) (by simp) hc

end PassContext.Tabled

/-- The second context has names for names of canonical form only, and these are the names
themselves. It looks up everything else as the first one does. -/
structure PassContext.Settled (ctx ctx' : PassContext) : Prop where
  metadata : ctx'.metadata = ctx.metadata
  frequency : ctx'.frequency = ctx.frequency
  config : ctx'.config = ctx.config
  sound : ctx'.symbols.Sound
  vars : ctx'.symbols.vars.Identical
  params : ctx'.symbols.params.Identical
  labels : ctx'.symbols.labels.Identical
  calls : ctx'.symbols.calls.Identical
  structs : ctx'.symbols.structs.names = []
  globals : ctx'.symbols.globals = none
  exempt : ctx'.symbols.exemptCalls = ctx.symbols.exemptCalls

/-! ### Side by side -/

namespace Function

variable {f : Function} {metadata : Metadata} {frequency : FrequencyTables} {t u : String}

/-- The identifiers of a function that cannot be taken for types. -/
def plainNames (f : Function) (metadata : Metadata) : Set String :=
  {n | n ∈ f.identifiers ∧ (LocalName metadata n ∨ Token.isGlobal n = true)}

namespace WellNamed

/-- What a well-named function shows its collection. -/
theorem sighting_within (h : f.WellNamed metadata frequency) {e : Sighting}
    (he : e ∈ f.sightings) :
    e.Within (f.plainNames metadata) {t | t ∈ f.identifiers} ∧ e.name ∈ f.identifiers := by
  rcases sighting_cases he with ⟨p, hp, rfl⟩ | ⟨b, hb, rfl⟩ | ⟨id, s, hs, t, ht, rfl⟩
  · have hmem : Token.stripAnnotations (Token.last p) ∈ f.declaredParams :=
      List.mem_map_of_mem (List.mem_map_of_mem hp)
    have hidentifier := h.param_mem_identifiers hmem
    exact ⟨⟨hidentifier, Or.inl (h.params _ hmem)⟩, hidentifier⟩
  · have hmem : Token.normalizeLabel b.label ∈ f.labelNames := List.mem_map.mpr ⟨b, hb, rfl⟩
    exact ⟨⟨label_mem_identifiers hmem, Or.inl (h.labels _ hmem)⟩, label_mem_identifiers hmem⟩
  · exact ⟨h.token_mem_identifiers hs ht, h.token_mem_identifiers hs ht⟩

end WellNamed

end Function

namespace RewriteContext

open RenameTable (Separates Identical)
open Text (Inert)

section

variable {f : Function} {ctx : RewriteContext} {t : String} (h : ctx.toPassContext.Tabled f)

include h

/-- Different identifiers of the function stay different in canonical form. -/
theorem separates (ht : t ∈ f.identifiers) :
    Separates ctx.canonicalSymbol (f.plainNames ctx.metadata) t :=
  fun _ hn heq => (h.eq_of_canonicalSymbol_eq hn.1 hn.2 ht heq.symm).symm

/-- The canonical function is collected in a context that mirrors that of the function. -/
theorem contextMirrors (hp : Inert ctx.config.constantPlaceholder.toList) (hl : f.ReadsAlike) :
    (f.collectContext ctx.metadata ctx.frequency).Mirrors ctx.canonicalSymbol
      (f.plainNames ctx.metadata) {t | t ∈ f.identifiers}
      ((ctx.function f).collectContext ctx.metadata ctx.frequency) where
  isLocal t ht := h.isLocal_canonicalSymbol (h.wellNamed.isSymbol_of_mem_identifiers ht)
  defined t ht := by
    show (ctx.function f).definedVars.contains _ = f.definedVars.contains t
    rw [definedVars_function h hp hl]
    have hwithin : ∀ n ∈ f.definedVars, n ∈ f.plainNames ctx.metadata := fun n hn =>
      ⟨h.wellNamed.var_mem_identifiers hn, Or.inl (h.wellNamed.vars n hn)⟩
    exact contains_map_of_separates hwithin (separates h ht)
  defined_within t ht hd := ⟨ht, Or.inl (h.wellNamed.vars t hd)⟩
  global_within t ht hl :=
    ⟨ht, Or.inr (Token.isGlobal_of_isSymbol (h.wellNamed.isSymbol_of_mem_identifiers ht) hl)⟩
  callees t ht hlocal := by
    have hsym := h.wellNamed.isSymbol_of_mem_identifiers ht
    have hglobal := Token.isGlobal_of_isSymbol hsym hlocal
    show (ctx.function f).callees.contains _ = f.callees.contains t
    rw [Bool.eq_iff_iff, List.contains_iff_mem, List.contains_iff_mem,
      mem_callees_function_iff h hp hl hsym]
    constructor
    · rintro ⟨u, hu, husym, heq⟩
      have hmem := Function.WellNamed.mem_identifiers_of_isSymbol
        (h.wellNamed.unquoted.callees_mem_scope u hu) husym
      rwa [← h.eq_of_canonicalSymbol_eq ht (Or.inr hglobal) hmem heq]
    · exact fun hmem => ⟨t, hmem, hsym, rfl⟩
  hasGlobal t ht hlocal := by
    have hsym := h.wellNamed.isSymbol_of_mem_identifiers ht
    have hglobal := Token.isGlobal_of_isSymbol hsym hlocal
    rcases h.image_of_isGlobal hglobal (h.image_canonicalSymbol hsym) with ⟨hn, hc⟩ | ⟨-, heq⟩
    · exact (h.wellNamed.fresh_metadata _ hc).2.trans (h.collected.calls t hn).2.1.symm
    · rw [heq]
      rfl
  isCommonCall t ht hlocal := by
    have hsym := h.wellNamed.isSymbol_of_mem_identifiers ht
    have hglobal := Token.isGlobal_of_isSymbol hsym hlocal
    rcases h.image_of_isGlobal hglobal (h.image_canonicalSymbol hsym) with ⟨hn, hc⟩ | ⟨-, heq⟩
    · exact (h.wellNamed.not_isCommonCall hc).trans (h.collected.calls t hn).2.2.1.symm
    · rw [heq]
      rfl

end

section

variable {f : Function} {metadata : Metadata} {frequency : FrequencyTables}
  {config : Config.Canonicalize} (h : f.WellNamed metadata frequency) (hl : f.ReadsAlike)
  (hp : Inert config.constantPlaceholder.toList) (hg : config.renameGlobals = false)

include h hl hp hg

/-- The tables of a function and those of its canonical form. -/
theorem mirrors_again :
    (collectSymbols metadata frequency config f).1.Mirrors
      (rewriteContext metadata frequency config f).canonicalSymbol (f.plainNames metadata)
      (collectSymbols metadata frequency config
        ((rewriteContext metadata frequency config f).function f)).1 := by
  have htabled : (rewriteContext metadata frequency config f).toPassContext.Tabled f :=
    h.tabled config hg
  rw [collectSymbols_eq_foldl, collectSymbols_eq_foldl]
  simp only [Function.collection]
  rw [sightings_function htabled hp hl]
  exact SymbolTables.Mirrors.foldl_note (contextMirrors htabled hp hl)
    (fun e he => separates htabled (h.sighting_within he).2)
    (fun e he => (h.sighting_within he).1) (.empty _ _ _ _)

/-- No aggregate type is noted a second time. -/
theorem structs_again : (collectSymbols metadata frequency config
    ((rewriteContext metadata frequency config f).function f)).1.structs.names = [] := by
  have htabled : (rewriteContext metadata frequency config f).toPassContext.Tabled f :=
    h.tabled config hg
  have hnote (ctx : CollectContext) (id : Option UInt32) (c : Collection) (t : String)
      (ht : Token.isLocal t = true → ctx.metadata.hasStruct t = false ∧
        ctx.metadata.hasStruct (Token.stripSuffix t) = false)
      (hc : c.symbols.structs.names = []) :
      (Collection.see ctx id c t).symbols.structs.names = [] := by
    have hsees := Collection.sees_see ctx id c t
    generalize (Collection.see ctx id c t).symbols = s' at hsees ⊢
    cases hsees with
    | nothing | var | global | exempt | call => exact hc
    | type hkey =>
      obtain ⟨hlocal, hknown, rfl | rfl⟩ := CollectContext.typeKey?_eq_some hkey
      · exact absurd hknown (by simp [(ht hlocal).2])
      · exact absurd hknown (by simp [(ht hlocal).1])
  rw [collectSymbols_eq_foldl]
  refine Function.collection_induction (P := fun s => s.structs.names = []) rfl
    fun c e he hc => ?_
  rw [sightings_function htabled hp hl] at he
  obtain ⟨e₀, he₀, rfl⟩ := List.mem_map.mp he
  cases e₀ with
  | param n => exact hc
  | label n => exact hc
  | token id t =>
    refine hnote _ id c _ (fun hlocal => ?_) hc
    have hsym := Function.isSymbol_of_mem_sightings he₀
    rw [htabled.isLocal_canonicalSymbol hsym] at hlocal
    exact htabled.noStruct_image (htabled.knows_types id t he₀ hlocal) hlocal
      (htabled.image_canonicalSymbol hsym)

/-- Common callees keep their names, so a second collection finds the same ones. -/
theorem exempt_again : (collectSymbols metadata frequency config
    ((rewriteContext metadata frequency config f).function f)).1.exemptCalls =
      (collectSymbols metadata frequency config f).1.exemptCalls := by
  have htabled : (rewriteContext metadata frequency config f).toPassContext.Tabled f :=
    h.tabled config hg
  have hmirrors := mirrors_again h hl hp hg
  have hfix : ∀ n ∈ (collectSymbols metadata frequency config f).1.exemptCalls,
      (rewriteContext metadata frequency config f).canonicalSymbol n = id n := by
    intro n hn
    obtain ⟨hglobal, -, hcommon⟩ := htabled.collected.exempt n hn
    have hsym := h.isSymbol_of_mem_identifiers (hmirrors.exempt_within n hn).1
    have himage := htabled.image_canonicalSymbol hsym
    rcases htabled.image_of_isGlobal hglobal himage with ⟨hc, -⟩ | ⟨-, heq⟩
    · rw [(htabled.collected.calls n hc).2.2.1] at hcommon
      exact absurd hcommon (by simp)
    · exact heq
  rw [hmirrors.exempt, List.map_congr_left hfix, List.map_id]

/-- The canonical form of a well-named function is looked up in settled tables. -/
theorem settled_again : (rewriteContext metadata frequency config f).toPassContext.Settled
    (rewriteContext metadata frequency config
      ((rewriteContext metadata frequency config f).function f)).toPassContext := by
  have htabled : (rewriteContext metadata frequency config f).toPassContext.Tabled f :=
    h.tabled config hg
  have hm := mirrors_again h hl hp hg
  have hs := htabled.collected.sound
  have hs' := (collected_collectSymbols metadata frequency config
    ((rewriteContext metadata frequency config f).function f)).sound
  exact
    { metadata := rfl
      frequency := rfl
      config := rfl
      sound := hs'
      vars := hm.vars.identical hs.vars.1 hs'.vars.1 fun _ _ => htabled.canonicalSymbol_of_var
      params := hm.params.identical hs.params.1 hs'.params.1 fun _ _ =>
        htabled.canonicalSymbol_of_param
      labels := hm.labels.identical hs.labels.1 hs'.labels.1 fun _ _ =>
        htabled.canonicalSymbol_of_label
      calls := hm.calls.identical hs.calls.1 hs'.calls.1 fun _ _ => htabled.canonicalSymbol_of_call
      structs := structs_again h hl hp hg
      globals := globals_collectSymbols hg ..
      exempt := exempt_again h hl hp hg }

end

end RewriteContext

end InstrGraph
