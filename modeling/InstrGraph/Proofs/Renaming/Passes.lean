import InstrGraph.Proofs.Canonical.Constants
import InstrGraph.Proofs.Canonical.Passes
import InstrGraph.Proofs.Renaming.Collect

/-!
# The passes over a renamed text

Pass by pass, an identifier and its new name are treated alike (`PassContext.Renamed.Same`): as long
as both stand as they were written no pass changes or mentions them, and as soon as one of them gets
a canonical name so does the other, and it is the same one. Other identifiers are the same from the
start. So a text and the renamed text have one canonical form and mention the same
(`PassContext.Renamed.runPasses_rename`).
-/

namespace InstrGraph

/-- Two contexts whose tables belong to a function and to the renamed one. -/
structure PassContext.Renamed (f : Function) (ρ : String → String) (ctx ctx' : PassContext) :
    Prop where
  moves : LocalRenaming ctx.metadata f ρ
  metadata : ctx'.metadata = ctx.metadata
  frequency : ctx'.frequency = ctx.frequency
  config : ctx'.config = ctx.config
  sound : ctx.symbols.Sound
  sound' : ctx'.symbols.Sound
  tables : ctx.symbols.Mirrors (Token.mapSymbols ρ) f.scope ctx'.symbols
  structs : ctx'.symbols.structs = ctx.symbols.structs
  calls : ctx'.symbols.calls = ctx.symbols.calls
  globals : ctx'.symbols.globals = ctx.symbols.globals
  exempt : ctx'.symbols.exemptCalls = ctx.symbols.exemptCalls
  known_structs : ∀ n ∈ ctx.symbols.structs.names, ctx.metadata.hasStruct n = true
  global_calls : ∀ n ∈ ctx.symbols.calls.names, Token.isGlobal n = true
  global_exempt : ∀ n ∈ ctx.symbols.exemptCalls, Token.isGlobal n = true
  /-- What is moved stands in one of the tables of locals. -/
  known : ∀ t ∈ f.symbols, ρ t ≠ t → ctx.symbols.Knows t

namespace PassContext.Renamed

variable {metadata : Metadata} {f : Function} {ρ : String → String} {ctx ctx' : PassContext}
  {t x x' : String}

/-- A name that is no plain local one is not touched by the renaming. -/
theorem untouched_of_not_plain (h : ctx.Renamed f ρ ctx')
    (hx : ¬ PlainLocal ctx.metadata x) : Untouched f ρ x := by
  intro t ht hmoved
  obtain ⟨hold, hnew⟩ := h.moves.plain t ht hmoved
  exact ⟨fun heq => hx (heq ▸ hold), fun heq => hx (heq ▸ hnew)⟩

/-- A canonical name, unless it is that of a variable or parameter, is not plain. -/
theorem not_plain_of_isNumbered {metadata : Metadata} {stem c : String}
    (hstem : stem ∈ ["%label_", "%block_", "%struct_", "@function_", "@global_var_"])
    (hc : IsNumbered stem c) : ¬ PlainLocal metadata c := by
  intro hplain
  obtain ⟨k, rfl⟩ := hc
  have hpre : stem.toList <+: (stem ++ toString k).toList := by
    rw [String.toList_append]
    exact List.prefix_append _ _
  have hhead (head : String) (hmem : head ∈ ["%struct", "%class.", "%union.", "%label_", "%block_"])
      (h : head.toList <+: stem.toList) : False := by
    have := hplain.noHead head hmem
    rw [Token.startsWith_iff.mpr (h.trans hpre)] at this
    exact absurd this (by simp)
  have hglobal (h : "@".toList <+: stem.toList) : False := by
    have := Token.isGlobal_of_isLocal hplain.isLocal
    rw [Token.isGlobal, Token.startsWith_iff.mpr (h.trans hpre)] at this
    exact absurd this (by simp)
  simp only [List.mem_cons, List.not_mem_nil, or_false] at hstem
  rcases hstem with rfl | rfl | rfl | rfl | rfl
  · exact hhead "%label_" (by simp) (by decide)
  · exact hhead "%block_" (by simp) (by decide)
  · exact hhead "%struct" (by simp) (by decide)
  · exact hglobal (by decide)
  · exact hglobal (by decide)

/-- An identifier and what stands in its place, before the passes have met it. -/
inductive Same (f : Function) (ρ : String → String) : String → String → Prop where
  /-- Both stand as they were written. -/
  | moved {t : String} (ht : t ∈ f.symbols) (hne : ρ t ≠ t) : Same f ρ t (ρ t)
  /-- They are the same name, and it has nothing to do with the renaming. -/
  | same {x : String} (hsym : Token.isSymbol x = true) (hx : Untouched f ρ x) : Same f ρ x x

/-- The passes that tell types, globals and callees apart. -/
def earlyPasses : List Pass := [.structSuffixes, .globals, .structs, .calls]

/-- The passes that rename identifiers are the early ones and those of labels and of locals. -/
theorem symbolPasses_eq : Pass.symbolPasses = earlyPasses ++ [.labels, .locals] := rfl

section

variable {p : Pass}

/-- An early pass renames every name as it does in the other context. -/
theorem rename?_eq (h : ctx.Renamed f ρ ctx') (hp : p ∈ earlyPasses) (x : String) :
    p.rename? ctx' x = p.rename? ctx x := by
  simp only [earlyPasses, List.mem_cons, List.not_mem_nil, or_false] at hp
  rcases hp with rfl | rfl | rfl | rfl
  · simp only [Pass.rename?, h.metadata]
  · simp only [Pass.rename?, h.metadata, h.globals]
  · simp only [Pass.rename?, h.structs]
  · simp only [Pass.rename?, h.calls]

/-- A pass mentions for a name what it mentions in the other context. -/
theorem mention?_eq (h : ctx.Renamed f ρ ctx') (p : Pass) (x : String) :
    p.mention? ctx' x = p.mention? ctx x := by
  have hexempt : ctx'.symbols.isExemptCall = ctx.symbols.isExemptCall := by
    funext n
    rw [SymbolTables.isExemptCall, SymbolTables.isExemptCall, h.exempt]
  cases p <;> simp only [Pass.mention?, h.metadata, h.structs, h.calls, hexempt]

/-- No plain local name is in the table of calls. -/
theorem not_mem_calls_of_plain (h : ctx.Renamed f ρ ctx') (hx : PlainLocal ctx.metadata x) :
    ctx.symbols.calls.get? x = none := by
  rw [RenameTable.get?_eq_none_iff]
  intro hmem
  have := h.global_calls x hmem
  rw [Token.isGlobal_of_isLocal hx.isLocal] at this
  exact absurd this (by simp)

/-- No plain local name is in the table of aggregate types. -/
theorem not_mem_structs_of_plain (h : ctx.Renamed f ρ ctx') (hx : PlainLocal ctx.metadata x) :
    ctx.symbols.structs.get? x = none := by
  rw [RenameTable.get?_eq_none_iff]
  intro hmem
  have := h.known_structs x hmem
  rw [hx.noStruct] at this
  exact absurd this (by simp)

/-- A plain name means nothing to these passes. -/
theorem rename?_of_plain (h : ctx.Renamed f ρ ctx') (hp : p ∈ earlyPasses)
    (hx : PlainLocal ctx.metadata x) : p.rename? ctx x = none := by
  simp only [earlyPasses, List.mem_cons, List.not_mem_nil, or_false] at hp
  rcases hp with rfl | rfl | rfl | rfl
  · simp [Pass.rename?, hx.not_isStructLike_base, hx.noStructBase]
  · simp [Pass.rename?, Token.isGlobal_of_isLocal hx.isLocal]
  · simp [Pass.rename?, h.not_mem_structs_of_plain hx]
  · simp [Pass.rename?, h.not_mem_calls_of_plain hx]

/-- No pass mentions anything for a plain local name. -/
theorem mention?_of_plain (h : ctx.Renamed f ρ ctx') (p : Pass)
    (hx : PlainLocal ctx.metadata x) : p.mention? ctx x = none := by
  have hexempt : ctx.symbols.isExemptCall x = false := by
    rw [SymbolTables.isExemptCall, ← Bool.not_eq_true, List.contains_iff_mem]
    intro hmem
    have := h.global_exempt x hmem
    rw [Token.isGlobal_of_isLocal hx.isLocal] at this
    exact absurd this (by simp)
  cases p <;> simp [Pass.mention?, Token.isGlobal_of_isLocal hx.isLocal,
    h.not_mem_structs_of_plain hx, h.not_mem_calls_of_plain hx, hexempt]

/-- What one of these passes writes is not plain. -/
theorem not_plain_of_rename? (h : ctx.Renamed f ρ ctx') (hp : p ∈ earlyPasses) {c : String}
    (hc : p.rename? ctx x = some c) : ¬ PlainLocal ctx.metadata c := by
  simp only [earlyPasses, List.mem_cons, List.not_mem_nil, or_false] at hp
  rcases hp with rfl | rfl | rfl | rfl
  · intro hplain
    simp only [Pass.rename?] at hc
    split at hc
    · rename_i hif
      rw [← Option.some.inj hc] at hplain
      simp [hplain.not_isStructLike, hplain.noStruct] at hif
    · simp at hc
  · simp only [Pass.rename?] at hc
    split at hc
    · obtain ⟨table, htable, hget⟩ := Option.bind_eq_some_iff.mp hc
      obtain ⟨hn, hstem⟩ := h.sound.globals table htable
      exact not_plain_of_isNumbered (by simp) (hstem ▸ hn.isNumbered hget)
    · simp at hc
  · have hn := h.sound.structs.1.isNumbered (Option.eq_some_of_filter_eq_some hc)
    exact not_plain_of_isNumbered (by simp) (h.sound.structs.2 ▸ hn)
  · have hn := h.sound.calls.1.isNumbered (Option.eq_some_of_filter_eq_some hc)
    exact not_plain_of_isNumbered (by simp) (h.sound.calls.2 ▸ hn)

/-- One of these passes on an identifier and on what stands in its place. -/
theorem Same.image (h : ctx.Renamed f ρ ctx') (hp : p ∈ earlyPasses) (hx : Same f ρ x x') :
    Same f ρ (p.image ctx x) (p.image ctx' x') := by
  cases hx with
  | moved ht hne =>
    obtain ⟨hold, hnew⟩ := h.moves.plain _ ht hne
    rw [Pass.image_eq_self (h.rename?_of_plain hp hold),
      Pass.image_eq_self ((h.rename?_eq hp _).trans (h.rename?_of_plain hp hnew))]
    exact .moved ht hne
  | same hsym hx =>
    have himage : p.image ctx' x = p.image ctx x := by
      rw [Pass.image, Pass.image, h.rename?_eq hp]
    rw [himage]
    refine .same (Pass.isSymbol_image h.sound hsym) ?_
    rw [Pass.image]
    cases hc : p.rename? ctx x with
    | none => exact hx
    | some c => exact h.untouched_of_not_plain (h.not_plain_of_rename? hp hc)

/-- A pass mentions the same for names that are the same up to the renaming. -/
theorem Same.mention? (h : ctx.Renamed f ρ ctx') (p : Pass) (hx : Same f ρ x x') :
    p.mention? ctx' x' = p.mention? ctx x := by
  rw [h.mention?_eq]
  cases hx with
  | moved ht hne =>
    obtain ⟨hold, hnew⟩ := h.moves.plain _ ht hne
    rw [h.mention?_of_plain p hold, h.mention?_of_plain p hnew]
  | same hsym hx => rfl

end

/-! ### Labels and other locals -/

/-- A name that the renaming does not touch has the label that it had. -/
theorem labels_get?_untouched (h : ctx.Renamed f ρ ctx') (hsym : Token.isSymbol x = true)
    (hx : Untouched f ρ x) : ctx'.symbols.labels.get? x = ctx.symbols.labels.get? x :=
  h.tables.labels.get?_of_untouched h.moves h.sound.labels.1 h.sound'.labels.1 hsym hx

/-- A name that has nothing to do with the renaming, in the pass over locals. -/
theorem locals_image_untouched (h : ctx.Renamed f ρ ctx') (hsym : Token.isSymbol x = true)
    (hx : Untouched f ρ x) : Pass.locals.image ctx' x = Pass.locals.image ctx x := by
  have hparams := h.tables.params.get?_of_untouched h.moves h.sound.params.1 h.sound'.params.1
    hsym hx
  have hvars := h.tables.vars.get?_of_untouched h.moves h.sound.vars.1 h.sound'.vars.1 hsym hx
  rw [Pass.image, Pass.image]
  simp only [Pass.rename?, hparams, hvars]

/-- A label in canonical form has nothing to do with the renaming. -/
theorem label_untouched (h : ctx.Renamed f ρ ctx') {c : String}
    (hc : ctx.symbols.labels.get? x = some c) : Token.isSymbol c = true ∧ Untouched f ρ c := by
  have hn := h.sound.labels.1.isNumbered hc
  refine ⟨hn.isSymbol (mem_stems_of_labelStem h.sound.labels.2),
    h.untouched_of_not_plain (not_plain_of_isNumbered ?_ hn)⟩
  rcases h.sound.labels.2 with hstem | hstem <;> simp [hstem]

/-- The last two passes give an identifier and what stands in its place one name. -/
theorem Same.images_eq (h : ctx.Renamed f ρ ctx') (hx : Same f ρ x x') :
    Pass.images ctx' [.labels, .locals] x' = Pass.images ctx [.labels, .locals] x := by
  -- a label gets its name in the first of them, and the second treats that name alike
  have hlabels {c : String} (hc : ctx.symbols.labels.get? x = some c)
      (hc' : ctx'.symbols.labels.get? x' = some c) :
      Pass.images ctx' [.labels, .locals] x' = Pass.images ctx [.labels, .locals] x := by
    obtain ⟨hsym, hfree⟩ := h.label_untouched hc
    have himage : Pass.labels.image ctx x = c := by simp [Pass.image, Pass.rename?, hc]
    have himage' : Pass.labels.image ctx' x' = c := by simp [Pass.image, Pass.rename?, hc']
    simp only [Pass.images_cons, Pass.images_nil, himage, himage']
    exact h.locals_image_untouched hsym hfree
  have hnone {ctx : PassContext} {y : String} (hc : ctx.symbols.labels.get? y = none) :
      Pass.labels.image ctx y = y := by simp [Pass.image, Pass.rename?, hc]
  cases hx with
  | same hsym hx =>
    have hget := h.labels_get?_untouched hsym hx
    cases hc : ctx.symbols.labels.get? x with
    | some c => exact hlabels hc (hget.trans hc)
    | none =>
      simp only [Pass.images_cons, Pass.images_nil, hnone hc, hnone (hget.trans hc)]
      exact h.locals_image_untouched hsym hx
  | moved ht hne =>
    have hget := h.tables.labels.get?_rename h.moves h.sound.labels.1 h.sound'.labels.1 ht
    cases hc : ctx.symbols.labels.get? x with
    | some c => exact hlabels hc (hget.trans hc)
    | none =>
      simp only [Pass.images_cons, Pass.images_nil, hnone hc, hnone (hget.trans hc)]
      have hparams := h.tables.params.get?_rename h.moves h.sound.params.1 h.sound'.params.1 ht
      have hvars := h.tables.vars.get?_rename h.moves h.sound.vars.1 h.sound'.vars.1 ht
      rw [Pass.image, Pass.image]
      simp only [Pass.rename?, hparams, hvars]
      cases hp : ctx.symbols.params.get? x with
      | some n => rfl
      | none =>
        cases hv : ctx.symbols.vars.get? x with
        | some n => rfl
        | none =>
          rw [RenameTable.get?_eq_none_iff] at hc hp hv
          exact absurd (h.known x ht hne) (by simp [SymbolTables.Knows, hc, hp, hv])

/-! ### All passes -/

/-- Early passes keep names the same up to the renaming. -/
theorem Same.images_early (h : ctx.Renamed f ρ ctx') {ps : List Pass}
    (hps : ∀ p ∈ ps, p ∈ earlyPasses) (hx : Same f ρ x x') :
    Same f ρ (Pass.images ctx ps x) (Pass.images ctx' ps x') := by
  induction ps generalizing x x' with
  | nil => exact hx
  | cons p ps ih =>
    exact ih (fun q hq => hps q (List.mem_cons_of_mem _ hq)) (hx.image h (hps p List.mem_cons_self))

/-- Every identifier of the function starts like this. -/
theorem same_of_mem_symbols (h : LocalRenaming metadata f ρ) (ht : t ∈ f.symbols) :
    Same f ρ t (ρ t) := by
  by_cases hmoved : ρ t = t
  · have hx : Untouched f ρ t := by
      intro u hu hne
      refine ⟨fun heq => hne (heq ▸ hmoved), fun heq => hne ?_⟩
      rw [h.inj u hu t ht (heq.trans hmoved.symm)]
      exact hmoved
    rw [hmoved]
    exact .same (Function.isSymbol_of_mem_symbols ht) hx
  · exact .moved ht hmoved

/-- An identifier and its new name have one canonical form. -/
theorem canonicalSymbol_eq (h : ctx.Renamed f ρ ctx') (ht : t ∈ f.symbols) :
    ctx'.canonicalSymbol (ρ t) = ctx.canonicalSymbol t := by
  rw [PassContext.canonicalSymbol, PassContext.canonicalSymbol, symbolPasses_eq,
    Pass.images_append, Pass.images_append]
  exact ((same_of_mem_symbols h.moves ht).images_early h fun _ hp => hp).images_eq h

/-- The last two passes look after no mentions. -/
theorem mentionsOf_locals (ctx : PassContext) (ts : List String) :
    Pass.mentionsOf ctx [.labels, .locals] ts = [] := by
  have hnone (ts : List String) : ts.filterMap (fun _ => (none : Option Mention)) = [] := by simp
  exact congrArg₂ (· ++ ·) (hnone ts)
    (congrArg (· ++ []) (hnone (ts.map (Pass.labels.image ctx))))

/-- The passes mention the same for names that are the same up to the renaming. -/
theorem mentionsOf_eq (h : ctx.Renamed f ρ ctx') {ps : List Pass} (hps : ∀ p ∈ ps, p ∈ earlyPasses)
    {ts ts' : List String} (hts : List.Forall₂ (Same f ρ) ts ts') :
    Pass.mentionsOf ctx' (ps ++ [.labels, .locals]) ts' =
      Pass.mentionsOf ctx (ps ++ [.labels, .locals]) ts := by
  induction ps generalizing ts ts' with
  | nil => rw [List.nil_append, mentionsOf_locals, mentionsOf_locals]
  | cons p ps ih =>
    have hp := hps p List.mem_cons_self
    have hfilter : ts'.filterMap (p.mention? ctx') = ts.filterMap (p.mention? ctx) := by
      clear ih
      induction hts with
      | nil => rfl
      | cons hx _ ih => rw [List.filterMap_cons, List.filterMap_cons, hx.mention? h, ih]
    have himage : List.Forall₂ (Same f ρ) (ts.map (p.image ctx)) (ts'.map (p.image ctx')) := by
      clear ih hfilter
      induction hts with
      | nil => exact .nil
      | cons hx _ ih => exact .cons (hx.image h hp) ih
    rw [List.cons_append, Pass.mentionsOf, Pass.mentionsOf, hfilter,
      ih (fun q hq => hps q (List.mem_cons_of_mem _ hq)) himage]

/-- A text and the renamed text have one canonical form and mention the same. -/
theorem runPasses_rename (h : ctx.Renamed f ρ ctx') {s : String} (hs : s ∈ f.scope) :
    runPasses ctx' (Token.mapSymbols ρ s) = runPasses ctx s := by
  have hstrip := Function.stripAnnotations_mem_scope hs
  have hkeeps := h.moves.keepsSymbols hstrip
  have hmentions : Pass.mentionsOf ctx' Pass.symbolPasses
      ((Token.symbols (Token.stripAnnotations s)).map ρ) =
      Pass.mentionsOf ctx Pass.symbolPasses (Token.symbols (Token.stripAnnotations s)) := by
    refine h.mentionsOf_eq (fun _ hp => hp) (List.forall₂_map_right_iff.mpr ?_)
    exact List.forall₂_same.mpr fun t ht => same_of_mem_symbols h.moves (hstrip.2 t ht)
  have hrenamed : ctx'.renamed (Token.mapSymbols ρ s) = ctx.renamed s := by
    rw [PassContext.renamed, h.moves.stripAnnotations_mapSymbols hs,
      Token.mapSymbols_mapSymbols hkeeps, PassContext.renamed]
    exact Token.mapSymbols_congr fun t ht => h.canonicalSymbol_eq (hstrip.2 t ht)
  rw [runPasses_eq h.sound', runPasses_eq h.sound, h.moves.stripAnnotations_mapSymbols hs,
    Token.symbols_mapSymbols hkeeps, hmentions, hrenamed,
    Pass.hideConstants_congr h.frequency h.config]

end PassContext.Renamed

/-- The tables of a function and of a renamed one. -/
theorem LocalRenaming.passContext_renamed {metadata : Metadata} {f : Function}
    {ρ : String → String} (h : LocalRenaming metadata f ρ) (hw : f.PlainlyWritten)
    (frequency : FrequencyTables) (config : Config.Canonicalize) :
    (passContext metadata frequency config f).Renamed f ρ
      (passContext metadata frequency config (f.rename ρ)) := by
  have hcollected := collected_collectSymbols metadata frequency config f
  have hcollected' := collected_collectSymbols metadata frequency config (f.rename ρ)
  have hrenamed := h.renamed_collection hw frequency config
  refine
    { moves := h
      metadata := rfl
      frequency := rfl
      config := rfl
      sound := hcollected.sound
      sound' := hcollected'.sound
      tables := ?_
      structs := ?_
      calls := ?_
      globals := ?_
      exempt := ?_
      known_structs := fun n hn => (hcollected.structs n hn).2
      global_calls := fun n hn => (hcollected.calls n hn).1
      global_exempt := fun n hn => (hcollected.exempt n hn).1
      known := ?_ }
  all_goals simp only [passContext, collectSymbols_eq_foldl]
  · exact hrenamed.tables
  · exact hrenamed.structs
  · exact hrenamed.calls
  · exact hrenamed.globals
  · exact hrenamed.exempt
  · intro t ht hmoved
    obtain ⟨e, he, hintro⟩ := Function.exists_sighting metadata frequency
      (h.introduced t ht hmoved) (h.plain t ht hmoved).1.isLocal
    exact Collection.knows_of_introduces he hintro _

end InstrGraph
