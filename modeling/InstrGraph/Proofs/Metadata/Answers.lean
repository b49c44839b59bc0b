import InstrGraph.Proofs.Canonical.Cache
import InstrGraph.Proofs.Symbols.Names

/-!
# What canonicalization asks the metadata

The metadata is asked about the names of a function only: whether a global name is known, and
whether a local name is that of an aggregate type, with its numeric suffix or without. Two tables
of metadata that give the same answers (`Metadata.AgreeOn`) therefore lead to the same symbol
tables, the same warnings and the same canonical form (`canonicalize_congr`).

The passes ask about names as they were written and not about new ones: the one that strips suffixes
runs first, and the next one is the last to ask.
-/

namespace InstrGraph

/-- Two tables of metadata say the same of an identifier. -/
structure Metadata.AgreeOn (m m' : Metadata) (t : String) : Prop where
  global : Token.isGlobal t = true → m'.global? t = m.global? t
  struct : Token.isLocal t = true → m'.hasStruct t = m.hasStruct t
  base : Token.isLocal t = true →
    m'.hasStruct (Token.stripSuffix t) = m.hasStruct (Token.stripSuffix t)

namespace Metadata.AgreeOn

variable {m m' : Metadata} {t : String}

/-- Metadata that agree on a global name both have it or both lack it. -/
theorem hasGlobal (h : m.AgreeOn m' t) (hg : Token.isGlobal t = true) :
    m'.hasGlobal t = m.hasGlobal t := by rw [Metadata.hasGlobal, h.global hg, Metadata.hasGlobal]

/-- The name without its suffix has no other suffix to lose. -/
theorem stripSuffix (h : m.AgreeOn m' t) (ht : Token.isSymbol t = true)
    (hl : Token.isLocal t = true) : m.AgreeOn m' (Token.stripSuffix t) where
  global hg := by
    rw [Token.isGlobal_of_isLocal (Token.isLocal_stripSuffix ht hl)] at hg
    exact absurd hg (by simp)
  struct _ := h.base hl
  base _ := by rw [Token.stripSuffix_stripSuffix, h.base hl]

end Metadata.AgreeOn

/-! ### The symbols -/

section

variable {m m' : Metadata} {f : Function} {t : String}

/-- Metadata that agree on an identifier give it the same place in a collection. -/
theorem Collection.see_congr (ctx : CollectContext) (h : ctx.metadata.AgreeOn m' t)
    (ht : Token.isSymbol t = true) (id : Option UInt32) (c : Collection) :
    see { ctx with metadata := m' } id c t = see ctx id c t := by
  unfold see
  split
  · rename_i hl
    simp only [seeLocal, h.struct hl, h.base hl]
  · rename_i hl
    have hg := Token.isGlobal_of_isSymbol ht (by simpa using hl)
    simp only [seeGlobal, h.hasGlobal hg]

/-- Where the metadata says the same of all names of a function, the same symbols are collected. -/
theorem collectSymbols_congr (h : ∀ t ∈ f.names, m.AgreeOn m' t) (frequency : FrequencyTables)
    (config : Config.Canonicalize) :
    collectSymbols m' frequency config f = collectSymbols m frequency config f := by
  have hcollection : f.collection m' frequency config = f.collection m frequency config := by
    refine List.foldl_ext _ _ _ fun c e he => ?_
    cases e with
    | param name => rfl
    | label name => rfl
    | token id t =>
      exact Collection.see_congr (f.collectContext m frequency)
        (h t (Function.mem_names_of_mem_sightings he)) (Function.isSymbol_of_mem_sightings he) id c
  rw [collectSymbols_eq_foldl, collectSymbols_eq_foldl, hcollection]

/-- The names that the table of globals has are global names of the function. -/
theorem mem_names_of_mem_globals (m : Metadata) (frequency : FrequencyTables)
    (config : Config.Canonicalize) (f : Function) :
    ∀ table ∈ (collectSymbols m frequency config f).1.globals, ∀ n ∈ table.names, n ∈ f.names := by
  rw [collectSymbols_eq_foldl]
  refine Function.collection_induction
    (P := fun s => ∀ table ∈ s.globals, ∀ n ∈ table.names, n ∈ f.names) ?_ fun c e he h => ?_
  · intro table htable n hn
    cases hrename : config.renameGlobals with
    | false => simp [SymbolTables.empty, hrename] at htable
    | true =>
      obtain rfl : RenameTable.empty "@global_var_" 0 = table := by
        simpa [SymbolTables.empty, hrename] using htable
      simp [RenameTable.empty, RenameTable.names] at hn
  · cases e with
    | param name => exact h
    | label name => exact h
    | token id t =>
      have hsees := Collection.sees_see (f.collectContext m frequency) id c t
      rw [Collection.note]
      generalize (Collection.see (f.collectContext m frequency) id c t).symbols = s' at hsees ⊢
      cases hsees with
      | nothing | var | type | exempt | call => exact h
      | global =>
        intro table htable
        obtain ⟨before, hbefore, rfl⟩ := Option.map_eq_some_iff.mp htable
        exact RenameTable.forall_names_insert (h before hbefore)
          (Function.mem_names_of_mem_sightings he)

end

/-! ### The passes -/

/-- The passes with other metadata. -/
def PassContext.withMetadata (ctx : PassContext) (m' : Metadata) : PassContext :=
  { ctx with metadata := m' }

section

variable {ctx : PassContext} {m' : Metadata} {s t : String}

/-- The pass over suffixes makes the same of a name that the metadata agree on. -/
theorem Pass.image_structSuffixes_congr (h : ctx.metadata.AgreeOn m' t) :
    structSuffixes.image (ctx.withMetadata m') t = structSuffixes.image ctx t := by
  cases hl : Token.isLocal t with
  | true => simp only [image, rename?, PassContext.withMetadata, h.base hl]
  | false => simp [image, rename?, hl]

/-- The pass over globals makes the same of a name that the metadata agree on. -/
theorem Pass.image_globals_congr (h : ctx.metadata.AgreeOn m' t) :
    globals.image (ctx.withMetadata m') t = globals.image ctx t := by
  cases hg : Token.isGlobal t with
  | true => simp only [image, rename?, PassContext.withMetadata, h.hasGlobal hg]
  | false => simp [image, rename?, hg]

/-- The pass over globals mentions the same for a name that the metadata agree on. -/
theorem Pass.mention?_globals_congr (h : ctx.metadata.AgreeOn m' t) :
    globals.mention? (ctx.withMetadata m') t = globals.mention? ctx t := by
  cases hg : Token.isGlobal t with
  | true => simp only [mention?, PassContext.withMetadata, h.hasGlobal hg]
  | false => simp [mention?, hg]

/-- The first pass strips the suffix of a local name, or does nothing. -/
theorem Pass.image_structSuffixes_cases (ctx : PassContext) (t : String) :
    structSuffixes.image ctx t = t ∨
      Token.isLocal t = true ∧ structSuffixes.image ctx t = Token.stripSuffix t := by
  rw [image, rename?]
  split
  · rename_i hif
    exact Or.inr ⟨(Bool.and_eq_true_iff.mp (Bool.and_eq_true_iff.mp hif).1).1, rfl⟩
  · exact Or.inl rfl

/-- The metadata says the same of what it leaves. -/
theorem Pass.agreeOn_image_structSuffixes (h : ctx.metadata.AgreeOn m' t)
    (ht : Token.isSymbol t = true) : ctx.metadata.AgreeOn m' (structSuffixes.image ctx t) := by
  rcases image_structSuffixes_cases ctx t with heq | ⟨hl, heq⟩ <;> rw [heq]
  · exact h
  · exact h.stripSuffix ht hl

/-- The passes behind the first two do not ask the metadata. -/
theorem Pass.eq_withMetadata {p : Pass} (hp : p ∈ [structs, calls, labels, locals]) :
    p.image (ctx.withMetadata m') = p.image ctx ∧
      p.mention? (ctx.withMetadata m') = p.mention? ctx := by
  simp only [List.mem_cons, List.not_mem_nil, or_false] at hp
  rcases hp with rfl | rfl | rfl | rfl <;> exact ⟨rfl, rfl⟩

/-- A name that the metadata agree on has the same canonical form. -/
theorem PassContext.canonicalSymbol_congr (h : ctx.metadata.AgreeOn m' t)
    (ht : Token.isSymbol t = true) :
    (ctx.withMetadata m').canonicalSymbol t = ctx.canonicalSymbol t := by
  have hrest (p : Pass) (hp : p ∈ [Pass.structs, .calls, .labels, .locals]) :
      p.image (ctx.withMetadata m') = p.image ctx := (Pass.eq_withMetadata hp).1
  simp only [canonicalSymbol, Pass.symbolPasses, Pass.images_cons, Pass.images_nil,
    Pass.image_structSuffixes_congr h,
    Pass.image_globals_congr (Pass.agreeOn_image_structSuffixes h ht),
    hrest .structs (by simp), hrest .calls (by simp), hrest .labels (by simp),
    hrest .locals (by simp)]

/-- The passes mention the same for names that the metadata agree on. -/
theorem Pass.mentionsOf_congr {ts : List String}
    (h : ∀ t ∈ ts, ctx.metadata.AgreeOn m' t ∧ Token.isSymbol t = true) :
    mentionsOf (ctx.withMetadata m') symbolPasses ts = mentionsOf ctx symbolPasses ts := by
  have hsuffixes : ts.map (structSuffixes.image (ctx.withMetadata m')) =
      ts.map (structSuffixes.image ctx) :=
    List.map_congr_left fun t ht => image_structSuffixes_congr (h t ht).1
  have hagree : ∀ u ∈ ts.map (structSuffixes.image ctx), ctx.metadata.AgreeOn m' u := by
    intro u hu
    obtain ⟨t, ht, rfl⟩ := List.mem_map.mp hu
    exact agreeOn_image_structSuffixes (h t ht).1 (h t ht).2
  have hglobals := List.map_congr_left fun u hu => image_globals_congr (hagree u hu)
  have hmentions := List.filterMap_congr fun u hu => mention?_globals_congr (hagree u hu)
  have hnone : structSuffixes.mention? (ctx.withMetadata m') = structSuffixes.mention? ctx := rfl
  have hrest (p : Pass) (hp : p ∈ [structs, calls, labels, locals]) :
      p.image (ctx.withMetadata m') = p.image ctx ∧
        p.mention? (ctx.withMetadata m') = p.mention? ctx := eq_withMetadata hp
  simp only [symbolPasses, mentionsOf, hsuffixes, hglobals, hmentions, hnone,
    hrest structs (by simp), hrest calls (by simp), hrest labels (by simp), hrest locals (by simp)]

/-- A pass over a text asks about the identifiers of the text. -/
theorem runPasses_congr (hs : ctx.symbols.Sound)
    (h : ∀ t ∈ Token.symbols (Token.stripAnnotations s), ctx.metadata.AgreeOn m' t) :
    runPasses (ctx.withMetadata m') s = runPasses ctx s := by
  have hsymbols : ∀ t ∈ Token.symbols (Token.stripAnnotations s),
      ctx.metadata.AgreeOn m' t ∧ Token.isSymbol t = true :=
    fun t ht => ⟨h t ht, Token.isSymbol_of_mem ht⟩
  have hrenamed : (ctx.withMetadata m').renamed s = ctx.renamed s :=
    Token.mapSymbols_congr fun t ht =>
      PassContext.canonicalSymbol_congr (hsymbols t ht).1 (hsymbols t ht).2
  have hsound : (ctx.withMetadata m').symbols.Sound := hs
  rw [runPasses_eq hsound, runPasses_eq hs, hrenamed, Pass.mentionsOf_congr hsymbols]
  rfl

end

/-! ### The canonical form -/

section

variable {m m' : Metadata} {f : Function} {i : Instruction} {s : String}

/-- The context of a function with other metadata that leads to the same symbols. -/
theorem rewriteContext_congr (h : ∀ t ∈ f.names, m.AgreeOn m' t) (frequency : FrequencyTables)
    (config : Config.Canonicalize) :
    rewriteContext m' frequency config f =
      { rewriteContext m frequency config f with metadata := m' } := by
  simp only [rewriteContext, passContext, collectSymbols_congr h]

variable (h : ∀ t ∈ f.names, m.AgreeOn m' t) (frequency : FrequencyTables)
  (config : Config.Canonicalize)

include h

/-- A text whose names the metadata agree on has the same canonical form. -/
theorem canonicalText_congr (hs : f.Names s) :
    (rewriteContext m' frequency config f).canonicalText s =
      (rewriteContext m frequency config f).canonicalText s := by
  have hsound : (rewriteContext m frequency config f).symbols.Sound :=
    (collected_collectSymbols m frequency config f).sound
  rw [rewriteContext_congr h]
  exact runPasses_congr hsound fun t ht => h t (hs t ht)

/-- An operand whose names the metadata agree on has the same canonical form. -/
theorem canonicalOperand_congr (hs : f.Names s) :
    (rewriteContext m' frequency config f).canonicalOperand s =
      (rewriteContext m frequency config f).canonicalOperand s := by
  rw [RewriteContext.canonicalOperand, canonicalText_congr h frequency config hs]
  rfl

/-- The canonical instructions are the same if the metadata agree on the names of the function. -/
theorem canonicalInstruction_congr (hi : i ∈ f.instructions) :
    (rewriteContext m' frequency config f).canonicalInstruction i =
      (rewriteContext m frequency config f).canonicalInstruction i := by
  have hfield (s : String) (hs : s ∈ i.texts) : f.Names s := Function.names_field hi hs
  have htext := canonicalText_congr h frequency config (hfield i.text (by simp [Instruction.texts]))
  have hoperands := List.map_congr_left fun s (hs : s ∈ i.operands) =>
    canonicalOperand_congr h frequency config (hfield s (by simp [Instruction.texts, hs]))
  have htargets := List.map_congr_left fun s (hs : s ∈ i.targets) =>
    canonicalText_congr h frequency config (Function.names_target hi hs)
  have hcondition := Option.map_congr fun s (hs : s ∈ i.condition) =>
    canonicalOperand_congr h frequency config
      (hfield s (by simp [Instruction.texts, Option.mem_def.mp hs]))
  have hvalue := Option.map_congr fun s (hs : s ∈ i.returnValue) =>
    canonicalOperand_congr h frequency config
      (hfield s (by simp [Instruction.texts, Option.mem_def.mp hs]))
  have hcallee := Option.map_congr fun s (hs : s ∈ i.callee) =>
    canonicalText_congr h frequency config
      (hfield s (by simp [Instruction.texts, Option.mem_def.mp hs]))
  have hvar := Option.map_congr fun s (hs : s ∈ i.definedVar) =>
    canonicalText_congr h frequency config
      (hfield s (by simp [Instruction.texts, Option.mem_def.mp hs]))
  have htype := Option.map_congr fun s (hs : s ∈ i.returnType) =>
    canonicalText_congr h frequency config
      (hfield s (by simp [Instruction.texts, Option.mem_def.mp hs]))
  have htargets : i.targets.map (rewriteContext m' frequency config f).canonicalLabel =
      i.targets.map (rewriteContext m frequency config f).canonicalLabel := htargets
  simp only [RewriteContext.canonicalInstruction, RewriteContext.canonicalFields, htext, hoperands,
    htargets, hcondition, hvalue, hcallee, hvar, htype]

/-- Where the metadata says the same of all names of a function, its canonical form is the same, and
so are its symbols and the warnings. -/
theorem canonicalize_congr :
    canonicalize m' frequency config f = canonicalize m frequency config f := by
  have hfunction : (rewriteContext m' frequency config f).function f =
      (rewriteContext m frequency config f).function f := by
    rw [RewriteContext.function_eq, RewriteContext.function_eq]
    refine congrArg₂ (Function.mk f.name) (List.map_congr_left fun p hp => ?_)
      (List.map_congr_left fun b hb => congrArg₂ Block.mk ?_ (List.map_congr_left fun i hi => ?_))
    · rw [canonicalText_congr h frequency config (Function.names_param hp)]
    · rw [RewriteContext.canonicalLabel, RewriteContext.canonicalLabel,
        canonicalText_congr h frequency config (Function.names_label hb)]
    · exact canonicalInstruction_congr h frequency config (List.mem_flatMap.mpr ⟨b, hb, hi⟩)
  rw [canonicalize_eq, canonicalize_eq, hfunction, collectSymbols_congr h]

end

end InstrGraph
