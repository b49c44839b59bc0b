import InstrGraph.Proofs.Canonical.NodeNames
import InstrGraph.Proofs.Symbols.Specification

/-!
# Aggregate types, from the table to the text

Which aggregate type an identifier stands for is decided twice.

* The collection takes the name without its suffix if the metadata knows it, else the name as it is
  (`CollectContext.typeKey?`). What it decides is what the table of types is made of, in the order
  of sight (`structs_collectSymbols`). The declarations of the parameters are scanned before any
  label is known, so there the name of a label may pass for a type.
* The passes take the suffix off first, from every name that then looks like a type or is known as
  one (`Metadata.bareName`), and look up what is left.

`types_renamed_iff` is about the identifiers on which the two agree. Such an identifier gets the
canonical name of its type exactly if the function has no parameter, label or variable of that name.
Its instruction uses the type, unless the type is called by its canonical name already.

They do not agree on a type that the metadata knows with a suffix only, and that looks like a type
without it. `types_lose_suffix` says what becomes of such a type: it loses the suffix and does not
get its canonical name.
-/

namespace InstrGraph

/-! ### The table -/

/-- The aggregate type that a name of a function stands for. -/
def Sighting.typeKey? (ctx : CollectContext) (s : SymbolTables) : Sighting → Option String
  | token _ t => ctx.typeKey? s t
  | param _ | label _ => none

/-- The aggregate types that the names of a function stand for, in the order of sight. -/
def Function.typeKeys (f : Function) (metadata : Metadata) (frequency : FrequencyTables)
    (config : Config.Canonicalize) (s : SymbolTables) : List String :=
  let ctx := f.collectContext metadata frequency
  let unlabelled := { s with labels := .empty config.labelStyle.stem 0 }
  (f.params.flatMap (Sighting.ofText none)).filterMap (Sighting.typeKey? ctx unlabelled) ++
    (f.instructions.flatMap Instruction.sightings).filterMap (Sighting.typeKey? ctx s)

namespace CollectContext

variable {ctx : CollectContext} {s : SymbolTables} {t key : String}

/-- What is left of an identifier is the type that it stands for, but for a type that is only known
with its suffix and looks like one without it. -/
theorem bareName_eq_of_typeKey? (h : ctx.typeKey? s t = some key)
    (hcut : key = Token.stripSuffix t ∨ Token.isStructLike (Token.stripSuffix t) = false) :
    ctx.metadata.bareName t = key := by
  have hlocal := (typeKey?_eq_some h).1
  unfold typeKey? at h
  split_ifs at h with hnot hbase hname
  · obtain rfl := Option.some.inj h
    simp [Metadata.bareName, hlocal, hbase]
  · obtain rfl := Option.some.inj h
    rcases hcut with heq | hlike
    · rw [← heq] at hbase
      exact absurd hname hbase
    · simp [Metadata.bareName, hbase, hlike]

/-- If a type is only known with its suffix, nothing is known of its name without it. -/
theorem hasStruct_stripSuffix_of_typeKey? (h : ctx.typeKey? s t = some t)
    (hcut : Token.stripSuffix t ≠ t) : ctx.metadata.hasStruct (Token.stripSuffix t) = false := by
  unfold typeKey? at h
  split_ifs at h with hnot hbase hname
  · exact absurd (Option.some.inj h) hcut
  · simpa using hbase

end CollectContext

namespace Collection

variable {ctx : CollectContext} {s : SymbolTables} {c : Collection} {e : Sighting}
  {es : List Sighting} {t : String}

/-- The type that a sighting stands for depends on the parameters and labels only. -/
theorem typeKey?_congr {s' : SymbolTables} (hp : s.params = s'.params) (hl : s.labels = s'.labels)
    (e : Sighting) : e.typeKey? ctx s = e.typeKey? ctx s' := by
  cases e with
  | param n => rfl
  | label n => rfl
  | token id t => simp only [Sighting.typeKey?, CollectContext.typeKey?, hp, hl]

/-- Seeing an identifier enters the type that it stands for, and no parameter or label. -/
theorem tables_see (ctx : CollectContext) (id : Option UInt32) (c : Collection) (t : String) :
    let s := (see ctx id c t).symbols
    s.params = c.symbols.params ∧ s.labels = c.symbols.labels ∧
      s.structs = c.symbols.structs.insertAll (ctx.typeKey? c.symbols t).toList := by
  have hsees := sees_see ctx id c t
  generalize (see ctx id c t).symbols = s at hsees ⊢
  cases hsees with
  | nothing hkey =>
    rw [hkey]
    exact ⟨rfl, rfl, rfl⟩
  | type hkey =>
    rw [hkey]
    exact ⟨rfl, rfl, rfl⟩
  | var hl hd =>
    rw [CollectContext.typeKey?_of_mem_defined hd]
    exact ⟨rfl, rfl, rfl⟩
  | global hl | exempt hl | call hl =>
    rw [CollectContext.typeKey?_of_not_isLocal hl]
    exact ⟨rfl, rfl, rfl⟩

/-- Identifiers enter the types that they stand for, one by one, and no parameters or labels. -/
theorem tables_foldl_tokens (h : ∀ e ∈ es, ∃ id t, e = .token id t) (c : Collection) :
    let s := (es.foldl (note ctx) c).symbols
    s.params = c.symbols.params ∧ s.labels = c.symbols.labels ∧
      s.structs =
        c.symbols.structs.insertAll (es.filterMap (Sighting.typeKey? ctx c.symbols)) := by
  induction es generalizing c with
  | nil => exact ⟨rfl, rfl, rfl⟩
  | cons e es ih =>
    obtain ⟨id, t, rfl⟩ := h e List.mem_cons_self
    obtain ⟨hp, hl, hs⟩ := tables_see ctx id c t
    obtain ⟨hparams, hlabels, hstructs⟩ :=
      ih (fun e he => h e (List.mem_cons_of_mem _ he)) (see ctx id c t)
    refine ⟨hparams.trans hp, hlabels.trans hl, hstructs.trans ?_⟩
    have hkeys : Sighting.typeKey? ctx (see ctx id c t).symbols =
        Sighting.typeKey? ctx c.symbols := funext (typeKey?_congr hp hl)
    rw [hkeys, hs, ← RenameTable.insertAll_append, List.filterMap_cons, Sighting.typeKey?]
    cases ctx.typeKey? c.symbols t <;> rfl

end Collection

/-- The sightings of a text are tokens. -/
theorem Sighting.exists_of_mem_ofText {texts : List String} {id : Option UInt32} {e : Sighting}
    (he : e ∈ texts.flatMap (Sighting.ofText id)) : ∃ id t, e = .token id t := by
  obtain ⟨text, -, he⟩ := List.mem_flatMap.mp he
  obtain ⟨t, -, rfl⟩ := List.mem_map.mp he
  exact ⟨id, t, rfl⟩

/-- The sightings of instructions are tokens. -/
theorem Instruction.exists_of_mem_sightings {is : List Instruction} {e : Sighting}
    (he : e ∈ is.flatMap Instruction.sightings) : ∃ id t, e = .token id t := by
  obtain ⟨i, -, he⟩ := List.mem_flatMap.mp he
  exact Sighting.exists_of_mem_ofText he

/-- The table of the aggregate types of a function: the types that its names stand for, numbered in
the order of sight. -/
theorem structs_collectSymbols (metadata : Metadata) (frequency : FrequencyTables)
    (config : Config.Canonicalize) (f : Function) :
    let s := (collectSymbols metadata frequency config f).1
    s.structs =
      (RenameTable.empty "%struct_" 0).insertAll (f.typeKeys metadata frequency config s) := by
  have hdeclarations : ∀ e ∈ f.params.flatMap (Sighting.ofText none), ∃ id t, e = .token id t :=
    fun e he => Sighting.exists_of_mem_ofText he
  have hinstructions : ∀ e ∈ f.instructions.flatMap Instruction.sightings,
      ∃ id t, e = .token id t := fun e he => Instruction.exists_of_mem_sightings he
  rw [collectSymbols_eq_foldl, Function.collection_eq]
  dsimp only [Function.typeKeys]
  generalize f.collectContext metadata frequency = ctx
  generalize hstart :
    Collection.ofParams config.labelStyle config.renameGlobals f.declaredParams = start
  have hnolabels : start.symbols.labels = .empty config.labelStyle.stem 0 := hstart ▸ rfl
  have hnostructs : start.symbols.structs = .empty "%struct_" 0 := hstart ▸ rfl
  obtain ⟨hparams, hlabels, hstructs⟩ := Collection.tables_foldl_tokens hdeclarations start
  generalize (f.params.flatMap (Sighting.ofText none)).foldl (Collection.note ctx) start = declared
    at hparams hlabels hstructs ⊢
  obtain ⟨hparams', hlabels', hstructs'⟩ :=
    Collection.tables_foldl_tokens hinstructions (declared.noteLabels f.labelNames)
  generalize (f.instructions.flatMap Instruction.sightings).foldl (Collection.note ctx)
    (declared.noteLabels f.labelNames) = done at hparams' hlabels' hstructs' ⊢
  -- what stands for a type depends on the parameters and labels that are known there
  have hkeys : Sighting.typeKey? ctx start.symbols = Sighting.typeKey? ctx
      { done.symbols with labels := .empty config.labelStyle.stem 0 } :=
    funext (Collection.typeKey?_congr (hparams'.trans hparams).symm hnolabels)
  have hkeys' : Sighting.typeKey? ctx (declared.noteLabels f.labelNames).symbols =
      Sighting.typeKey? ctx done.symbols :=
    funext (Collection.typeKey?_congr hparams'.symm hlabels'.symm)
  rw [RenameTable.insertAll_append, ← hkeys, ← hkeys', hstructs', ← hnostructs, ← hstructs]
  rfl

/-- The type that an identifier of an instruction stands for is known. -/
theorem mem_structs_of_typeKey? {metadata : Metadata} {frequency : FrequencyTables}
    {config : Config.Canonicalize} {f : Function} {i : Instruction} {t key : String}
    (hi : i ∈ f.instructions) (ht : t ∈ Token.symbols (Token.stripAnnotations i.text))
    (hkey : (f.collectContext metadata frequency).typeKey?
      (collectSymbols metadata frequency config f).1 t = some key) :
    key ∈ (collectSymbols metadata frequency config f).1.structs.names := by
  have hsighting : .token (some i.id) t ∈ f.instructions.flatMap Instruction.sightings := by
    refine List.mem_flatMap.mpr ⟨i, hi, List.mem_flatMap.mpr ⟨i.text, List.mem_cons_self, ?_⟩⟩
    exact List.mem_map_of_mem ht
  rw [structs_collectSymbols]
  refine RenameTable.mem_names_insertAll.mpr (Or.inr (List.mem_append_right _ ?_))
  exact List.mem_filterMap.mpr ⟨_, hsighting, hkey⟩

/-! ### The texts -/

namespace PassContext

open Pass

variable {cctx : CollectContext} {ctx : PassContext} {t key c n : String}

/-- The passes before the one over types make of an identifier what is left of it as a type. -/
theorem images_before_structs (hbare : ctx.metadata.bareName t = key)
    (hkey : Token.isLocal key = true) : images ctx structs.before t = key := by
  show Pass.globals.image ctx (structSuffixes.image ctx t) = key
  rw [structSuffixes_image_eq, hbare, globals_image_of_isLocal hkey]

/-- A type comes out under its canonical name exactly if no later pass renames that name. -/
theorem canonicalSymbol_eq_iff_of_bareName (h : Collected cctx ctx.symbols)
    (hbare : ctx.metadata.bareName t = key) (hc : ctx.symbols.structs.get? key = some c) :
    ctx.canonicalSymbol t = c ↔ ¬ ctx.symbols.Knows c := by
  have hkey := (h.structs_lookup hc).1
  have hlocal : Token.isLocal c = true :=
    Token.isLocal_iff.mpr
      ((h.sound.structs.1.isNumbered hc).head?_eq (by rw [h.sound.structs.2]; rfl))
  have hlookup : ctx.symbols.lookup structs key = some c := hc
  have himage : structs.image ctx key = c := by
    by_cases hne : c = key <;> simp [image, rename?, hc, Option.filter, hne]
  rw [canonicalSymbol_eq_iff_image h.sound (by decide) hlookup,
    images_before_structs hbare hkey, and_iff_left himage]
  have hafter : structs.after = [.calls, .labels, .locals] := by decide
  simp only [hafter, List.forall_mem_cons, List.not_mem_nil, false_implies, implies_true, and_true,
    calls_rename?_of_isLocal h hlocal, true_and, SymbolTables.Knows, not_or]
  simp only [rename?, ← RenameTable.get?_eq_none_iff]
  cases ctx.symbols.params.get? c <;> simp

/-- A type that is mentioned is what the first passes make of an identifier, and it has another
canonical name. -/
theorem exists_of_struct_mem_mentions (hs : ctx.symbols.Sound) {s : String}
    (h : .struct n ∈ (runPasses ctx s).mentions) :
    (∃ u, images ctx structs.before u = n) ∧
      ∃ c, ctx.symbols.structs.get? n = some c ∧ c ≠ n := by
  obtain ⟨qs, p, rs, heq, u, -, hm⟩ := exists_mention?_of_mem_mentions hs (by simp) h
  cases p with
  | structs =>
    rw [← before_eq_of_symbolPasses heq] at hm
    simp only [mention?] at hm
    split at hm
    · rename_i c hc
      split at hm
      · simp at hm
      · rename_i hne
        have himages : images ctx structs.before u = n := by simpa using hm
        exact ⟨⟨u, himages⟩, c, himages ▸ hc, himages ▸ hne⟩
    · simp at hm
  | globals | calls =>
    simp only [mention?] at hm
    grind
  | stripAnnotations | structSuffixes | labels | locals | constants => simp [mention?] at hm

/-- A type is mentioned where an identifier comes to be its key, unless that is its canonical
name. -/
theorem struct_mem_mentions (h : Collected cctx ctx.symbols) {s : String}
    (ht : t ∈ Token.symbols (Token.stripAnnotations s)) (hbare : ctx.metadata.bareName t = key)
    (hc : ctx.symbols.structs.get? key = some c) (hne : c ≠ key) :
    .struct key ∈ (runPasses ctx s).mentions := by
  rw [runPasses_eq h.sound]
  refine List.mem_append_left _ (mem_mentionsOf.mpr
    ⟨structs.before, structs, structs.after, symbolPasses_eq (by decide), t, ht, ?_⟩)
  rw [images_before_structs hbare (h.structs_lookup hc).1]
  simp [mention?, hc, hne]

end PassContext

/-- An instruction uses the types it used before, and those that its text has under another name
than their canonical one. -/
theorem RewriteContext.mem_usage_structs_iff {cctx : CollectContext} {ctx : RewriteContext}
    {i : Instruction} {t key c : String} (h : Collected cctx ctx.symbols)
    (ht : t ∈ Token.symbols (Token.stripAnnotations i.text))
    (hbare : ctx.metadata.bareName t = key) (hc : ctx.symbols.structs.get? key = some c) :
    key ∈ (ctx.canonicalInstruction i).usage.structs ↔ key ∈ i.usage.structs ∨ c ≠ key := by
  show (ctx.canonicalInstruction i).usage.Has (.struct key) ↔ i.usage.Has (.struct key) ∨ c ≠ key
  rw [canonicalInstruction, Usage.has_merge, Usage.has_recordAll_empty]
  refine or_congr_right ⟨fun hm => ?_, fun hne => ?_⟩
  · obtain ⟨r, hr, hm⟩ := List.mem_flatMap.mp hm
    obtain ⟨s, -, hs⟩ := exists_of_mem_canonicalFields hr
    obtain ⟨-, c', hc', hne⟩ := PassContext.exists_of_struct_mem_mentions h.sound (hs _ hm)
    rwa [← Option.some.inj (hc.symm.trans hc')] at hne
  · have hmentions := PassContext.struct_mem_mentions h ht hbare hc hne
    exact List.mem_flatMap.mpr ⟨ctx.canonicalText i.text, by simp [canonicalFields], hmentions⟩

/-- An instruction uses a type that its texts do not mention only if it did before. -/
theorem RewriteContext.mem_usage_structs_iff_of_not_mem {ctx : RewriteContext} {i : Instruction}
    {key : String} (h : ∀ s, .struct key ∉ (runPasses ctx.toPassContext s).mentions) :
    key ∈ (ctx.canonicalInstruction i).usage.structs ↔ key ∈ i.usage.structs := by
  show (ctx.canonicalInstruction i).usage.Has (.struct key) ↔ i.usage.Has (.struct key)
  rw [canonicalInstruction, Usage.has_merge, Usage.has_recordAll_empty]
  refine or_iff_left fun hm => ?_
  obtain ⟨r, hr, hm⟩ := List.mem_flatMap.mp hm
  obtain ⟨s, -, hs⟩ := exists_of_mem_canonicalFields hr
  exact h s (hs _ hm)

/-- The aggregate types in the instructions of a function. Take an identifier of a text that stands
for a type, but not for one that is known with its suffix only and looks like a type without it. The
table has a canonical name for the type, and

* this name stands in place of the identifier exactly if no parameter, label or variable of the
  function is called so, and
* the type counts as used by the instruction exactly if it has another name than this one, or did so
  before.

Only the place in the text asks for a placeholder without a sigil: any other may hold an identifier
itself, and those behind it move on. -/
theorem types_renamed_iff (metadata : Metadata) (frequency : FrequencyTables)
    (config : Config.Canonicalize) (f : Function) {n k : Nat} {i : Instruction} {t key : String}
    (hi : f.instructions[n]? = some i)
    (ht : (Token.symbols (Token.stripAnnotations i.text))[k]? = some t)
    (hkey : (f.collectContext metadata frequency).typeKey?
      (canonicalize metadata frequency config f).symbols t = some key)
    (hcut : key = Token.stripSuffix t ∨ Token.isStructLike (Token.stripSuffix t) = false) :
    let symbols := (canonicalize metadata frequency config f).symbols
    ∃ c i', symbols.structs.get? key = some c ∧ IsNumbered "%struct_" c ∧
      (canonicalize metadata frequency config f).function.instructions[n]? = some i' ∧
      i'.text = (runPasses (passContext metadata frequency config f) i.text).text ∧
      ((∀ ch ∈ config.constantPlaceholder.toList, Text.isSigil ch = false) →
        ((Token.symbols i'.text)[k]? = some c ↔ ¬ symbols.Knows c)) ∧
      (key ∈ i'.usage.structs ↔ key ∈ i.usage.structs ∨ c ≠ key) := by
  intro symbols
  let ctx := rewriteContext metadata frequency config f
  have hcollected : Collected (f.collectContext metadata frequency) symbols :=
    collected_collectSymbols metadata frequency config f
  have hbare := CollectContext.bareName_eq_of_typeKey? hkey hcut
  have hsymbol := List.mem_of_getElem? ht
  obtain ⟨c, hc⟩ := RenameTable.mem_names_iff.mp
    (mem_structs_of_typeKey? (List.mem_of_getElem? hi) hsymbol hkey)
  refine ⟨c, ctx.canonicalInstruction i, hc, ?_, ?_, rfl, ?_, ?_⟩
  · rw [← hcollected.sound.structs.2]
    exact hcollected.sound.structs.1.isNumbered hc
  · rw [canonicalize_eq, RewriteContext.instructions_function, List.getElem?_map, hi]
    rfl
  · intro hp
    show (Token.symbols (runPasses ctx.toPassContext i.text).text)[k]? = some c ↔ _
    rw [symbols_runPasses hcollected.sound hp, List.getElem?_map, ht, Option.map_some,
      Option.some.injEq]
    exact PassContext.canonicalSymbol_eq_iff_of_bareName hcollected hbare hc
  · exact RewriteContext.mem_usage_structs_iff hcollected hsymbol hbare hc

/-- Three types that the metadata knows. Two of them have to do with canonical names: one is called
by its own, and the canonical name of the other is a variable. -/
def typesExample : Function :=
  { name := "f"
    blocks := [⟨"%0", [{ id := 1, opcode := .other "alloca", text := "%x = alloca %struct.node.7" },
                       { id := 2, opcode := .other "alloca", text := "%y = alloca %struct_1" },
                       { id := 3, opcode := .other "alloca",
                         text := "%struct_2 = alloca %struct.leaf" }]⟩] }

/-- What is known about these types. -/
def typesExampleMetadata : Metadata :=
  { structs := [("struct.node", .null), ("%struct_1", .null), ("%struct.leaf", .null)] }

/-- The type that has nothing to do with canonical names is renamed, its suffix dropped. -/
theorem types_renamed_of_typesExample :
    let done := canonicalize typesExampleMetadata {} {} typesExample
    (∀ ch ∈ ({} : Config.Canonicalize).constantPlaceholder.toList, Text.isSigil ch = false) ∧
      ∃ i, done.function.instructions[0]? = some i ∧
        (Token.symbols i.text)[1]? = some "%struct_0" ∧ "%struct.node" ∈ i.usage.structs := by
  have hp : ∀ ch ∈ ({} : Config.Canonicalize).constantPlaceholder.toList,
      Text.isSigil ch = false := Text.forall_mem_of_all (by decide)
  have hkey : (typesExample.collectContext typesExampleMetadata {}).typeKey?
      (canonicalize typesExampleMetadata {} {} typesExample).symbols "%struct.node.7" =
        some "%struct.node" := by decide +kernel
  have htext : (Token.symbols (Token.stripAnnotations "%x = alloca %struct.node.7"))[1]? =
      some "%struct.node.7" := by decide +kernel
  refine ⟨hp, ?_⟩
  obtain ⟨c, i, hc, -, hi, -, htext, husage⟩ :=
    types_renamed_iff typesExampleMetadata {} {} typesExample (n := 0) rfl htext hkey
      (Or.inl (by decide +kernel))
  obtain rfl : "%struct_0" = c := Option.some.inj (hc ▸ (by decide +kernel))
  refine ⟨i, hi, (htext hp).mpr ?_, husage.mpr (Or.inr (by decide))⟩
  rw [SymbolTables.Knows]
  decide +kernel

/-- The first type behind a number, which a placeholder stands for afterwards. -/
def typeBehindNumberExample : Function :=
  { name := "f"
    blocks := [⟨"%0", [{ id := 1, opcode := .other "call",
                         text := "call void @g(i32 7, %struct.node %x)" }]⟩] }

/-- Of the other two, the one is renamed to its own name and does not count as used, and the other
does not keep its canonical name. A placeholder with a sigil inside passes the check of the settings
and moves the type behind a number. -/
theorem types_not_renamed_of_typesExample :
    let done := canonicalize typesExampleMetadata {} {} typesExample
    let ctx := typesExample.collectContext typesExampleMetadata {}
    let odd : Config.Canonicalize := { constantPlaceholder := "x%y" }
    let moved := canonicalize typesExampleMetadata {} odd typeBehindNumberExample
    Config.validate {} = .ok () ∧ Config.validate { canonicalize := odd } = .ok () ∧
      ctx.typeKey? done.symbols "%struct_1" = some "%struct_1" ∧
      ctx.typeKey? done.symbols "%struct.leaf" = some "%struct.leaf" ∧
      done.symbols.structs.entries = [("%struct.node", "%struct_0"), ("%struct_1", "%struct_1"),
        ("%struct.leaf", "%struct_2")] ∧
      moved.symbols.structs.entries = [("%struct.node", "%struct_0")] ∧
      (typesExample.instructions.map fun i => Token.symbols (Token.stripAnnotations i.text)) =
        [["%x", "%struct.node.7"], ["%y", "%struct_1"], ["%struct_2", "%struct.leaf"]] ∧
      (done.function.instructions.map fun i => (Token.symbols i.text, i.usage.structs)) =
        [(["%var0", "%struct_0"], ["%struct.node"]), (["%var1", "%struct_1"], []),
          (["%var2", "%var2"], ["%struct.leaf"])] ∧
      (typeBehindNumberExample.instructions.map fun i =>
        Token.symbols (Token.stripAnnotations i.text)) = [["@g", "%struct.node", "%x"]] ∧
      (moved.function.instructions.map fun i => Token.symbols i.text) =
        [["@g", "%y", "%struct_0", "%x"]] := by
  decide +kernel

/-! ### Types that are known with a suffix only -/

/-- A type is missed under its name without a suffix. -/
theorem Function.stripSuffix_of_gap? {f : Function} {metadata : Metadata}
    {frequency : FrequencyTables} {o : Occurrence} {g : Gap} {id : Option UInt32} {t : String}
    (h : f.gap? metadata frequency o = some g) (hg : g.diagnostic = .metadataGap id "struct" t) :
    Token.stripSuffix t = t := by
  have hmessage := congrArg Diagnostic.message hg
  rw [gap?] at h
  split_ifs at h with hlocal htype hglobal
  · obtain rfl := Option.some.inj h
    have hname : Token.stripSuffix o.token = t := by
      simpa [Gap.diagnostic, Diagnostic.metadataGap, ← String.toList_inj] using hmessage
    rw [← hname, Token.stripSuffix_stripSuffix]
  · obtain rfl := Option.some.inj h
    simp [Gap.diagnostic, Diagnostic.metadataGap, ← String.toList_inj] at hmessage

/-- No type is missed under a name with a suffix. -/
theorem metadataGap_not_mem (metadata : Metadata) (frequency : FrequencyTables)
    (config : Config.Canonicalize) (f : Function) {t : String} (hcut : Token.stripSuffix t ≠ t)
    (id : Option UInt32) :
    .metadataGap id "struct" t ∉ (collectSymbols metadata frequency config f).2 := by
  obtain ⟨c, hc, -, -, -, hfirst⟩ := exists_collection metadata frequency config f
  rw [hc, hfirst.diagnostics_eq]
  intro hmem
  obtain ⟨g, hg, heq⟩ := List.mem_map.mp hmem
  obtain ⟨o, -, ho⟩ := List.mem_filterMap.mp (mem_of_mem_firstBy hg)
  exact hcut (Function.stripSuffix_of_gap? ho heq)

namespace PassContext

open Pass

variable {cctx : CollectContext} {ctx : PassContext} {t u c : String}

/-- The pass over types knows nothing of a name that is no type without its suffix. -/
theorem canonicalSymbol_eq_images_after (h : Collected cctx ctx.symbols)
    (hm : cctx.metadata = ctx.metadata) (hbare : ctx.metadata.bareName t = u)
    (hu : Token.isLocal u = true) (hunknown : ctx.metadata.hasStruct u = false) :
    ctx.canonicalSymbol t = images ctx structs.after u := by
  have hnone : ctx.symbols.structs.get? u = none := by
    refine RenameTable.get?_eq_none_iff.mpr fun hmem => ?_
    have hknown := (h.structs u hmem).2
    rw [hm, hunknown] at hknown
    simp at hknown
  have himage : structs.image ctx u = u := image_eq_self (by simp [rename?, hnone])
  rw [canonicalSymbol, symbolPasses_eq (p := structs) (by decide), images_append, images_cons,
    images_before_structs hbare hu, himage]

/-- What looks like a type is written by none of the passes behind the one over types. So it stays,
unless it is the name of a parameter, label or variable. -/
theorem images_after_eq_iff (h : Collected cctx ctx.symbols) (hu : Token.isLocal u = true)
    (hlike : Token.isStructLike u = true) :
    images ctx structs.after u = u ↔ ¬ ctx.symbols.Knows u := by
  have hafter : structs.after = [.calls, .labels, .locals] := by decide
  have hwritten : ∀ q ∈ structs.after, ∀ x, q.rename? ctx x ≠ some u := by
    intro q hq x hx
    obtain ⟨stem, hstem, hn⟩ := isNumbered_of_rename? h.sound (not_mem_of_mem_after hq).2 hx
    have hdot := (hn.not_mem (q.mem_stems_of_mem_stemsOf stem hstem)).1
    rw [Token.isStructLike_of_not_mem hdot] at hlike
    simp at hlike
  rw [images_eq_iff hwritten, hafter]
  simp only [List.forall_mem_cons, List.not_mem_nil, false_implies, implies_true, and_true,
    calls_rename?_of_isLocal h hu, true_and, SymbolTables.Knows, not_or]
  simp only [rename?, ← RenameTable.get?_eq_none_iff]
  cases ctx.symbols.params.get? u <;> simp

/-- No pass behind the one over types writes the canonical name of a type. -/
theorem images_after_ne (h : Collected cctx ctx.symbols) (hc : ctx.symbols.structs.get? t = some c)
    (hne : u ≠ c) : images ctx structs.after u ≠ c := by
  have hwritten : ∀ q ∈ structs.after, ∀ x, q.rename? ctx x ≠ some c := by
    intro q hq x hx
    obtain ⟨hqs, hfirst⟩ := not_mem_of_mem_after hq
    have hlookup : ctx.symbols.lookup structs t = some c := hc
    exact ne_of_lookup h.sound hqs (lookup_of_rename? hfirst hx) hlookup rfl
  exact fun heq => hne ((images_eq_iff hwritten).mp heq).1

/-- Where nothing stays of a type but its name without a suffix, it is not mentioned anywhere. -/
theorem struct_not_mem_mentions (h : Collected cctx ctx.symbols) (hcut : Token.stripSuffix t ≠ t)
    (hbare : ctx.metadata.bareName t ≠ t) (s : String) :
    .struct t ∉ (runPasses ctx s).mentions := by
  intro hmem
  obtain ⟨⟨u, hu⟩, c, hc, -⟩ := exists_of_struct_mem_mentions h.sound hmem
  have hlocal := (h.structs_lookup hc).1
  have hglobals : Pass.globals.image ctx (ctx.metadata.bareName u) = t := by
    rw [← structSuffixes_image_eq]
    exact hu
  -- a global name does not become a type
  rcases image_cases h.sound (p := .globals) (by simp) (ctx.metadata.bareName u) with
    ⟨-, heq⟩ | ⟨-, stem, hstem, hn⟩
  · rw [heq] at hglobals
    rcases ctx.metadata.bareName_cases u with hself | hstripped
    · rw [hself] at hglobals
      rw [hglobals] at hself
      exact hbare hself
    · rw [hstripped] at hglobals
      rw [← hglobals, Token.stripSuffix_stripSuffix] at hcut
      exact hcut rfl
  · obtain rfl : stem = "@global_var_" := by simpa [stemsOf] using hstem
    have hglobal := Token.isGlobal_iff.mpr (hn.head?_eq rfl)
    rw [hglobals, Token.isGlobal_of_isLocal hlocal] at hglobal
    simp at hglobal

end PassContext

/-- The other aggregate types in the instructions of a function: those that the metadata knows with
a suffix only, and that look like a type without it. The table has a canonical name for such a type
as well, but the suffix is stripped first, and the tables do not know what is left.

* The canonical name never stands in place of the identifier. What is left of it does, unless the
  function has a parameter, label or variable of that name.
* The instruction does not come to use the type, and no warning names it. -/
theorem types_lose_suffix (metadata : Metadata) (frequency : FrequencyTables)
    (config : Config.Canonicalize) (f : Function) {n k : Nat} {i : Instruction} {t : String}
    (hi : f.instructions[n]? = some i)
    (ht : (Token.symbols (Token.stripAnnotations i.text))[k]? = some t)
    (hkey : (f.collectContext metadata frequency).typeKey?
      (canonicalize metadata frequency config f).symbols t = some t)
    (hcut : Token.stripSuffix t ≠ t) (hlike : Token.isStructLike (Token.stripSuffix t) = true) :
    let done := canonicalize metadata frequency config f
    ∃ c i', done.symbols.structs.get? t = some c ∧ done.function.instructions[n]? = some i' ∧
      ((∀ ch ∈ config.constantPlaceholder.toList, Text.isSigil ch = false) →
        (Token.symbols i'.text)[k]? ≠ some c ∧
          ((Token.symbols i'.text)[k]? = some (Token.stripSuffix t) ↔
            ¬ done.symbols.Knows (Token.stripSuffix t))) ∧
      (t ∈ i'.usage.structs ↔ t ∈ i.usage.structs) ∧
      ∀ id, .metadataGap id "struct" t ∉ done.diagnostics := by
  intro done
  let ctx := rewriteContext metadata frequency config f
  have hcollected : Collected (f.collectContext metadata frequency) ctx.symbols :=
    collected_collectSymbols metadata frequency config f
  have hlocal := (CollectContext.typeKey?_eq_some hkey).1
  have hunknown := CollectContext.hasStruct_stripSuffix_of_typeKey? hkey hcut
  have hsymbol := List.mem_of_getElem? ht
  have hbase : Token.isLocal (Token.stripSuffix t) = true :=
    Token.isLocal_stripSuffix (Token.isSymbol_of_mem hsymbol) hlocal
  have hbare : ctx.metadata.bareName t = Token.stripSuffix t := by
    simp [Metadata.bareName, hlocal, hlike]
  obtain ⟨c, hc⟩ := RenameTable.mem_names_iff.mp
    (mem_structs_of_typeKey? (List.mem_of_getElem? hi) hsymbol hkey)
  have hcanonical : ctx.canonicalSymbol t =
      Pass.images ctx.toPassContext Pass.structs.after (Token.stripSuffix t) :=
    PassContext.canonicalSymbol_eq_images_after hcollected rfl hbare hbase hunknown
  refine ⟨c, ctx.canonicalInstruction i, hc, ?_, fun hp => ?_, ?_,
    metadataGap_not_mem metadata frequency config f hcut⟩
  · show (canonicalize metadata frequency config f).function.instructions[n]? = _
    rw [canonicalize_eq, RewriteContext.instructions_function, List.getElem?_map, hi]
    rfl
  · have hplace : (Token.symbols (runPasses ctx.toPassContext i.text).text)[k]? =
        some (ctx.canonicalSymbol t) := by
      rw [symbols_runPasses hcollected.sound hp, List.getElem?_map, ht, Option.map_some]
    -- what is left looks like a type, and a canonical name does not
    have hne : Token.stripSuffix t ≠ c := by
      rintro rfl
      have hn := hcollected.sound.structs.1.isNumbered hc
      rw [hcollected.sound.structs.2] at hn
      rw [Token.isStructLike_of_not_mem (hn.not_mem (by decide)).1] at hlike
      simp at hlike
    show (Token.symbols (runPasses ctx.toPassContext i.text).text)[k]? ≠ some c ∧
      ((Token.symbols (runPasses ctx.toPassContext i.text).text)[k]? = _ ↔ _)
    rw [hplace, hcanonical, ne_eq, Option.some.injEq, Option.some.injEq]
    exact ⟨PassContext.images_after_ne hcollected hc hne,
      PassContext.images_after_eq_iff hcollected hbase hlike⟩
  · exact RewriteContext.mem_usage_structs_iff_of_not_mem
      (PassContext.struct_not_mem_mentions hcollected hcut (by rwa [hbare]))

/-- The type is known as `%struct.node.12` only. -/
example :
    ((canonicalize { structs := [("struct.node.12", .null)] } {} {}
      { name := "f"
        blocks := [⟨"%0", [{ id := 1, opcode := .other "alloca",
                             text := "%p = alloca %struct.node.12" }]⟩] }).function.instructions.map
      (·.text)) = ["%var0 = alloca %struct.node"] := by
  decide +kernel

end InstrGraph
