import InstrGraph.Proofs.Text.Symbols
import InstrGraph.Symbols.Collect

/-!
# What a collection is shown, in order

The collection of symbols is shown names one by one: the parameters, the identifiers of their
declarations, the labels, and the identifiers of the instructions (`Function.sightings`). Each is
one step (`Collection.note`), and the collection is the run of these steps
(`collectSymbols_eq_foldl`; `Function.collection_eq` has it stage by stage). So what holds of the
empty tables and is kept by every step holds of the tables of a function
(`Function.collection_induction`).
-/

namespace InstrGraph

/-- One name that a collection is shown. -/
inductive Sighting where
  | param (name : String)
  | label (name : String)
  /-- An identifier of a text, with the instruction of the text if there is one. -/
  | token (id : Option UInt32) (t : String)
  deriving DecidableEq, Repr

/-- The identifiers of a text, its annotations left out. -/
def Sighting.ofText (id : Option UInt32) (text : String) : List Sighting :=
  (Token.symbols (Token.stripAnnotations text)).map (token id)

/-- The identifiers of an instruction. -/
def Instruction.sightings (i : Instruction) : List Sighting :=
  (Collection.textsOf i).flatMap (Sighting.ofText (some i.id))

/-- The names of the parameters, without annotations. -/
def Function.declaredParams (f : Function) : List String :=
  f.paramNames.map Token.stripAnnotations

/-- The labels of the blocks, as they are referred to. -/
def Function.labelNames (f : Function) : List String :=
  f.blocks.map fun b => Token.normalizeLabel b.label

/-- The names of a function in the order in which they are collected. -/
def Function.sightings (f : Function) : List Sighting :=
  (f.paramNames.map fun n => .param (Token.stripAnnotations n)) ++
    f.params.flatMap (Sighting.ofText none) ++
    (f.blocks.map fun b => .label (Token.normalizeLabel b.label)) ++
    f.instructions.flatMap Instruction.sightings

/-- The texts in which the symbols of a function are looked for. -/
def Function.scannedTexts (f : Function) : List String :=
  f.params ++ f.instructions.flatMap Collection.textsOf

/-- A collection is shown parameters, labels, and identifiers of the texts that are scanned. -/
theorem Function.sighting_cases {f : Function} {e : Sighting} (h : e ∈ f.sightings) :
    (∃ p ∈ f.params, e = .param (Token.stripAnnotations (Token.last p))) ∨
      (∃ b ∈ f.blocks, e = .label (Token.normalizeLabel b.label)) ∨
      ∃ id, ∃ s ∈ f.scannedTexts, ∃ t ∈ Token.symbols (Token.stripAnnotations s),
        e = .token id t := by
  simp only [sightings, paramNames, List.map_map, List.mem_append, List.mem_map,
    List.mem_flatMap] at h
  rcases h with ((⟨p, hp, rfl⟩ | ⟨p, hp, he⟩) | ⟨b, hb, rfl⟩) | ⟨i, hi, he⟩
  · exact Or.inl ⟨p, hp, rfl⟩
  · obtain ⟨t, ht, rfl⟩ := List.mem_map.mp he
    exact Or.inr (Or.inr ⟨_, p, List.mem_append_left _ hp, t, ht, rfl⟩)
  · exact Or.inr (Or.inl ⟨b, hb, rfl⟩)
  · obtain ⟨s, hs, he⟩ := List.mem_flatMap.mp he
    obtain ⟨t, ht, rfl⟩ := List.mem_map.mp he
    have hs := List.mem_append_right f.params (List.mem_flatMap.mpr ⟨i, hi, hs⟩)
    exact Or.inr (Or.inr ⟨_, s, hs, t, ht, rfl⟩)

namespace SymbolTables

/-- Noting parameters one after the other is inserting them into their table. -/
theorem foldl_noteParam (name : String → String) (ns : List String) (s : SymbolTables) :
    ns.foldl (fun s n => s.noteParam (name n)) s =
      { s with params := s.params.insertAll (ns.map name) } := by
  induction ns generalizing s with
  | nil => rfl
  | cons n ns ih =>
    rw [List.foldl_cons, ih]
    rfl

/-- Noting labels one after the other is inserting them into their table. -/
theorem foldl_noteLabel (name : Block → String) (bs : List Block) (s : SymbolTables) :
    bs.foldl (fun s b => s.noteLabel (name b)) s =
      { s with labels := s.labels.insertAll (bs.map name) } := by
  induction bs generalizing s with
  | nil => rfl
  | cons b bs ih =>
    rw [List.foldl_cons, ih]
    rfl

end SymbolTables

namespace Collection

variable {ctx : CollectContext} {id : Option UInt32} {c : Collection} {t : String}

/-- A collection with nothing but parameters. -/
def ofParams (style : Config.LabelStyle) (renameGlobals : Bool) (names : List String) :
    Collection where
  symbols :=
    { SymbolTables.empty style renameGlobals with
      params := (RenameTable.empty "%arg" 1).insertAll names }

/-- Note labels. -/
def noteLabels (c : Collection) (names : List String) : Collection :=
  { c with symbols := { c.symbols with labels := c.symbols.labels.insertAll names } }

/-- Reporting a gap does not touch the tables. -/
@[simp] theorem symbols_reportGap (c : Collection) (id : Option UInt32) (what name : String) :
    (c.reportGap id what name).symbols = c.symbols := by
  unfold reportGap
  split <;> rfl

/-- Note one name. -/
def note (ctx : CollectContext) (c : Collection) : Sighting → Collection
  | .param name => { c with symbols := c.symbols.noteParam name }
  | .label name => { c with symbols := c.symbols.noteLabel name }
  | .token id t => see ctx id c t

/-- Scanning a text is noting its sightings. -/
theorem scan_eq_foldl (ctx : CollectContext) (id : Option UInt32) (c : Collection) (text : String) :
    scan ctx id c text = (Sighting.ofText id text).foldl (note ctx) c := by
  rw [scan, Sighting.ofText, List.foldl_map]
  rfl

/-- Scanning several texts is noting their sightings. -/
theorem foldl_scan_eq_foldl (ctx : CollectContext) (id : Option UInt32) (texts : List String)
    (c : Collection) :
    texts.foldl (scan ctx id) c = (texts.flatMap (Sighting.ofText id)).foldl (note ctx) c := by
  induction texts generalizing c with
  | nil => rfl
  | cons text texts ih =>
    rw [List.foldl_cons, ih, List.flatMap_cons, List.foldl_append, scan_eq_foldl]

/-- Scanning instructions is noting their sightings. -/
theorem foldl_scanInstruction_eq_foldl (ctx : CollectContext) (is : List Instruction)
    (c : Collection) :
    is.foldl (scanInstruction ctx) c = (is.flatMap Instruction.sightings).foldl (note ctx) c := by
  induction is generalizing c with
  | nil => rfl
  | cons i is ih =>
    rw [List.foldl_cons, ih, List.flatMap_cons, List.foldl_append, scanInstruction,
      foldl_scan_eq_foldl, Instruction.sightings]

/-- Noting the sightings of parameters is noting the parameters. -/
theorem foldl_noteParam_eq_foldl (ctx : CollectContext) (names : List String) (c : Collection) :
    (names.map fun n => Sighting.param (Token.stripAnnotations n)).foldl (note ctx) c =
      { c with
        symbols := names.foldl (fun s n => s.noteParam (Token.stripAnnotations n)) c.symbols } := by
  induction names generalizing c with
  | nil => rfl
  | cons n names ih =>
    rw [List.map_cons, List.foldl_cons, ih, List.foldl_cons]
    rfl

/-- Noting the sightings of labels is noting the labels. -/
theorem foldl_noteLabel_eq_foldl (ctx : CollectContext) (blocks : List Block) (c : Collection) :
    (blocks.map fun b => Sighting.label (Token.normalizeLabel b.label)).foldl (note ctx) c =
      { c with
        symbols := blocks.foldl (fun s b => s.noteLabel (Token.normalizeLabel b.label))
          c.symbols } := by
  induction blocks generalizing c with
  | nil => rfl
  | cons b blocks ih =>
    rw [List.map_cons, List.foldl_cons, ih, List.foldl_cons]
    rfl

end Collection

/-- What the names of a function are looked up in. -/
def Function.collectContext (f : Function) (metadata : Metadata) (frequency : FrequencyTables) :
    CollectContext := ⟨metadata, frequency, f.definedVars, f.callees⟩

/-- The collection of a function, after all its names. -/
def Function.collection (f : Function) (metadata : Metadata) (frequency : FrequencyTables)
    (config : Config.Canonicalize) : Collection :=
  f.sightings.foldl (Collection.note (f.collectContext metadata frequency))
    { symbols := .empty config.labelStyle config.renameGlobals }

/-- The symbols of a function are collected name by name. -/
theorem collectSymbols_eq_foldl (metadata : Metadata) (frequency : FrequencyTables)
    (config : Config.Canonicalize) (f : Function) :
    collectSymbols metadata frequency config f =
      ((f.collection metadata frequency config).symbols,
        (f.collection metadata frequency config).diagnostics) := by
  rw [Function.collection, Function.sightings, List.foldl_append, List.foldl_append,
    List.foldl_append, Collection.foldl_noteParam_eq_foldl, ← Collection.foldl_scan_eq_foldl,
    Collection.foldl_noteLabel_eq_foldl, ← Collection.foldl_scanInstruction_eq_foldl]
  rfl

/-- The collection of a function, stage by stage: its parameters, their declarations, the labels,
the instructions. -/
theorem Function.collection_eq (metadata : Metadata) (frequency : FrequencyTables)
    (config : Config.Canonicalize) (f : Function) :
    let ctx := f.collectContext metadata frequency
    f.collection metadata frequency config =
      (f.instructions.flatMap Instruction.sightings).foldl (Collection.note ctx)
        (((f.params.flatMap (Sighting.ofText none)).foldl (Collection.note ctx)
          (.ofParams config.labelStyle config.renameGlobals f.declaredParams)).noteLabels
            f.labelNames) := by
  rw [Function.collection, Function.sightings, List.foldl_append, List.foldl_append,
    List.foldl_append, Collection.foldl_noteParam_eq_foldl, Collection.foldl_noteLabel_eq_foldl,
    SymbolTables.foldl_noteParam, SymbolTables.foldl_noteLabel]
  rfl

/-- The tokens that are seen in a function are identifiers. -/
theorem Function.isSymbol_of_mem_sightings {f : Function} {id : Option UInt32} {t : String}
    (h : .token id t ∈ f.sightings) : Token.isSymbol t = true := by
  rcases sighting_cases h with ⟨p, -, he⟩ | ⟨b, -, he⟩ | ⟨id', s, -, u, hu, he⟩
  · simp at he
  · simp at he
  · obtain ⟨-, rfl⟩ := Sighting.token.inj he
    exact Token.isSymbol_of_mem hu

/-- What holds of the empty tables and is kept by every step holds of the tables of a function. -/
theorem Function.collection_induction {P : SymbolTables → Prop} {metadata : Metadata}
    {frequency : FrequencyTables} {config : Config.Canonicalize} {f : Function}
    (start : P (.empty config.labelStyle config.renameGlobals))
    (note : ∀ c, ∀ e ∈ f.sightings, P c.symbols →
      P (Collection.note (f.collectContext metadata frequency) c e).symbols) :
    P (f.collection metadata frequency config).symbols := by
  suffices hall : ∀ (es : List Sighting), (∀ e ∈ es, e ∈ f.sightings) → ∀ c : Collection,
      P c.symbols → P (es.foldl (Collection.note (f.collectContext metadata frequency)) c).symbols
    from hall _ (fun _ he => he) _ start
  intro es hes
  induction es with
  | nil => exact fun c h => h
  | cons e es ih =>
    exact fun c h => ih (fun e' he' => hes e' (List.mem_cons_of_mem _ he')) _
      (note c e (hes e List.mem_cons_self) h)

end InstrGraph
