import InstrGraph.Proofs.FirstBy
import InstrGraph.Proofs.Symbols.Collect

/-!
# The tables in the order of first sight

What a collection makes of an identifier depends on the names that are parameters or labels where it
stands, and on nothing that has been collected (`CollectContext.role`, `Collection.see_eq_enter`).
So each table holds the identifiers of its kind, every one where it is seen first
(`Collection.FirstSeen`): one identifier more keeps this true (`FirstSeen.enter`), hence all those
of a text do (`FirstSeen.seeAll`).

The labels of a function are not known yet where its parameters are declared. In the end the
collection holds the parameters, the labels, and the identifiers of the declarations and of the
instructions in the roles that they have where they stand (`exists_collection`).
-/

namespace InstrGraph

/-! ### Roles -/

/-- The kinds of names that the identifiers of texts are entered as. -/
inductive SymbolKind where
  | var
  | type
  | global
  | exemptCall
  | call
  deriving DecidableEq, Repr

/-- What an identifier is to a collection. -/
inductive Role where
  /-- A parameter or label, or a type that nothing is known of. -/
  | unnoted
  | entry (kind : SymbolKind) (name : String)
  /-- The metadata lacks the name; `what` says what kind of name. -/
  | missing (what name : String)
  deriving DecidableEq, Repr

/-- The aggregate type of the metadata that a name stands for, without its suffix if it can be. -/
def Metadata.typeOf? (m : Metadata) (t : String) : Option String :=
  if m.hasStruct (Token.stripSuffix t) then some (Token.stripSuffix t)
  else if m.hasStruct t then some t
  else none

/-- The role of an identifier where some names are parameters and labels. -/
def CollectContext.role (ctx : CollectContext) (introduced : List String) (t : String) : Role :=
  if Token.isLocal t then
    if introduced.contains t then .unnoted
    else if ctx.defined.contains t then .entry .var t
    else
      match ctx.metadata.typeOf? t with
      | some key => .entry .type key
      | none => if Token.isStructLike t then .missing "struct" (Token.stripSuffix t) else .unnoted
  else if ctx.metadata.hasGlobal t then .entry .global t
  else if ctx.frequency.isCommonCall t then .entry .exemptCall t
  else if ctx.callees.contains t then .entry .call t
  else .missing "global" t

namespace SymbolTables

/-- Note a name of a kind. -/
def note (s : SymbolTables) : SymbolKind → String → SymbolTables
  | .var => s.noteVar
  | .type => s.noteStruct
  | .global => s.noteGlobal
  | .exemptCall => s.noteExemptCall
  | .call => s.noteCall

/-- The names of a kind, if they are noted at all. -/
def noted (s : SymbolTables) : SymbolKind → Option (List String)
  | .var => some s.vars.names
  | .type => some s.structs.names
  | .global => s.globals.map RenameTable.names
  | .exemptCall => some s.exemptCalls
  | .call => some s.calls.names

variable {s : SymbolTables} {kind kind' : SymbolKind} {name : String}

/-- Noting a name does not touch the parameters. -/
@[simp] theorem params_note : (s.note kind name).params = s.params := by cases kind <;> rfl

/-- Noting a name does not touch the labels. -/
@[simp] theorem labels_note : (s.note kind name).labels = s.labels := by cases kind <;> rfl

/-- Noting a name does not give globals a table, and takes none away. -/
@[simp] theorem isSome_globals_note :
    (s.note kind name).globals.isSome = s.globals.isSome := by
  cases kind with
  | global => exact Option.isSome_map
  | var | type | exemptCall | call => rfl

/-- Inserting a name adds it to the names of a table unless it is there. -/
theorem names_insert_eq_pushUnique (t : RenameTable) (name : String) :
    (t.insert name).names = pushUnique t.names name := by
  rw [RenameTable.names_insert, pushUnique]
  simp only [List.contains_iff_mem]

/-- A name that is noted is added to those of its kind unless it is there. -/
theorem noted_note_self :
    (s.note kind name).noted kind = (s.noted kind).map (pushUnique · name) := by
  cases kind with
  | var | type | call => exact congrArg some (names_insert_eq_pushUnique ..)
  | exemptCall => rfl
  | global =>
    rw [noted, noted, note, noteGlobal, Option.map_map, Option.map_map]
    congr 1
    funext t
    exact names_insert_eq_pushUnique t name

/-- A name that is noted is not added to those of other kinds. -/
theorem noted_note_of_ne (h : kind' ≠ kind) : (s.note kind name).noted kind' = s.noted kind' := by
  cases kind <;> cases kind' <;> first | rfl | exact absurd rfl h

end SymbolTables

namespace Collection

/-- Enter an identifier in its role. -/
def enter (id : Option UInt32) (c : Collection) : Role → Collection
  | .unnoted => c
  | .entry kind n => { c with symbols := c.symbols.note kind n }
  | .missing what n => c.reportGap id what n

variable {ctx : CollectContext} {id : Option UInt32} {c : Collection} {t : String}
  {introduced : List String} {r : Role}

/-- The names are the parameters and labels that have been noted. -/
def Introduces (c : Collection) (introduced : List String) : Prop :=
  ∀ n, n ∈ introduced ↔ n ∈ c.symbols.params.names ∨ n ∈ c.symbols.labels.names

/-- What becomes of an identifier depends on the parameters and labels only. -/
theorem see_eq_enter (h : c.Introduces introduced) (ctx : CollectContext) (id : Option UInt32)
    (t : String) : see ctx id c t = enter id c (ctx.role introduced t) := by
  have hknown : (c.symbols.params.contains t || c.symbols.labels.contains t) =
      introduced.contains t := by
    rw [Bool.eq_iff_iff, Bool.or_eq_true, RenameTable.contains_iff, RenameTable.contains_iff,
      List.contains_iff_mem, h t]
  simp only [see, seeLocal, seeGlobal, hknown, CollectContext.role, Metadata.typeOf?]
  split_ifs <;> rfl

/-- Seeing an identifier does not touch the parameters. -/
@[simp] theorem params_enter : (enter id c r).symbols.params = c.symbols.params := by
  cases r <;> simp [enter]

/-- Seeing an identifier does not touch the labels. -/
@[simp] theorem labels_enter : (enter id c r).symbols.labels = c.symbols.labels := by
  cases r <;> simp [enter]

/-- Seeing an identifier does not give globals a table, and takes none away. -/
@[simp] theorem isSome_globals_enter :
    (enter id c r).symbols.globals.isSome = c.symbols.globals.isSome := by
  cases r <;> simp [enter]

end Collection

/-! ### The order of sight -/

/-- An identifier in a text, with the instruction of the text if there is one. -/
structure Occurrence where
  instruction : Option UInt32
  token : String
  deriving DecidableEq, Repr

/-- A name that the metadata lacks: the instruction that has it, what it should be, and the name. -/
structure Gap where
  instruction : Option UInt32
  what : String
  name : String
  deriving DecidableEq, Repr

/-- The warning about a missing name. -/
def Gap.diagnostic (g : Gap) : Diagnostic := .metadataGap g.instruction g.what g.name

namespace Role

/-- The name that is entered as one of a kind. -/
def name? (kind : SymbolKind) : Role → Option String
  | entry kind' name => if kind' = kind then some name else none
  | unnoted | missing .. => none

/-- What is missing. -/
def gap? (id : Option UInt32) : Role → Option Gap
  | missing what name => some ⟨id, what, name⟩
  | unnoted | entry .. => none

end Role

/-- Adding a name unless it is there, and dropping what occurs again, is one and the same. -/
theorem pushUnique_eraseDups (xs : List String) (x : String) :
    pushUnique xs.eraseDups x = (xs ++ [x]).eraseDups := by
  rw [pushUnique, eraseDups_concat]
  simp only [List.contains_iff_mem, List.mem_eraseDups]

namespace Collection

variable {ctx : CollectContext} {id : Option UInt32} {c : Collection} {t : String}
  {introduced : List String} {seen : List (Option UInt32 × Role)}

/-- The collection has a warning for each missing name, where it was missed first. -/
structure Reports (c : Collection) (gaps : List Gap) : Prop where
  diagnostics : c.diagnostics = (firstBy Gap.name gaps).map Gap.diagnostic
  reported : ∀ n, n ∈ c.reported ↔ n ∈ gaps.map Gap.name

/-- A missing name that is reported keeps the warnings where names were missed first. -/
theorem Reports.reportGap {gaps : List Gap} (h : c.Reports gaps) (g : Gap) :
    (c.reportGap g.instruction g.what g.name).Reports (gaps ++ [g]) := by
  rw [Collection.reportGap]
  by_cases hn : g.name ∈ c.reported
  · rw [if_pos (List.contains_iff_mem.mpr hn)]
    have hmem := (h.reported g.name).mp hn
    constructor
    · rw [firstBy_concat, if_pos hmem]
      exact h.diagnostics
    · intro n
      rw [h.reported, List.map_append, List.mem_append, List.map_singleton, List.mem_singleton]
      exact (or_iff_left_of_imp fun heq => heq ▸ hmem).symm
  · rw [if_neg fun hc => hn (List.contains_iff_mem.mp hc)]
    constructor
    · rw [firstBy_concat, if_neg fun hmem => hn ((h.reported g.name).mpr hmem), List.map_append,
        ← h.diagnostics]
      rfl
    · intro n
      rw [List.mem_cons, h.reported, List.map_append, List.mem_append, List.map_singleton,
        List.mem_singleton, or_comm]

/-- The collection holds each name where it was seen first among those of its kind. -/
structure FirstSeen (c : Collection) (seen : List (Option UInt32 × Role)) : Prop where
  names : ∀ kind names, c.symbols.noted kind = some names →
    names = (seen.filterMap fun e => e.2.name? kind).eraseDups
  gaps : c.Reports (seen.filterMap fun e => e.2.gap? e.1)

/-- One more identifier in its role. -/
theorem FirstSeen.enter (h : c.FirstSeen seen) (id : Option UInt32) (r : Role) :
    (enter id c r).FirstSeen (seen ++ [(id, r)]) := by
  have hnames (kind : SymbolKind) : ((seen ++ [(id, r)]).filterMap fun e => e.2.name? kind) =
      (seen.filterMap fun e => e.2.name? kind) ++ (r.name? kind).toList := by
    rw [List.filterMap_append, List.filterMap_cons]
    cases r.name? kind <;> rfl
  have hgaps : ((seen ++ [(id, r)]).filterMap fun e => e.2.gap? e.1) =
      (seen.filterMap fun e => e.2.gap? e.1) ++ (r.gap? id).toList := by
    rw [List.filterMap_append, List.filterMap_cons]
    cases r.gap? id <;> rfl
  cases r with
  | unnoted =>
    refine ⟨fun kind names hn => ?_, ?_⟩
    · rw [hnames, Role.name?, Option.toList_none, List.append_nil]
      exact h.names kind names hn
    · rw [hgaps, Role.gap?, Option.toList_none, List.append_nil]
      exact h.gaps
  | missing what n =>
    refine ⟨fun kind names hn => ?_, ?_⟩
    · rw [Collection.enter, symbols_reportGap] at hn
      rw [hnames, Role.name?, Option.toList_none, List.append_nil]
      exact h.names kind names hn
    · rw [hgaps]
      exact h.gaps.reportGap ⟨id, what, n⟩
  | entry kind n =>
    refine ⟨fun kind' names hn => ?_, ?_⟩
    · rw [hnames]
      by_cases hkind : kind' = kind
      · subst hkind
        rw [Collection.enter, SymbolTables.noted_note_self] at hn
        obtain ⟨before, hbefore, rfl⟩ := Option.map_eq_some_iff.mp hn
        rw [h.names kind' before hbefore, pushUnique_eraseDups, Role.name?, if_pos rfl]
        rfl
      · rw [Collection.enter, SymbolTables.noted_note_of_ne hkind] at hn
        rw [Role.name?, if_neg fun heq => hkind heq.symm, Option.toList_none, List.append_nil]
        exact h.names kind' names hn
    · rw [hgaps, Role.gap?, Option.toList_none, List.append_nil]
      exact ⟨h.gaps.diagnostics, h.gaps.reported⟩

/-- See identifiers one by one. -/
def seeAll (ctx : CollectContext) (os : List Occurrence) (c : Collection) : Collection :=
  os.foldl (fun c o => see ctx o.instruction c o.token) c

/-- Identifiers are no parameters or labels. -/
theorem seeAll_tables (ctx : CollectContext) (os : List Occurrence) (c : Collection) :
    (seeAll ctx os c).symbols.params = c.symbols.params ∧
      (seeAll ctx os c).symbols.labels = c.symbols.labels ∧
      (seeAll ctx os c).symbols.globals.isSome = c.symbols.globals.isSome := by
  induction os generalizing c with
  | nil => exact ⟨rfl, rfl, rfl⟩
  | cons o os ih =>
    have hintroduces : c.Introduces (c.symbols.params.names ++ c.symbols.labels.names) :=
      fun _ => List.mem_append
    have hsee := see_eq_enter hintroduces ctx o.instruction o.token
    obtain ⟨hparams, hlabels, hglobals⟩ := ih (see ctx o.instruction c o.token)
    exact ⟨hparams.trans (hsee ▸ params_enter), hlabels.trans (hsee ▸ labels_enter),
      hglobals.trans (hsee ▸ isSome_globals_enter)⟩

/-- Seeing identifiers brings no parameters and no labels. -/
theorem Introduces.seeAll (h : c.Introduces introduced) (ctx : CollectContext)
    (os : List Occurrence) : (seeAll ctx os c).Introduces introduced := by
  obtain ⟨hparams, hlabels, -⟩ := seeAll_tables ctx os c
  rwa [Introduces, hparams, hlabels]

/-- All identifiers of a stretch in which no parameter or label is noted. -/
theorem FirstSeen.seeAll (h : c.FirstSeen seen) (hintroduces : c.Introduces introduced)
    (ctx : CollectContext) (os : List Occurrence) : (seeAll ctx os c).FirstSeen
      (seen ++ os.map fun o => (o.instruction, ctx.role introduced o.token)) := by
  induction os generalizing c seen with
  | nil => simpa [Collection.seeAll] using h
  | cons o os ih =>
    have hfirst := see_eq_enter hintroduces ctx o.instruction o.token ▸
      h.enter o.instruction (ctx.role introduced o.token)
    rw [List.map_cons, List.append_cons]
    exact ih hfirst (hintroduces.seeAll ctx [o])

end Collection

/-! ### The names of a function -/

/-- The identifiers of a text, its annotations left out. -/
def Occurrence.ofText (id : Option UInt32) (text : String) : List Occurrence :=
  (Token.symbols (Token.stripAnnotations text)).map (⟨id, ·⟩)

namespace Function

/-- The identifiers in the declarations of the parameters. -/
def declaredOccurrences (f : Function) : List Occurrence :=
  f.params.flatMap (Occurrence.ofText none)

/-- The identifiers of each instruction: in its text, its return type and its callee. -/
def bodyOccurrences (f : Function) : List Occurrence :=
  f.instructions.flatMap fun i => (Collection.textsOf i).flatMap (Occurrence.ofText (some i.id))

/-- The identifiers of a function, those of the declarations first. -/
def occurrences (f : Function) : List Occurrence := f.declaredOccurrences ++ f.bodyOccurrences

/-- The parameters and labels that are known where an identifier stands. In the declarations the
labels are not known yet. -/
def introducedAt (f : Function) (o : Occurrence) : List String :=
  match o.instruction with
  | none => f.declaredParams
  | some _ => f.declaredParams ++ f.labelNames

/-- What the identifiers of a function are to a collection. -/
def roles (f : Function) (ctx : CollectContext) : List (Option UInt32 × Role) :=
  f.occurrences.map fun o => (o.instruction, ctx.role (f.introducedAt o) o.token)

variable {f : Function} {o : Occurrence}

/-- In the declarations, only the parameters are known. -/
theorem introducedAt_of_mem_declared (ho : o ∈ f.declaredOccurrences) :
    f.introducedAt o = f.declaredParams := by
  obtain ⟨text, -, ho⟩ := List.mem_flatMap.mp ho
  obtain ⟨t, -, rfl⟩ := List.mem_map.mp ho
  rfl

/-- In the instructions, the parameters and the labels are known. -/
theorem introducedAt_of_mem_body (ho : o ∈ f.bodyOccurrences) :
    f.introducedAt o = f.declaredParams ++ f.labelNames := by
  obtain ⟨i, -, ho⟩ := List.mem_flatMap.mp ho
  obtain ⟨text, -, ho⟩ := List.mem_flatMap.mp ho
  obtain ⟨t, -, rfl⟩ := List.mem_map.mp ho
  rfl

/-- The roles of the identifiers of a function are those of its declarations, where no labels are
known yet, and those of its instructions. -/
theorem roles_eq (f : Function) (ctx : CollectContext) : f.roles ctx =
    (f.declaredOccurrences.map fun o => (o.instruction, ctx.role f.declaredParams o.token)) ++
      f.bodyOccurrences.map fun o =>
        (o.instruction, ctx.role (f.declaredParams ++ f.labelNames) o.token) := by
  rw [roles, occurrences, List.map_append]
  exact congrArg₂ _ (List.map_congr_left fun o ho => by rw [introducedAt_of_mem_declared ho])
    (List.map_congr_left fun o ho => by rw [introducedAt_of_mem_body ho])

end Function

/-- Names that are inserted into an empty table are in it where each of them stands first. -/
theorem RenameTable.names_insertAll {t : RenameTable} (h : t.names = []) (ns : List String) :
    (t.insertAll ns).names = ns.eraseDups := by
  induction ns using List.reverseRecOn with
  | nil => exact h
  | append_singleton ns n ih =>
    rw [insertAll_append, ← pushUnique_eraseDups, ← ih]
    exact SymbolTables.names_insert_eq_pushUnique ..

namespace Collection

variable {ctx : CollectContext} {c : Collection}

/-- A collection of parameters has seen no identifiers yet. -/
theorem firstSeen_ofParams (style : Config.LabelStyle) (renameGlobals : Bool)
    (names : List String) : (ofParams style renameGlobals names).FirstSeen [] where
  names kind names hn := by
    cases kind with
    | var | type | exemptCall | call => exact (Option.some.inj hn).symm
    | global =>
      cases renameGlobals with
      | false => cases hn
      | true => exact (Option.some.inj hn).symm
  gaps := ⟨rfl, by simp [ofParams]⟩

/-- A collection of parameters has their names and no labels. -/
theorem introduces_ofParams (style : Config.LabelStyle) (renameGlobals : Bool)
    (names : List String) : (ofParams style renameGlobals names).Introduces names := by
  intro n
  rw [ofParams, RenameTable.mem_names_insertAll]
  simp [SymbolTables.empty, RenameTable.empty, RenameTable.names]

/-- Noting labels keeps what has been seen of the other kinds. -/
theorem FirstSeen.noteLabels {seen : List (Option UInt32 × Role)} (h : c.FirstSeen seen)
    (names : List String) : (c.noteLabels names).FirstSeen seen :=
  ⟨h.names, h.gaps.diagnostics, h.gaps.reported⟩

/-- Noting labels introduces their names. -/
theorem Introduces.noteLabels {introduced : List String} (h : c.Introduces introduced)
    (names : List String) : (c.noteLabels names).Introduces (introduced ++ names) := by
  intro n
  rw [Collection.noteLabels, RenameTable.mem_names_insertAll, List.mem_append, h n, or_assoc]

end Collection

/-! ### The collection of a function -/

/-- An identifier as it is shown to a collection. -/
def Occurrence.sighting (o : Occurrence) : Sighting := .token o.instruction o.token

/-- Noting sightings of identifiers one after the other is seeing the identifiers. -/
theorem Collection.foldl_note_sightings (ctx : CollectContext) (os : List Occurrence)
    (c : Collection) :
    (os.map Occurrence.sighting).foldl (note ctx) c = seeAll ctx os c := List.foldl_map

namespace Function

/-- The sightings of a text are those of its identifiers. -/
theorem map_sighting_ofText (id : Option UInt32) (texts : List String) :
    (texts.flatMap (Occurrence.ofText id)).map Occurrence.sighting =
      texts.flatMap (Sighting.ofText id) := by
  rw [List.map_flatMap]
  exact List.flatMap_congr fun text _ => by rw [Occurrence.ofText, List.map_map]; rfl

/-- The sightings of the instructions are those of the identifiers in them. -/
theorem map_sighting_body (f : Function) : f.bodyOccurrences.map Occurrence.sighting =
    f.instructions.flatMap Instruction.sightings := by
  rw [bodyOccurrences, List.map_flatMap]
  exact List.flatMap_congr fun i _ => map_sighting_ofText (some i.id) (Collection.textsOf i)

/-- A function is collected in this order: parameters, the identifiers of their declarations,
labels, the identifiers of the instructions. -/
theorem collection_eq_seeAll (metadata : Metadata) (frequency : FrequencyTables)
    (config : Config.Canonicalize) (f : Function) : f.collection metadata frequency config =
      .seeAll (f.collectContext metadata frequency) f.bodyOccurrences
        (.noteLabels (.seeAll (f.collectContext metadata frequency) f.declaredOccurrences
          (.ofParams config.labelStyle config.renameGlobals f.declaredParams)) f.labelNames) := by
  rw [collection_eq, ← map_sighting_ofText, ← map_sighting_body,
    Collection.foldl_note_sightings, Collection.foldl_note_sightings]
  rfl

end Function

/-- What is collected from a function: its parameters and labels, and its identifiers in their
roles, each by first sight. -/
theorem exists_collection (metadata : Metadata) (frequency : FrequencyTables)
    (config : Config.Canonicalize) (f : Function) :
    ∃ c : Collection, collectSymbols metadata frequency config f = (c.symbols, c.diagnostics) ∧
      c.symbols.params = (RenameTable.empty "%arg" 1).insertAll f.declaredParams ∧
      c.symbols.labels = (RenameTable.empty config.labelStyle.stem 0).insertAll f.labelNames ∧
      c.symbols.globals.isSome = config.renameGlobals ∧
      c.FirstSeen (f.roles (f.collectContext metadata frequency)) := by
  have hdeclared := Collection.seeAll_tables (f.collectContext metadata frequency)
    f.declaredOccurrences (.ofParams config.labelStyle config.renameGlobals f.declaredParams)
  have hbody := Collection.seeAll_tables (f.collectContext metadata frequency) f.bodyOccurrences
    (.noteLabels (.seeAll (f.collectContext metadata frequency) f.declaredOccurrences
      (.ofParams config.labelStyle config.renameGlobals f.declaredParams)) f.labelNames)
  rw [← f.collection_eq_seeAll] at hbody
  refine ⟨_, collectSymbols_eq_foldl metadata frequency config f, hbody.1.trans hdeclared.1,
    hbody.2.1.trans (congrArg (·.insertAll f.labelNames) hdeclared.2.1),
    hbody.2.2.trans (hdeclared.2.2.trans ?_), ?_⟩
  · cases hrename : config.renameGlobals <;> simp [Collection.ofParams, SymbolTables.empty]
  · have hintroduces := Collection.introduces_ofParams config.labelStyle config.renameGlobals
      f.declaredParams
    have hfirst := (Collection.firstSeen_ofParams config.labelStyle config.renameGlobals
      f.declaredParams).seeAll hintroduces (f.collectContext metadata frequency)
        f.declaredOccurrences
    rw [f.collection_eq_seeAll, f.roles_eq]
    exact (hfirst.noteLabels f.labelNames).seeAll
      ((hintroduces.seeAll _ _).noteLabels f.labelNames) _ f.bodyOccurrences

/-- The parameters that are collected are those that the function declares. -/
theorem mem_params_collectSymbols {metadata : Metadata} {frequency : FrequencyTables}
    {config : Config.Canonicalize} {f : Function} {n : String} :
    n ∈ (collectSymbols metadata frequency config f).1.params.names ↔ n ∈ f.declaredParams := by
  obtain ⟨c, hc, hparams, -⟩ := exists_collection metadata frequency config f
  rw [hc, hparams, RenameTable.mem_names_insertAll]
  simp [RenameTable.empty, RenameTable.names]

/-- The labels that are collected are those of its blocks. -/
theorem mem_labels_collectSymbols {metadata : Metadata} {frequency : FrequencyTables}
    {config : Config.Canonicalize} {f : Function} {n : String} :
    n ∈ (collectSymbols metadata frequency config f).1.labels.names ↔ n ∈ f.labelNames := by
  obtain ⟨c, hc, -, hlabels, -⟩ := exists_collection metadata frequency config f
  rw [hc, hlabels, RenameTable.mem_names_insertAll]
  simp [RenameTable.empty, RenameTable.names]

end InstrGraph
