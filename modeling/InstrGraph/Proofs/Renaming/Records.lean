import InstrGraph.Proofs.Symbols.Mirrors
import InstrGraph.Proofs.Symbols.Scope

/-!
# Renaming the local names of a function

`Function.rename` replaces the identifiers in every field of a function. A `LocalRenaming` is a map
that does so without harm: it keeps identifiers apart, and what it moves are names that the function
itself introduces, none of which looks like the name of a type or of a label in canonical form.

What is read off the fields of a function commutes with it, so a renamed function shows the
collection the images of the names that the function shows it (`LocalRenaming.sightings_rename`).
-/

namespace InstrGraph

/-! ### What a function introduces -/

namespace Function

/-- The function introduces the name: as a parameter, as a block label, or as a variable that it
defines and that stands in one of the texts where symbols are looked for. -/
def Introduces (f : Function) (t : String) : Prop :=
  t ∈ f.paramNames.map Token.stripAnnotations ∨
    t ∈ (f.blocks.map fun b => Token.normalizeLabel b.label) ∨
    t ∈ f.definedVars ∧ ∃ s ∈ f.scannedTexts, t ∈ Token.symbols (Token.stripAnnotations s)

/-- No field has a double quote, and labels are written behind `%` wherever they stand. -/
structure PlainlyWritten (f : Function) : Prop where
  unquoted : f.Unquoted
  labels : ∀ b ∈ f.blocks, Token.WritesLocal b.label
  targets : ∀ i ∈ f.instructions, ∀ t ∈ i.targets, Token.WritesLocal t

instance (f : Function) (t : String) : Decidable (f.Introduces t) :=
  inferInstanceAs (Decidable (_ ∨ _ ∨ _ ∧ _))

instance (f : Function) : Decidable f.PlainlyWritten :=
  decidable_of_iff (f.Unquoted ∧
      (∀ b ∈ f.blocks, Token.WritesLocal b.label) ∧
      ∀ i ∈ f.instructions, ∀ t ∈ i.targets, Token.WritesLocal t)
    ⟨fun h => ⟨h.1, h.2.1, h.2.2⟩, fun h => ⟨h.unquoted, h.labels, h.targets⟩⟩

namespace PlainlyWritten

variable {f : Function}

/-- The labels of a plainly written function are in its scope. -/
theorem normalizeLabel_mem_scope (hw : f.PlainlyWritten) {b : Block} (hb : b ∈ f.blocks) :
    Token.normalizeLabel b.label ∈ f.scope := by
  have hscope := hw.unquoted.mem_scope (mem_texts_of_label hb)
  rw [Token.normalizeLabel_eq_last hscope.1 (hw.labels b hb)]
  exact last_mem_scope hscope

/-- Every name that is collected stands in the function. -/
theorem sighting_mem_scope (hw : f.PlainlyWritten) {e : Sighting} (he : e ∈ f.sightings) :
    e.name ∈ f.scope := by
  rcases sighting_cases he with ⟨p, hp, rfl⟩ | ⟨b, hb, rfl⟩ | ⟨id, s, hs, t, ht, rfl⟩
  · have hscope := hw.unquoted.mem_scope (mem_texts_of_param hp)
    exact stripAnnotations_mem_scope (last_mem_scope hscope)
  · exact hw.normalizeLabel_mem_scope hb
  · have hscope := stripAnnotations_mem_scope (hw.unquoted.scannedTexts_mem_scope s hs)
    exact symbol_mem_scope (Token.isSymbol_of_mem ht) (hscope.2 t ht)

end PlainlyWritten

end Function

/-! ### Renaming -/

/-- The instruction with its identifiers renamed. -/
def Instruction.rename (ρ : String → String) (i : Instruction) : Instruction where
  id := i.id
  opcode := i.opcode
  text := Token.mapSymbols ρ i.text
  operands := i.operands.map (Token.mapSymbols ρ)
  definedVar := i.definedVar.map (Token.mapSymbols ρ)
  condition := i.condition.map (Token.mapSymbols ρ)
  targets := i.targets.map (Token.mapSymbols ρ)
  callee := i.callee.map (Token.mapSymbols ρ)
  returnType := i.returnType.map (Token.mapSymbols ρ)
  returnValue := i.returnValue.map (Token.mapSymbols ρ)
  usage := i.usage

/-- The block with its identifiers renamed. -/
def Block.rename (ρ : String → String) (b : Block) : Block where
  label := Token.mapSymbols ρ b.label
  instructions := b.instructions.map (Instruction.rename ρ)

/-- The function with its identifiers renamed in every field. -/
def Function.rename (ρ : String → String) (f : Function) : Function where
  name := f.name
  params := f.params.map (Token.mapSymbols ρ)
  blocks := f.blocks.map (Block.rename ρ)

/-- The instructions of a renamed function are the renamed ones. -/
theorem Function.instructions_rename (ρ : String → String) (f : Function) :
    (f.rename ρ).instructions = f.instructions.map (Instruction.rename ρ) := by
  simp only [Function.instructions, Function.rename, List.flatMap_map, List.map_flatMap]
  rfl

/-- A local name that is none of an aggregate type and none of a label in canonical form, with or
without a suffix. -/
structure PlainLocal (metadata : Metadata) (t : String) : Prop where
  isLocal : Token.isLocal t = true
  noColon : ':' ∉ t.toList
  noHead : ∀ head ∈ ["%struct", "%class.", "%union.", "%label_", "%block_"],
    Token.startsWith t head = false
  noStruct : metadata.hasStruct t = false
  noStructBase : metadata.hasStruct (Token.stripSuffix t) = false

instance (metadata : Metadata) (t : String) : Decidable (PlainLocal metadata t) :=
  decidable_of_iff (Token.isLocal t = true ∧ ':' ∉ t.toList ∧
      (∀ head ∈ ["%struct", "%class.", "%union.", "%label_", "%block_"],
        Token.startsWith t head = false) ∧
      metadata.hasStruct t = false ∧ metadata.hasStruct (Token.stripSuffix t) = false)
    ⟨fun h => ⟨h.1, h.2.1, h.2.2.1, h.2.2.2.1, h.2.2.2.2⟩,
      fun h => ⟨h.isLocal, h.noColon, h.noHead, h.noStruct, h.noStructBase⟩⟩

/-- A renaming of names that the function introduces, to new names that clash with no others. -/
structure LocalRenaming (metadata : Metadata) (f : Function) (ρ : String → String) : Prop where
  isSymbol : ∀ t ∈ f.symbols, Token.isSymbol (ρ t) = true
  inj : ∀ t ∈ f.symbols, ∀ u ∈ f.symbols, ρ t = ρ u → t = u
  introduced : ∀ t ∈ f.symbols, ρ t ≠ t → f.Introduces t
  plain : ∀ t ∈ f.symbols, ρ t ≠ t → PlainLocal metadata t ∧ PlainLocal metadata (ρ t)

instance (metadata : Metadata) (f : Function) (ρ : String → String) :
    Decidable (LocalRenaming metadata f ρ) :=
  decidable_of_iff ((∀ t ∈ f.symbols, Token.isSymbol (ρ t) = true) ∧
      (∀ t ∈ f.symbols, ∀ u ∈ f.symbols, ρ t = ρ u → t = u) ∧
      (∀ t ∈ f.symbols, ρ t ≠ t → f.Introduces t) ∧
      ∀ t ∈ f.symbols, ρ t ≠ t → PlainLocal metadata t ∧ PlainLocal metadata (ρ t))
    ⟨fun h => ⟨h.1, h.2.1, h.2.2.1, h.2.2.2⟩,
      fun h => ⟨h.isSymbol, h.inj, h.introduced, h.plain⟩⟩

/-! ### Reading a renamed function -/

namespace LocalRenaming

variable {metadata : Metadata} {f : Function} {ρ : String → String} {s t : String}
  {i : Instruction}

/-- A renaming keeps the sigils of names. -/
theorem isLocal_eq (h : LocalRenaming metadata f ρ) (ht : t ∈ f.symbols) :
    (ρ t).toList.head? = t.toList.head? := by
  by_cases hmoved : ρ t = t
  · rw [hmoved]
  · obtain ⟨hold, hnew⟩ := h.plain t ht hmoved
    rw [Token.isLocal_iff.mp hold.isLocal, Token.isLocal_iff.mp hnew.isLocal]

/-- A renaming keeps the identifiers of texts in scope. -/
theorem keepsSymbols (h : LocalRenaming metadata f ρ) (hs : s ∈ f.scope) :
    Token.KeepsSymbols ρ s := fun t ht => h.isSymbol t (hs.2 t ht)

/-- A renaming keeps the sigils of texts in scope. -/
theorem keepsSigils (h : LocalRenaming metadata f ρ) (hs : s ∈ f.scope) :
    Token.KeepsSigils ρ s := fun _ ht => h.isLocal_eq (hs.2 _ ht)

/-- Different texts of a function stay different. -/
theorem separates (h : LocalRenaming metadata f ρ) (hs : s ∈ f.scope) :
    RenameTable.Separates (Token.mapSymbols ρ) f.scope s :=
  fun _ hn heq => Token.mapSymbols_inj (h.keepsSymbols hn) (h.keepsSymbols hs)
    (fun t ht u hu => h.inj t (hn.2 t ht) u (hs.2 u hu)) heq

/-- The result of a renamed instruction is the renamed one. -/
theorem resultVar?_rename (h : LocalRenaming metadata f ρ) (hi : ∀ s ∈ i.texts, s ∈ f.scope) :
    (i.rename ρ).resultVar? = i.resultVar?.map (Token.mapSymbols ρ) := by
  unfold Instruction.resultVar?
  rw [show (i.rename ρ).definedVar = i.definedVar.map (Token.mapSymbols ρ) from rfl]
  cases hd : i.definedVar with
  | some v =>
    have hv : v ∈ f.scope := hi v (by simp [Instruction.texts, hd])
    simp only [Option.map_some]
    rw [Token.trim_mapSymbols (h.keepsSymbols hv), Token.isEmpty_mapSymbols
      (h.keepsSymbols (Function.mem_scope_of_cutFrom hv (Token.cutFrom_trim v)))]
    split <;> rfl
  | none =>
    have htext : i.text ∈ f.scope := hi _ (by simp [Instruction.texts])
    simp only [Option.map_none]
    rw [show (i.rename ρ).text = Token.mapSymbols ρ i.text from rfl, Instruction.assigned?_eq,
      Instruction.assigned?_eq,
      Token.any_mapSymbols (h.keepsSymbols htext) (Text.foreign_beq (by decide) (by decide)),
      Instruction.assigned_mapSymbols (h.keepsSymbols htext)]
    cases i.text.toList.any (· == '=') with
    | false => rfl
    | true =>
      have hleft := Function.mem_scope_of_cutFrom htext
        (Instruction.cutFrom_assigned _)
      have htrim := Function.mem_scope_of_cutFrom hleft (Token.cutFrom_trim _)
      simp only [if_true]
      rw [Token.trim_mapSymbols (h.keepsSymbols hleft),
        Token.isLocal_mapSymbols (h.keepsSymbols htrim) (h.keepsSigils htrim),
        Token.any_mapSymbols (h.keepsSymbols htrim) Text.foreign_isBlank]
      split <;> rfl

/-- The name of the callee of a renamed instruction is the renamed one. -/
theorem calleeName?_rename (h : LocalRenaming metadata f ρ) (hi : ∀ s ∈ i.texts, s ∈ f.scope) :
    (i.rename ρ).calleeName? = i.calleeName?.map (Token.mapSymbols ρ) := by
  unfold Instruction.calleeName?
  rw [show (i.rename ρ).callee = i.callee.map (Token.mapSymbols ρ) from rfl]
  cases hc : i.callee with
  | none => rfl
  | some c =>
    have hmem : c ∈ f.scope := hi c (by simp [Instruction.texts, hc])
    simp only [Option.map_some]
    rw [Token.last_mapSymbols (h.keepsSymbols hmem),
      Token.isEmpty_mapSymbols (h.keepsSymbols (Function.last_mem_scope hmem))]
    split <;> rfl

/-- Renaming and stripping can be done in either order in texts in scope. -/
theorem stripAnnotations_mapSymbols (h : LocalRenaming metadata f ρ) (hs : s ∈ f.scope) :
    Token.stripAnnotations (Token.mapSymbols ρ s) =
      Token.mapSymbols ρ (Token.stripAnnotations s) :=
  Token.stripAnnotations_mapSymbols hs.1 (h.keepsSymbols hs)

/-- The variables that a renamed function defines are the renamed ones. -/
theorem definedVars_rename (h : LocalRenaming metadata f ρ) (hw : f.PlainlyWritten) :
    (f.rename ρ).definedVars = f.definedVars.map (Token.mapSymbols ρ) := by
  rw [Function.definedVars, Function.instructions_rename, List.filterMap_map,
    Function.definedVars, List.map_filterMap]
  refine List.filterMap_congr fun i hi => ?_
  rw [Function.comp_apply, h.resultVar?_rename (hw.unquoted.mem_scope_of_instruction hi)]
  cases hv : i.resultVar? with
  | none => rfl
  | some v => simp [h.stripAnnotations_mapSymbols (hw.unquoted.resultVar_mem_scope hi hv)]

/-- The callees of a renamed function are the renamed ones. -/
theorem callees_rename (h : LocalRenaming metadata f ρ) (hw : f.PlainlyWritten) :
    (f.rename ρ).callees = f.callees.map (Token.mapSymbols ρ) := by
  rw [Function.callees, Function.instructions_rename, List.filterMap_map,
    Function.callees, List.map_filterMap]
  refine List.filterMap_congr fun i hi => ?_
  rw [Function.comp_apply, h.calleeName?_rename (hw.unquoted.mem_scope_of_instruction hi)]
  cases hv : i.calleeName? with
  | none => rfl
  | some v => simp [h.stripAnnotations_mapSymbols (hw.unquoted.calleeName_mem_scope hi hv)]

/-- The normal form of a label, renamed. -/
theorem normalizeLabel_rename (h : LocalRenaming metadata f ρ) (hs : s ∈ f.scope)
    (hl : Token.WritesLocal s) :
    Token.normalizeLabel (Token.mapSymbols ρ s) =
      Token.mapSymbols ρ (Token.normalizeLabel s) := by
  have hmem : Token.last s ∈ f.symbols := hs.2 _ hl.mem_symbols
  have hwrites : Token.WritesLocal (Token.mapSymbols ρ s) := by
    refine hl.mapSymbols (h.keepsSymbols hs) ?_ ?_
    · rw [Token.isLocal_eq_of_head?_eq (h.isLocal_eq hmem)]
      exact hl.isLocal
    · by_cases hmoved : ρ (Token.last s) = Token.last s
      · rw [hmoved]
        exact hl.noColon
      · exact (h.plain _ hmem hmoved).2.noColon
  rw [Token.normalizeLabel_eq_last (hs.1.mapSymbols (h.keepsSymbols hs)) hwrites,
    Token.normalizeLabel_eq_last hs.1 hl, Token.last_mapSymbols (h.keepsSymbols hs)]

/-- The sightings of a renamed text are the renamed ones. -/
theorem sightings_ofText (h : LocalRenaming metadata f ρ) (hs : s ∈ f.scope)
    (id : Option UInt32) : Sighting.ofText id (Token.mapSymbols ρ s) =
      (Sighting.ofText id s).map (Sighting.map (Token.mapSymbols ρ)) := by
  have hstrip := Function.stripAnnotations_mem_scope hs
  rw [Sighting.ofText, h.stripAnnotations_mapSymbols hs,
    Token.symbols_mapSymbols (h.keepsSymbols hstrip), Sighting.ofText, List.map_map, List.map_map]
  refine List.map_congr_left fun t ht => ?_
  show Sighting.token id (ρ t) = .token id (Token.mapSymbols ρ t)
  rw [Token.mapSymbols_symbol (Token.isSymbol_of_mem ht)]

/-- The texts in which names of a renamed instruction are looked for are the renamed ones. -/
theorem textsOf_rename (h : LocalRenaming metadata f ρ) (hi : ∀ s ∈ i.texts, s ∈ f.scope) :
    Collection.textsOf (i.rename ρ) = (Collection.textsOf i).map (Token.mapSymbols ρ) := by
  rw [Collection.textsOf, h.calleeName?_rename hi, Collection.textsOf, List.map_cons,
    List.map_append]
  cases hr : i.returnType <;> cases i.calleeName? <;> simp [Instruction.rename, hr]

/-- A renamed function shows the images of the names that the function shows, in the same order. -/
theorem sightings_rename (h : LocalRenaming metadata f ρ) (hw : f.PlainlyWritten) :
    (f.rename ρ).sightings = f.sightings.map (Sighting.map (Token.mapSymbols ρ)) := by
  have hparams : ((f.rename ρ).paramNames.map fun n => Sighting.param (Token.stripAnnotations n)) =
      (f.paramNames.map fun n => Sighting.param (Token.stripAnnotations n)).map
        (Sighting.map (Token.mapSymbols ρ)) := by
    simp only [Function.paramNames, Function.rename, List.map_map]
    refine List.map_congr_left fun p hp => ?_
    have hscope := hw.unquoted.mem_scope (Function.mem_texts_of_param hp)
    simp only [Function.comp_apply, Sighting.map]
    rw [Token.last_mapSymbols (h.keepsSymbols hscope),
      h.stripAnnotations_mapSymbols (Function.last_mem_scope hscope)]
  have hdeclared : (f.rename ρ).params.flatMap (Sighting.ofText none) =
      (f.params.flatMap (Sighting.ofText none)).map (Sighting.map (Token.mapSymbols ρ)) := by
    rw [Function.rename, List.flatMap_map, List.map_flatMap]
    refine List.flatMap_congr fun p hp => ?_
    exact h.sightings_ofText (hw.unquoted.mem_scope (Function.mem_texts_of_param hp)) none
  have hlabels : ((f.rename ρ).blocks.map fun b => Sighting.label (Token.normalizeLabel b.label)) =
      (f.blocks.map fun b => Sighting.label (Token.normalizeLabel b.label)).map
        (Sighting.map (Token.mapSymbols ρ)) := by
    rw [Function.rename, List.map_map, List.map_map]
    refine List.map_congr_left fun b hb => ?_
    simp only [Function.comp_apply, Sighting.map, Block.rename]
    rw [h.normalizeLabel_rename (hw.unquoted.mem_scope (Function.mem_texts_of_label hb))
      (hw.labels b hb)]
  have hinstructions : (f.rename ρ).instructions.flatMap Instruction.sightings =
      (f.instructions.flatMap Instruction.sightings).map
        (Sighting.map (Token.mapSymbols ρ)) := by
    rw [Function.instructions_rename, List.flatMap_map, List.map_flatMap]
    refine List.flatMap_congr fun i hi => ?_
    rw [Instruction.sightings, h.textsOf_rename (hw.unquoted.mem_scope_of_instruction hi),
      Instruction.sightings, List.flatMap_map, List.map_flatMap]
    refine List.flatMap_congr fun s hs => ?_
    exact h.sightings_ofText (hw.unquoted.textsOf_mem_scope hi hs) _
  rw [Function.sightings, hparams, hdeclared, hlabels, hinstructions, Function.sightings,
    List.map_append, List.map_append, List.map_append]

end LocalRenaming

end InstrGraph
