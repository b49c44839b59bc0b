import InstrGraph.Proofs.Symbols.Scope
import InstrGraph.Proofs.Text.Unquoted

/-!
# The names that a function mentions

The identifiers of the fields of a function, double quotes left out, are its literal names
(`Function.literalNames`). Labels and targets are read in their reference form, which puts a sigil
before a bare name, so they may mention names that stand in no field (`Function.names`).

Everything that is shown to the collection of symbols is a name of the function
(`Function.mem_names_of_mem_sightings`).
-/

namespace InstrGraph

namespace Function

/-- The identifiers in the fields of a function, double quotes left out. -/
def literalNames (f : Function) : List String :=
  f.texts.flatMap fun s => Token.symbols (Token.unquote s)

/-- The labels and targets of a function in their reference form. -/
def references (f : Function) : List String :=
  f.blocks.map (fun b => Token.normalizeLabel b.label) ++
    f.instructions.flatMap fun i => i.targets.map Token.normalizeLabel

/-- The literal names of a function, and those of its labels and targets in reference form. -/
def names (f : Function) : List String :=
  f.literalNames ++ f.references.flatMap fun s => Token.symbols (Token.unquote s)

variable {f : Function} {i : Instruction} {b : Block} {s t : String}

/-- The identifiers of the texts and references, without quotes, are names of the function. -/
theorem mem_names_of_mem_texts (hs : s ∈ f.texts ++ f.references)
    (ht : t ∈ Token.symbols (Token.unquote s)) : t ∈ f.names := by
  rw [names, literalNames, ← List.flatMap_append]
  exact List.mem_flatMap.mpr ⟨s, hs, ht⟩

/-- The names of a function are identifiers. -/
theorem isSymbol_of_mem_names (ht : t ∈ f.names) : Token.isSymbol t = true := by
  rw [names, literalNames, ← List.flatMap_append] at ht
  obtain ⟨s, -, ht⟩ := List.mem_flatMap.mp ht
  exact Token.isSymbol_of_mem ht

/-- The text has only names of the function, when its annotations are stripped. -/
def Names (f : Function) (s : String) : Prop :=
  ∀ t ∈ Token.symbols (Token.stripAnnotations s), t ∈ f.names

/-- The function names what stands in its texts and references. -/
theorem Names.of_mem (hs : s ∈ f.texts ++ f.references) : f.Names s :=
  fun _ ht => mem_names_of_mem_texts hs (Token.symbols_stripAnnotations s ht)

/-- The function names what stands in its parameters. -/
theorem names_param (hs : s ∈ f.params) : f.Names s :=
  .of_mem (List.mem_append_left _ (mem_texts_of_param hs))

/-- The function names what stands in the fields of its instructions. -/
theorem names_field (hi : i ∈ f.instructions) (hs : s ∈ i.texts) : f.Names s :=
  .of_mem (List.mem_append_left _ (mem_texts_of_instruction hi hs))

/-- The function names its labels. -/
theorem names_label (hb : b ∈ f.blocks) : f.Names (Token.normalizeLabel b.label) := by
  refine .of_mem (List.mem_append_right _ (List.mem_append_left _ ?_))
  exact List.mem_map_of_mem hb

/-- The function names the targets of its instructions. -/
theorem names_target (hi : i ∈ f.instructions) (hs : s ∈ i.targets) :
    f.Names (Token.normalizeLabel s) := by
  refine .of_mem (List.mem_append_right _ (List.mem_append_right _ ?_))
  exact List.mem_flatMap.mpr ⟨i, hi, List.mem_map_of_mem hs⟩

/-- The name of what is called is cut out of the callee before its annotations are stripped. -/
theorem names_calleeName (hi : i ∈ f.instructions) (hs : i.calleeName? = some s) : f.Names s := by
  intro t ht
  rw [Instruction.calleeName?] at hs
  split at hs
  · rename_i callee hcallee
    dsimp only at hs
    split at hs
    · simp at hs
    · obtain rfl := Option.some.inj hs
      have hfield : callee ∈ i.texts := by simp [Instruction.texts, hcallee]
      exact mem_names_of_mem_texts (List.mem_append_left _ (mem_texts_of_instruction hi hfield))
        (Token.symbols_unquote_last _ (Token.symbols_stripAnnotations _ ht))
  · simp at hs

/-- The function names what stands in the texts in which names are looked for. -/
theorem names_scannedText (hs : s ∈ f.scannedTexts) : f.Names s := by
  rcases List.mem_append.mp hs with hs | hs
  · exact names_param hs
  · obtain ⟨i, hi, hs⟩ := List.mem_flatMap.mp hs
    simp only [Collection.textsOf, List.mem_cons, List.mem_append, Option.mem_toList] at hs
    rcases hs with rfl | hs | hs
    · exact names_field hi (by simp [Instruction.texts])
    · exact names_field hi (by simp [Instruction.texts, Option.mem_def.mp hs])
    · exact names_calleeName hi (Option.mem_def.mp hs)

/-- What is seen in a function are names of it. -/
theorem mem_names_of_mem_sightings {id : Option UInt32} (h : .token id t ∈ f.sightings) :
    t ∈ f.names := by
  rcases sighting_cases h with ⟨p, -, he⟩ | ⟨b, -, he⟩ | ⟨id', s, hs, u, hu, he⟩
  · simp at he
  · simp at he
  · obtain ⟨-, rfl⟩ := Sighting.token.inj he
    exact names_scannedText hs t hu

end Function

end InstrGraph
