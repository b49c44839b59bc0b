import InstrGraph.Process
import InstrGraph.Proofs.Canonical.Cache
import InstrGraph.Proofs.Graph.Tables
import InstrGraph.Proofs.Renaming.Passes

/-!
# Local names are forgotten

* `processFunction_rename`: a function and a function with other local names have the same canonical
  form, graph document and warnings, or fail with the same error.
* `processFunction_rename_unseen`: this is not so of a variable that is declared to be defined but
  stands in no text where symbols are looked for. It gets no canonical name.
-/

namespace InstrGraph

namespace LocalRenaming

variable {metadata : Metadata} {f : Function} {ρ : String → String}

section

variable (h : LocalRenaming metadata f ρ) (hw : f.PlainlyWritten) (frequency : FrequencyTables)
  (config : Config.Canonicalize) {s : String} {i : Instruction}

include h hw

/-- A renamed text has the canonical form of the text. -/
theorem canonicalText_rename (hs : s ∈ f.scope) :
    (rewriteContext metadata frequency config (f.rename ρ)).canonicalText (Token.mapSymbols ρ s) =
      (rewriteContext metadata frequency config f).canonicalText s :=
  (h.passContext_renamed hw frequency config).runPasses_rename hs

/-- An operand repeats the text of an instruction exactly if the renamed one does. -/
theorem canonicalOperand_rename (hs : s ∈ f.scope) :
    (rewriteContext metadata frequency config (f.rename ρ)).canonicalOperand
        (Token.mapSymbols ρ s) =
      (rewriteContext metadata frequency config f).canonicalOperand s := by
  have htexts : (f.rename ρ).instructions.map (·.text) =
      (f.instructions.map (·.text)).map (Token.mapSymbols ρ) := by
    rw [Function.instructions_rename, List.map_map, List.map_map]
    rfl
  have hwithin : ∀ t ∈ f.instructions.map (·.text), t ∈ f.scope := by
    intro t ht
    obtain ⟨i, hi, rfl⟩ := List.mem_map.mp ht
    exact hw.unquoted.mem_scope_of_instruction hi _ List.mem_cons_self
  have hcontains : ((f.rename ρ).instructions.map (·.text)).contains (Token.mapSymbols ρ s) =
      (f.instructions.map (·.text)).contains s := by
    rw [htexts, contains_map_of_separates hwithin (h.separates hs)]
  rw [RewriteContext.canonicalOperand, RewriteContext.canonicalOperand,
    h.canonicalText_rename hw frequency config hs]
  show (if ((f.rename ρ).instructions.map (·.text)).contains (Token.mapSymbols ρ s) then _ else _) =
    if (f.instructions.map (·.text)).contains s then _ else _
  rw [hcontains]

/-- A renamed label has the canonical form of the label. -/
theorem canonicalLabel_rename (hs : s ∈ f.scope) (hl : Token.WritesLocal s) :
    (rewriteContext metadata frequency config (f.rename ρ)).canonicalLabel
        (Token.mapSymbols ρ s) =
      (rewriteContext metadata frequency config f).canonicalLabel s := by
  rw [RewriteContext.canonicalLabel, h.normalizeLabel_rename hs hl]
  refine h.canonicalText_rename hw frequency config ?_
  rw [Token.normalizeLabel_eq_last hs.1 hl]
  exact Function.last_mem_scope hs

/-- A renamed instruction has the canonical form of the instruction. -/
theorem canonicalInstruction_rename (hi : i ∈ f.instructions) :
    (rewriteContext metadata frequency config (f.rename ρ)).canonicalInstruction (i.rename ρ) =
      (rewriteContext metadata frequency config f).canonicalInstruction i := by
  have hscope := hw.unquoted.mem_scope_of_instruction hi
  have hoption {F F' : String → Rewritten} (o : Option String)
      (hF : ∀ s ∈ o, F' (Token.mapSymbols ρ s) = F s) :
      (o.map (Token.mapSymbols ρ)).map F' = o.map F := by
    cases o with
    | none => rfl
    | some s => exact congrArg some (hF s rfl)
  have hlist {F F' : String → Rewritten} (l : List String)
      (hF : ∀ s ∈ l, F' (Token.mapSymbols ρ s) = F s) :
      (l.map (Token.mapSymbols ρ)).map F' = l.map F := by
    rw [List.map_map]
    exact List.map_congr_left hF
  have htext := h.canonicalText_rename hw frequency config (hscope i.text List.mem_cons_self)
  have hoperands := hlist i.operands fun s hs =>
    h.canonicalOperand_rename hw frequency config (hscope s (by simp [Instruction.texts, hs]))
  have htargets := hlist i.targets fun s hs =>
    h.canonicalLabel_rename hw frequency config (hscope s (by simp [Instruction.texts, hs]))
      (hw.targets i hi s hs)
  have hcondition := hoption i.condition fun s hs =>
    h.canonicalOperand_rename hw frequency config
      (hscope s (by simp [Instruction.texts, Option.mem_def.mp hs]))
  have hvalue := hoption i.returnValue fun s hs =>
    h.canonicalOperand_rename hw frequency config
      (hscope s (by simp [Instruction.texts, Option.mem_def.mp hs]))
  have hcallee := hoption i.callee fun s hs =>
    h.canonicalText_rename hw frequency config
      (hscope s (by simp [Instruction.texts, Option.mem_def.mp hs]))
  have hvar := hoption i.definedVar fun s hs =>
    h.canonicalText_rename hw frequency config
      (hscope s (by simp [Instruction.texts, Option.mem_def.mp hs]))
  have htype := hoption i.returnType fun s hs =>
    h.canonicalText_rename hw frequency config
      (hscope s (by simp [Instruction.texts, Option.mem_def.mp hs]))
  simp only [RewriteContext.canonicalInstruction, RewriteContext.canonicalFields,
    Instruction.rename, htext, hoperands, htargets, hcondition, hvalue, hcallee, hvar, htype]

/-- A renamed function has the same canonical form. -/
theorem canonicalFunction_rename :
    (canonicalize metadata frequency config (f.rename ρ)).function =
      (canonicalize metadata frequency config f).function := by
  rw [canonicalize_eq, canonicalize_eq, RewriteContext.function_eq, RewriteContext.function_eq]
  refine congrArg₂ (Function.mk f.name) ?_ ?_
  · rw [Function.rename, List.map_map]
    refine List.map_congr_left fun p hp => ?_
    exact congrArg Rewritten.text (h.canonicalText_rename hw frequency config
      (hw.unquoted.mem_scope (Function.mem_texts_of_param hp)))
  · rw [Function.rename, List.map_map]
    refine List.map_congr_left fun b hb => ?_
    refine congrArg₂ Block.mk ?_ ?_
    · exact congrArg Rewritten.text (h.canonicalLabel_rename hw frequency config
        (hw.unquoted.mem_scope (Function.mem_texts_of_label hb)) (hw.labels b hb))
    · rw [Block.rename, List.map_map]
      refine List.map_congr_left fun i hi => ?_
      exact h.canonicalInstruction_rename hw frequency config
        (List.mem_flatMap.mpr ⟨b, hb, hi⟩)

/-- A renamed function has the warnings of the function. -/
theorem diagnostics_rename :
    (canonicalize metadata frequency config (f.rename ρ)).diagnostics =
      (canonicalize metadata frequency config f).diagnostics := by
  rw [canonicalize_eq, canonicalize_eq, collectSymbols_eq_foldl, collectSymbols_eq_foldl]
  exact (h.renamed_collection hw frequency config).diagnostics

/-- A renamed function has the table of globals of the function. -/
theorem globals_rename :
    (canonicalize metadata frequency config (f.rename ρ)).symbols.globals =
      (canonicalize metadata frequency config f).symbols.globals :=
  (h.passContext_renamed hw frequency config).globals

end

end LocalRenaming

/-- What is handed on of the work on a function: the canonical form, the document and the warnings.
The symbol tables stay behind, they hold the names as they were. -/
def Output.results (o : Output) : CanonicalFunction × Document × List Diagnostic :=
  (o.canonical, o.document, o.diagnostics)

/-- What is made of a canonical form. -/
def Canonicalized.output (c : Canonicalized) (metadata : Metadata) (config : Config) :
    Except Error Output :=
  match c.buildGraph metadata config with
  | .error e => .error e
  | .ok built =>
    match Document.ofGraph built.1 with
    | .error e => .error e
    | .ok document =>
      .ok ⟨.ofFunction c.function, c.symbols, document, c.diagnostics ++ built.2⟩

/-- What is made of a function is made of its canonical form. -/
theorem processFunction_eq (f : Function) (metadata : Metadata) (frequency : FrequencyTables)
    (config : Config) :
    processFunction f metadata frequency config =
      (canonicalize metadata frequency config.canonicalize f).output metadata config := by
  unfold processFunction
  generalize canonicalize metadata frequency config.canonicalize f = c
  unfold Canonicalized.output
  dsimp only
  cases c.buildGraph metadata config with
  | error e => rfl
  | ok built =>
    cases hdocument : Document.ofGraph built.1 with
    | error e => simp [bind, Except.bind, hdocument]
    | ok document => simp [bind, Except.bind, hdocument, pure, Except.pure]

/-- The results depend on the canonical function, the warnings, and the table of the globals. -/
theorem Canonicalized.results_output {c c' : Canonicalized} (hfunction : c'.function = c.function)
    (hdiagnostics : c'.diagnostics = c.diagnostics)
    (hglobals : c'.symbols.globals = c.symbols.globals) (metadata : Metadata) (config : Config) :
    (c'.output metadata config).map Output.results =
      (c.output metadata config).map Output.results := by
  have hgraph : c'.buildGraph metadata config = c.buildGraph metadata config := by
    rw [buildGraph, buildGraph, hfunction]
    exact Builder.build_eq_of_globals_eq _ hglobals _ _ _
  rw [output, output, hgraph]
  cases c.buildGraph metadata config with
  | error e => rfl
  | ok built =>
    dsimp only
    cases Document.ofGraph built.1 with
    | error e => rfl
    | ok document =>
      simp only [Except.map, Output.results, hfunction, hdiagnostics]

/-- Canonicalization forgets local names. Where the fields of a function have no double quotes and
labels are written behind `%`, let some of the names that it introduces be replaced in every field,
in such a way that different identifiers stay different and that neither an old nor a new name looks
like one of a type or of a canonical label. The results are the same, and so is an error. -/
theorem processFunction_rename (f : Function) (metadata : Metadata) (frequency : FrequencyTables)
    (config : Config) (ρ : String → String) (hw : f.PlainlyWritten)
    (h : LocalRenaming metadata f ρ) :
    (processFunction (f.rename ρ) metadata frequency config).map Output.results =
      (processFunction f metadata frequency config).map Output.results := by
  have hfunction := h.canonicalFunction_rename hw frequency config.canonicalize
  have hdiagnostics := h.diagnostics_rename hw frequency config.canonicalize
  have hglobals := h.globals_rename hw frequency config.canonicalize
  rw [processFunction_eq, processFunction_eq]
  exact Canonicalized.results_output hfunction hdiagnostics hglobals metadata config

/-- The renaming of `%x` to another name. -/
def renameX (new t : String) : String := if t = "%x" then new else t

/-- A function that returns its parameter. -/
def identityExample : Function :=
  { name := "f"
    params := ["i32 %x"]
    blocks := [⟨"%0", [{ id := 1, opcode := .ret, text := "ret i32 %x", operands := ["i32 %x"],
                         returnValue := some "%x" }]⟩] }

/-- What its parameter is called does not matter. -/
theorem processFunction_rename_identityExample :
    identityExample.PlainlyWritten ∧ LocalRenaming {} identityExample (renameX "%y") ∧
      (processFunction (identityExample.rename (renameX "%y")) {} {} {}).map Output.results =
        (processFunction identityExample {} {} {}).map Output.results := by
  have hw : identityExample.PlainlyWritten := by decide +kernel
  have h : LocalRenaming {} identityExample (renameX "%y") := by decide +kernel
  exact ⟨hw, h, processFunction_rename identityExample {} {} {} _ hw h⟩

/-- A function with a variable that it defines but does not mention. -/
def unseenExample : Function :=
  { name := "f"
    blocks := [⟨"%0", [{ id := 1, opcode := .other "alloca", text := "alloca i32",
                         definedVar := some "%x" }]⟩] }

/-- A variable that stands in no text where symbols are looked for keeps its name, so the results
tell what it was called. -/
theorem processFunction_rename_unseen :
    unseenExample.PlainlyWritten ∧
      (∀ t ∈ unseenExample.symbols, Token.isSymbol (renameX "%y" t) = true) ∧
      (∀ t ∈ unseenExample.symbols, ∀ u ∈ unseenExample.symbols,
        renameX "%y" t = renameX "%y" u → t = u) ∧
      (∀ t ∈ unseenExample.symbols, renameX "%y" t ≠ t →
        t ∈ unseenExample.definedVars ∧ PlainLocal {} t ∧ PlainLocal {} (renameX "%y" t)) ∧
      (processFunction (unseenExample.rename (renameX "%y")) {} {} {}).map Output.results ≠
        (processFunction unseenExample {} {} {}).map Output.results := by
  refine ⟨by decide +kernel, by decide +kernel, by decide +kernel, by decide +kernel, ?_⟩
  intro heq
  have hcanonical := congrArg (fun r => r.toOption.map Prod.fst) heq
  revert hcanonical
  decide +kernel

end InstrGraph
