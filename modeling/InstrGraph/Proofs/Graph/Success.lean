import InstrGraph.Process
import InstrGraph.Proofs.Canonical.NodeNames
import InstrGraph.Proofs.Graph.Document

/-!
# Functions that have a document

A function that is well-shaped has a graph, and its graph has a document if the names of its nodes
are spelled in the usual way. Both are asked of the canonical form, where names have changed:

* labels and targets go through the same passes, which keep different labels different, so the
  canonical form of a well-shaped function is well-shaped (`wellShaped_function`);
* the names in canonical form are spelled in the usual way (`spelled_function`).

So `processFunction` succeeds (`processFunction_ok_of_namesApart`). It need not if labels are
different only in suffixes that the passes take for those of types
(`processFunction_error_of_suffixedLabels`).
-/

namespace InstrGraph

/-! ### The canonical form -/

namespace Instruction

variable {i j : Instruction}

/-- The shape of an instruction is that of its opcode, its condition and its targets. -/
theorem Shaped.of_eq (h : i.Shaped) (hop : j.opcode = i.opcode)
    (htargets : j.targets.length = i.targets.length)
    (hcondition : j.condition = none ↔ i.condition = none) : j.Shaped := by
  have hnil : j.targets = [] ↔ i.targets = [] := by
    rw [← List.length_eq_zero_iff, htargets, List.length_eq_zero_iff]
  constructor
  · rw [hop, htargets]
    exact fun hbr => ⟨(h.br hbr).1, fun htwo => (not_congr hcondition).mpr ((h.br hbr).2 htwo)⟩
  · rw [hop]
    exact fun hswitch => ⟨(not_congr hcondition).mpr (h.switch hswitch).1,
      (not_congr hnil).mpr (h.switch hswitch).2⟩
  · rw [hop]
    exact fun hinvoke => (not_congr hnil).mpr (h.invoke hinvoke)

end Instruction

namespace RewriteContext

variable {f : Function} {ctx : RewriteContext} {i : Instruction}

/-- A canonical instruction has the shape of its opcode if the instruction has. -/
theorem shaped_canonicalInstruction (h : i.Shaped) : (ctx.canonicalInstruction i).Shaped := by
  refine h.of_eq (j := ctx.canonicalInstruction i) (ctx.opcode_canonicalInstruction i) ?_ ?_
  · rw [targets_canonicalInstruction, List.length_map]
  · simp [canonicalInstruction]

/-- The targets of a canonical instruction are those of the instruction in canonical form. -/
theorem successors_canonicalInstruction : (ctx.canonicalInstruction i).successors =
    i.successors.map fun t => (ctx.canonicalLabel t).text := by
  rw [Instruction.successors, Instruction.successors, opcode_canonicalInstruction,
    targets_canonicalInstruction]
  cases i.opcode <;> simp

/-- The labels of a canonical function. -/
theorem labels_function (h : ctx.toPassContext.Apart f) :
    (ctx.function f).labels = f.labelNames.map ctx.canonicalName := by
  rw [Function.labels, labelsOf, function_eq, List.map_map, Function.labelNames, List.map_map]
  refine List.map_congr_left fun b hb => ?_
  have hlabel : Token.normalizeLabel b.label ∈ f.labelNames := List.mem_map_of_mem hb
  rw [Function.comp_apply, Function.comp_apply, label_canonicalBlock,
    normalizeLabel_canonicalLabel_of_apart h hlabel]

/-- The canonical form of a well-shaped function is well-shaped. -/
theorem wellShaped_function (h : ctx.toPassContext.Apart f) (hw : f.WellShaped) :
    (ctx.function f).WellShaped where
  labels := by
    have hlabels : f.labelNames.Nodup := hw.labels
    rw [labels_function h]
    exact hlabels.map_on fun t ht u hu heq => h.canonicalName_inj
      (List.mem_append_right _ ht) (List.mem_append_right _ hu) heq
  ids := by
    rw [instructions_function, List.map_map]
    simpa only [Function.comp_def, id_canonicalInstruction] using hw.ids
  shaped := by
    rw [instructions_function, List.forall_mem_map]
    exact fun i hi => shaped_canonicalInstruction (hw.shaped i hi)
  targets := by
    rw [instructions_function, List.forall_mem_map, labels_function h]
    intro i hi t ht
    rw [successors_canonicalInstruction] at ht
    obtain ⟨u, hu, rfl⟩ := List.mem_map.mp ht
    have hlabel : Token.normalizeLabel u ∈ f.labelNames := hw.targets i hi u hu
    rw [normalizeLabel_canonicalLabel_of_apart h hlabel]
    exact List.mem_map_of_mem hlabel

end RewriteContext

/-- With a sigil, a name is global. -/
theorem isGlobal_withSigil (name : String) : Token.isGlobal (withSigil name) = true := by
  rw [withSigil]
  split
  · assumption
  · rw [Token.isGlobal_iff, String.toList_append]
    rfl

/-- The names that the graph of a canonical function is built from are spelled in the usual way. -/
theorem RewriteContext.spelled_function {f : Function} {ctx : RewriteContext}
    (h : ctx.toPassContext.Apart f) (config : Config.Graph) (placeholder : String) :
    (Builder.of (ctx.function f) ctx.symbols ctx.metadata config placeholder).Spelled where
  labels := by
    intro label hl
    rw [Builder.of, labels_function h] at hl
    obtain ⟨t, ht, rfl⟩ := List.mem_map.mp hl
    exact h.isLocal_canonicalName (List.mem_append_right _ ht)
  params := by
    intro name hname
    rw [Builder.of, Resolver.ofFunction, paramNames_function h] at hname
    obtain ⟨t, ht, rfl⟩ := List.mem_map.mp hname
    have hnode : t ∈ f.nodeNames := List.mem_append_left _ ht
    refine ⟨h.isLocal_canonicalName hnode, fun hl => ?_⟩
    rw [Builder.of, labels_function h] at hl
    obtain ⟨u, hu, heq⟩ := List.mem_map.mp hl
    obtain rfl := h.canonicalName_inj (List.mem_append_right _ hu) hnode heq
    exact h.names.params_labels u ht hu
  globals := by
    intro name hname
    obtain ⟨g, -, rfl⟩ := List.mem_map.mp hname
    exact SymbolTables.isGlobal_canonicalGlobal h.collected.sound (isGlobal_withSigil g.1)
  usage := by
    intro i' hi' name hname
    rw [Builder.of, instructions_function] at hi'
    obtain ⟨i, hi, rfl⟩ := List.mem_map.mp hi'
    exact SymbolTables.isGlobal_canonicalGlobal h.collected.sound
      (isGlobal_of_mem_usage h hi hname)

/-! ### The document -/

/-- A well-shaped function whose names stay apart has a graph and a document. -/
theorem RewriteContext.exists_document {f : Function} {ctx : RewriteContext}
    (h : ctx.toPassContext.Apart f) (hw : f.WellShaped) (config : Config.Graph)
    (placeholder : String) :
    ∃ g ds d, (Builder.of (ctx.function f) ctx.symbols ctx.metadata config placeholder).build =
      .ok (g, ds) ∧ Document.ofGraph g = .ok d := by
  have hs := spelled_function h config placeholder
  have hshape := wellShaped_function h hw
  generalize ctx.function f = f' at hs hshape
  obtain ⟨⟨g, ds⟩, hbuild⟩ := Builder.exists_build_of_wellShaped
    (b := Builder.of f' ctx.symbols ctx.metadata config placeholder) hshape
  obtain ⟨d, hd⟩ := hs.exists_ofGraph hbuild
  exact ⟨g, ds, d, hbuild, hd⟩

/-- The work on a well-shaped function succeeds if its names stay apart, whatever is known about its
unit. -/
theorem processFunction_ok_of_namesApart {f : Function} {metadata : Metadata} (hw : f.WellShaped)
    (hn : f.NamesApart metadata) (frequency : FrequencyTables) (config : Config) :
    ∃ out, processFunction f metadata frequency config = .ok out := by
  have hapart : (rewriteContext metadata frequency config.canonicalize f).toPassContext.Apart f :=
    hn.apart frequency config.canonicalize
  obtain ⟨g, ds, d, hbuild, hd⟩ := RewriteContext.exists_document hapart hw config.graph
    config.canonicalize.constantPlaceholder
  have hgraph : (canonicalize metadata frequency config.canonicalize f).buildGraph metadata config =
      .ok (g, ds) := by
    rw [canonicalize_eq, Canonicalized.buildGraph]
    exact hbuild
  rw [processFunction]
  generalize canonicalize metadata frequency config.canonicalize f = c at hgraph
  simp [hgraph, hd, bind, Except.bind, pure, Except.pure]

/-- A function that takes an aggregate by value and loads a global. One of its labels loses a
suffix, another one is no identifier. -/
def loadExample : Function :=
  { name := "f", params := ["ptr byval(%struct.node.3) %n", "i1 noundef %c"]
    blocks := [
      ⟨"entry", [{ id := 1, opcode := .other "load", text := "%v = load i32, ptr @g",
                   operands := ["ptr @g"], definedVar := some "%v",
                   usage := { globals := ["@g"] } },
                 { id := 2, opcode := .br, text := "br i1 %c, label %class.end.1, label %a+b",
                   condition := some "i1 %c", targets := ["%class.end.1", "label %a+b"] }]⟩,
      ⟨"class.end.1", [{ id := 3, opcode := .ret, text := "ret i32 %v", operands := ["%v"],
                         returnValue := some "i32 %v" }]⟩,
      ⟨"a+b", [{ id := 4, opcode := .ret, text := "ret i32 0", returnValue := some "i32 0" }]⟩] }

/-- What is known about the unit of the function. -/
def loadMetadata : Metadata :=
  { globals := [("g", { globalType := .int })], structs := [("struct.node", .null)] }

/-- The first label gets its canonical name, the second one loses its suffix, and the third one
stays. -/
theorem processFunction_ok_of_loadExample :
    loadExample.WellShaped ∧ loadExample.NamesApart loadMetadata ∧
      (canonicalize loadMetadata {} {} loadExample).function.labels =
        ["%label_0", "%class.end", "%a+b"] ∧
      ∃ out, processFunction loadExample loadMetadata {} {} = .ok out := by
  have hw : loadExample.WellShaped := by decide +kernel
  have hn : loadExample.NamesApart loadMetadata := .of_startsWith (by decide +kernel)
  exact ⟨hw, hn, by decide +kernel, processFunction_ok_of_namesApart hw hn {} {}⟩

/-- An error behind a map is an error in front of it. -/
theorem eq_error_of_map {ε α β : Type} {x : Except ε α} {f : α → β} {e : ε}
    (h : x.map f = .error e) : x = .error e := by
  cases x with
  | ok a => simp [Except.map] at h
  | error e' => simpa [Except.map] using h

/-- A function with two labels that differ only in their suffixes. -/
def suffixedLabels : Function :=
  { name := "f", params := ["i1 %c"]
    blocks := [
      ⟨"entry", [{ id := 1, opcode := .br,
                   text := "br i1 %c, label %class.end.1, label %class.end.2",
                   condition := some "i1 %c", targets := ["%class.end.1", "%class.end.2"] }]⟩,
      ⟨"class.end.1", [{ id := 2, opcode := .ret, text := "ret void" }]⟩,
      ⟨"class.end.2", [{ id := 3, opcode := .ret, text := "ret void" }]⟩] }

/-- Different labels are not enough. Those of this function look like an aggregate type, so they
lose their suffixes, though they are labels, and then they are one. -/
theorem processFunction_error_of_suffixedLabels :
    suffixedLabels.WellShaped ∧ suffixedLabels.paramNames.Nodup ∧
      (∀ t ∈ suffixedLabels.paramNames, Token.isLocal t = true ∧ t ∉ suffixedLabels.labelNames) ∧
      ({} : Config).validate = .ok () ∧
      processFunction suffixedLabels {} {} {} =
        .error (.malformed "f" 3 "%class.end" "duplicate block label") := by
  refine ⟨by decide +kernel, by decide +kernel, by decide +kernel, rfl, ?_⟩
  have herror : (processFunction suffixedLabels {} {} {}).map (fun _ => ()) =
      .error (.malformed "f" 3 "%class.end" "duplicate block label") := by decide +kernel
  exact eq_error_of_map herror

end InstrGraph
