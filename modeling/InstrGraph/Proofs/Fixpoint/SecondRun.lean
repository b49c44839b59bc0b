import InstrGraph.Proofs.Fixpoint.Tables
import InstrGraph.Proofs.Symbols.Usage

/-!
# Canonicalizing a second time

A second run over the canonical form of a well-named function changes nothing.

* An identifier of a canonical text is what some identifier has become, and in settled tables no
  pass makes anything else of it (`image_again`). What a pass finds mentioned by it was found
  mentioned in the first run (`mem_mentionsOf_again`).
* So a canonical text stays and mentions nothing new (`repeats_canonicalText`), and field by field
  the same holds of an instruction (`canonicalInstruction_again`): an operand may come to repeat the
  text of an instruction only in canonical form, but then it mentions nothing at all.
* The two runs together are `canonicalize_canonicalize`. It needs names that are read alike
  (`Function.ReadsAlike`): the name of a parameter is the last word of its declaration, and
  annotations may hide another last word.
-/

namespace InstrGraph

open Text (Inert)

/-! ### Texts that repeat -/

/-- A text after a second run is the text after the first, and nothing else is mentioned by it. -/
structure Rewritten.Repeats (r r' : Rewritten) : Prop where
  text : r'.text = r.text
  mentions : ∀ m ∈ r'.mentions, m ∈ r.mentions

namespace Rewritten

variable {g g' : String → Rewritten}

/-- Texts that are rewritten and rewritten again. -/
theorem repeats_list (xs : List String) (h : ∀ x ∈ xs, (g x).Repeats (g' (g x).text)) :
    List.Forall₂ Repeats (xs.map g) (((xs.map g).map text).map g') := by
  rw [List.map_map, List.map_map, List.forall₂_map_right_iff, List.forall₂_map_left_iff,
    List.forall₂_same]
  exact h

/-- A field that may be absent is repeated if it is there. -/
theorem repeats_option (x : Option String) (h : ∀ s ∈ x, (g s).Repeats (g' (g s).text)) :
    List.Forall₂ Repeats (x.map g).toList (((x.map g).map text).map g').toList := by
  cases x with
  | none => exact .nil
  | some s => exact .cons (h s rfl) .nil

/-- Texts that are repeated are the same. -/
theorem texts_eq {rs rs' : List Rewritten} (h : List.Forall₂ Repeats rs rs') :
    rs'.map text = rs.map text := by
  induction h with
  | nil => rfl
  | cons hr _ ih => rw [List.map_cons, List.map_cons, hr.text, ih]

/-- A text that is repeated, if there is one, is the same. -/
theorem texts_eq_option {x x' : Option Rewritten} (h : List.Forall₂ Repeats x.toList x'.toList) :
    x'.map text = x.map text := by
  have hlist := texts_eq h
  cases x <;> cases x' <;> simp_all

/-- Repeated texts mention nothing new. -/
theorem mentions_subset {rs rs' : List Rewritten} (h : List.Forall₂ Repeats rs rs') :
    ∀ m ∈ rs'.flatMap mentions, m ∈ rs.flatMap mentions := by
  induction h with
  | nil => simp
  | cons hr _ ih =>
    intro m hm
    rw [List.flatMap_cons, List.mem_append] at hm ⊢
    exact hm.imp (hr.mentions m) (ih m)

end Rewritten

namespace PassContext

open Pass

variable {f : Function} {ctx ctx' : PassContext} {p : Pass} {s t : String} {m : Mention}

/-! ### Identifiers in settled tables -/

namespace Settled

/-- In settled tables only a suffix can still be taken from a name. -/
theorem image_eq (hs : ctx.Settled ctx') (hp : p ≠ .structSuffixes) (t : String) :
    p.image ctx' t = t := by
  have hidentical {table : RenameTable} (h : table.Identical) :
      (table.get? t).getD t = t := by
    cases hc : table.get? t with
    | none => rfl
    | some c => exact h.eq_of_get? hc
  have hstructs : ctx'.symbols.structs.get? t = none :=
    RenameTable.get?_eq_none_iff.mpr (by simp [hs.structs])
  rw [image]
  cases p with
  | structSuffixes => exact absurd rfl hp
  | globals => simp [rename?, hs.globals]
  | structs => simp [rename?, hstructs]
  | calls =>
    simp only [rename?]
    cases hc : ctx'.symbols.calls.get? t with
    | none => rfl
    | some c => simp [hs.calls.eq_of_get? hc, Option.filter]
  | labels => exact hidentical hs.labels
  | locals =>
    simp only [rename?]
    cases hc : ctx'.symbols.params.get? t with
    | none => exact hidentical hs.vars
    | some c => exact hs.params.eq_of_get? hc
  | stripAnnotations => rfl
  | constants => rfl

/-- A global variable of the metadata and a common callee are all that is still mentioned. -/
theorem mention?_cases (hs : ctx.Settled ctx') (h : p.mention? ctx' t = some m) :
    p = .globals ∧ m = .global t ∧ Token.isGlobal t = true ∧ ctx.metadata.hasGlobal t = true ∨
      p = .calls ∧ m = .call t ∧ t ∈ ctx.symbols.exemptCalls := by
  cases p with
  | globals =>
    simp only [mention?, hs.metadata] at h
    split at h
    · rename_i hif
      rw [Bool.and_eq_true] at hif
      exact Or.inl ⟨rfl, (Option.some.inj h).symm, hif⟩
    · simp at h
  | structs =>
    have hstructs : ctx'.symbols.structs.get? t = none :=
      RenameTable.get?_eq_none_iff.mpr (by simp [hs.structs])
    simp [mention?, hstructs] at h
  | calls =>
    simp only [mention?] at h
    split at h
    · rename_i n hn
      simp [hs.calls.eq_of_get? hn] at h
    · split at h
      · rename_i hexempt
        rw [SymbolTables.isExemptCall, hs.exempt, List.contains_iff_mem] at hexempt
        exact Or.inr ⟨rfl, (Option.some.inj h).symm, hexempt⟩
      · simp at h
  | stripAnnotations | structSuffixes | labels | locals | constants => simp [mention?] at h

end Settled

namespace Tabled

/-- No pass makes anything else of what an identifier has become. -/
theorem image_again (h : ctx.Tabled f) (hs : ctx.Settled ctx') (ht : Token.isSymbol t = true)
    (p : Pass) : p.image ctx' (ctx.canonicalSymbol t) = ctx.canonicalSymbol t := by
  by_cases hp : p = .structSuffixes
  · subst hp
    exact image_eq_self (h.structSuffixes_image hs.metadata (h.image_canonicalSymbol ht))
  · exact hs.image_eq hp _

/-- A canonical form is left alone by any passes of the second run. -/
theorem images_again (h : ctx.Tabled f) (hs : ctx.Settled ctx') (ht : Token.isSymbol t = true)
    (ps : List Pass) : images ctx' ps (ctx.canonicalSymbol t) = ctx.canonicalSymbol t := by
  have hstep := h.image_again hs ht
  generalize ctx.canonicalSymbol t = y at hstep ⊢
  induction ps with
  | nil => rfl
  | cons p ps ih => rw [images_cons, hstep, ih]

/-- A global variable or a common callee is its own canonical name, and no pass before the last
three makes anything of it. -/
theorem eq_of_mentioned (h : ctx.Tabled f) (ht : Token.isSymbol t = true)
    (hm : Token.isGlobal (ctx.canonicalSymbol t) = true ∧
        ctx.metadata.hasGlobal (ctx.canonicalSymbol t) = true ∨
      ctx.canonicalSymbol t ∈ ctx.symbols.exemptCalls) :
    ctx.canonicalSymbol t = t ∧ Token.isGlobal t = true ∧ t ∉ ctx.symbols.calls.names := by
  have hglobal : Token.isGlobal (ctx.canonicalSymbol t) = true :=
    hm.elim And.left fun hm => (h.collected.exempt _ hm).1
  rw [Token.isGlobal_iff, h.head?_canonicalSymbol ht, ← Token.isGlobal_iff] at hglobal
  rcases h.image_of_isGlobal hglobal (h.image_canonicalSymbol ht) with ⟨-, hc⟩ | ⟨hnot, heq⟩
  · exfalso
    rcases hm with ⟨-, hm⟩ | hm
    · rw [(h.wellNamed.fresh_metadata _ hc).2] at hm
      exact absurd hm (by simp)
    · have hcommon : ctx.frequency.isCommonCall _ = true := (h.collected.exempt _ hm).2.2
      rw [h.wellNamed.not_isCommonCall hc] at hcommon
      exact absurd hcommon (by simp)
  · exact ⟨heq, hglobal, hnot⟩

/-- What a second run finds mentioned by identifiers has been found in the first. -/
theorem mem_mentionsOf_again (h : ctx.Tabled f) (hs : ctx.Settled ctx') {ts : List String}
    (hts : ∀ t ∈ ts, Token.isSymbol t = true)
    (hm : m ∈ mentionsOf ctx' symbolPasses (ts.map ctx.canonicalSymbol)) :
    m ∈ mentionsOf ctx symbolPasses ts := by
  obtain ⟨qs, p, rs, -, u, hu, hm⟩ := mem_mentionsOf.mp hm
  obtain ⟨t, ht, rfl⟩ := List.mem_map.mp hu
  rw [h.images_again hs (hts t ht)] at hm
  -- the first run meets the name as it stands when it comes to the globals, and to the callees
  have hearly {qs : List Pass} (hg : Token.isGlobal t = true)
      (hqs : qs ⊆ [structSuffixes, .globals, structs]) : images ctx qs t = t :=
    images_eq_self fun q hq => h.rename?_of_isGlobal hg q (hqs hq)
  rcases hs.mention?_cases hm with ⟨rfl, rfl, hmentioned⟩ | ⟨rfl, rfl, hmentioned⟩
  · obtain ⟨heq, hg, -⟩ := h.eq_of_mentioned (hts t ht) (Or.inl hmentioned)
    refine mem_mentionsOf.mpr ⟨[structSuffixes], .globals, [structs, .calls, .labels, .locals],
      rfl, t, ht, ?_⟩
    rw [hearly hg (by simp), heq]
    rw [heq] at hmentioned
    simp [mention?, hmentioned]
  · obtain ⟨heq, hg, hnot⟩ := h.eq_of_mentioned (hts t ht) (Or.inr hmentioned)
    refine mem_mentionsOf.mpr ⟨[structSuffixes, .globals, structs], .calls, [.labels, .locals],
      rfl, t, ht, ?_⟩
    rw [hearly hg (by simp), heq]
    rw [heq] at hmentioned
    simp [mention?, RenameTable.get?_eq_none_iff.mpr hnot, SymbolTables.isExemptCall, hmentioned]

/-! ### Texts -/

/-- A canonical text stays, and mentions nothing new. -/
theorem repeats_runPasses (h : ctx.Tabled f) (hs : ctx.Settled ctx')
    (hp : Inert ctx.config.constantPlaceholder.toList) (hq : Token.Unquoted s) :
    (runPasses ctx s).Repeats (runPasses ctx' (runPasses ctx s).text) := by
  have hstrip := h.stripAnnotations_runPasses hp hq
  have hsymbols := h.symbols_text_runPasses hp s
  have hts : ∀ t ∈ Token.symbols (Token.stripAnnotations s), Token.isSymbol t = true :=
    fun _ ht => Token.isSymbol_of_mem ht
  have hrenamed : ctx'.renamed (runPasses ctx s).text = (runPasses ctx s).text := by
    rw [PassContext.renamed, hstrip]
    refine Token.mapSymbols_eq_self fun u hu => ?_
    rw [hsymbols] at hu
    obtain ⟨t, ht, rfl⟩ := List.mem_map.mp hu
    exact h.images_again hs (hts t ht) symbolPasses
  have htext : (runPasses ctx s).text = (hideConstants ctx (ctx.renamed s)).text := by
    rw [runPasses_eq h.collected.sound]
  have hagain := runPasses_eq hs.sound (runPasses ctx s).text
  rw [hrenamed, hstrip, hsymbols, hideConstants_congr hs.frequency hs.config] at hagain
  constructor
  · rw [hagain]
    dsimp only
    rw [htext, hideConstants_hideConstants hp]
  · rw [hagain]
    dsimp only
    intro m hm
    rw [runPasses_eq h.collected.sound, List.mem_append]
    refine (List.mem_append.mp hm).imp (h.mem_mentionsOf_again hs hts) fun hm => ?_
    rw [htext] at hm
    exact mentions_hideConstants_hideConstants hp hm

end Tabled

end PassContext

namespace RewriteContext

variable {f : Function} {ctx ctx' : RewriteContext} {i : Instruction} {b : Block} {s : String}

/-! ### Fields -/

section

variable (h : ctx.toPassContext.Tabled f)
  (hs : ctx.toPassContext.Settled ctx'.toPassContext)
  (hp : Inert ctx.config.constantPlaceholder.toList)

include h hs hp

/-- The second run repeats the canonical form of a text. -/
theorem repeats_canonicalText (hq : Token.Unquoted s) :
    (ctx.canonicalText s).Repeats (ctx'.canonicalText (ctx.canonicalText s).text) :=
  h.repeats_runPasses hs hp hq

/-- A label in canonical form is normal, and stays. -/
theorem repeats_canonicalLabel (ht : Token.normalizeLabel s ∈ f.labelNames) :
    (ctx.canonicalLabel s).Repeats (ctx'.canonicalLabel (ctx.canonicalLabel s).text) := by
  rw [canonicalLabel.eq_def ctx', (normalizeLabel_canonicalLabel h ht).2]
  have hsymbol := (h.wellNamed.labels _ ht).isSymbol
  exact repeats_canonicalText h hs hp (Token.unquoted_of_isSymbol hsymbol)

variable (htexts : ctx'.instructionTexts =
  ctx.instructionTexts.map fun s => (ctx.canonicalText s).text)

include htexts

/-- An operand that repeats the text of an instruction still does in canonical form. One that does
so in canonical form only mentions nothing the second time. -/
theorem repeats_canonicalOperand (hq : Token.Unquoted s) :
    (ctx.canonicalOperand s).Repeats (ctx'.canonicalOperand (ctx.canonicalOperand s).text) := by
  have hrepeats := repeats_canonicalText h hs hp hq
  rw [text_canonicalOperand]
  constructor
  · rw [text_canonicalOperand, text_canonicalOperand, hrepeats.text]
  · intro m hm
    unfold canonicalOperand at hm ⊢
    split at hm
    · simp at hm
    · rename_i hnot
      rw [if_neg fun hmem => hnot ?_]
      · exact hrepeats.mentions m hm
      · rw [List.contains_iff_mem] at hmem ⊢
        rw [htexts]
        exact List.mem_map_of_mem hmem

/-- A canonical instruction stays: its fields do, and so does its usage, since nothing else is
mentioned by them. -/
theorem canonicalInstruction_again (hq : ∀ s ∈ i.texts, Token.Unquoted s)
    (ht : ∀ t ∈ i.targets, Token.normalizeLabel t ∈ f.labelNames) :
    ctx'.canonicalInstruction (ctx.canonicalInstruction i) = ctx.canonicalInstruction i := by
  have hoperand : ∀ s ∈ i.texts, (ctx.canonicalOperand s).Repeats
      (ctx'.canonicalOperand (ctx.canonicalOperand s).text) :=
    fun s hs' => repeats_canonicalOperand h hs hp htexts (hq s hs')
  have hfield : ∀ s ∈ i.texts, (ctx.canonicalText s).Repeats
      (ctx'.canonicalText (ctx.canonicalText s).text) :=
    fun s hs' => repeats_canonicalText h hs hp (hq s hs')
  have htext := hfield i.text List.mem_cons_self
  have hoperands := Rewritten.repeats_list i.operands fun s hs' =>
    hoperand s (by simp [Instruction.texts, hs'])
  have hcondition := Rewritten.repeats_option i.condition fun s hs' =>
    hoperand s (by simp [Instruction.texts, Option.mem_def.mp hs'])
  have hvalue := Rewritten.repeats_option i.returnValue fun s hs' =>
    hoperand s (by simp [Instruction.texts, Option.mem_def.mp hs'])
  have htargets := Rewritten.repeats_list i.targets fun t ht' =>
    repeats_canonicalLabel h hs hp (ht t ht')
  have hcallee := Rewritten.repeats_option i.callee fun s hs' =>
    hfield s (by simp [Instruction.texts, Option.mem_def.mp hs'])
  have hvar := Rewritten.repeats_option i.definedVar fun s hs' =>
    hfield s (by simp [Instruction.texts, Option.mem_def.mp hs'])
  have htype := Rewritten.repeats_option i.returnType fun s hs' =>
    hfield s (by simp [Instruction.texts, Option.mem_def.mp hs'])
  have hfields : List.Forall₂ Rewritten.Repeats (ctx.canonicalFields i)
      (ctx'.canonicalFields (ctx.canonicalInstruction i)) := by
    have hsingle : List.Forall₂ Rewritten.Repeats [ctx.canonicalText i.text]
        [ctx'.canonicalText (ctx.canonicalText i.text).text] := .cons htext .nil
    exact List.rel_append (List.rel_append (List.rel_append (List.rel_append (List.rel_append
      (List.rel_append (List.rel_append hsingle hoperands) hcondition) hvalue) htargets) hcallee)
      hvar) htype
  have husage := i.usage.merge_merge_eq (Rewritten.mentions_subset hfields)
  simp only [canonicalInstruction] at husage ⊢
  rw [htext.text, Rewritten.texts_eq hoperands, Rewritten.texts_eq_option hvar,
    Rewritten.texts_eq_option hcondition, Rewritten.texts_eq htargets,
    Rewritten.texts_eq_option hcallee, Rewritten.texts_eq_option htype,
    Rewritten.texts_eq_option hvalue, husage]

/-- The second run makes the same block of a canonical block. -/
theorem canonicalBlock_again (hb : b ∈ f.blocks) :
    ctx'.canonicalBlock (ctx.canonicalBlock b) = ctx.canonicalBlock b := by
  have hlabel := repeats_canonicalLabel h hs hp (List.mem_map.mpr ⟨b, hb, rfl⟩)
  have hinstructions : ∀ i ∈ b.instructions,
      ctx'.canonicalInstruction (ctx.canonicalInstruction i) = ctx.canonicalInstruction i := by
    intro i hi
    have hmem : i ∈ f.instructions := List.mem_flatMap.mpr ⟨b, hb, hi⟩
    exact canonicalInstruction_again h hs hp htexts
      (fun s hs' => h.wellNamed.unquoted s (Function.mem_texts_of_instruction hmem hs'))
      (h.wellNamed.targets i hmem)
  simp only [canonicalBlock]
  rw [hlabel.text, List.map_map]
  exact congrArg (Block.mk _) (List.map_congr_left hinstructions)

/-- The second run makes the same function of a canonical function. -/
theorem function_again : ctx'.function (ctx.function f) = ctx.function f := by
  have hparams : ∀ p ∈ f.params, (ctx'.canonicalText (ctx.canonicalText p).text).text =
      (ctx.canonicalText p).text := fun p hmem =>
    (repeats_canonicalText h hs hp (h.wellNamed.unquoted p (Function.mem_texts_of_param hmem))).text
  have hblocks : ∀ b ∈ f.blocks,
      ctx'.canonicalBlock (ctx.canonicalBlock b) = ctx.canonicalBlock b :=
    fun b hb => canonicalBlock_again h hs hp htexts hb
  rw [function_eq, function_eq, List.map_map, List.map_map]
  exact congrArg₂ (Function.mk f.name) (List.map_congr_left hparams) (List.map_congr_left hblocks)

end

end RewriteContext

/-! ### Both runs -/

/-- The canonical form of a well-named function is its own canonical form, its usage included, and
in the second run every parameter, label, variable and callee keeps its name. -/
theorem canonicalize_canonicalize {f : Function} {metadata : Metadata}
    {frequency : FrequencyTables} {config : Config.Canonicalize}
    (hp : config.constantPlaceholder = ({} : Config.Canonicalize).constantPlaceholder)
    (hg : config.renameGlobals = false) (h : f.WellNamed metadata frequency)
    (hl : f.ReadsAlike) :
    let first := canonicalize metadata frequency config f
    let second := canonicalize metadata frequency config first.function
    second.function = first.function ∧ second.symbols.vars.Identical ∧
      second.symbols.params.Identical ∧ second.symbols.labels.Identical ∧
      second.symbols.calls.Identical := by
  have hinert : Inert config.constantPlaceholder.toList := hp ▸ Text.inert_default
  have htabled : (rewriteContext metadata frequency config f).toPassContext.Tabled f :=
    h.tabled config hg
  have hsettled := RewriteContext.settled_again h hl hinert hg
  have htexts (g : Function) : (rewriteContext metadata frequency config g).instructionTexts =
      g.instructions.map (·.text) := rfl
  have hagain := RewriteContext.function_again htabled hsettled hinert (by
    rw [htexts, htexts, RewriteContext.instructions_function, List.map_map, List.map_map]
    rfl)
  exact ⟨hagain, hsettled.vars, hsettled.params, hsettled.labels, hsettled.calls⟩

/-- A function that calls another one with its parameter and returns what it gets. -/
def callExample : Function :=
  { name := "f"
    params := ["i32 noundef %n"]
    blocks :=
      [⟨"0", [{ id := 1, opcode := .call, text := "%x = call i32 @g(i32 %n), !dbg !7",
                operands := ["%n"], definedVar := some "%x", callee := some "i32 @g" },
              { id := 2, opcode := .br, text := "br label %1", targets := ["label %1"] }]⟩,
       ⟨"1", [{ id := 3, opcode := .ret, text := "ret i32 %x", operands := ["%x"],
                returnValue := some "%x" }]⟩] }

/-- The canonical form of the function, and that of its canonical form. -/
theorem canonicalize_canonicalize_of_callExample :
    callExample.WellNamed {} {} ∧ callExample.ReadsAlike ∧
      (canonicalize {} {} {} callExample).function.params = ["i32 noundef %arg1"] ∧
      (canonicalize {} {} {} callExample).function.instructions.map (·.text) =
        ["%var0 = call i32 @function_0(i32 %arg1)", "br label %label_1", "ret i32 %var0"] ∧
      let first := canonicalize {} {} {} callExample
      let second := canonicalize {} {} {} first.function
      second.function = first.function ∧ second.symbols.vars.Identical ∧
        second.symbols.params.Identical ∧ second.symbols.labels.Identical ∧
        second.symbols.calls.Identical := by
  have hw : callExample.WellNamed {} {} := .of_apart (by decide +kernel)
  have hl : callExample.ReadsAlike := by decide +kernel
  exact ⟨hw, hl, by decide +kernel, by decide +kernel, canonicalize_canonicalize rfl rfl hw hl⟩

/-- A function whose parameter has another last word behind an attachment. -/
def attachedExample : Function :=
  { name := "f", params := ["ptr %a, !foo %b"], blocks := [⟨"%0", []⟩] }

/-- Names have to be read alike. The parameter of this function is the last word behind the
attachment; the canonical form has none, so in the second run it is another word. -/
theorem canonicalize_ne_of_attachedExample :
    attachedExample.WellNamed {} {} ∧ attachedExample.declaredParams = ["%b"] ∧
      (canonicalize {} {} {} attachedExample).function.params = ["ptr %a"] ∧
      (canonicalize {} {} {} (canonicalize {} {} {} attachedExample).function).function.params =
        ["ptr %arg1"] ∧
      (canonicalize {} {} {} (canonicalize {} {} {} attachedExample).function).function ≠
        (canonicalize {} {} {} attachedExample).function :=
  ⟨.of_apart (by decide +kernel), by decide +kernel⟩

end InstrGraph
