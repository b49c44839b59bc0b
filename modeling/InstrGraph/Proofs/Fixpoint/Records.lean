import InstrGraph.Proofs.Fixpoint.Texts
import InstrGraph.Proofs.Symbols.Mirrors

/-!
# What a canonical function shows a second collection

The canonical form of a well-named function shows the collection the canonical names of what the
function shows it, in the same order (`RewriteContext.sightings_function`): its parameters and
labels, and the identifiers of its texts. It defines the canonical names of the variables that the
function defines, and calls an identifier exactly if the function calls what became of it.

The names of callees and parameters are last words, and some variables stand in front of an equals
sign. All of them have to be the same whether annotations are dropped before they are read or after
(`Function.ReadsAlike`).
-/

namespace InstrGraph

/-! ### Result variables -/

/-- The instruction with annotations dropped where its result variable is read off. -/
def Instruction.stripped (i : Instruction) : Instruction :=
  { i with
    text := Token.stripAnnotations i.text
    definedVar := i.definedVar.map Token.stripAnnotations }

namespace Instruction

variable {i : Instruction} {d v : String}

/-- The result of an instruction with a field for it is the field, trimmed, unless it is empty. -/
theorem resultVar?_of_definedVar (hd : i.definedVar = some d) :
    i.resultVar? = if (Token.trim d).isEmpty then none else some (Token.trim d) := by
  simp [resultVar?, hd]

/-- Without a declared variable it is the only word in front of the equals sign, if that is a local
name. -/
theorem resultVar?_eq_some_iff (hd : i.definedVar = none) :
    i.resultVar? = some v ↔ i.text.toList.any (· == '=') = true ∧
      Text.words (assigned i.text).toList = [v.toList] ∧ Token.isLocal v = true := by
  have hresult : i.resultVar? = (Instruction.assigned? i.text).bind fun left =>
      if Token.isLocal (Token.trim left) && !(Token.trim left).toList.any Text.isBlank
        then some (Token.trim left) else none := by
    unfold resultVar?
    rw [hd]
    cases Instruction.assigned? i.text <;> rfl
  rw [hresult, assigned?_eq]
  cases hany : i.text.toList.any (· == '=') with
  | false => simp
  | true =>
    simp only [if_true, Option.bind_some, true_and]
    generalize assigned i.text = left
    rw [Text.words_eq_singleton_iff, ← Token.toList_trim]
    constructor
    · intro h
      split at h
      · rename_i hif
        rw [← Option.some.inj h]
        rw [Bool.and_eq_true, Bool.not_eq_true', List.any_eq_false] at hif
        refine ⟨⟨rfl, ?_, fun c hc => by simpa using hif.2 c hc⟩, hif.1⟩
        intro hnil
        have hlocal := Token.isLocal_iff.mp hif.1
        simp [hnil] at hlocal
      · simp at h
    · rintro ⟨⟨htrim, -, hblank⟩, hlocal⟩
      rw [String.toList_inj.mp htrim, if_pos]
      rw [hlocal, Bool.true_and, Bool.not_eq_true', List.any_eq_false]
      exact fun c hc => by simp [hblank c hc]

end Instruction

namespace RewriteContext

open Text (Inert)
open Pass (Hides HidesWord)

variable {f : Function} {ctx : RewriteContext} {i : Instruction} {s t v : String}

section

variable (h : ctx.toPassContext.Tabled f)
  (hp : Inert ctx.config.constantPlaceholder.toList)

include h hp

/-- A variable that stands in front of an equals sign, in canonical form. -/
theorem resultVar?_of_text (hd : i.definedVar = none)
    (hv : ∀ v ∈ i.stripped.resultVar?, Token.isSymbol v = true) :
    (ctx.canonicalInstruction i).resultVar? = i.stripped.resultVar?.map ctx.canonicalSymbol := by
  obtain ⟨hleft, hany⟩ := h.assigned_runPasses hp i.text
  have hiff (w : String) : i.stripped.resultVar? = some w ↔
      (Token.stripAnnotations i.text).toList.any (· == '=') = true ∧
        Text.words (Instruction.assigned (Token.stripAnnotations i.text)).toList = [w.toList] ∧
          Token.isLocal w = true :=
    Instruction.resultVar?_eq_some_iff (by simp [Instruction.stripped, hd])
  have hiff' (w : String) : (ctx.canonicalInstruction i).resultVar? = some w ↔
      (runPasses ctx.toPassContext i.text).text.toList.any (· == '=') = true ∧
        Text.words (Instruction.assigned (runPasses ctx.toPassContext i.text).text).toList =
          [w.toList] ∧ Token.isLocal w = true :=
    Instruction.resultVar?_eq_some_iff (by simp [canonicalInstruction, hd])
  cases hr : i.stripped.resultVar? with
  | some v =>
    obtain ⟨hassign, hwords, hlocal⟩ := (hiff v).mp hr
    have hsym := hv v hr
    refine (hiff' _).mpr ⟨hany.trans hassign, ?_, ?_⟩
    · exact hleft.words_eq hp (h.isSymbol_canonicalSymbol hsym) (h.words_mapSymbols hsym hwords)
    · rw [h.isLocal_canonicalSymbol hsym, hlocal]
  | none =>
    by_contra hsome
    obtain ⟨w, hw⟩ := Option.ne_none_iff_exists'.mp hsome
    obtain ⟨hassign, hwords, hlocal⟩ := (hiff' w).mp hw
    obtain ⟨v, hv, hlocal⟩ := h.exists_word_of_hides hp hleft hwords hlocal
    rw [(hiff v).mpr ⟨hany.symm.trans hassign, hv, hlocal⟩] at hr
    exact absurd hr (by simp)

/-- A declared variable, in canonical form. -/
theorem resultVar?_of_definedVar {d : String} (hd : i.definedVar = some d)
    (hv : ∀ v ∈ i.stripped.resultVar?, Token.isSymbol v = true) :
    (ctx.canonicalInstruction i).resultVar? = i.stripped.resultVar?.map ctx.canonicalSymbol := by
  have hd' : (ctx.canonicalInstruction i).definedVar =
      some (runPasses ctx.toPassContext d).text := by
    simp [canonicalInstruction, hd, canonicalText]
  have hstripped : i.stripped.definedVar = some (Token.stripAnnotations d) := by
    simp [Instruction.stripped, hd]
  rw [Instruction.resultVar?_of_definedVar hstripped] at hv ⊢
  rw [Instruction.resultVar?_of_definedVar hd', Token.isEmpty_eq, Token.isEmpty_eq]
  rw [Token.isEmpty_eq] at hv
  cases hempty : (Token.trim (Token.stripAnnotations d)).toList.isEmpty with
  | true =>
    rw [List.isEmpty_iff, Token.toList_trim, ← Text.words_eq_nil_iff] at hempty
    have := h.words_runPasses_of_nil hp hempty
    rw [Text.words_eq_nil_iff, ← Token.toList_trim, ← List.isEmpty_iff] at this
    rw [this]
    rfl
  | false =>
    rw [hempty] at hv
    have hsym := hv (Token.trim (Token.stripAnnotations d)) (by simp)
    have hne := Text.ne_nil_of_isIdentifier hsym
    have hwords : Text.words (Token.stripAnnotations d).toList =
        [(Token.trim (Token.stripAnnotations d)).toList] :=
      Text.words_eq_singleton_iff.mpr ⟨(Token.toList_trim _).symm, hne, Text.foreign_isBlank _ hsym⟩
    obtain ⟨htrim, hne', -⟩ := Text.words_eq_singleton_iff.mp (h.words_runPasses hp hsym hwords)
    rw [← Token.toList_trim] at htrim
    rw [String.toList_inj.mp htrim, List.isEmpty_eq_false_iff.mpr hne']
    rfl

/-- The variable that an instruction assigns, in canonical form. -/
theorem resultVar?_canonicalInstruction
    (hv : ∀ v ∈ i.stripped.resultVar?, Token.isSymbol v = true) :
    (ctx.canonicalInstruction i).resultVar? = i.stripped.resultVar?.map ctx.canonicalSymbol := by
  cases hd : i.definedVar with
  | none => exact resultVar?_of_text h hp hd hv
  | some d => exact resultVar?_of_definedVar h hp hd hv

/-! ### Callees -/

/-- The name of what is called, before and after annotations are dropped, in a canonical callee. -/
theorem stripAnnotations_last_canonicalText {c : String} (hq : Token.Unquoted c) :
    Token.stripAnnotations (Token.last (ctx.canonicalText c).text) =
      Token.last (ctx.canonicalText c).text := by
  refine Token.onString_eq_self ?_
  rw [Token.last, Token.toList_onString]
  exact (h.stripped_runPasses hp hq).lastToken.stripAnnotations_eq

/-- The callee of a canonical instruction has the identifiers of the callee in canonical form. -/
theorem symbols_last_canonicalText {c : String}
    (hl : Token.last (Token.stripAnnotations c) = Token.stripAnnotations (Token.last c)) :
    Token.symbols (Token.last (ctx.canonicalText c).text) =
      (Token.symbols (Token.stripAnnotations (Token.last c))).map ctx.canonicalSymbol := by
  have hword := h.hidesWord_last_runPasses hp c
  have hidentifiers := hword.identifiers_eq hp
  rw [← hl, ← Token.symbols_mapSymbols (h.keepsSymbols _), Token.symbols, Token.symbols]
  exact congrArg (List.map String.ofList) hidentifiers

/-- A canonical callee is an identifier exactly if the callee is one that has become it. -/
theorem last_canonicalText_eq_iff {c : String}
    (hl : Token.last (Token.stripAnnotations c) = Token.stripAnnotations (Token.last c))
    (ht : Token.isSymbol t = true) :
    Token.last (ctx.canonicalText c).text = ctx.canonicalSymbol t ↔
      Token.isSymbol (Token.stripAnnotations (Token.last c)) = true ∧
        ctx.canonicalSymbol (Token.stripAnnotations (Token.last c)) = ctx.canonicalSymbol t := by
  constructor
  · intro heq
    have hsym : Token.isSymbol (Token.last (ctx.canonicalText c).text) = true := by
      rw [heq]
      exact h.isSymbol_canonicalSymbol ht
    have hword := h.hidesWord_last_runPasses hp c
    have hsame := String.toList_inj.mp (hword.eq_of_isIdentifier' hp hsym)
    rw [show (runPasses ctx.toPassContext c).text = (ctx.canonicalText c).text from rfl, heq,
      hl] at hsame
    have hmapped := h.isSymbol_canonicalSymbol ht
    rw [hsame] at hmapped
    have hname := Token.isSymbol_of_mapSymbols (h.keepsSymbols _) hmapped
    rw [Token.mapSymbols_symbol hname] at hsame
    exact ⟨hname, hsame.symm⟩
  · rintro ⟨hname, heq⟩
    rw [← hl] at hname heq
    exact (PassContext.last_runPasses h.collected.sound hname).trans heq

end

/-! ### Labels -/

/-- A label in canonical form is normal. -/
theorem normalizeLabel_canonicalLabel (h : ctx.toPassContext.Tabled f)
    (ht : Token.normalizeLabel s ∈ f.labelNames) :
    (ctx.canonicalLabel s).text = ctx.canonicalSymbol (Token.normalizeLabel s) ∧
      Token.normalizeLabel (ctx.canonicalLabel s).text = (ctx.canonicalLabel s).text := by
  have hlocal := h.wellNamed.labels _ ht
  have htext : (ctx.canonicalLabel s).text = ctx.canonicalSymbol (Token.normalizeLabel s) := by
    rw [canonicalLabel, canonicalText,
      PassContext.text_runPasses_of_isSymbol h.collected.sound hlocal.isSymbol]
  refine ⟨htext, ?_⟩
  rw [htext]
  obtain ⟨p, c, hc⟩ :=
    PassContext.Tabled.exists_canonical? (Or.inl (h.knows_labels _ ht))
  have hcanonical := (h.isCanonical_of_canonical? hc).1
  rw [← h.canonicalSymbol_of_canonical? hc] at hcanonical
  refine hcanonical.normalizeLabel_eq ?_
  rw [h.isLocal_canonicalSymbol hlocal.isSymbol, hlocal.isLocal]

end RewriteContext

/-! ### Everything that is shown -/

/-- What is read off a text is the same whether annotations are dropped before or after: the name of
a parameter or callee, and the result variable of an instruction. -/
structure Function.ReadsAlike (f : Function) : Prop where
  names : ∀ s ∈ f.params ++ f.instructions.filterMap Instruction.callee,
    Token.last (Token.stripAnnotations s) = Token.stripAnnotations (Token.last s)
  vars : ∀ i ∈ f.instructions, i.stripped.resultVar? = i.resultVar?.map Token.stripAnnotations

instance (f : Function) : Decidable f.ReadsAlike :=
  decidable_of_iff ((∀ s ∈ f.params ++ f.instructions.filterMap Instruction.callee,
      Token.last (Token.stripAnnotations s) = Token.stripAnnotations (Token.last s)) ∧
      ∀ i ∈ f.instructions, i.stripped.resultVar? = i.resultVar?.map Token.stripAnnotations)
    ⟨fun h => ⟨h.1, h.2⟩, fun h => ⟨h.names, h.vars⟩⟩

/-- The callee of an instruction reads alike with and without attachments, if the function does. -/
theorem Function.ReadsAlike.callee {f : Function} (h : f.ReadsAlike) {i : Instruction}
    (hi : i ∈ f.instructions) {c : String} (hc : i.callee = some c) :
    Token.last (Token.stripAnnotations c) = Token.stripAnnotations (Token.last c) :=
  h.names c (List.mem_append_right _ (List.mem_filterMap.mpr ⟨i, hi, hc⟩))

/-- The names that are seen for a callee are the identifiers of its last token. -/
theorem Instruction.flatMap_calleeName? {i : Instruction} {c : String} (hc : i.callee = some c)
    (id : Option UInt32) : i.calleeName?.toList.flatMap (Sighting.ofText id) =
      (Token.symbols (Token.stripAnnotations (Token.last c))).map (Sighting.token id) := by
  simp only [calleeName?, hc]
  split
  · rename_i hempty
    rw [String.isEmpty_iff.mp hempty]
    rfl
  · rw [Option.toList_some, List.flatMap_singleton]
    rfl

/-- The name of a callee is an identifier if its last token is this identifier, annotations not
counted. -/
theorem Instruction.calleeName?_eq_some_iff {i : Instruction} {c : String}
    (hc : i.callee = some c) {t : String} (ht : Token.isSymbol t = true) :
    i.calleeName?.map Token.stripAnnotations = some t ↔
      Token.stripAnnotations (Token.last c) = t := by
  simp only [calleeName?, hc]
  split
  · rename_i hempty
    rw [String.isEmpty_iff.mp hempty]
    refine ⟨by simp, ?_⟩
    rintro rfl
    exact absurd ht (by decide)
  · rw [Option.map_some, Option.some.injEq]

namespace RewriteContext

open Text (Inert)

variable {f : Function} {ctx : RewriteContext} {i : Instruction} {s t v : String}

section

variable (h : ctx.toPassContext.Tabled f)
  (hp : Inert ctx.config.constantPlaceholder.toList)

include h hp

/-- The sightings of a canonical text are those of the text in canonical form. -/
theorem ofText_canonicalText (hq : Token.Unquoted s) (id : Option UInt32) :
    Sighting.ofText id (ctx.canonicalText s).text =
      (Sighting.ofText id s).map (Sighting.map ctx.canonicalSymbol) := by
  have hsymbols : Token.symbols (ctx.canonicalText s).text =
      (Token.symbols (Token.stripAnnotations s)).map ctx.canonicalSymbol :=
    h.symbols_text_runPasses hp s
  have hstrip : Token.stripAnnotations (ctx.canonicalText s).text = (ctx.canonicalText s).text :=
    h.stripAnnotations_runPasses hp hq
  rw [Sighting.ofText, hstrip, hsymbols, Sighting.ofText, List.map_map, List.map_map]
  rfl

/-- The sightings of a canonical instruction are those of the instruction in canonical form. -/
theorem sightings_canonicalInstruction (hq : ∀ s ∈ i.texts, Token.Unquoted s)
    (hl : ∀ c ∈ i.callee,
      Token.last (Token.stripAnnotations c) = Token.stripAnnotations (Token.last c)) :
    (ctx.canonicalInstruction i).sightings =
      i.sightings.map (Sighting.map ctx.canonicalSymbol) := by
  have htext := ofText_canonicalText h hp (hq i.text List.mem_cons_self) (some i.id)
  have htype : ((i.returnType.map ctx.canonicalText).map Rewritten.text).toList.flatMap
      (Sighting.ofText (some i.id)) =
      (i.returnType.toList.flatMap (Sighting.ofText (some i.id))).map
        (Sighting.map ctx.canonicalSymbol) := by
    cases hr : i.returnType with
    | none => rfl
    | some r =>
      have hr := ofText_canonicalText h hp (hq r (by simp [Instruction.texts, hr])) (some i.id)
      simpa using hr
  have hcallee : (ctx.canonicalInstruction i).calleeName?.toList.flatMap
      (Sighting.ofText (some i.id)) =
      (i.calleeName?.toList.flatMap (Sighting.ofText (some i.id))).map
        (Sighting.map ctx.canonicalSymbol) := by
    cases hc : i.callee with
    | none => simp [Instruction.calleeName?, canonicalInstruction, hc]
    | some c =>
      have hc' : (ctx.canonicalInstruction i).callee = some (ctx.canonicalText c).text := by
        simp [canonicalInstruction, hc]
      rw [Instruction.flatMap_calleeName? hc', Instruction.flatMap_calleeName? hc,
        stripAnnotations_last_canonicalText h hp (hq c (by simp [Instruction.texts, hc])),
        symbols_last_canonicalText h hp (hl c hc), List.map_map, List.map_map]
      rfl
  have htexts (j : Instruction) : j.sightings = Sighting.ofText (some j.id) j.text ++
      (j.returnType.toList.flatMap (Sighting.ofText (some j.id)) ++
        j.calleeName?.toList.flatMap (Sighting.ofText (some j.id))) := by
    rw [Instruction.sightings, Collection.textsOf, List.flatMap_cons, List.flatMap_append]
  have hid : (ctx.canonicalInstruction i).id = i.id := by rw [canonicalInstruction]
  have htext' : (ctx.canonicalInstruction i).text = (ctx.canonicalText i.text).text := by
    rw [canonicalInstruction]
  have htype' : (ctx.canonicalInstruction i).returnType =
      (i.returnType.map ctx.canonicalText).map Rewritten.text := by rw [canonicalInstruction]
  rw [htexts, htexts i, hid, htext', htype', htext, htype, hcallee, List.map_append,
    List.map_append]

omit hp in
/-- The parameters of a canonical function are seen as those of the function in canonical form. -/
theorem paramSightings_function (hl : f.ReadsAlike) :
    ((ctx.function f).paramNames.map fun n => Sighting.param (Token.stripAnnotations n)) =
      (f.paramNames.map fun n => Sighting.param (Token.stripAnnotations n)).map
        (Sighting.map ctx.canonicalSymbol) := by
  simp only [Function.paramNames, function_eq, List.map_map]
  refine List.map_congr_left fun p hmem => ?_
  have hlocal := h.wellNamed.params _ (List.mem_map_of_mem (List.mem_map_of_mem hmem))
  have hlast := hl.names p (List.mem_append_left _ hmem)
  have hcanonical := PassContext.last_runPasses h.collected.sound (hlast.symm ▸ hlocal.isSymbol)
  rw [hlast] at hcanonical
  simp only [Function.comp_apply, Sighting.map]
  rw [show (ctx.canonicalText p).text = (runPasses ctx.toPassContext p).text from rfl, hcanonical,
    Token.stripAnnotations_of_isSymbol (h.isSymbol_canonicalSymbol hlocal.isSymbol)]

omit hp in
/-- The labels of a canonical function are seen as those of the function in canonical form. -/
theorem labelSightings_function :
    ((ctx.function f).blocks.map fun b => Sighting.label (Token.normalizeLabel b.label)) =
      (f.blocks.map fun b => Sighting.label (Token.normalizeLabel b.label)).map
        (Sighting.map ctx.canonicalSymbol) := by
  rw [function_eq, List.map_map, List.map_map]
  refine List.map_congr_left fun b hmem => ?_
  obtain ⟨htext, hnormal⟩ := normalizeLabel_canonicalLabel h (List.mem_map.mpr ⟨b, hmem, rfl⟩)
  simp only [Function.comp_apply, Sighting.map, canonicalBlock]
  rw [hnormal, htext]

/-- The canonical function shows the canonical names of what the function shows. -/
theorem sightings_function (hl : f.ReadsAlike) :
    (ctx.function f).sightings = f.sightings.map (Sighting.map ctx.canonicalSymbol) := by
  have hdeclared : (ctx.function f).params.flatMap (Sighting.ofText none) =
      (f.params.flatMap (Sighting.ofText none)).map (Sighting.map ctx.canonicalSymbol) := by
    rw [function_eq, List.flatMap_map, List.map_flatMap]
    refine List.flatMap_congr fun p hmem => ?_
    exact ofText_canonicalText h hp (h.wellNamed.unquoted p (Function.mem_texts_of_param hmem)) none
  have hinstructions : (ctx.function f).instructions.flatMap Instruction.sightings =
      (f.instructions.flatMap Instruction.sightings).map (Sighting.map ctx.canonicalSymbol) := by
    rw [instructions_function, List.flatMap_map, List.map_flatMap]
    refine List.flatMap_congr fun i hi => ?_
    refine sightings_canonicalInstruction h hp
      (fun s hs => h.wellNamed.unquoted s (Function.mem_texts_of_instruction hi hs)) fun c hc => ?_
    exact hl.callee hi hc
  rw [Function.sightings, paramSightings_function h hl, hdeclared, labelSightings_function h,
    hinstructions, Function.sightings, List.map_append, List.map_append, List.map_append]

/-- The canonical function defines the canonical names of the variables. -/
theorem definedVars_function (hl : f.ReadsAlike) :
    (ctx.function f).definedVars = f.definedVars.map ctx.canonicalSymbol := by
  rw [Function.definedVars, instructions_function, List.filterMap_map, Function.definedVars,
    List.map_filterMap]
  refine List.filterMap_congr fun i hi => ?_
  have hread := hl.vars i hi
  have hv : ∀ v ∈ i.stripped.resultVar?, Token.isSymbol v = true := fun v hv => by
    rw [hread] at hv
    exact (h.wellNamed.vars v (List.mem_filterMap.mpr ⟨i, hi, hv⟩)).isSymbol
  rw [Function.comp_apply, resultVar?_canonicalInstruction h hp hv, ← hread]
  cases hr : i.stripped.resultVar? with
  | none => rfl
  | some v =>
    simp [Token.stripAnnotations_of_isSymbol (h.isSymbol_canonicalSymbol (hv v hr))]

/-- The canonical function calls what has become of the callees. -/
theorem mem_callees_function_iff (hl : f.ReadsAlike) (ht : Token.isSymbol t = true) :
    ctx.canonicalSymbol t ∈ (ctx.function f).callees ↔
      ∃ u ∈ f.callees, Token.isSymbol u = true ∧
        ctx.canonicalSymbol u = ctx.canonicalSymbol t := by
  have hsym := h.isSymbol_canonicalSymbol ht
  have hstep {i : Instruction} (hi : i ∈ f.instructions) {c : String} (hc : i.callee = some c) :
      (ctx.canonicalInstruction i).calleeName?.map Token.stripAnnotations =
          some (ctx.canonicalSymbol t) ↔
        Token.isSymbol (Token.stripAnnotations (Token.last c)) = true ∧
          ctx.canonicalSymbol (Token.stripAnnotations (Token.last c)) = ctx.canonicalSymbol t := by
    have hc' : (ctx.canonicalInstruction i).callee = some (ctx.canonicalText c).text := by
      simp [canonicalInstruction, hc]
    have hq := h.wellNamed.unquoted c
      (Function.mem_texts_of_instruction hi (by simp [Instruction.texts, hc]))
    rw [Instruction.calleeName?_eq_some_iff hc' hsym,
      stripAnnotations_last_canonicalText h hp hq,
      last_canonicalText_eq_iff h hp
        (hl.callee hi hc) ht]
  rw [Function.callees, instructions_function, List.filterMap_map, List.mem_filterMap]
  simp only [Function.callees, List.mem_filterMap]
  constructor
  · rintro ⟨i, hi, hcall⟩
    cases hc : i.callee with
    | none => simp [Instruction.calleeName?, canonicalInstruction, hc] at hcall
    | some c =>
      obtain ⟨hname, heq⟩ := (hstep hi hc).mp hcall
      exact ⟨_, ⟨i, hi, (Instruction.calleeName?_eq_some_iff hc hname).mpr rfl⟩, hname, heq⟩
  · rintro ⟨u, ⟨i, hi, hcall⟩, hu, heq⟩
    refine ⟨i, hi, ?_⟩
    cases hc : i.callee with
    | none => simp [Instruction.calleeName?, hc] at hcall
    | some c =>
      obtain rfl := (Instruction.calleeName?_eq_some_iff hc hu).mp hcall
      exact (hstep hi hc).mpr ⟨hu, heq⟩

end

end RewriteContext

end InstrGraph
