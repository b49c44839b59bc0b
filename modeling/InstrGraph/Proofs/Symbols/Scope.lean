import InstrGraph.Proofs.Symbols.Sightings
import InstrGraph.Proofs.Text.Renaming

/-!
# What stands in a function

The names that are read off the fields of a function are cut from these fields (`Token.CutFrom`), so
in a function without double quotes they have no identifiers but those of the function
(`Function.scope`).
-/

namespace InstrGraph

/-! ### The texts of a function -/

/-- The texts of an instruction. -/
def Instruction.texts (i : Instruction) : List String :=
  i.text :: (i.operands ++ i.definedVar.toList ++ i.condition.toList ++ i.targets ++
    i.callee.toList ++ i.returnType.toList ++ i.returnValue.toList)

/-- The texts of a block. -/
def Block.texts (b : Block) : List String := b.label :: b.instructions.flatMap Instruction.texts

namespace Function

/-- The texts of a function. -/
def texts (f : Function) : List String := f.params ++ f.blocks.flatMap Block.texts

/-- The identifiers of a function. -/
def symbols (f : Function) : List String := f.texts.flatMap Token.symbols

/-- The identifiers of the texts of a function are those of the function. -/
theorem mem_symbols_of_mem_texts {f : Function} {s t : String} (hs : s ∈ f.texts)
    (ht : t ∈ Token.symbols s) : t ∈ f.symbols := List.mem_flatMap.mpr ⟨s, hs, ht⟩

/-- A declaration of a parameter is one of the texts of its function. -/
theorem mem_texts_of_param {f : Function} {p : String} (h : p ∈ f.params) : p ∈ f.texts :=
  List.mem_append_left _ h

/-- A label is one of the texts of its function. -/
theorem mem_texts_of_label {f : Function} {b : Block} (h : b ∈ f.blocks) : b.label ∈ f.texts :=
  List.mem_append_right _ (List.mem_flatMap.mpr ⟨b, h, List.mem_cons_self⟩)

/-- The texts of an instruction are among those of its function. -/
theorem mem_texts_of_instruction {f : Function} {i : Instruction} {s : String}
    (hi : i ∈ f.instructions) (hs : s ∈ i.texts) : s ∈ f.texts := by
  obtain ⟨b, hb, hib⟩ := List.mem_flatMap.mp hi
  refine List.mem_append_right _ (List.mem_flatMap.mpr ⟨b, hb, ?_⟩)
  exact List.mem_cons_of_mem _ (List.mem_flatMap.mpr ⟨i, hib, hs⟩)

end Function

/-! ### Texts that are cut from others -/

namespace Token

/-- The text is a part of another: it has none but its identifiers and characters. -/
structure CutFrom (v s : String) : Prop where
  symbols : ∀ t ∈ symbols v, t ∈ Token.symbols s
  chars : ∀ c ∈ v.toList, c ∈ s.toList

/-- What an operation leaves of a text is a part of it. -/
theorem cutFrom_onString {f : List Char → List Char} (k : Text.Cut f) (s : String) :
    CutFrom (onString f s) s where
  symbols _ ht := mem_symbols_onString k ht
  chars c hc := by
    rw [toList_onString] at hc
    exact (k.apply_infix _).mem hc

/-- The last token of a text is a part of it. -/
theorem cutFrom_last (s : String) : CutFrom (last s) s := cutFrom_onString .lastToken s

/-- A trimmed text is a part of the text. -/
theorem cutFrom_trim (s : String) : CutFrom (trim s) s := cutFrom_onString .trim s

/-- A text without double quotes that loses its annotations is a part of the text. -/
theorem cutFrom_stripAnnotations {s : String} (h : Unquoted s) :
    CutFrom (stripAnnotations s) s := by
  rw [stripAnnotations_eq h]
  exact cutFrom_onString cutAnnotations s

/-- A part of a part is a part. -/
theorem CutFrom.trans {u v s : String} (h : CutFrom u v) (h' : CutFrom v s) : CutFrom u s :=
  ⟨fun t ht => h'.symbols t (h.symbols t ht), fun c hc => h'.chars c (h.chars c hc)⟩

end Token

/-- The text before the first equals sign as a cut. -/
def Instruction.cutAssigned : Text.Cut (List.takeWhile fun c => !(c == '=')) :=
  .takeWhile (Text.foreign_beq (by decide) (by decide))

/-- The text before the first equals sign. -/
def Instruction.assigned (s : String) : String :=
  Token.onString (List.takeWhile fun c => !(c == '=')) s

/-- What is assigned to is renamed as the text is. -/
theorem Instruction.assigned_mapSymbols {g : String → String} {s : String}
    (h : Token.KeepsSymbols g s) :
    assigned (Token.mapSymbols g s) = Token.mapSymbols g (assigned s) :=
  Token.onString_mapSymbols cutAssigned h

/-- What is assigned to is a part of the text. -/
theorem Instruction.cutFrom_assigned (s : String) : Token.CutFrom (assigned s) s :=
  Token.cutFrom_onString cutAssigned s

/-- Something is assigned to in a text with an equals sign, namely what stands before it. -/
theorem Instruction.assigned?_eq (s : String) :
    assigned? s = if s.toList.any (· == '=') then some (assigned s) else none := by
  have hlength (cs : List Char) :
      (cs.takeWhile fun c => !(c == '=')).length < cs.length ↔ cs.any (· == '=') = true := by
    induction cs with
    | nil => simp
    | cons c cs ih => cases hc : c == '=' <;> simp [hc, ih]
  have hpred : (fun c : Char => decide (c ≠ '=')) = fun c => !(c == '=') := by
    funext c
    rw [Bool.eq_iff_iff]
    simp
  simp only [Instruction.assigned?, hpred, hlength]
  rfl

/-- The result of an instruction is a part of one of its texts. -/
theorem Instruction.cutFrom_of_resultVar? {i : Instruction} {v : String}
    (h : i.resultVar? = some v) : ∃ s ∈ i.texts, Token.CutFrom v s := by
  unfold resultVar? at h
  split at h
  · rename_i w hw
    refine ⟨w, by simp [texts, hw], ?_⟩
    dsimp only at h
    split at h
    · simp at h
    · rw [← Option.some.inj h]
      exact Token.cutFrom_trim w
  · split at h
    · rename_i left hleft
      refine ⟨i.text, by simp [texts], ?_⟩
      rw [assigned?_eq] at hleft
      split at hleft
      · dsimp only at h
        split at h
        · rw [← Option.some.inj h, ← Option.some.inj hleft]
          exact (Token.cutFrom_trim _).trans (cutFrom_assigned _)
        · simp at h
      · simp at hleft
    · simp at h

/-- The name of a callee is a part of the callee. -/
theorem Instruction.cutFrom_of_calleeName? {i : Instruction} {c : String}
    (h : i.calleeName? = some c) : ∃ s ∈ i.callee, Token.CutFrom c s := by
  unfold calleeName? at h
  split at h
  · rename_i w hw
    refine ⟨w, hw, ?_⟩
    dsimp only at h
    split at h
    · simp at h
    · rw [← Option.some.inj h]
      exact Token.cutFrom_last w
  · simp at h

/-! ### What stands in a function -/

/-- The texts without double quotes that have only identifiers of the function. -/
def Function.scope (f : Function) : Set String :=
  {s | Token.Unquoted s ∧ ∀ t ∈ Token.symbols s, t ∈ f.symbols}

namespace Function

variable {f : Function} {s v t : String}

/-- What is part of a text in scope is in scope. -/
theorem mem_scope_of_cutFrom (hs : s ∈ f.scope) (hv : Token.CutFrom v s) : v ∈ f.scope :=
  ⟨fun hq => hs.1 (hv.chars _ hq), fun t ht => hs.2 t (hv.symbols t ht)⟩

/-- A text in scope without its annotations is in scope. -/
theorem stripAnnotations_mem_scope (hs : s ∈ f.scope) : Token.stripAnnotations s ∈ f.scope :=
  mem_scope_of_cutFrom hs (Token.cutFrom_stripAnnotations hs.1)

/-- The last token of a text in scope is in scope. -/
theorem last_mem_scope (hs : s ∈ f.scope) : Token.last s ∈ f.scope :=
  mem_scope_of_cutFrom hs (Token.cutFrom_last s)

/-- An identifier of the function is in scope. -/
theorem symbol_mem_scope (ht : Token.isSymbol t = true) (hmem : t ∈ f.symbols) : t ∈ f.scope := by
  refine ⟨Token.unquoted_of_isSymbol ht, fun u hu => ?_⟩
  rw [Token.symbols_of_isSymbol ht, List.mem_singleton] at hu
  rwa [hu]

/-- The identifiers of a function are identifiers. -/
theorem isSymbol_of_mem_symbols (ht : t ∈ f.symbols) : Token.isSymbol t = true := by
  obtain ⟨s, -, ht⟩ := List.mem_flatMap.mp ht
  exact Token.isSymbol_of_mem ht

variable {i : Instruction}

/-- No field has a double quote. -/
def Unquoted (f : Function) : Prop := ∀ s ∈ f.texts, Token.Unquoted s

instance (f : Function) : Decidable f.Unquoted :=
  inferInstanceAs (Decidable (∀ s ∈ f.texts, Token.Unquoted s))

namespace Unquoted

/-- If no text has double quotes, all texts are in scope. -/
theorem mem_scope (hq : f.Unquoted) (hs : s ∈ f.texts) : s ∈ f.scope :=
  ⟨hq s hs, fun _ ht => mem_symbols_of_mem_texts hs ht⟩

/-- If no text has double quotes, those of an instruction are in scope. -/
theorem mem_scope_of_instruction (hq : f.Unquoted) (hi : i ∈ f.instructions) :
    ∀ s ∈ i.texts, s ∈ f.scope := fun _ hs => hq.mem_scope (mem_texts_of_instruction hi hs)

/-- If no text has double quotes, the result of an instruction is in scope. -/
theorem resultVar_mem_scope (hq : f.Unquoted) (hi : i ∈ f.instructions)
    (hv : i.resultVar? = some v) : v ∈ f.scope := by
  obtain ⟨s, hs, hcut⟩ := Instruction.cutFrom_of_resultVar? hv
  exact mem_scope_of_cutFrom (hq.mem_scope_of_instruction hi s hs) hcut

/-- If no text has double quotes, the name of a callee is in scope. -/
theorem calleeName_mem_scope (hq : f.Unquoted) (hi : i ∈ f.instructions)
    (hv : i.calleeName? = some v) : v ∈ f.scope := by
  obtain ⟨s, hs, hcut⟩ := Instruction.cutFrom_of_calleeName? hv
  have hmem : s ∈ i.texts := by
    rw [Option.mem_def] at hs
    simp [Instruction.texts, hs]
  exact mem_scope_of_cutFrom (hq.mem_scope_of_instruction hi s hmem) hcut

/-- If no text has double quotes, the variables that the function defines are in scope. -/
theorem definedVars_mem_scope (hq : f.Unquoted) : ∀ v ∈ f.definedVars, v ∈ f.scope := by
  intro v hv
  obtain ⟨i, hi, hv⟩ := List.mem_filterMap.mp hv
  obtain ⟨w, hw', rfl⟩ := Option.map_eq_some_iff.mp hv
  exact stripAnnotations_mem_scope (hq.resultVar_mem_scope hi hw')

/-- If no text has double quotes, the callees of the function are in scope. -/
theorem callees_mem_scope (hq : f.Unquoted) : ∀ v ∈ f.callees, v ∈ f.scope := by
  intro v hv
  obtain ⟨i, hi, hv⟩ := List.mem_filterMap.mp hv
  obtain ⟨w, hw', rfl⟩ := Option.map_eq_some_iff.mp hv
  exact stripAnnotations_mem_scope (hq.calleeName_mem_scope hi hw')

/-- If no text has double quotes, the texts in which names of an instruction are looked for are in
scope. -/
theorem textsOf_mem_scope (hq : f.Unquoted) (hi : i ∈ f.instructions)
    (hs : s ∈ Collection.textsOf i) : s ∈ f.scope := by
  simp only [Collection.textsOf, List.mem_cons, List.mem_append, Option.mem_toList] at hs
  rcases hs with rfl | hs | hs
  · exact hq.mem_scope_of_instruction hi _ (by simp [Instruction.texts])
  · exact hq.mem_scope_of_instruction hi _ (by simp [Instruction.texts, hs])
  · exact hq.calleeName_mem_scope hi hs

/-- If no text has double quotes, all texts in which names are looked for are in scope. -/
theorem scannedTexts_mem_scope (hq : f.Unquoted) : ∀ s ∈ f.scannedTexts, s ∈ f.scope := by
  intro s hs
  rcases List.mem_append.mp hs with hs | hs
  · exact hq.mem_scope (mem_texts_of_param hs)
  · obtain ⟨i, hi, hs⟩ := List.mem_flatMap.mp hs
    exact hq.textsOf_mem_scope hi hs

end Unquoted

end Function

end InstrGraph
