import InstrGraph.Graph.Operand
import InstrGraph.Proofs.Text.Words

/-!
# Operands that repeat an instruction

An operand stands for an instruction in every call exactly if, trimmed, it is the text of one, or
else its last word is the variable that one defines (`Resolver.classify_eq_instruction_iff`). Where
several instructions have the text or the variable, the first one counts.

Texts of instructions are not trimmed. One with a blank at an end is never found by itself, and the
operand that repeats it is taken for what its last word says.
-/

namespace InstrGraph

namespace Function

variable (f : Function)

/-- The first instruction with the text. -/
def idOfText? (text : String) : Option UInt32 :=
  (f.instructions.find? fun i => i.text == text).map fun i => i.id

/-- The first instruction that defines the variable. -/
def idOfVar? (var : String) : Option UInt32 :=
  (f.instructions.find? fun i => i.resultVar? == some var).map fun i => i.id

variable {f}

/-- The text of an instruction of the function belongs to an instruction. -/
theorem exists_idOfText? {j : Instruction} (hj : j ∈ f.instructions) :
    ∃ id, f.idOfText? j.text = some id := by
  cases hfind : f.instructions.find? fun i => i.text == j.text with
  | none => exact absurd BEq.rfl (List.find?_eq_none.mp hfind j hj)
  | some i => exact ⟨i.id, by rw [idOfText?, hfind, Option.map_some]⟩

end Function

/-- A table of those elements that have a key finds the first one with the key. -/
theorem lookup_filterMap {α β κ : Type} [BEq κ] [LawfulBEq κ] (key? : α → Option κ) (value : α → β)
    (as : List α) (k : κ) :
    (as.filterMap fun a => (key? a).map fun k => (k, value a)).lookup k =
      (as.find? fun a => key? a == some k).map value := by
  induction as with
  | nil => rfl
  | cons a as ih =>
    cases hkey : key? a with
    | none => simpa [hkey] using ih
    | some k' =>
      by_cases hk : k' = k
      · simp [hkey, hk]
      · have hne : (k == k') = false := beq_false_of_ne (Ne.symm hk)
        simpa [hkey, hk, List.lookup_cons, hne] using ih

namespace Resolver

variable (f : Function) (symbols : SymbolTables) (metadata : Metadata) (placeholder : String)

/-- The resolver answers a text with the instruction that it belongs to. -/
theorem lookup_texts (text : String) :
    (ofFunction f symbols metadata placeholder).texts.lookup text = f.idOfText? text := by
  have htexts := lookup_filterMap (fun i : Instruction => some i.text) (fun i => i.id)
    f.instructions text
  simpa [ofFunction, Function.idOfText?] using htexts

/-- The resolver answers a variable with the instruction that defines it. -/
theorem lookup_vars (var : String) :
    (ofFunction f symbols metadata placeholder).vars.lookup var = f.idOfVar? var :=
  lookup_filterMap _ _ _ _

variable {f symbols metadata placeholder} {r : Resolver} {operand : String} {id : UInt32}

/-- Trimming a text does not change its last token. -/
theorem last_trim (s : String) : Token.last (Token.trim s) = Token.last s := by
  simp [Token.last, Token.trim, Token.onString, Text.lastToken_trim]

/-- What is found by the whole text, or else by the last word, is found in every call. -/
theorem classify_of_or_eq_some
    (h : (r.texts.lookup (Token.trim operand)).or (r.vars.lookup (Token.last operand)) = some id)
    (callee : Option String) : r.classify operand callee = .instruction id := by
  rw [classify]
  simp only [last_trim]
  cases htext : r.texts.lookup (Token.trim operand) with
  | some id' =>
    rw [htext, Option.some_or] at h
    rw [Option.some.inj h]
  | none =>
    rw [htext, Option.none_or] at h
    simp only [h]

/-- In a call of what the last word names, nothing else is looked at. -/
theorem or_eq_some_of_classify
    (h : r.classify operand (some (Token.last operand)) = .instruction id) :
    (r.texts.lookup (Token.trim operand)).or (r.vars.lookup (Token.last operand)) = some id := by
  rw [classify] at h
  simp only [last_trim] at h
  cases htext : r.texts.lookup (Token.trim operand) with
  | some id' => simpa [htext] using h
  | none =>
    cases hvar : r.vars.lookup (Token.last operand) with
    | some id' => simpa [htext, hvar] using h
    | none =>
      -- what is left is a parameter, or what is called
      simp only [htext, hvar, BEq.rfl, if_true] at h
      split at h
      · cases h
      · cases h

/-- An operand stands for an instruction in every call exactly if it repeats its text up to blanks
at the ends, or is no text of an instruction and has the variable as its last word. -/
theorem classify_eq_instruction_iff :
    (∀ callee, (ofFunction f symbols metadata placeholder).classify operand callee =
        .instruction id) ↔
      (f.idOfText? (Token.trim operand)).or (f.idOfVar? (Token.last operand)) = some id := by
  rw [← lookup_texts f symbols metadata placeholder, ← lookup_vars f symbols metadata placeholder]
  exact ⟨fun h => or_eq_some_of_classify (h _), classify_of_or_eq_some⟩

/-- Each instruction's text has a first instruction with it. An operand that repeats the text stands
for this one in every call exactly if the trimmed text or else the last word leads there; a text
without blanks at its ends does. -/
theorem classify_text {j : Instruction} (hj : j ∈ f.instructions) :
    ∃ id, f.idOfText? j.text = some id ∧
      ((∀ callee, (ofFunction f symbols metadata placeholder).classify j.text callee =
          .instruction id) ↔
        (f.idOfText? (Token.trim j.text)).or (f.idOfVar? (Token.last j.text)) = some id) ∧
      (Token.trim j.text = j.text → ∀ callee,
        (ofFunction f symbols metadata placeholder).classify j.text callee = .instruction id) := by
  obtain ⟨id, hid⟩ := Function.exists_idOfText? hj
  refine ⟨id, hid, classify_eq_instruction_iff, fun htrim => classify_eq_instruction_iff.mpr ?_⟩
  rw [htrim, hid, Option.some_or]

/-- An instruction that stands twice in a function. -/
def repeatedStore : Instruction :=
  { id := 4, opcode := .other "store", text := "store i32 1, ptr %var0",
    operands := ["i32 1", "ptr %var0"] }

/-- A function that repeats an instruction, and has one whose text is indented. -/
def indentedExample : Function where
  name := "f"
  params := []
  blocks := [⟨"%label_0", [
    { id := 1, opcode := .other "alloca", text := "%var0 = alloca i32" },
    { id := 2, opcode := .other "store", text := "  store i32 0, ptr %var0",
      operands := ["i32 0", "ptr %var0"] },
    { repeatedStore with id := 3 }, repeatedStore]⟩]

/-- An operand that repeats it is the first one. -/
theorem classify_text_of_repeatedStore :
    repeatedStore ∈ indentedExample.instructions ∧
      indentedExample.idOfText? repeatedStore.text = some 3 ∧
      ∃ id, indentedExample.idOfText? repeatedStore.text = some id ∧
        ((∀ callee, (ofFunction indentedExample (.empty .label false) {} "<const>").classify
            repeatedStore.text callee = .instruction id) ↔
          (indentedExample.idOfText? (Token.trim repeatedStore.text)).or
            (indentedExample.idOfVar? (Token.last repeatedStore.text)) = some id) ∧
        (Token.trim repeatedStore.text = repeatedStore.text → ∀ callee,
          (ofFunction indentedExample (.empty .label false) {} "<const>").classify
            repeatedStore.text callee = .instruction id) := by
  have hmem : repeatedStore ∈ indentedExample.instructions := by decide +kernel
  exact ⟨hmem, by decide +kernel, classify_text hmem⟩

/-- An operand that repeats the indented instruction is taken for the variable at its end. -/
theorem classify_indented :
    ∃ j ∈ indentedExample.instructions, indentedExample.idOfText? j.text = some 2 ∧
      (ofFunction indentedExample (.empty .label false) {} "<const>").classify j.text none =
        .instruction 1 :=
  ⟨_, List.mem_cons_of_mem _ List.mem_cons_self, by decide +kernel, by decide +kernel⟩

end Resolver

end InstrGraph
