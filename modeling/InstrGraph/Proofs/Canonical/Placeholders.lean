import InstrGraph.Config.Validation
import InstrGraph.Proofs.Canonical.Passes
import InstrGraph.Proofs.Text.Placeholders
import Mathlib.Algebra.Order.BigOperators.Group.List
import Mathlib.Algebra.Order.Group.Nat

/-!
# What hiding constants forgets, and when it is stable

Two texts that differ only in values that are not kept come out of the pass as one text
(`text_constants_respelled`).

What the pass leaves is stable for all texts exactly if the placeholder is steady
(`constants_stable_iff`): some value is not kept in any context (`exists_not_keeps`), so a
placeholder that is not steady does show up somewhere. The check of a configuration looks at the
placeholder as a whole. It lets placeholders pass that are not steady (`validate_of_unsteady`); all
those it lets pass that have no digit are steady (`steady_of_validate`).
-/

namespace InstrGraph

open Text (ImmediateForm Immediate Respelled Steady hideBoth)

/-- The values that are written out, by their characters. -/
def PassContext.keeps (ctx : PassContext) (value : List Char) : Bool :=
  ctx.keepsConstant (String.ofList value)

namespace Pass

/-- The pass over constants hides the values of both forms that are not kept. -/
theorem toList_text_constants (ctx : PassContext) (s : String) :
    (Pass.constants.apply ctx s).text.toList =
      hideBoth ctx.keeps ctx.config.constantPlaceholder.toList s.toList := by
  rw [apply, text_hideConstants, hideForm, hideForm, Token.toList_onString, Token.toList_onString]
  rfl

/-! ### What is forgotten -/

/-- Which values that are not kept a text has does not matter, nor how many digits they have. -/
theorem text_constants_respelled (ctx : PassContext) {s s' : String}
    (h : Respelled [.typed, .dereferenceable] ctx.keeps false s.toList s'.toList) :
    (Pass.constants.apply ctx s').text = (Pass.constants.apply ctx s).text := by
  refine String.toList_injective ?_
  rw [toList_text_constants, toList_text_constants, Text.hideBoth_respelled _ h]

/-- In this text both forms get another value, one of them too large for 128 bits. -/
theorem respelled_store :
    let ctx : PassContext := passContext {} {} {} { name := "f" }
    let s := "store i64 4096, ptr dereferenceable(24) %p"
    let s' := "store i64 -170141183460469231731687303715884105729, ptr dereferenceable(7) %p"
    Respelled [.typed, .dereferenceable] ctx.keeps false s.toList s'.toList ∧
      (Pass.constants.apply ctx s').text = (Pass.constants.apply ctx s).text := by
  intro ctx s s'
  let typed : Immediate := ⟨.typed, "i64".toList, [' '], "4096".toList⟩
  let bytes : Immediate := ⟨.dereferenceable, "dereferenceable".toList, ['('], "24".toList⟩
  let v := "-170141183460469231731687303715884105729".toList
  have hv : Text.IsInteger .typed v :=
    ⟨['-'], v.tail, rfl, .inr ⟨rfl, rfl⟩, by decide, Text.forall_mem_of_all (by decide)⟩
  have hseven : Text.IsInteger .dereferenceable ['7'] :=
    ⟨[], ['7'], rfl, .inl rfl, by decide, Text.forall_mem_of_all (by decide)⟩
  have h : Respelled [.typed, .dereferenceable] ctx.keeps false
      ("store ".toList ++ (typed.chars ++ (", ptr ".toList ++ (bytes.chars ++ " %p".toList))))
      ("store ".toList ++ ((typed.withValue v).chars ++
        (", ptr ".toList ++ ((bytes.withValue ['7']).chars ++ " %p".toList)))) := by
    refine .append_left _ (.value (by decide) (by decide) (by decide) hv (by decide) ?_)
    refine .append_left _ (.value (by decide) (by decide) (by decide) hseven (by decide) ?_)
    exact .refl _
  have hs : s.toList = "store ".toList ++
      (typed.chars ++ (", ptr ".toList ++ (bytes.chars ++ " %p".toList))) := by decide +kernel
  have hs' : s'.toList = "store ".toList ++ ((typed.withValue v).chars ++
      (", ptr ".toList ++ ((bytes.withValue ['7']).chars ++ " %p".toList))) := by decide +kernel
  rw [← hs, ← hs'] at h
  exact ⟨h, text_constants_respelled ctx h⟩

/-! ### When the outcome is stable -/

/-- A run of Arabic digits is matched as a number, and not read as one. -/
theorem int?_replicate (n : Nat) :
    Token.int? (String.ofList (List.replicate (n + 1) '٧')) = none := by
  have hnone : Text.readNat? (List.replicate (n + 1) '٧') = none := by
    rw [Text.readNat?, List.replicate_succ, List.all_cons,
      show Text.isAsciiDigit '٧' = false by decide]
    rfl
  rw [Token.int?, String.toList_ofList, Text.readInt?]
  have hany : Text.readAnyInt? (List.replicate (n + 1) '٧') =
      (Text.readNat? (List.replicate (n + 1) '٧')).map fun n => (n : Int) := rfl
  rw [hany, hnone]
  rfl

/-- No context keeps every value: a run of Arabic digits is not kept if it is longer than all common
constants together. -/
theorem exists_not_keeps (ctx : PassContext) :
    ∃ v, Text.IsInteger .dereferenceable v ∧ ctx.keeps v = false := by
  let n := (ctx.frequency.constants.map String.length).sum
  have hrare : ctx.frequency.isCommonConstant
      (String.ofList (List.replicate (n + 1) '٧')) = false := by
    rw [FrequencyTables.isCommonConstant, List.contains_eq_mem, decide_eq_false_iff_not]
    intro hmem
    have hle := List.le_sum_of_mem (List.mem_map_of_mem (f := String.length) hmem)
    rw [String.length_ofList, List.length_replicate] at hle
    omega
  refine ⟨List.replicate (n + 1) '٧',
    ⟨[], List.replicate (n + 1) '٧', rfl, .inl rfl, List.cons_ne_nil _ _, fun c hc => ?_⟩, ?_⟩
  · rw [List.eq_of_mem_replicate hc]
    decide
  · rw [PassContext.keeps, PassContext.keepsConstant, hrare, int?_replicate]
    rfl

/-- In a context, exactly the steady placeholders leave nothing to be read that is not kept, and
nothing that a second time would change. -/
theorem constants_stable_iff (ctx : PassContext) :
    (∀ text,
      let out := (Pass.constants.apply ctx text).text
      (∀ form, ∀ m ∈ Text.immediates form out.toList,
        ctx.keepsConstant (String.ofList m.value) = true) ∧
        (Pass.constants.apply ctx out).text = out) ↔
      Steady ctx.keeps ctx.config.constantPlaceholder.toList := by
  obtain ⟨v, hv, hkeep⟩ := exists_not_keeps ctx
  rw [← Text.steady_iff hv hkeep]
  constructor
  · intro h cs
    have hcs := h (String.ofList cs)
    simp only [← String.toList_inj, toList_text_constants, String.toList_ofList] at hcs
    exact hcs
  · intro h text
    simp only [← String.toList_inj, toList_text_constants]
    exact h text.toList

/-- A placeholder that passes the check and is not steady: hiding a number brings up another one
that is not kept, and a second time this one is hidden. -/
theorem validate_of_unsteady :
    let ctx := passContext {} {} { constantPlaceholder := "42 bytes" } { name := "f" }
    ctx.config.validate = .ok () ∧ ctx.keepsConstant "42" = false ∧
      (Pass.constants.apply ctx "store i64 4096, ptr %p").text = "store i64 42 bytes, ptr %p" ∧
      (Pass.constants.apply ctx "store i64 42 bytes, ptr %p").text =
        "store i64 42 bytes bytes, ptr %p" := by
  decide +kernel

/-- A sensible placeholder without digits is steady. -/
theorem steady_of_validate {config : Config.Canonicalize} (hvalid : config.validate = .ok ())
    (hdigit : ∀ c ∈ config.constantPlaceholder.toList, Text.isDigit c = false)
    (keep : List Char → Bool) : Steady keep config.constantPlaceholder.toList := by
  refine .of_no_digit hdigit ?_
  by_contra hblank
  rw [Bool.not_eq_false, List.all_eq_true] at hblank
  have htrim : Token.trim config.constantPlaceholder = "" := by
    rw [Token.trim, Token.onString, Text.trim, Text.trimStart, List.dropWhile_eq_nil_iff.mpr hblank]
    rfl
  rw [Config.Canonicalize.validate, htrim] at hvalid
  cases hvalid

end Pass

end InstrGraph
