import InstrGraph.Proofs.Graph.Success
import InstrGraph.Proofs.Metadata.Answers
import InstrGraph.Proofs.Renaming.Process

/-!
# What the work on a function asks the metadata

Behind canonicalization the metadata is asked about globals once more, now by their canonical names:
the resolver knows the names of all globals, and the edge of a global needs what is known about it.
A global name in a canonical text is a name of the function or a numbered one, unless the
placeholder brings it up (`globalInScope_of_mem_symbols_value`), and the inverse of the table of
globals gives back a name of the function.

`processFunction_congr`: metadata that says the same of these names gives the same output, or fails
with the same error.
-/

namespace InstrGraph

/-- A global name that may stand in a function or in its canonical form. A placeholder with a sigil
may bring up any name. -/
structure Function.GlobalInScope (f : Function) (placeholder c : String) : Prop where
  isSymbol : Token.isSymbol c = true
  isGlobal : Token.isGlobal c = true
  origin : c ∈ f.names ∨ IsNumbered "@function_" c ∨ IsNumbered "@global_var_" c ∨
    placeholder.toList.any Text.isSigil = true

/-! ### Global names in canonical texts -/

namespace PassContext

variable {ctx : PassContext} {s t n : String}

/-- A canonical name that is global is the name itself or a numbered one. -/
theorem canonicalSymbol_cases_of_isGlobal (hs : ctx.symbols.Sound) (ht : Token.isSymbol t = true)
    (hg : Token.isGlobal (ctx.canonicalSymbol t) = true) :
    ctx.canonicalSymbol t = t ∨ IsNumbered "@function_" (ctx.canonicalSymbol t) ∨
      IsNumbered "@global_var_" (ctx.canonicalSymbol t) := by
  rcases canonicalSymbol_cases hs t with heq | ⟨stem, hstem, hn⟩
  · -- only local names lose a suffix
    have hlocal : Token.isLocal t = false := by
      rw [heq] at hg
      by_contra hl
      rw [Bool.not_eq_false] at hl
      rw [← Token.isLocal_eq_of_head?_eq (ctx.metadata.head?_bareName ht)] at hl
      rw [Token.isGlobal_of_isLocal hl] at hg
      simp at hg
    rw [heq]
    exact Or.inl (by simp [Metadata.bareName, hlocal])
  · -- the other stems are those of local names
    have hlocal (h : stem.toList.head? = some '%') : False := by
      rw [Token.isGlobal_of_isLocal (Token.isLocal_iff.mpr (hn.head?_eq h))] at hg
      simp at hg
    simp only [stems, List.mem_cons, List.not_mem_nil, or_false] at hstem
    rcases hstem with rfl | rfl | rfl | rfl | rfl | rfl | rfl
    any_goals exact absurd rfl hlocal
    · exact Or.inr (Or.inl hn)
    · exact Or.inr (Or.inr hn)

/-- What a text mentions as a global stands in it: of the passes before that mention globals, only
the first has run. -/
theorem mem_symbols_of_global_mem_mentions (hs : ctx.symbols.Sound)
    (h : .global n ∈ (runPasses ctx s).mentions) :
    n ∈ Token.symbols (Token.stripAnnotations s) := by
  have hglobal : Token.isGlobal n = true := isGlobal_of_mem_mentions hs h
  obtain ⟨qs, p, rs, heq, t, ht, hm⟩ := exists_mention?_of_mem_mentions hs (by simp) h
  have hp : p = .globals := by
    cases p <;> simp only [Pass.mention?] at hm <;> grind
  subst hp
  obtain rfl : qs = [.structSuffixes] := (Pass.before_eq_of_symbolPasses heq).symm.trans (by decide)
  rw [Pass.images_cons, Pass.images_nil] at hm
  simp only [Pass.mention?] at hm
  split at hm
  · obtain rfl : Pass.structSuffixes.image ctx t = n := by simpa using hm
    rcases Pass.image_structSuffixes_cases ctx t with hself | ⟨hl, hbase⟩
    · rwa [hself]
    · rw [hbase, Token.isGlobal_of_isLocal
        (Token.isLocal_stripSuffix (Token.isSymbol_of_mem ht) hl)] at hglobal
      exact absurd hglobal (by simp)
  · simp at hm

end PassContext

/-! ### The table of globals -/

namespace SymbolTables

variable {s : SymbolTables}

/-- A name before renaming is the name itself, or stands in the table of globals. -/
theorem globalKey_cases (s : SymbolTables) (c : String) :
    s.globalKey c = c ∨ ∃ table ∈ s.globals, s.globalKey c ∈ table.names := by
  rw [globalKey]
  cases hg : s.globals with
  | none => exact Or.inl rfl
  | some table =>
    rw [Option.bind_some]
    cases ho : table.originalOf? c with
    | none => exact Or.inl rfl
    | some n =>
      obtain ⟨e, he, rfl⟩ := Option.map_eq_some_iff.mp ho
      exact Or.inr ⟨table, rfl, List.mem_map_of_mem (List.mem_of_find?_eq_some he)⟩

/-- A name after renaming is the name itself, or a numbered one that stands for it. -/
theorem canonicalGlobal_cases (hs : s.Sound) (n : String) :
    s.canonicalGlobal n = n ∨ IsNumbered "@global_var_" (s.canonicalGlobal n) ∧
      ∃ table ∈ s.globals, n ∈ table.names := by
  rw [canonicalGlobal]
  cases hc : s.globals.bind (·.get? n) with
  | none => exact Or.inl rfl
  | some c =>
    obtain ⟨table, htable, hget⟩ := Option.bind_eq_some_iff.mp hc
    obtain ⟨hn, hstem⟩ := hs.globals table htable
    exact Or.inr ⟨hstem ▸ hn.isNumbered hget, table, htable,
      RenameTable.mem_names_iff.mpr ⟨c, hget⟩⟩

end SymbolTables

/-! ### What an operand stands for -/

namespace Resolver

variable {r : Resolver} {operand name : String} {callee : Option String}

/-- An operand stands for a global only if it has it as an identifier. -/
theorem mem_symbols_of_classify (h : r.classify operand callee = .global name) :
    name ∈ Token.symbols operand := by
  rw [classify] at h
  dsimp only at h
  split at h
  · simp at h
  · split at h
    · simp at h
    · split at h
      · simp at h
      · split at h
        · simp at h
        · split at h
          · rename_i known hknown
            obtain ⟨token, htoken, hk⟩ := List.exists_of_findSome?_eq_some hknown
            rw [h] at hk
            rcases known?_cases hk with ⟨id, hid⟩ | ⟨hparam, -⟩ | ⟨hglobal, -⟩
            · simp at hid
            · simp at hparam
            · rw [Operand.global.inj hglobal]
              exact (Token.cutFrom_trim operand).symbols token htoken
          · rw [classifyRest] at h
            split at h
            · simp at h
            · split at h
              · simp at h
              · split at h
                · simp at h
                · split at h <;> simp at h

/-- Which globals are known matters for the identifiers of the operand only. -/
theorem classify_congr {globals : List String}
    (h : ∀ t ∈ Token.symbols operand, globals.contains t = r.globals.contains t) :
    Resolver.classify { r with globals } operand callee = r.classify operand callee := by
  have hparam : Resolver.isParam { r with globals } = r.isParam := rfl
  have hrest : Resolver.classifyRest { r with globals } = r.classifyRest := rfl
  have hknown : (Token.symbols (Token.trim operand)).findSome?
      (Resolver.known? { r with globals }) =
        (Token.symbols (Token.trim operand)).findSome? r.known? := by
    rw [← List.head?_filterMap, ← List.head?_filterMap]
    refine congrArg List.head? (List.filterMap_congr fun t ht => ?_)
    simp only [known?, hparam, h t ((Token.cutFrom_trim operand).symbols t ht)]
  simp only [classify, hknown, hparam, hrest]

end Resolver

/-! ### The work on a function -/

/-- Two tables of metadata say the same of the local names of a function, of the global names that
may stand in it or in its canonical form, and of the globals that its instructions use already. -/
structure Metadata.AgreeFor (m m' : Metadata) (f : Function) (placeholder : String) : Prop where
  structs : ∀ t ∈ f.names, Token.isLocal t = true → m'.hasStruct t = m.hasStruct t ∧
    m'.hasStruct (Token.stripSuffix t) = m.hasStruct (Token.stripSuffix t)
  globals : ∀ c, f.GlobalInScope placeholder c → m'.global? c = m.global? c
  known : ∀ c, f.GlobalInScope placeholder c → (c ∈ m'.globals.map (fun g => withSigil g.1) ↔
    c ∈ m.globals.map fun g => withSigil g.1)
  used : ∀ i ∈ f.instructions, ∀ n ∈ i.usage.globals, m'.global? n = m.global? n

namespace Metadata.AgreeFor

variable {m m' : Metadata} {f : Function} {placeholder : String}

/-- Metadata that agree for a function agree on each of its names. -/
theorem agreeOn (h : m.AgreeFor m' f placeholder) : ∀ t ∈ f.names, m.AgreeOn m' t := fun t ht =>
  { global := fun hg => h.globals t ⟨Function.isSymbol_of_mem_names ht, hg, Or.inl ht⟩
    struct := fun hl => (h.structs t ht hl).1
    base := fun hl => (h.structs t ht hl).2 }

/-- The names in the table of globals are in scope. -/
theorem globalInScope_of_mem_globals (m : Metadata) (frequency : FrequencyTables)
    (config : Config.Canonicalize) {table : RenameTable} {n : String}
    (htable : table ∈ (collectSymbols m frequency config f).1.globals) (hn : n ∈ table.names) :
    f.GlobalInScope placeholder n :=
  have hname : n ∈ f.names := mem_names_of_mem_globals m frequency config f table htable n hn
  ⟨Function.isSymbol_of_mem_names hname,
    ((collected_collectSymbols m frequency config f).globals table htable n hn).1, Or.inl hname⟩

variable (h : m.AgreeFor m' f placeholder) (frequency : FrequencyTables)
  (config : Config.Canonicalize)

include h

/-- What is known of a name before renaming is known of it after renaming. -/
theorem global?_globalKey {c : String} (hc : m'.global? c = m.global? c) :
    m'.global? ((collectSymbols m frequency config f).1.globalKey c) =
      m.global? ((collectSymbols m frequency config f).1.globalKey c) := by
  rcases SymbolTables.globalKey_cases (collectSymbols m frequency config f).1 c with
    heq | ⟨table, htable, hn⟩
  · rwa [heq]
  · exact h.globals _ (globalInScope_of_mem_globals m frequency config htable hn)

/-- The resolvers know the same of the global names that are in scope. -/
theorem mem_canonicalGlobals_iff {c : String} (hc : f.GlobalInScope placeholder c) :
    let symbols := (collectSymbols m frequency config f).1
    c ∈ m'.globals.map (fun g => symbols.canonicalGlobal (withSigil g.1)) ↔
      c ∈ m.globals.map fun g => symbols.canonicalGlobal (withSigil g.1) := by
  intro symbols
  have hsound : symbols.Sound := (collected_collectSymbols m frequency config f).sound
  -- the name behind it is in scope, renamed or not
  have hscope (n : String) (heq : symbols.canonicalGlobal n = c) :
      f.GlobalInScope placeholder n := by
    rcases SymbolTables.canonicalGlobal_cases hsound n with hself | ⟨-, table, htable, hn⟩
    · rwa [← hself, heq]
    · exact globalInScope_of_mem_globals m frequency config htable hn
  have hmap (entries : List (String × GlobalInfo)) :
      c ∈ entries.map (fun g => symbols.canonicalGlobal (withSigil g.1)) ↔
        ∃ n ∈ entries.map (fun g => withSigil g.1), symbols.canonicalGlobal n = c := by
    simp only [List.mem_map]
    constructor
    · rintro ⟨g, hg, heq⟩
      exact ⟨_, ⟨g, hg, rfl⟩, heq⟩
    · rintro ⟨n, ⟨g, hg, rfl⟩, heq⟩
      exact ⟨g, hg, heq⟩
  rw [hmap, hmap]
  refine exists_congr fun n => and_congr_left fun heq => ?_
  exact h.known n (hscope n heq)

end Metadata.AgreeFor

section

variable {m m' : Metadata} {f : Function} {i : Instruction} {s v n : String}

namespace RewriteContext

variable {ctx : RewriteContext}

/-- Every value of a canonical instruction is the canonical text of a value. -/
theorem exists_of_mem_values (hv : v ∈ (ctx.canonicalInstruction i).values) :
    ∃ s ∈ i.values, v = (ctx.canonicalText s).text := by
  have hoperand (s : String) : (ctx.canonicalOperand s).text = (ctx.canonicalText s).text := by
    rw [canonicalOperand]
    split <;> rfl
  simp only [Instruction.values, canonicalInstruction, List.mem_append, List.mem_map,
    Option.mem_toList, Option.map_eq_some_iff] at hv ⊢
  rcases hv with (⟨_, ⟨s, hs, rfl⟩, rfl⟩ | ⟨_, ⟨s, hs, rfl⟩, rfl⟩) | ⟨_, ⟨s, hs, rfl⟩, rfl⟩
  · exact ⟨s, Or.inl (Or.inl hs), hoperand s⟩
  · exact ⟨s, Or.inl (Or.inr hs), hoperand s⟩
  · exact ⟨s, Or.inr hs, hoperand s⟩

/-- A canonical instruction uses the globals that it used before, and names of the function. -/
theorem mem_usage_globals (hs : ctx.symbols.Sound) (hi : i ∈ f.instructions)
    (hn : n ∈ (ctx.canonicalInstruction i).usage.globals) :
    n ∈ i.usage.globals ∨ Token.isGlobal n = true ∧ n ∈ f.names := by
  have hhas : (ctx.canonicalInstruction i).usage.Has (.global n) := hn
  rw [canonicalInstruction, Usage.has_merge, Usage.has_recordAll_empty] at hhas
  refine hhas.imp id fun hmentioned => ?_
  obtain ⟨r, hr, hm⟩ := List.mem_flatMap.mp hmentioned
  obtain ⟨s, hfield, hmentions⟩ := exists_of_mem_canonicalFields hr
  have hnames : f.Names s := by
    rcases List.mem_append.mp hfield with hfield | hfield
    · exact Function.names_field hi hfield
    · obtain ⟨target, ht, rfl⟩ := List.mem_map.mp hfield
      exact Function.names_target hi ht
  exact ⟨isGlobal_of_mem_mentions hs (hmentions _ hm),
    hnames n (PassContext.mem_symbols_of_global_mem_mentions hs (hmentions _ hm))⟩

end RewriteContext

/-- The global names in the values of a canonical function are in scope. -/
theorem globalInScope_of_mem_symbols_value (frequency : FrequencyTables)
    (config : Config.Canonicalize)
    (hi : i ∈ (canonicalize m frequency config f).function.instructions) (hv : v ∈ i.values)
    (hn : n ∈ Token.symbols v) (hg : Token.isGlobal n = true) :
    f.GlobalInScope config.constantPlaceholder n := by
  refine ⟨Token.isSymbol_of_mem hn, hg, ?_⟩
  cases hp : config.constantPlaceholder.toList.any Text.isSigil with
  | true => exact Or.inr (Or.inr (Or.inr rfl))
  | false =>
    have hsound : (rewriteContext m frequency config f).symbols.Sound :=
      (collected_collectSymbols m frequency config f).sound
    rw [canonicalize_eq, RewriteContext.instructions_function] at hi
    obtain ⟨j, hj, rfl⟩ := List.mem_map.mp hi
    obtain ⟨s, hs, rfl⟩ := RewriteContext.exists_of_mem_values hv
    have hfield : s ∈ j.texts := by
      simp only [Instruction.values, List.mem_append] at hs
      rcases hs with (hs | hs) | hs <;> simp [Instruction.texts, hs]
    have hplain : ∀ c ∈ (rewriteContext m frequency config f).config.constantPlaceholder.toList,
        Text.isSigil c = false := fun c hc => by simpa using List.any_eq_false.mp hp c hc
    rw [RewriteContext.canonicalText, symbols_runPasses hsound hplain] at hn
    obtain ⟨t, ht, rfl⟩ := List.mem_map.mp hn
    have hname : t ∈ f.names := Function.names_field hj hfield t ht
    rcases PassContext.canonicalSymbol_cases_of_isGlobal hsound (Token.isSymbol_of_mem ht) hg with
      heq | hnumbered | hnumbered
    · rw [heq]
      exact Or.inl hname
    · exact Or.inr (Or.inl hnumbered)
    · exact Or.inr (Or.inr (Or.inl hnumbered))

end

/-- The canonical names of globals are global names. -/
theorem SymbolTables.isGlobal_of_mem_canonicalGlobals {symbols : SymbolTables}
    (hs : symbols.Sound) {entries : List (String × GlobalInfo)} {name : String}
    (h : name ∈ entries.map fun g => symbols.canonicalGlobal (withSigil g.1)) :
    Token.isGlobal name = true := by
  obtain ⟨g, -, rfl⟩ := List.mem_map.mp h
  exact SymbolTables.isGlobal_canonicalGlobal hs (isGlobal_withSigil g.1)

namespace Metadata.AgreeFor

variable {m m' : Metadata} {f : Function} {config : Config}
  (h : m.AgreeFor m' f config.canonicalize.constantPlaceholder) (frequency : FrequencyTables)

include h

/-- The builders of the canonical function treat a global alike of which the metadata says the
same. -/
theorem globalEdge_eq {name : String} (hname : m'.global? name = m.global? name)
    (s : BuildState) (node : Nat) :
    let c := canonicalize m frequency config.canonicalize f
    (Builder.of c.function c.symbols m' config.graph
        config.canonicalize.constantPlaceholder).globalEdge s name node =
      (Builder.of c.function c.symbols m config.graph
        config.canonicalize.constantPlaceholder).globalEdge s name node := by
  have hsymbols : (canonicalize m frequency config.canonicalize f).symbols =
      (collectSymbols m frequency config.canonicalize f).1 := rfl
  simp only [Builder.globalEdge, Builder.of, hsymbols,
    h.global?_globalKey frequency config.canonicalize hname]

/-- The metadata says the same of the globals that a canonical instruction uses. -/
theorem global?_canonicalGlobal {i : Instruction} {key : String}
    (hi : i ∈ (canonicalize m frequency config.canonicalize f).function.instructions)
    (hkey : key ∈ i.usage.globals) :
    let symbols := (collectSymbols m frequency config.canonicalize f).1
    m'.global? (symbols.canonicalGlobal key) = m.global? (symbols.canonicalGlobal key) := by
  intro symbols
  have hsound : symbols.Sound :=
    (collected_collectSymbols m frequency config.canonicalize f).sound
  rw [canonicalize_eq, RewriteContext.instructions_function] at hi
  obtain ⟨j, hj, rfl⟩ := List.mem_map.mp hi
  rcases SymbolTables.canonicalGlobal_cases hsound key with hself | ⟨hn, -⟩
  · -- a name that is not renamed was used before, or is a name of the function
    rw [hself]
    rcases RewriteContext.mem_usage_globals hsound hj hkey with hused | ⟨hg, hname⟩
    · exact h.used j hj key hused
    · exact h.globals key ⟨Function.isSymbol_of_mem_names hname, hg, Or.inl hname⟩
  · exact h.globals _ ⟨hn.isSymbol (by decide), Token.isGlobal_iff.mpr (hn.head?_eq rfl),
      Or.inr (Or.inr (Or.inl hn))⟩

/-- The builders of the canonical function treat its instructions alike. -/
theorem alike :
    let c := canonicalize m frequency config.canonicalize f
    (Builder.of c.function c.symbols m config.graph config.canonicalize.constantPlaceholder).Alike
      (Builder.of c.function c.symbols m' config.graph
        config.canonicalize.constantPlaceholder) := by
  intro c
  have hsound : c.symbols.Sound :=
    (collected_collectSymbols m frequency config.canonicalize f).sound
  refine { function := rfl, config := rfl, params := rfl, classify := ?_, operandGlobal := ?_
           usedGlobal := ?_ }
  · intro i hi v hv callee
    refine Resolver.classify_congr (r := .ofFunction c.function c.symbols m
      config.canonicalize.constantPlaceholder) fun name hname => ?_
    have hiff (hg : Token.isGlobal name = true) :=
      h.mem_canonicalGlobals_iff frequency config.canonicalize
        (globalInScope_of_mem_symbols_value frequency _ hi hv hname hg)
    rw [Bool.eq_iff_iff, List.contains_iff_mem, List.contains_iff_mem]
    exact ⟨fun hmem => (hiff (SymbolTables.isGlobal_of_mem_canonicalGlobals hsound hmem)).mp hmem,
      fun hmem => (hiff (SymbolTables.isGlobal_of_mem_canonicalGlobals hsound hmem)).mpr hmem⟩
  · intro i hi name hname s node
    obtain ⟨v, hv, hclassify⟩ := List.mem_map.mp hname
    have hg := SymbolTables.isGlobal_of_mem_canonicalGlobals hsound
      ((Resolver.mem_of_classify _ _ _).2 name hclassify)
    exact h.globalEdge_eq frequency
      (h.globals name (globalInScope_of_mem_symbols_value frequency _ hi
        (by simp [Instruction.values, hv]) (Resolver.mem_symbols_of_classify hclassify) hg)) s node
  · intro i hi key hkey s node
    exact h.globalEdge_eq frequency (h.global?_canonicalGlobal frequency hi hkey) s node

end Metadata.AgreeFor

/-- Metadata that says the same of the names of a function and of the global names that may stand in
its canonical form makes no difference. -/
theorem processFunction_congr {m m' : Metadata} {f : Function} {config : Config}
    (h : m.AgreeFor m' f config.canonicalize.constantPlaceholder) (frequency : FrequencyTables) :
    processFunction f m' frequency config = processFunction f m frequency config := by
  have hcanonical := canonicalize_congr h.agreeOn frequency config.canonicalize
  have hgraph : (canonicalize m frequency config.canonicalize f).buildGraph m' config =
      (canonicalize m frequency config.canonicalize f).buildGraph m config :=
    (h.alike frequency).build
  rw [processFunction_eq, processFunction_eq, hcanonical, Canonicalized.output, hgraph,
    Canonicalized.output]

end InstrGraph
