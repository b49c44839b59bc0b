import InstrGraph.Proofs.Canonical.Constants
import InstrGraph.Proofs.Symbols.Collect
import InstrGraph.Proofs.Text.Immediates
import InstrGraph.Proofs.Text.Suffix

/-!
# All passes over one text

The passes between the first and the last look at one identifier at a time, so together they are
one renaming: `canonicalSymbol` sends an identifier through all of them, and `runPasses_eq` says
that a text is stripped, renamed by it, and has its constants hidden.

What such passes find mentioned depends on the identifiers alone (`mentionsOf`).
-/

namespace InstrGraph

namespace Pass

/-- The passes that look at one identifier at a time, in their order. -/
def symbolPasses : List Pass := [structSuffixes, globals, structs, calls, labels, locals]

/-- What becomes of an identifier in a pass. -/
def image (ctx : PassContext) (p : Pass) (t : String) : String := (p.rename? ctx t).getD t

/-- What becomes of an identifier in passes, one after the other. -/
def images (ctx : PassContext) (ps : List Pass) (t : String) : String :=
  ps.foldl (fun t p => p.image ctx t) t

/-- What passes find mentioned when the identifiers of a text are given. -/
def mentionsOf (ctx : PassContext) : List Pass → List String → List Mention
  | [], _ => []
  | p :: ps, ts => ts.filterMap (p.mention? ctx) ++ mentionsOf ctx ps (ts.map (p.image ctx))

variable {ctx : PassContext} {p : Pass} {ps : List Pass} {t : String} {ts : List String}
  {m : Mention}

/-- No passes leave an identifier alone. -/
@[simp] theorem images_nil (ctx : PassContext) (t : String) : images ctx [] t = t := rfl

/-- Several passes begin with the first one. -/
@[simp] theorem images_cons (ctx : PassContext) (p : Pass) (ps : List Pass) (t : String) :
    images ctx (p :: ps) t = images ctx ps (p.image ctx t) := rfl

/-- Two lists of passes, one after the other. -/
theorem images_append (ctx : PassContext) (ps qs : List Pass) (t : String) :
    images ctx (ps ++ qs) t = images ctx qs (images ctx ps t) := List.foldl_append

/-- A pass leaves alone what it does not rename. -/
theorem image_eq_self (h : p.rename? ctx t = none) : p.image ctx t = t := by simp [image, h]

/-- Several passes leave alone what none of them renames. -/
theorem images_eq_self (h : ∀ p ∈ ps, p.rename? ctx t = none) : images ctx ps t = t := by
  induction ps with
  | nil => rfl
  | cons p ps ih =>
    rw [images_cons, image_eq_self (h p (by simp))]
    exact ih fun q hq => h q (by simp [hq])

/-- A mention belongs to one pass and to what the passes before it have made of an identifier. -/
theorem mem_mentionsOf : m ∈ mentionsOf ctx ps ts ↔
    ∃ qs p rs, ps = qs ++ p :: rs ∧ ∃ t ∈ ts, p.mention? ctx (images ctx qs t) = some m := by
  induction ps generalizing ts with
  | nil => simp [mentionsOf]
  | cons p ps ih =>
    rw [mentionsOf, List.mem_append, List.mem_filterMap, ih]
    constructor
    · rintro (⟨t, ht, hm⟩ | ⟨qs, q, rs, rfl, t, ht, hm⟩)
      · exact ⟨[], p, ps, rfl, t, ht, hm⟩
      · obtain ⟨u, hu, rfl⟩ := List.mem_map.mp ht
        exact ⟨p :: qs, q, rs, rfl, u, hu, hm⟩
    · rintro ⟨qs, q, rs, heq, t, ht, hm⟩
      cases qs with
      | nil =>
        obtain ⟨rfl, rfl⟩ := List.cons.inj heq
        exact Or.inl ⟨t, ht, hm⟩
      | cons q' qs =>
        obtain ⟨rfl, rfl⟩ := List.cons.inj heq
        exact Or.inr ⟨qs, q, rs, rfl, _, List.mem_map_of_mem ht, hm⟩

end Pass

/-! ### Every pass sends identifiers to identifiers -/

/-- Both stems of labels are stems of canonical names. -/
theorem mem_stems_of_labelStem {stem : String} (h : stem = "%label_" ∨ stem = "%block_") :
    stem ∈ stems := by rcases h with rfl | rfl <;> decide

namespace Pass

variable {ctx : PassContext} {p : Pass} {ps : List Pass} {t : String}

/-- A pass makes an identifier of an identifier. -/
theorem isSymbol_image (hs : ctx.symbols.Sound) (ht : Token.isSymbol t = true) :
    Token.isSymbol (p.image ctx t) = true := by
  have hnamed {table : RenameTable} (h : table.Numbered) (hstem : table.stem ∈ stems)
      {c : String} (hc : table.get? t = some c) : Token.isSymbol c = true :=
    (h.isNumbered hc).isSymbol hstem
  rw [image]
  cases hr : p.rename? ctx t with
  | none => exact ht
  | some c =>
    rw [Option.getD_some]
    cases p with
    | stripAnnotations | constants => simp [rename?] at hr
    | structSuffixes =>
      simp only [rename?] at hr
      split at hr
      · rw [← Option.some.inj hr]
        exact Token.isSymbol_stripSuffix ht
      · simp at hr
    | globals =>
      simp only [rename?] at hr
      split at hr
      · obtain ⟨table, htable, hc⟩ := Option.bind_eq_some_iff.mp hr
        obtain ⟨hn, hstem⟩ := hs.globals table htable
        exact hnamed hn (hstem ▸ by decide) hc
      · simp at hr
    | structs =>
      exact hnamed hs.structs.1 (hs.structs.2 ▸ by decide) (Option.eq_some_of_filter_eq_some hr)
    | calls =>
      exact hnamed hs.calls.1 (hs.calls.2 ▸ by decide) (Option.eq_some_of_filter_eq_some hr)
    | labels => exact hnamed hs.labels.1 (mem_stems_of_labelStem hs.labels.2) hr
    | locals =>
      simp only [rename?] at hr
      split at hr
      · rename_i n hn
        exact hnamed hs.params.1 (hs.params.2 ▸ by decide) (hn.trans hr)
      · exact hnamed hs.vars.1 (hs.vars.2 ▸ by decide) hr

/-- Several passes make an identifier of an identifier. -/
theorem isSymbol_images (hs : ctx.symbols.Sound) (ht : Token.isSymbol t = true) :
    Token.isSymbol (images ctx ps t) = true := by
  induction ps generalizing t with
  | nil => exact ht
  | cons p ps ih => exact ih (isSymbol_image hs ht)

/-- A pass keeps the identifiers of a text. -/
theorem keepsSymbols_image (hs : ctx.symbols.Sound) (p : Pass) (s : String) :
    Token.KeepsSymbols (p.image ctx) s :=
  fun _ ht => isSymbol_image hs (Token.isSymbol_of_mem ht)

/-- Several passes keep the identifiers of a text. -/
theorem keepsSymbols_images (hs : ctx.symbols.Sound) (ps : List Pass) (s : String) :
    Token.KeepsSymbols (images ctx ps) s :=
  fun _ ht => isSymbol_images hs (Token.isSymbol_of_mem ht)

/-! ### Passes one after the other -/

/-- A pass that renames identifiers does so with each of them, and mentions some. -/
theorem apply_of_mem_symbolPasses (hp : p ∈ symbolPasses) (text : String) :
    p.apply ctx text =
      ⟨Token.mapSymbols (p.image ctx) text, (Token.symbols text).filterMap (p.mention? ctx)⟩ := by
  have happly : p.apply ctx text = applyToSymbols ctx p text := by
    simp only [symbolPasses, List.mem_cons, List.not_mem_nil, or_false] at hp
    rcases hp with rfl | rfl | rfl | rfl | rfl | rfl <;> rfl
  rw [happly, applyToSymbols, Token.rewrite_eq_mapSymbols]
  rfl

/-- Several such passes do to a text what they do to its identifiers, and mention what each of them
mentions. -/
theorem foldl_step (hs : ctx.symbols.Sound) (hps : ∀ p ∈ ps, p ∈ symbolPasses) (r : Rewritten) :
    ps.foldl (step ctx) r =
      ⟨Token.mapSymbols (images ctx ps) r.text,
        r.mentions ++ mentionsOf ctx ps (Token.symbols r.text)⟩ := by
  induction ps generalizing r with
  | nil =>
    rw [Token.mapSymbols_eq_self (fun t _ => images_nil ctx t)]
    simp [mentionsOf]
  | cons p ps ih =>
    rw [List.foldl_cons, ih (fun q hq => hps q (by simp [hq])), step,
      apply_of_mem_symbolPasses (hps p (by simp))]
    dsimp only
    rw [Token.mapSymbols_mapSymbols (keepsSymbols_image hs p r.text),
      Token.symbols_mapSymbols (keepsSymbols_image hs p r.text), mentionsOf, List.append_assoc]
    rfl

end Pass

namespace PassContext

/-- What becomes of an identifier in all passes together. -/
def canonicalSymbol (ctx : PassContext) (t : String) : String :=
  Pass.images ctx Pass.symbolPasses t

/-- The canonical names of the identifiers of a text are identifiers. -/
theorem keepsSymbols_canonicalSymbol {ctx : PassContext} (hs : ctx.symbols.Sound) (s : String) :
    Token.KeepsSymbols ctx.canonicalSymbol s := Pass.keepsSymbols_images hs _ s

/-- What becomes of a name, identifier by identifier. -/
def canonicalName (ctx : PassContext) (s : String) : String :=
  Token.mapSymbols ctx.canonicalSymbol s

/-- The text before constants are hidden. -/
def renamed (ctx : PassContext) (text : String) : String :=
  Token.mapSymbols ctx.canonicalSymbol (Token.stripAnnotations text)

end PassContext

/-- Where the texts of a function have their identifiers looked up. -/
def passContext (metadata : Metadata) (frequency : FrequencyTables)
    (config : Config.Canonicalize) (f : Function) : PassContext where
  symbols := (collectSymbols metadata frequency config f).1
  metadata := metadata
  frequency := frequency
  config := config

variable {ctx : PassContext}

/-- All passes strip a text, rename its identifiers and hide its constants. -/
theorem runPasses_eq (hs : ctx.symbols.Sound) (text : String) :
    runPasses ctx text =
      ⟨(Pass.hideConstants ctx (ctx.renamed text)).text,
        Pass.mentionsOf ctx Pass.symbolPasses (Token.symbols (Token.stripAnnotations text)) ++
          (Pass.hideConstants ctx (ctx.renamed text)).mentions⟩ := by
  have hall : Pass.all = .stripAnnotations :: (Pass.symbolPasses ++ [.constants]) := rfl
  rw [runPasses, hall, List.foldl_cons, List.foldl_append, Pass.foldl_step hs (fun _ h => h)]
  simp only [List.foldl_cons, List.foldl_nil, Pass.step, Pass.apply, List.nil_append]
  rfl

/-- Hiding constants does not change the identifiers of a text. -/
theorem symbols_hideConstants (ctx : PassContext)
    (hp : ∀ c ∈ ctx.config.constantPlaceholder.toList, Text.isSigil c = false) (text : String) :
    Token.symbols (Pass.hideConstants ctx text).text = Token.symbols text := by
  simp only [Pass.hideConstants, Pass.hideForm, Token.symbols, Token.toList_onString,
    Text.identifiers_hideImmediates _ _ hp]

/-- The identifiers stay where they are, each sent through all passes. -/
theorem symbols_runPasses (hs : ctx.symbols.Sound)
    (hp : ∀ c ∈ ctx.config.constantPlaceholder.toList, Text.isSigil c = false) (text : String) :
    Token.symbols (runPasses ctx text).text =
      (Token.symbols (Token.stripAnnotations text)).map ctx.canonicalSymbol := by
  rw [runPasses_eq hs, symbols_hideConstants ctx hp, PassContext.renamed,
    Token.symbols_mapSymbols (PassContext.keepsSymbols_canonicalSymbol hs _)]

/-! ### Identifiers and last words -/

namespace PassContext

variable {ctx : PassContext} {s t : String}

/-- A text in canonical form is a renamed text with constants hidden. -/
theorem text_runPasses (hs : ctx.symbols.Sound) (s : String) :
    (runPasses ctx s).text = (Pass.hideConstants ctx (ctx.renamed s)).text := by
  rw [runPasses_eq hs]

/-- The passes rename a text and then hide its constants. -/
theorem hides_runPasses (hs : ctx.symbols.Sound) (s : String) :
    Pass.Hides ctx.config.constantPlaceholder.toList (ctx.renamed s) (runPasses ctx s).text := by
  rw [runPasses_eq hs]
  exact Pass.hides_hideConstants ctx (ctx.renamed s)

/-- The canonical form of one word: its identifiers are renamed, if that opens no attribute. -/
theorem text_runPasses_of_not_isBlank (hs : ctx.symbols.Sound)
    (hstrip : Token.stripAnnotations s = s) (hblank : ∀ c ∈ s.toList, Text.isBlank c = false)
    (hattr : ¬ Text.OpensAttribute (ctx.canonicalName s).toList) :
    (runPasses ctx s).text = ctx.canonicalName s := by
  have hkeeps := keepsSymbols_canonicalSymbol hs s
  rw [text_runPasses hs, renamed, hstrip]
  exact Pass.text_hideConstants_of_not_isBlank
    (Token.forall_mem_mapSymbols hkeeps Text.foreign_isBlank hblank) hattr

/-- The canonical form of a name that is one identifier. -/
theorem canonicalName_of_isSymbol (ht : Token.isSymbol t = true) :
    ctx.canonicalName t = ctx.canonicalSymbol t := Token.mapSymbols_symbol ht

/-- The canonical form of an identifier opens no attribute. -/
theorem not_opensAttribute_of_isSymbol (hs : ctx.symbols.Sound) (ht : Token.isSymbol t = true) :
    ¬ Text.OpensAttribute (ctx.canonicalName t).toList := by
  rw [canonicalName_of_isSymbol ht]
  exact Text.not_opensAttribute_of_isIdentifier (Pass.isSymbol_images hs ht)

/-- The canonical form of an identifier. -/
theorem text_runPasses_of_isSymbol (hs : ctx.symbols.Sound) (ht : Token.isSymbol t = true) :
    (runPasses ctx t).text = ctx.canonicalSymbol t := by
  rw [text_runPasses_of_not_isBlank hs (Token.stripAnnotations_of_isSymbol ht)
    (Text.foreign_isBlank _ ht) (not_opensAttribute_of_isSymbol hs ht),
    canonicalName_of_isSymbol ht]

/-- The last word of a canonical text, if it begins like an identifier and opens no attribute. -/
theorem last_runPasses_of_isSigil (hs : ctx.symbols.Sound) {w : String}
    (hw : Token.last (Token.stripAnnotations s) = w)
    (hsigil : ∃ c, (ctx.canonicalName w).toList.head? = some c ∧ Text.isSigil c = true)
    (hattr : ¬ Text.OpensAttribute (ctx.canonicalName w).toList) :
    Token.last (runPasses ctx s).text = ctx.canonicalName w := by
  have hkeeps := keepsSymbols_canonicalSymbol hs (Token.stripAnnotations s)
  have hrenamed : Token.last (ctx.renamed s) = ctx.canonicalName w := by
    rw [renamed, Token.last_mapSymbols hkeeps, hw, canonicalName]
  rw [text_runPasses hs, ← hrenamed]
  exact Pass.last_hideConstants (by rwa [hrenamed]) (by rwa [hrenamed])

/-- The last word of a canonical text, if it is an identifier. -/
theorem last_runPasses (hs : ctx.symbols.Sound)
    (ht : Token.isSymbol (Token.last (Token.stripAnnotations s)) = true) :
    Token.last (runPasses ctx s).text =
      ctx.canonicalSymbol (Token.last (Token.stripAnnotations s)) := by
  rw [last_runPasses_of_isSigil hs rfl ?_ (not_opensAttribute_of_isSymbol hs ht),
    canonicalName_of_isSymbol ht]
  rw [canonicalName_of_isSymbol ht]
  exact Text.head?_of_isIdentifier (Pass.isSymbol_images hs ht)

end PassContext

end InstrGraph
