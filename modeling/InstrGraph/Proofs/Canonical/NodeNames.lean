import InstrGraph.Proofs.Canonical.Agreement
import InstrGraph.Proofs.Canonical.Cache
import InstrGraph.Proofs.Symbols.Scope
import InstrGraph.Proofs.Symbols.Usage

/-!
# The names of nodes

The nodes of a graph go by the canonical names of blocks, parameters and globals, so these have to
stay different. What becomes of the name of a block or parameter is known from its spelling
(`Function.NamesApart`): an identifier that loses no suffix gets the name of a table, and of any
other name the identifiers in it are renamed (`PassContext.canonicalName`).

* No two of these names get one canonical name (`canonicalName_inj`). For two identifiers, no pass
  writes a name that it leaves alone elsewhere (`Pass.image_inj`); of two other names the
  identifiers stay different (`Pass.images_inj`); and no other name becomes an identifier.
* A label in canonical form is normal (`normalizeLabel_canonicalLabel_of_apart`), and the canonical
  declaration of a parameter ends in its canonical name (`paramNames_function`).
* The globals that a canonical instruction uses have global names (`isGlobal_of_mem_usage`).
-/

namespace InstrGraph

/-! ### Names and their identifiers -/

namespace Metadata

variable {metadata : Metadata} {s t : String}

/-- What is left of a text when its identifiers lose the suffixes of types. -/
def bareText (metadata : Metadata) (s : String) : String := Token.mapSymbols metadata.bareName s

/-- No table has the name as the passes meet it: it is no identifier, or loses a suffix before the
tables are asked. -/
def Loose (metadata : Metadata) (t : String) : Prop :=
  Token.isSymbol t = false ∨ metadata.bareText t ≠ t

instance (metadata : Metadata) (t : String) : Decidable (metadata.Loose t) :=
  inferInstanceAs (Decidable (_ ∨ _))

/-- What is left of an identifier. -/
theorem bareText_of_isSymbol (ht : Token.isSymbol t = true) :
    metadata.bareText t = metadata.bareName t := Token.mapSymbols_symbol ht

/-- Without the suffixes of types identifiers are identifiers. -/
theorem keepsSymbols_bareName (metadata : Metadata) (s : String) :
    Token.KeepsSymbols metadata.bareName s :=
  fun _ ht => metadata.isSymbol_bareName (Token.isSymbol_of_mem ht)

/-- A name without identifiers of canonical form is of no canonical form itself. -/
theorem uncanonical_bareText (h : ∀ u ∈ Token.symbols (metadata.bareText t), Uncanonical u) :
    Uncanonical (metadata.bareText t) := by
  intro stem hstem hn
  have hmem : metadata.bareText t ∈ Token.symbols (metadata.bareText t) := by
    rw [Token.symbols_of_isSymbol (hn.isSymbol hstem)]
    exact List.mem_singleton_self _
  exact h _ hmem stem hstem hn

end Metadata

/-- The names of the parameters and blocks of a function, which its graph has nodes for. -/
def Function.nodeNames (f : Function) : List String := f.declaredParams ++ f.labelNames

/-- The names of the blocks and parameters of a function stay apart, and those of globals are global
names. Beside each condition stands what goes wrong without it. -/
structure Function.NamesApart (f : Function) (metadata : Metadata) : Prop where
  params_isLocal : ∀ t ∈ f.declaredParams, Token.isLocal t = true
  params_labels : ∀ t ∈ f.declaredParams, t ∉ f.labelNames
  /-- Different names are different without suffixes, too. Blocks `class.end.1` and `class.end.2`
  would both be `%class.end`. -/
  bareText_inj : ∀ t ∈ f.nodeNames, ∀ u ∈ f.nodeNames,
    metadata.bareText t = metadata.bareText u → t = u
  /-- If a name is that of a type, none is that of a type in canonical form. A block `node` could
  become `%struct_0` as the type, and be renamed as the block `struct_0` then. -/
  notType : ∀ t ∈ f.nodeNames, ∀ u ∈ f.nodeNames, metadata.hasStruct (metadata.bareText t) = true →
    ¬ IsNumbered "%struct_" (metadata.bareText u)
  /-- No parameter has the canonical name of a label. The label of that name would be renamed once
  more, as the parameter. -/
  params_notLabel : ∀ t ∈ f.declaredParams, ∀ stem ∈ ["%label_", "%block_"],
    ¬ IsNumbered stem (metadata.bareText t)
  /-- No identifier of a loose name is of canonical form. With a variable `%a`, the block `a+b`
  becomes `%var0+b`, as a block `var0+b` does. -/
  loose : ∀ t ∈ f.nodeNames, metadata.Loose t →
    ∀ u ∈ Token.symbols (metadata.bareText t), Uncanonical u
  /-- No loose label ends in a colon. A block `"a+b:"` would lose it, and be called `%a+b`. -/
  labels_noColon : ∀ t ∈ f.labelNames, metadata.Loose t →
    (metadata.bareText t).toList.getLast? ≠ some ':'
  /-- No label has a part that is cut as an attachment. A block `a,!b` would be called `%a`. -/
  labels_stripped : ∀ t ∈ f.labelNames, Token.stripAnnotations t = t
  /-- No name opens an attribute. Blocks `a+dereferenceable(64)` and `a+dereferenceable(80)` would
  become one when constants are hidden. -/
  noAttribute : ∀ t ∈ f.nodeNames, ¬ Text.OpensAttribute (metadata.bareText t).toList
  /-- The name of a parameter is no part of an attachment. The parameter `ptr %a, !x %b` would be
  called `%b` where it is declared, and `%a` behind the passes. -/
  params_read : ∀ p ∈ f.params,
    Token.last (Token.stripAnnotations p) = Token.stripAnnotations (Token.last p)
  /-- A global `%label_0` that an instruction is said to use would be a node beside that label. -/
  globals : ∀ i ∈ f.instructions, ∀ n ∈ i.usage.globals, Token.isGlobal n = true

/-- Names that are different without suffixes stay apart if no identifier in them begins like a
canonical name. -/
theorem Function.NamesApart.of_startsWith {f : Function} {metadata : Metadata}
    (h : (∀ t ∈ f.nodeNames,
        (∀ u ∈ f.nodeNames, metadata.bareText t = metadata.bareText u → t = u) ∧
        (∀ u ∈ Token.symbols (metadata.bareText t), ∀ stem ∈ stems,
          Token.startsWith u stem = false) ∧
        ¬ Text.OpensAttribute (metadata.bareText t).toList) ∧
      (∀ t ∈ f.declaredParams, Token.isLocal t = true ∧ t ∉ f.labelNames) ∧
      (∀ t ∈ f.labelNames, (metadata.bareText t).toList.getLast? ≠ some ':' ∧
        Token.stripAnnotations t = t) ∧
      (∀ p ∈ f.params,
        Token.last (Token.stripAnnotations p) = Token.stripAnnotations (Token.last p)) ∧
      ∀ i ∈ f.instructions, ∀ n ∈ i.usage.globals, Token.isGlobal n = true) :
    f.NamesApart metadata := by
  obtain ⟨hnames, hparams, hlabels, hread, hglobals⟩ := h
  have hidents {t : String} (ht : t ∈ f.nodeNames) :
      ∀ u ∈ Token.symbols (metadata.bareText t), Uncanonical u :=
    fun u hu => uncanonical_of_startsWith ((hnames t ht).2.1 u hu)
  have hfresh {t : String} (ht : t ∈ f.nodeNames) : Uncanonical (metadata.bareText t) :=
    Metadata.uncanonical_bareText (hidents ht)
  exact
    { params_isLocal := fun t ht => (hparams t ht).1
      params_labels := fun t ht => (hparams t ht).2
      bareText_inj := fun t ht => (hnames t ht).1
      notType := fun _ _ u hu _ => hfresh hu "%struct_" (by decide)
      params_notLabel := fun t ht stem hstem => hfresh (List.mem_append_left _ ht) stem
        ((by decide : ∀ stem ∈ ["%label_", "%block_"], stem ∈ stems) stem hstem)
      loose := fun t ht _ => hidents ht
      labels_noColon := fun t ht _ => (hlabels t ht).1
      labels_stripped := fun t ht => (hlabels t ht).2
      noAttribute := fun t ht => (hnames t ht).2.2
      params_read := hread
      globals := hglobals }

namespace Function.NamesApart

variable {f : Function} {metadata : Metadata} {t : String}

/-- Labels are local names, like parameters. -/
theorem isLocal (h : f.NamesApart metadata) (ht : t ∈ f.nodeNames) : Token.isLocal t = true := by
  rcases List.mem_append.mp ht with ht | ht
  · exact h.params_isLocal t ht
  · obtain ⟨b, -, rfl⟩ := List.mem_map.mp ht
    exact Token.isLocal_normalizeLabel b.label

/-- An identifier stays local without its suffix. -/
theorem isLocal_bareName (h : f.NamesApart metadata) (ht : t ∈ f.nodeNames)
    (hsymbol : Token.isSymbol t = true) : Token.isLocal (metadata.bareName t) = true := by
  rw [Token.isLocal_eq_of_head?_eq (metadata.head?_bareName hsymbol), h.isLocal ht]

/-- An identifier that has lost a suffix is of no canonical form. -/
theorem uncanonical_bareName (h : f.NamesApart metadata) (ht : t ∈ f.nodeNames)
    (hsymbol : Token.isSymbol t = true) (hbare : metadata.bareName t ≠ t) :
    Uncanonical (metadata.bareName t) := by
  rw [← Metadata.bareText_of_isSymbol hsymbol] at hbare ⊢
  exact Metadata.uncanonical_bareText (h.loose t ht (Or.inr hbare))

end Function.NamesApart

/-! ### The passes over names -/

namespace Pass

variable {ctx : PassContext} {t : String}

/-- The pass over globals leaves local names alone. -/
theorem globals_image_of_isLocal (hl : Token.isLocal t = true) : globals.image ctx t = t :=
  image_eq_self (by simp [rename?, Token.isGlobal_of_isLocal hl])

/-- The pass over callees leaves local names alone. -/
theorem calls_rename?_of_isLocal {cctx : CollectContext} (h : Collected cctx ctx.symbols)
    (hl : Token.isLocal t = true) : calls.rename? ctx t = none := by
  have hnot : t ∉ ctx.symbols.calls.names := by
    intro hmem
    have hglobal := (h.calls _ hmem).1
    rw [Token.isGlobal_of_isLocal hl] at hglobal
    exact absurd hglobal (by simp)
  simp [rename?, RenameTable.get?_eq_none_iff.mpr hnot]

end Pass

namespace PassContext

open Pass

section

variable {ctx : PassContext}

/-- Behind the first pass, the others rename the identifiers of a name. -/
theorem canonicalName_eq_mapSymbols (ctx : PassContext) (s : String) :
    ctx.canonicalName s = Token.mapSymbols
      (images ctx [.globals, structs, calls, .labels, .locals]) (ctx.metadata.bareText s) := by
  rw [Metadata.bareText, Token.mapSymbols_mapSymbols (ctx.metadata.keepsSymbols_bareName s)]
  exact Token.mapSymbols_congr fun t _ => ctx.canonicalSymbol_eq_images t

/-- A name is an identifier exactly if its canonical form is one. -/
theorem isSymbol_canonicalName (hs : ctx.symbols.Sound) (s : String) :
    Token.isSymbol (ctx.canonicalName s) = Token.isSymbol s := by
  rw [Bool.eq_iff_iff]
  refine ⟨Token.isSymbol_of_mapSymbols (keepsSymbols_canonicalSymbol hs s), fun hsymbol => ?_⟩
  rw [canonicalName_of_isSymbol hsymbol]
  exact isSymbol_images hs hsymbol

/-- An identifier only loses its suffix, or it gets a canonical name. -/
theorem canonicalSymbol_cases (hs : ctx.symbols.Sound) (t : String) :
    ctx.canonicalSymbol t = ctx.metadata.bareName t ∨
      ∃ stem ∈ stems, IsNumbered stem (ctx.canonicalSymbol t) := by
  rw [canonicalSymbol_eq_images]
  rcases images_cases hs [.globals, structs, calls, .labels, .locals] (by decide)
    (ctx.metadata.bareName t) with ⟨-, heq⟩ | ⟨p, -, stem, hstem, hn⟩
  · exact Or.inl heq
  · exact Or.inr ⟨stem, p.mem_stems_of_mem_stemsOf stem hstem, hn⟩

end

/-- The tables of a function whose names stay apart. -/
structure Apart (f : Function) (ctx : PassContext) : Prop where
  names : f.NamesApart ctx.metadata
  collected : Collected (f.collectContext ctx.metadata ctx.frequency) ctx.symbols
  mem_params : ∀ t, t ∈ ctx.symbols.params.names ↔ t ∈ f.declaredParams
  mem_labels : ∀ t, t ∈ ctx.symbols.labels.names ↔ t ∈ f.labelNames

/-- What the passes before the one over locals make of an identifier. -/
def labelled (ctx : PassContext) (t : String) : String :=
  Pass.labels.image ctx (structs.image ctx (ctx.metadata.bareName t))

namespace Apart

variable {f : Function} {ctx : PassContext} {p : Pass} {s t u c : String}

/-- A name of a table has the sigil of the identifier that it stands for. -/
theorem head?_of_lookup (h : ctx.Apart f) (hc : ctx.symbols.lookup p t = some c) :
    c.toList.head? = t.toList.head? := by
  obtain ⟨stem, hstem, hn⟩ := isNumbered_of_lookup h.collected.sound hc
  have hglobal (hstem : stem.toList.head? = some '@') (ht : Token.isGlobal t = true) :
      c.toList.head? = t.toList.head? := by
    rw [hn.head?_eq hstem, Token.isGlobal_iff.mp ht]
  have hlocal (hstem : stem.toList.head? = some '%') (ht : Token.isLocal t = true) :
      c.toList.head? = t.toList.head? := by
    rw [hn.head?_eq hstem, Token.isLocal_iff.mp ht]
  have hsigil (sigil : Char) (hall : (p.stemsOf.all (·.toList.head? == some sigil)) = true) :
      stem.toList.head? = some sigil := by
    simpa using List.all_eq_true.mp hall stem hstem
  cases p with
  | stripAnnotations | constants | structSuffixes => simp [SymbolTables.lookup] at hc
  | globals => exact hglobal (hsigil '@' (by decide)) (h.collected.globals_lookup hc).1
  | structs => exact hlocal (hsigil '%' (by decide)) (h.collected.structs_lookup hc).1
  | calls => exact hglobal (hsigil '@' (by decide)) (h.collected.calls_lookup hc).1
  | labels => exact hlocal (hsigil '%' (by decide)) (h.collected.labels_lookup hc)
  | locals =>
    refine hlocal (hsigil '%' (by decide)) ?_
    rcases SymbolTables.lookup_locals hc with hparam | hvar
    · have hmem : t ∈ ctx.symbols.params.names := RenameTable.mem_names_iff.mpr ⟨c, hparam⟩
      exact h.names.params_isLocal t ((h.mem_params t).mp hmem)
    · exact (h.collected.vars t (RenameTable.mem_names_iff.mpr ⟨c, hvar⟩)).1

/-- The sigil of an identifier stays in a pass. -/
theorem head?_image (h : ctx.Apart f) (ht : Token.isSymbol t = true) :
    (p.image ctx t).toList.head? = t.toList.head? := by
  by_cases hp : p = .structSuffixes
  · rw [hp, structSuffixes_image_eq, ctx.metadata.head?_bareName ht]
  · cases hr : p.rename? ctx t with
    | none => rw [image_eq_self hr]
    | some c =>
      have himage : p.image ctx t = c := by simp [image, hr]
      rw [himage, h.head?_of_lookup (lookup_of_rename? hp hr)]

/-- The sigil of an identifier stays in several passes. -/
theorem head?_images (h : ctx.Apart f) (ps : List Pass) (ht : Token.isSymbol t = true) :
    (images ctx ps t).toList.head? = t.toList.head? := by
  induction ps generalizing t with
  | nil => rfl
  | cons p ps ih =>
    rw [images_cons, ih (isSymbol_image h.collected.sound ht), h.head?_image ht]

/-- The first character of a name stays. -/
theorem head?_canonicalName (h : ctx.Apart f) (s : String) :
    (ctx.canonicalName s).toList.head? = s.toList.head? :=
  Token.head?_mapSymbols (keepsSymbols_canonicalSymbol h.collected.sound s)
    fun _ ht => h.head?_images symbolPasses (Token.isSymbol_of_mem ht)

/-- Local names stay local. -/
theorem isLocal_canonicalName (h : ctx.Apart f) (ht : t ∈ f.nodeNames) :
    Token.isLocal (ctx.canonicalName t) = true := by
  rw [Token.isLocal_eq_of_head?_eq (h.head?_canonicalName t), h.names.isLocal ht]

/-! #### Identifiers -/

/-- A name is a known type, or the pass over types leaves it alone. -/
theorem structs_image_cases (h : ctx.Apart f) (t : String) :
    structs.image ctx t = t ∨ IsNumbered "%struct_" (structs.image ctx t) := by
  rcases image_cases h.collected.sound (p := structs) (by simp) t with
    ⟨-, heq⟩ | ⟨-, stem, hstem, hn⟩
  · exact Or.inl heq
  · obtain rfl : stem = "%struct_" := by simpa [stemsOf] using hstem
    exact Or.inr hn

/-- The first pass takes suffixes from the names, and those over globals and callees leave them
alone. -/
theorem canonicalSymbol_eq (h : ctx.Apart f) (ht : t ∈ f.nodeNames)
    (hsymbol : Token.isSymbol t = true) :
    ctx.canonicalSymbol t = Pass.locals.image ctx (ctx.labelled t) := by
  have hbare := h.names.isLocal_bareName ht hsymbol
  have hlocal : Token.isLocal (structs.image ctx (ctx.metadata.bareName t)) = true := by
    have hhead := h.head?_image (p := structs) (ctx.metadata.isSymbol_bareName hsymbol)
    rw [Token.isLocal_eq_of_head?_eq hhead, hbare]
  have hpasses : ctx.canonicalSymbol t = Pass.locals.image ctx (Pass.labels.image ctx
      (Pass.calls.image ctx (structs.image ctx
        (Pass.globals.image ctx (structSuffixes.image ctx t))))) := rfl
  rw [hpasses, structSuffixes_image_eq, globals_image_of_isLocal hbare,
    image_eq_self (calls_rename?_of_isLocal h.collected hlocal), labelled]

/-- A name that is left by the pass over labels is that of a parameter, or it has lost a suffix. -/
theorem labels_rename?_cases (h : ctx.Apart f) (ht : t ∈ f.nodeNames)
    (hnone : Pass.labels.rename? ctx (ctx.metadata.bareName t) = none) :
    ctx.metadata.bareName t = t ∧ t ∈ f.declaredParams ∨ ctx.metadata.bareName t ≠ t := by
  by_cases heq : ctx.metadata.bareName t = t
  · refine Or.inl ⟨heq, (List.mem_append.mp ht).resolve_right fun hl => ?_⟩
    rw [heq] at hnone
    exact RenameTable.get?_eq_none_iff.mp hnone ((h.mem_labels t).mpr hl)
  · exact Or.inr heq

/-- The last pass renames every parameter that is left to it. -/
theorem locals_rename?_ne_none (h : ctx.Apart f) (ht : t ∈ f.declaredParams) :
    Pass.locals.rename? ctx t ≠ none := by
  intro hnone
  simp only [rename?] at hnone
  split at hnone
  · simp at hnone
  · rename_i hparam
    exact RenameTable.get?_eq_none_iff.mp hparam ((h.mem_params t).mpr ht)

/-- The pass over types or that over labels renames a name, unless it is that of a parameter or has
lost a suffix. -/
theorem labelled_cases (h : ctx.Apart f) (ht : t ∈ f.nodeNames) :
    (∃ stem ∈ ["%struct_", "%label_", "%block_"], IsNumbered stem (ctx.labelled t)) ∨
      ctx.labelled t = ctx.metadata.bareName t ∧
        (ctx.metadata.bareName t = t ∧ t ∈ f.declaredParams ∨ ctx.metadata.bareName t ≠ t) := by
  rw [labelled]
  rcases image_cases h.collected.sound (p := .labels) (by simp)
    (structs.image ctx (ctx.metadata.bareName t)) with ⟨hnone, heq⟩ | ⟨-, stem, hstem, hn⟩
  · rw [heq]
    rcases h.structs_image_cases (ctx.metadata.bareName t) with hx | hx
    · rw [hx] at hnone ⊢
      exact Or.inr ⟨rfl, h.labels_rename?_cases ht hnone⟩
    · exact Or.inl ⟨_, by simp, hx⟩
  · exact Or.inl ⟨stem, List.mem_cons_of_mem _ hstem, hn⟩

/-- What the pass over labels leaves alone is not called like a label in canonical form. -/
theorem not_isNumbered_of_labels (h : ctx.Apart f) (ht : t ∈ f.nodeNames)
    (hsymbol : Token.isSymbol t = true)
    (hnone : Pass.labels.rename? ctx (structs.image ctx (ctx.metadata.bareName t)) = none) :
    ∀ stem ∈ Pass.labels.stemsOf,
      ¬ IsNumbered stem (structs.image ctx (ctx.metadata.bareName t)) := by
  intro stem hstem
  rcases h.structs_image_cases (ctx.metadata.bareName t) with hself | hn
  · rw [hself] at hnone ⊢
    rcases h.labels_rename?_cases ht hnone with ⟨-, hparam⟩ | hbare
    · rw [← Metadata.bareText_of_isSymbol hsymbol]
      exact h.names.params_notLabel t hparam stem hstem
    · exact h.names.uncanonical_bareName ht hsymbol hbare stem
        (mem_stems_of_mem_stemsOf _ stem hstem)
  · have hapart : StemsApart "%struct_" stem :=
      stemsApart_of_ne (p := structs) (q := .labels) (by simp) _ (by simp [stemsOf]) _ hstem
    exact fun hn' => hn.ne hapart hn' rfl

/-- What the last pass leaves alone is not called like a parameter or variable in canonical form. -/
theorem not_isNumbered_of_locals (h : ctx.Apart f) (ht : t ∈ f.nodeNames)
    (hsymbol : Token.isSymbol t = true)
    (hnone : Pass.locals.rename? ctx (ctx.labelled t) = none) :
    ∀ stem ∈ Pass.locals.stemsOf, ¬ IsNumbered stem (ctx.labelled t) := by
  intro stem hstem
  rcases h.labelled_cases ht with ⟨stem', hstem', hn⟩ | ⟨hself, ⟨hbare, hparam⟩ | hbare⟩
  · have hapart : ∀ stem' ∈ ["%struct_", "%label_", "%block_"], ∀ stem ∈ Pass.locals.stemsOf,
        StemsApart stem' stem := by
      decide
    exact fun hn' => hn.ne (hapart stem' hstem' stem hstem) hn' rfl
  · rw [hself, hbare] at hnone
    exact absurd hnone (h.locals_rename?_ne_none hparam)
  · rw [hself]
    exact h.names.uncanonical_bareName ht hsymbol hbare stem (mem_stems_of_mem_stemsOf _ stem hstem)

/-- Different identifiers have different canonical names: from the last pass to the first, none
writes a name that it leaves alone elsewhere. -/
theorem canonicalSymbol_inj (h : ctx.Apart f) (ht : t ∈ f.nodeNames) (hu : u ∈ f.nodeNames)
    (htsymbol : Token.isSymbol t = true) (husymbol : Token.isSymbol u = true)
    (heq : ctx.canonicalSymbol t = ctx.canonicalSymbol u) : t = u := by
  have hs := h.collected.sound
  have htype {v w : String} (hv : v ∈ f.nodeNames) (hw : w ∈ f.nodeNames)
      (hvsymbol : Token.isSymbol v = true) (hwsymbol : Token.isSymbol w = true)
      (hsome : structs.rename? ctx (ctx.metadata.bareName w) ≠ none) :
      ∀ stem ∈ structs.stemsOf, ¬ IsNumbered stem (ctx.metadata.bareName v) := by
    obtain ⟨c, hc⟩ := Option.ne_none_iff_exists'.mp hsome
    have hknown := (h.collected.structs_lookup (lookup_of_rename? (by simp) hc)).2
    have hnot := h.names.notType w hw v hv
    rw [Metadata.bareText_of_isSymbol hwsymbol, Metadata.bareText_of_isSymbol hvsymbol] at hnot
    simpa [stemsOf] using hnot hknown
  rw [h.canonicalSymbol_eq ht htsymbol, h.canonicalSymbol_eq hu husymbol] at heq
  have hlabelled : ctx.labelled t = ctx.labelled u :=
    image_inj hs (by simp) (fun hnone _ => h.not_isNumbered_of_locals ht htsymbol hnone)
      (fun hnone _ => h.not_isNumbered_of_locals hu husymbol hnone) heq
  have hstructs : structs.image ctx (ctx.metadata.bareName t) =
      structs.image ctx (ctx.metadata.bareName u) :=
    image_inj hs (by simp) (fun hnone _ => h.not_isNumbered_of_labels ht htsymbol hnone)
      (fun hnone _ => h.not_isNumbered_of_labels hu husymbol hnone) hlabelled
  have hbare : ctx.metadata.bareName t = ctx.metadata.bareName u :=
    image_inj hs (by simp) (fun _ => htype ht hu htsymbol husymbol)
      (fun _ => htype hu ht husymbol htsymbol) hstructs
  refine h.names.bareText_inj t ht u hu ?_
  rw [Metadata.bareText_of_isSymbol htsymbol, Metadata.bareText_of_isSymbol husymbol, hbare]

/-! #### Names of any kind -/

/-- A loose name keeps everything but its identifiers, so different ones stay different. -/
theorem canonicalName_inj (h : ctx.Apart f) (ht : t ∈ f.nodeNames) (hu : u ∈ f.nodeNames)
    (heq : ctx.canonicalName t = ctx.canonicalName u) : t = u := by
  have hs := h.collected.sound
  have hkind : Token.isSymbol t = Token.isSymbol u := by
    rw [← isSymbol_canonicalName hs t, heq, isSymbol_canonicalName hs u]
  cases htsymbol : Token.isSymbol t with
  | true =>
    have husymbol : Token.isSymbol u = true := hkind.symm.trans htsymbol
    rw [canonicalName_of_isSymbol htsymbol, canonicalName_of_isSymbol husymbol] at heq
    exact h.canonicalSymbol_inj ht hu htsymbol husymbol heq
  | false =>
    have husymbol : Token.isSymbol u = false := hkind.symm.trans htsymbol
    have hfresh {v w : String} (hv : v ∈ f.nodeNames) (hvsymbol : Token.isSymbol v = false)
        (hw : w ∈ Token.symbols (ctx.metadata.bareText v)) :
        ∀ p ∈ [Pass.globals, structs, calls, .labels, .locals], ∀ stem ∈ p.stemsOf,
          ¬ IsNumbered stem w :=
      fun p _ stem hstem =>
        h.names.loose v hv (Or.inl hvsymbol) w hw stem (p.mem_stems_of_mem_stemsOf stem hstem)
    rw [canonicalName_eq_mapSymbols, canonicalName_eq_mapSymbols] at heq
    have hbare : ctx.metadata.bareText t = ctx.metadata.bareText u :=
      Token.mapSymbols_inj (keepsSymbols_images hs _ _) (keepsSymbols_images hs _ _)
        (fun v hv w hw => images_inj hs (by decide) (by decide) (hfresh ht htsymbol hv)
          (hfresh hu husymbol hw)) heq
    exact h.names.bareText_inj t ht u hu hbare

/-- A label that is an identifier and loses no suffix gets a canonical name. -/
theorem isNumbered_canonicalSymbol (h : ctx.Apart f) (ht : t ∈ f.labelNames)
    (hbare : ctx.metadata.bareName t = t) :
    ∃ stem ∈ stems, IsNumbered stem (ctx.canonicalSymbol t) := by
  rw [canonicalSymbol_eq_images, hbare]
  rcases images_cases h.collected.sound [.globals, structs, calls, .labels, .locals]
    (by decide) t with ⟨hnone, -⟩ | ⟨p, -, stem, hstem, hn⟩
  · exact absurd ((h.mem_labels t).mpr ht)
      (RenameTable.get?_eq_none_iff.mp (hnone .labels (by simp)))
  · exact ⟨stem, p.mem_stems_of_mem_stemsOf stem hstem, hn⟩

/-- No label ends in a colon in canonical form. -/
theorem getLast?_canonicalName (h : ctx.Apart f) (ht : t ∈ f.labelNames) :
    (ctx.canonicalName t).toList.getLast? ≠ some ':' := by
  intro hcolon
  have hs := h.collected.sound
  by_cases hloose : ctx.metadata.Loose t
  · -- the last identifier has only lost a suffix, or it has a name without colons now
    refine h.names.labels_noColon t ht hloose ?_
    rw [canonicalName, Token.toList_mapSymbols] at hcolon
    rw [Metadata.bareText, Token.toList_mapSymbols]
    refine Text.getLast?_mapIdentifiers (ctx.metadata.keepsSymbols_bareName t).onChars
      (keepsSymbols_canonicalSymbol hs t).onChars (fun cs _ => ?_) hcolon
    rcases canonicalSymbol_cases hs (String.ofList cs) with heq | ⟨stem, hstem, hn⟩
    · exact Or.inl (congrArg String.toList heq)
    · exact Or.inr fun hlast => (hn.not_mem hstem).2 (List.mem_of_getLast? hlast)
  · obtain ⟨hsymbol, hbare⟩ := not_or.mp hloose
    rw [Bool.not_eq_false] at hsymbol
    rw [ne_eq, not_not, Metadata.bareText_of_isSymbol hsymbol] at hbare
    obtain ⟨stem, hstem, hn⟩ := h.isNumbered_canonicalSymbol ht hbare
    rw [canonicalName_of_isSymbol hsymbol] at hcolon
    exact (hn.not_mem hstem).2 (List.mem_of_getLast? hcolon)

/-- No name opens an attribute in canonical form: a canonical name ends in a digit, so it does not
end in the word of one. -/
theorem not_opensAttribute_canonicalName (h : ctx.Apart f) (ht : t ∈ f.nodeNames) :
    ¬ Text.OpensAttribute (ctx.canonicalName t).toList := by
  have hs := h.collected.sound
  intro hattr
  rw [canonicalName_eq_mapSymbols, Token.toList_mapSymbols] at hattr
  refine h.names.noAttribute t ht
    (hattr.of_mapIdentifiers (keepsSymbols_images hs _ _).onChars fun cs _ => ?_)
  rcases images_cases hs [.globals, structs, calls, .labels, .locals] (by decide)
    (String.ofList cs) with ⟨-, heq⟩ | ⟨p, -, stem, -, hn⟩
  · exact Or.inl (by rw [Token.onChars, heq, String.toList_ofList])
  · exact Or.inr hn.getLast?_isDigit

/-- A label in canonical form is normal. -/
theorem normalizeLabel_canonicalName (h : ctx.Apart f) (ht : t ∈ f.labelNames) :
    Token.normalizeLabel (ctx.canonicalName t) = ctx.canonicalName t := by
  have hkeeps := keepsSymbols_canonicalSymbol h.collected.sound t
  have hlocal := h.isLocal_canonicalName (List.mem_append_right f.declaredParams ht)
  have hcolon := h.getLast?_canonicalName ht
  obtain ⟨b, -, rfl⟩ := List.mem_map.mp ht
  refine Token.normalizeLabel_eq_self ?_ hlocal ?_ hcolon
  · exact (Token.unquoted_normalizeLabel b.label).mapSymbols hkeeps
  · rw [canonicalName, Token.last_mapSymbols hkeeps, Token.last_normalizeLabel]

end Apart

end PassContext

/-- A function whose names stay apart has tables of that sort. -/
theorem Function.NamesApart.apart {f : Function} {metadata : Metadata}
    (h : f.NamesApart metadata) (frequency : FrequencyTables) (config : Config.Canonicalize) :
    (passContext metadata frequency config f).Apart f where
  names := h
  collected := collected_collectSymbols metadata frequency config f
  mem_params _ := mem_params_collectSymbols
  mem_labels _ := mem_labels_collectSymbols

namespace RewriteContext

variable {f : Function} {ctx : RewriteContext} {s : String}

/-- The label of a canonical block is called by its canonical name. -/
theorem normalizeLabel_canonicalLabel_of_apart (h : ctx.toPassContext.Apart f)
    (ht : Token.normalizeLabel s ∈ f.labelNames) :
    Token.normalizeLabel (ctx.canonicalLabel s).text =
      ctx.canonicalName (Token.normalizeLabel s) := by
  have hattr := h.not_opensAttribute_canonicalName (List.mem_append_right f.declaredParams ht)
  have htext : (ctx.canonicalLabel s).text = ctx.canonicalName (Token.normalizeLabel s) := by
    rw [canonicalLabel, canonicalText]
    exact PassContext.text_runPasses_of_not_isBlank h.collected.sound
      (h.names.labels_stripped _ ht) (Token.not_isBlank_of_mem_normalizeLabel s) hattr
  rw [htext, h.normalizeLabel_canonicalName ht]

/-- The parameters of a canonical function are called by canonical names. -/
theorem paramNames_function (h : ctx.toPassContext.Apart f) :
    (ctx.function f).paramNames = f.declaredParams.map ctx.canonicalName := by
  rw [Function.paramNames, function_eq, List.map_map, Function.declaredParams,
    Function.paramNames, List.map_map, List.map_map]
  refine List.map_congr_left fun p hp => ?_
  have hmem : Token.stripAnnotations (Token.last p) ∈ f.declaredParams :=
    List.mem_map_of_mem (List.mem_map_of_mem hp)
  have hnode := List.mem_append_left f.labelNames hmem
  have hhead := Token.isLocal_iff.mp (h.isLocal_canonicalName hnode)
  rw [Function.comp_apply, Function.comp_apply, Function.comp_apply, canonicalText]
  exact PassContext.last_runPasses_of_isSigil h.collected.sound (h.names.params_read p hp)
    ⟨'%', hhead, by decide⟩ (h.not_opensAttribute_canonicalName hnode)

end RewriteContext

/-! ### Globals -/

/-- What is mentioned and is no constant is mentioned in one of the passes over identifiers, by what
the passes before have made of an identifier of the text. -/
theorem exists_mention?_of_mem_mentions {ctx : PassContext} (hs : ctx.symbols.Sound) {s : String}
    {m : Mention} (hm : ∀ v, m ≠ .constant v) (h : m ∈ (runPasses ctx s).mentions) :
    ∃ qs p rs, Pass.symbolPasses = qs ++ p :: rs ∧
      ∃ t ∈ Token.symbols (Token.stripAnnotations s),
        p.mention? ctx (Pass.images ctx qs t) = some m := by
  rw [runPasses_eq hs] at h
  rcases List.mem_append.mp h with h | h
  · exact Pass.mem_mentionsOf.mp h
  · rw [Pass.mentions_hideConstants, List.mem_append] at h
    rcases h with h | h
    · obtain ⟨i, -, hi⟩ := Pass.mem_mentions_hideForm.mp h
      exact absurd hi.symm (hm _)
    · obtain ⟨i, -, hi⟩ := Pass.mem_mentions_hideForm.mp h
      exact absurd hi.symm (hm _)

/-- Only global names are mentioned as globals. -/
theorem isGlobal_of_mem_mentions {ctx : PassContext} (hs : ctx.symbols.Sound) {s n : String}
    (h : .global n ∈ (runPasses ctx s).mentions) : Token.isGlobal n = true := by
  obtain ⟨qs, p, rs, -, t, -, hm⟩ := exists_mention?_of_mem_mentions hs (by simp) h
  cases p with
  | globals =>
    simp only [Pass.mention?] at hm
    split at hm
    · rename_i hif
      simp only [Option.some.injEq, Mention.global.injEq] at hm
      exact hm ▸ (Bool.and_eq_true_iff.mp hif).1
    · simp at hm
  | structs | calls =>
    simp only [Pass.mention?] at hm
    grind
  | stripAnnotations | structSuffixes | labels | locals | constants => simp [Pass.mention?] at hm

/-- A global name stays one. -/
theorem SymbolTables.isGlobal_canonicalGlobal {symbols : SymbolTables} (hs : symbols.Sound)
    {n : String} (h : Token.isGlobal n = true) :
    Token.isGlobal (symbols.canonicalGlobal n) = true := by
  rw [canonicalGlobal]
  cases hc : symbols.globals.bind (·.get? n) with
  | none => exact h
  | some c =>
    obtain ⟨table, htable, hc⟩ := Option.bind_eq_some_iff.mp hc
    obtain ⟨hn, hstem⟩ := hs.globals table htable
    exact Token.isGlobal_iff.mpr ((hn.isNumbered hc).head?_eq (by rw [hstem]; rfl))

namespace RewriteContext

variable {f : Function} {ctx : RewriteContext} {i : Instruction}

/-- What a field mentions is mentioned by a text of the instruction, or a target in reference
form. -/
theorem exists_of_mem_canonicalFields {r : Rewritten} (hr : r ∈ ctx.canonicalFields i) :
    ∃ s ∈ i.texts ++ i.targets.map Token.normalizeLabel,
      ∀ m ∈ r.mentions, m ∈ (ctx.canonicalText s).mentions := by
  have hoperand (s : String) :
      ∀ m ∈ (ctx.canonicalOperand s).mentions, m ∈ (ctx.canonicalText s).mentions := by
    intro m hm
    rw [canonicalOperand] at hm
    split at hm
    · simp at hm
    · exact hm
  have htext {s : String} (hs : s ∈ i.texts) :
      s ∈ i.texts ++ i.targets.map Token.normalizeLabel := List.mem_append_left _ hs
  simp only [canonicalFields, List.mem_append, List.mem_singleton, List.mem_map,
    Option.mem_toList, Option.map_eq_some_iff] at hr
  rcases hr with ((((((rfl | ⟨s, hs, rfl⟩) | ⟨s, hs, rfl⟩) | ⟨s, hs, rfl⟩) | ⟨s, hs, rfl⟩) |
    ⟨s, hs, rfl⟩) | ⟨s, hs, rfl⟩) | ⟨s, hs, rfl⟩
  · exact ⟨i.text, htext (by simp [Instruction.texts]), fun _ hm => hm⟩
  · exact ⟨s, htext (by simp [Instruction.texts, hs]), hoperand s⟩
  · exact ⟨s, htext (by simp [Instruction.texts, hs]), hoperand s⟩
  · exact ⟨s, htext (by simp [Instruction.texts, hs]), hoperand s⟩
  · exact ⟨Token.normalizeLabel s, List.mem_append_right _ (List.mem_map_of_mem hs), fun _ hm => hm⟩
  · exact ⟨s, htext (by simp [Instruction.texts, hs]), fun _ hm => hm⟩
  · exact ⟨s, htext (by simp [Instruction.texts, hs]), fun _ hm => hm⟩
  · exact ⟨s, htext (by simp [Instruction.texts, hs]), fun _ hm => hm⟩

/-- The globals that a canonical instruction uses have global names. -/
theorem isGlobal_of_mem_usage (h : ctx.toPassContext.Apart f) (hi : i ∈ f.instructions)
    {n : String} (hn : n ∈ (ctx.canonicalInstruction i).usage.globals) :
    Token.isGlobal n = true := by
  have hhas : (ctx.canonicalInstruction i).usage.Has (.global n) := hn
  rw [canonicalInstruction, Usage.has_merge, Usage.has_recordAll_empty] at hhas
  rcases hhas with hraw | hmentioned
  · exact h.names.globals i hi n hraw
  · obtain ⟨r, hr, hm⟩ := List.mem_flatMap.mp hmentioned
    obtain ⟨s, -, hs⟩ := exists_of_mem_canonicalFields hr
    exact isGlobal_of_mem_mentions h.collected.sound (hs _ hm)

end RewriteContext

end InstrGraph
