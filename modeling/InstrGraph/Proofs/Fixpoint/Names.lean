import InstrGraph.Metadata
import InstrGraph.Proofs.Symbols.Scope
import InstrGraph.Proofs.Symbols.Tables
import InstrGraph.Proofs.Text.Stripped
import InstrGraph.Proofs.Text.Suffix

/-!
# Well-named functions

A function is `WellNamed` if its parameters, labels and variables are local identifiers that cannot
be taken for the names of types or for each other, and if no name is of canonical form already
(`IsCanonical`). A canonical name has no dot, so it has no suffix and is none of an aggregate type.
-/

namespace InstrGraph

/-! ### Canonical names -/

/-- The stems of the canonical names of variables, parameters, labels, types and callees. -/
def ownStems : List String := ["%var", "%arg", "%label_", "%block_", "%struct_", "@function_"]

/-- These are stems of canonical names. -/
theorem ownStems_subset_stems : ownStems ⊆ stems := by decide

/-- The name is of canonical form. -/
def IsCanonical (t : String) : Prop := ∃ stem ∈ ownStems, IsNumbered stem t

/-- A name that begins like none is not of canonical form. -/
theorem not_isCanonical {t : String} (h : ∀ stem ∈ ownStems, Token.startsWith t stem = false) :
    ¬ IsCanonical t := by
  rintro ⟨stem, hstem, hn⟩
  exact not_isNumbered (h stem hstem) hn

namespace IsCanonical

variable {t head : String}

/-- Canonical names are identifiers. -/
theorem isSymbol (h : IsCanonical t) : Token.isSymbol t = true := by
  obtain ⟨stem, hstem, hn⟩ := h
  exact hn.isSymbol (ownStems_subset_stems hstem)

/-- A canonical name has no dot and no colon. -/
theorem not_mem (h : IsCanonical t) : '.' ∉ t.toList ∧ ':' ∉ t.toList := by
  obtain ⟨stem, hstem, hn⟩ := h
  exact hn.not_mem (ownStems_subset_stems hstem)

/-- A canonical name has no suffix. -/
theorem stripSuffix_eq (h : IsCanonical t) : Token.stripSuffix t = t :=
  Token.stripSuffix_of_not_mem h.not_mem.1

/-- No canonical name begins with something that has a dot. -/
theorem not_startsWith (h : IsCanonical t) (hhead : '.' ∈ head.toList) :
    Token.startsWith t head = false := by
  cases hs : Token.startsWith t head with
  | false => rfl
  | true => exact absurd ((Token.startsWith_iff.mp hs).mem hhead) h.not_mem.1

/-- A canonical name is none of an aggregate type. -/
theorem not_isStructLike (h : IsCanonical t) : Token.isStructLike t = false :=
  Token.isStructLike_of_not_mem h.not_mem.1

/-- A local name of canonical form is normal. -/
theorem normalizeLabel_eq (h : IsCanonical t) (hl : Token.isLocal t = true) :
    Token.normalizeLabel t = t := by
  have hlast := Token.last_of_isSymbol h.isSymbol
  refine (Token.normalizeLabel_eq_last (Token.unquoted_of_isSymbol h.isSymbol) ⟨?_, ?_, ?_⟩).trans
    hlast
  · exact hlast.symm ▸ h.isSymbol
  · exact hlast.symm ▸ hl
  · exact hlast.symm ▸ h.not_mem.2

end IsCanonical

/-! ### Well-named functions -/

/-- A local identifier that is none of an aggregate type, with or without a suffix. -/
structure LocalName (metadata : Metadata) (t : String) : Prop where
  isSymbol : Token.isSymbol t = true
  isLocal : Token.isLocal t = true
  notStructLike : Token.isStructLike t = false
  noStruct : metadata.hasStruct t = false
  noStructBase : metadata.hasStruct (Token.stripSuffix t) = false

instance (metadata : Metadata) (t : String) : Decidable (LocalName metadata t) :=
  decidable_of_iff (Token.isSymbol t = true ∧ Token.isLocal t = true ∧
      Token.isStructLike t = false ∧ metadata.hasStruct t = false ∧
      metadata.hasStruct (Token.stripSuffix t) = false)
    ⟨fun h => ⟨h.1, h.2.1, h.2.2.1, h.2.2.2.1, h.2.2.2.2⟩,
      fun h => ⟨h.isSymbol, h.isLocal, h.notStructLike, h.noStruct, h.noStructBase⟩⟩

/-- A local name that is none of an aggregate type is not spelled like one without its suffix
either. -/
theorem LocalName.notStructLike_base {metadata : Metadata} {t : String} (h : LocalName metadata t) :
    Token.isStructLike (Token.stripSuffix t) = false := by
  have hno := h.notStructLike
  rw [Token.isStructLike, Text.isStructLike, List.any_eq_false] at hno ⊢
  intro head hhead hpre
  refine hno head hhead (List.isPrefixOf_iff_prefix.mpr ?_)
  exact (List.isPrefixOf_iff_prefix.mp hpre).trans (Token.stripSuffix_prefix t)

namespace Function

/-- The identifiers of a function, its labels as they are referred to among them. -/
def identifiers (f : Function) : List String := f.symbols ++ f.labelNames

end Function

/-- Parameters, labels and variables are different local names, and none of the names that are
known is of canonical form. -/
structure Function.WellNamed (f : Function) (metadata : Metadata) (frequency : FrequencyTables) :
    Prop where
  unquoted : f.Unquoted
  params : ∀ t ∈ f.declaredParams, LocalName metadata t
  labels : ∀ t ∈ f.labelNames, LocalName metadata t
  vars : ∀ t ∈ f.definedVars, LocalName metadata t
  params_labels : ∀ t ∈ f.declaredParams, t ∉ f.labelNames
  params_vars : ∀ t ∈ f.declaredParams, t ∉ f.definedVars
  labels_vars : ∀ t ∈ f.labelNames, t ∉ f.definedVars
  targets : ∀ i ∈ f.instructions, ∀ t ∈ i.targets, Token.normalizeLabel t ∈ f.labelNames
  fresh : ∀ t ∈ f.identifiers, ¬ IsCanonical t
  fresh_metadata : ∀ t, IsCanonical t → metadata.hasStruct t = false ∧ metadata.hasGlobal t = false
  fresh_calls : ∀ t ∈ frequency.calls, ¬ IsCanonical t

namespace Function.WellNamed

variable {f : Function} {metadata : Metadata} {frequency : FrequencyTables} {t : String}

/-- An identifier in scope is one of the function. -/
theorem mem_identifiers_of_isSymbol {s : String} (hs : s ∈ f.scope)
    (hsym : Token.isSymbol s = true) : s ∈ f.identifiers := by
  refine List.mem_append_left _ (hs.2 s ?_)
  rw [Token.symbols_of_isSymbol hsym]
  exact List.mem_singleton_self s

/-- The identifiers of a well-named function are identifiers. -/
theorem isSymbol_of_mem_identifiers (h : f.WellNamed metadata frequency) (ht : t ∈ f.identifiers) :
    Token.isSymbol t = true := by
  rcases List.mem_append.mp ht with ht | ht
  · exact isSymbol_of_mem_symbols ht
  · exact (h.labels t ht).isSymbol

/-- The parameters of a well-named function are among its identifiers. -/
theorem param_mem_identifiers (h : f.WellNamed metadata frequency) (ht : t ∈ f.declaredParams) :
    t ∈ f.identifiers := by
  obtain ⟨n, hn, rfl⟩ := List.mem_map.mp ht
  obtain ⟨p, hp, rfl⟩ := List.mem_map.mp hn
  have hscope := last_mem_scope (h.unquoted.mem_scope (mem_texts_of_param hp))
  exact mem_identifiers_of_isSymbol (stripAnnotations_mem_scope hscope) (h.params _ ht).isSymbol

/-- The labels of a function are among its identifiers. -/
theorem label_mem_identifiers (ht : t ∈ f.labelNames) : t ∈ f.identifiers :=
  List.mem_append_right _ ht

/-- The variables of a well-named function are among its identifiers. -/
theorem var_mem_identifiers (h : f.WellNamed metadata frequency) (ht : t ∈ f.definedVars) :
    t ∈ f.identifiers :=
  mem_identifiers_of_isSymbol (h.unquoted.definedVars_mem_scope t ht) (h.vars t ht).isSymbol

/-- What is found in the texts of a well-named function is among its identifiers. -/
theorem token_mem_identifiers (h : f.WellNamed metadata frequency) {s : String}
    (hs : s ∈ f.scannedTexts) (ht : t ∈ Token.symbols (Token.stripAnnotations s)) :
    t ∈ f.identifiers :=
  List.mem_append_left _
    ((stripAnnotations_mem_scope (h.unquoted.scannedTexts_mem_scope s hs)).2 t ht)

/-- No name of canonical form is a common callee. -/
theorem not_isCommonCall (h : f.WellNamed metadata frequency) (hc : IsCanonical t) :
    frequency.isCommonCall t = false := by
  rw [FrequencyTables.isCommonCall, hc.not_startsWith (by decide), Bool.false_or,
    ← Bool.not_eq_true, List.contains_iff_mem]
  exact fun hmem => h.fresh_calls t hmem hc

/-- Where nothing is known about a unit, a function with different local names is well-named if none
of its identifiers begins like a canonical one. -/
theorem of_apart
    (h : f.Unquoted ∧ (∀ t ∈ f.declaredParams ++ f.labelNames ++ f.definedVars, LocalName {} t) ∧
      (∀ t ∈ f.declaredParams, t ∉ f.labelNames ∧ t ∉ f.definedVars) ∧
      (∀ t ∈ f.labelNames, t ∉ f.definedVars) ∧
      (∀ i ∈ f.instructions, ∀ t ∈ i.targets, Token.normalizeLabel t ∈ f.labelNames) ∧
      ∀ t ∈ f.identifiers, ∀ stem ∈ ownStems, Token.startsWith t stem = false) :
    f.WellNamed {} {} := by
  obtain ⟨hq, hnames, hparams, hlabels, htargets, hfresh⟩ := h
  exact
    { unquoted := hq
      params := fun t ht => hnames t (by simp [ht])
      labels := fun t ht => hnames t (by simp [ht])
      vars := fun t ht => hnames t (by simp [ht])
      params_labels := fun t ht => (hparams t ht).1
      params_vars := fun t ht => (hparams t ht).2
      labels_vars := hlabels
      targets := htargets
      fresh := fun t ht => not_isCanonical (hfresh t ht)
      fresh_metadata := fun t _ => by
        simp [Metadata.hasStruct, Metadata.hasGlobal, Metadata.global?]
      fresh_calls := by simp }

end Function.WellNamed

end InstrGraph
