import InstrGraph.Proofs.Canonical.Passes

/-!
# One identifier in the passes

A pass leaves an identifier alone, or writes the name that the table behind it has for it. The names
of each table have a stem of their own, so it is known of a name which pass has written it, and a
name that is of no canonical form (`Uncanonical`) has been written by none.

* `Pass.image_cases`, `Pass.images_cases`: what becomes of an identifier in one pass and in several.
* `Pass.image_inj`, `Pass.images_inj`: no pass makes two such names one.
* `PassContext.canonicalSymbol_eq_iff_bareName`: two identifiers come to be one if, and only if,
  they are one without the suffixes of types (`Metadata.bareName`).
-/

namespace InstrGraph

/-! ### Names and tables -/

/-- The name is of no canonical form. -/
def Uncanonical (t : String) : Prop := ∀ stem ∈ stems, ¬ IsNumbered stem t

/-- A name that begins like no canonical one is of no canonical form. -/
theorem uncanonical_of_startsWith {t : String}
    (h : ∀ stem ∈ stems, Token.startsWith t stem = false) : Uncanonical t :=
  fun stem hstem => not_isNumbered (h stem hstem)

/-- What is left of an identifier where it stands for an aggregate type: a local name that looks
like such a type, or is known as one, loses its numeric suffix. -/
def Metadata.bareName (metadata : Metadata) (t : String) : String :=
  if Token.isLocal t &&
      (Token.isStructLike (Token.stripSuffix t) || metadata.hasStruct (Token.stripSuffix t)) then
    Token.stripSuffix t
  else t

/-- The name that the table behind a pass has for an identifier. Of the two tables behind the
renaming of locals, the one of the parameters comes first. -/
def SymbolTables.lookup (s : SymbolTables) : Pass → String → Option String
  | .globals, t => s.globals.bind (·.get? t)
  | .structs, t => s.structs.get? t
  | .calls, t => s.calls.get? t
  | .labels, t => s.labels.get? t
  | .locals, t =>
    match s.params.get? t with
    | some n => some n
    | none => s.vars.get? t
  | .stripAnnotations, _ | .structSuffixes, _ | .constants, _ => none

/-- A local name that is no label is known as a parameter or as a variable. -/
theorem SymbolTables.lookup_locals {s : SymbolTables} {t c : String}
    (h : s.lookup .locals t = some c) : s.params.get? t = some c ∨ s.vars.get? t = some c := by
  simp only [lookup] at h
  split at h
  · rename_i n hn
    exact Or.inl (hn.trans h)
  · exact Or.inr h

namespace Metadata

/-- A name without suffix is the name itself or the name cut. -/
theorem bareName_cases (metadata : Metadata) (t : String) :
    metadata.bareName t = t ∨ metadata.bareName t = Token.stripSuffix t := by
  rw [bareName]
  split
  · exact Or.inr rfl
  · exact Or.inl rfl

/-- A name that changes becomes that of a type. -/
theorem bareName_eq_or (metadata : Metadata) (t : String) :
    metadata.bareName t = t ∨ Token.isStructLike (metadata.bareName t) = true ∨
      metadata.hasStruct (metadata.bareName t) = true := by
  rw [bareName]
  split
  · rename_i hif
    exact Or.inr (by simpa using (Bool.and_eq_true_iff.mp hif).2)
  · exact Or.inl rfl

/-- The sigil stays. -/
theorem head?_bareName (metadata : Metadata) {t : String} (ht : Token.isSymbol t = true) :
    (metadata.bareName t).toList.head? = t.toList.head? := by
  rcases metadata.bareName_cases t with heq | heq
  · rw [heq]
  · rw [heq, Token.head?_stripSuffix ht]

/-- A name without suffix is an identifier, too. -/
theorem isSymbol_bareName (metadata : Metadata) {t : String} (ht : Token.isSymbol t = true) :
    Token.isSymbol (metadata.bareName t) = true := by
  rcases metadata.bareName_cases t with heq | heq
  · rwa [heq]
  · rw [heq]
    exact Token.isSymbol_stripSuffix ht

end Metadata

namespace Pass

/-! ### One pass -/

/-- The stems of the names that a pass writes. -/
def stemsOf : Pass → List String
  | globals => ["@global_var_"]
  | structs => ["%struct_"]
  | calls => ["@function_"]
  | labels => ["%label_", "%block_"]
  | locals => ["%arg", "%var"]
  | stripAnnotations | structSuffixes | constants => []

variable {cctx : CollectContext} {ctx : PassContext} {p q : Pass} {ps : List Pass}
  {t u c : String}

/-- The stem of a pass is one of all stems. -/
theorem mem_stems_of_mem_stemsOf (p : Pass) : ∀ stem ∈ p.stemsOf, stem ∈ stems := by
  cases p <;> decide

/-- No two passes write names with one stem. -/
theorem stemsApart_of_ne (h : p ≠ q) : ∀ s ∈ p.stemsOf, ∀ s' ∈ q.stemsOf, StemsApart s s' := by
  cases p <;> cases q <;> first | exact absurd rfl h | decide

/-- The names behind a pass have a stem of their own. -/
theorem isNumbered_of_lookup {s : SymbolTables} (hs : s.Sound) (h : s.lookup p t = some c) :
    ∃ stem ∈ p.stemsOf, IsNumbered stem c := by
  cases p with
  | stripAnnotations | constants | structSuffixes => simp [SymbolTables.lookup] at h
  | globals =>
    obtain ⟨table, htable, hc⟩ := Option.bind_eq_some_iff.mp h
    obtain ⟨hn, hstem⟩ := hs.globals table htable
    exact ⟨_, by simp [stemsOf], hstem ▸ hn.isNumbered hc⟩
  | structs => exact ⟨_, by simp [stemsOf], hs.structs.2 ▸ hs.structs.1.isNumbered h⟩
  | calls => exact ⟨_, by simp [stemsOf], hs.calls.2 ▸ hs.calls.1.isNumbered h⟩
  | labels =>
    have hc := hs.labels.1.isNumbered h
    rcases hs.labels.2 with hstem | hstem <;> rw [hstem] at hc
    · exact ⟨_, by simp [stemsOf], hc⟩
    · exact ⟨_, by simp [stemsOf], hc⟩
  | locals =>
    rcases SymbolTables.lookup_locals h with hc | hc
    · exact ⟨_, by simp [stemsOf], hs.params.2 ▸ hs.params.1.isNumbered hc⟩
    · exact ⟨_, by simp [stemsOf], hs.vars.2 ▸ hs.vars.1.isNumbered hc⟩

/-- The names behind two passes are different. -/
theorem ne_of_lookup {s : SymbolTables} (hs : s.Sound) (hpq : p ≠ q) {d : String}
    (h : s.lookup p t = some c) (h' : s.lookup q u = some d) : c ≠ d := by
  obtain ⟨stem, hstem, hn⟩ := isNumbered_of_lookup hs h
  obtain ⟨stem', hstem', hn'⟩ := isNumbered_of_lookup hs h'
  exact hn.ne (stemsApart_of_ne hpq stem hstem stem' hstem') hn'

/-- Different identifiers have different names behind a pass. -/
theorem lookup_inj {s : SymbolTables} (hs : s.Sound) (ht : s.lookup p t = some c)
    (hu : s.lookup p u = some c) : t = u := by
  cases p with
  | stripAnnotations | constants | structSuffixes => simp [SymbolTables.lookup] at ht
  | globals =>
    obtain ⟨table, htable, hc⟩ := Option.bind_eq_some_iff.mp ht
    obtain ⟨table', htable', hc'⟩ := Option.bind_eq_some_iff.mp hu
    obtain rfl : table = table' := Option.some.inj (htable.symm.trans htable')
    exact (hs.globals table htable).1.get?_inj hc hc'
  | structs => exact hs.structs.1.get?_inj ht hu
  | calls => exact hs.calls.1.get?_inj ht hu
  | labels => exact hs.labels.1.get?_inj ht hu
  | locals =>
    have hapart {t u c c' : String} (hp : s.params.get? t = some c) (hv : s.vars.get? u = some c') :
        c ≠ c' := by
      have harg := hs.params.1.isNumbered hp
      have hvar := hs.vars.1.isNumbered hv
      rw [hs.params.2] at harg
      rw [hs.vars.2] at hvar
      exact harg.ne (by decide) hvar
    rcases SymbolTables.lookup_locals ht with ht | ht <;>
      rcases SymbolTables.lookup_locals hu with hu | hu
    · exact hs.params.1.get?_inj ht hu
    · exact absurd rfl (hapart ht hu)
    · exact absurd rfl (hapart hu ht)
    · exact hs.vars.1.get?_inj ht hu

/-- But for the pass that strips suffixes, what a pass writes stands in the table behind it. -/
theorem lookup_of_rename? (hp : p ≠ .structSuffixes) (h : p.rename? ctx t = some c) :
    ctx.symbols.lookup p t = some c := by
  cases p with
  | stripAnnotations | constants => simp [rename?] at h
  | structSuffixes => exact absurd rfl hp
  | globals =>
    simp only [rename?] at h
    split at h
    · exact h
    · simp at h
  | structs => exact Option.eq_some_of_filter_eq_some h
  | calls => exact Option.eq_some_of_filter_eq_some h
  | labels => exact h
  | locals => exact h

/-- A pass writes what stands in the table behind it, unless that is the identifier itself. -/
theorem rename?_of_lookup (h : Collected cctx ctx.symbols) (hm : cctx.metadata = ctx.metadata)
    (hc : ctx.symbols.lookup p t = some c) (hne : c ≠ t) : p.rename? ctx t = some c := by
  cases p with
  | stripAnnotations | constants | structSuffixes => simp [SymbolTables.lookup] at hc
  | globals =>
    obtain ⟨table, htable, hget⟩ := Option.bind_eq_some_iff.mp hc
    obtain ⟨hglobal, hknown⟩ := h.globals table htable t (RenameTable.mem_names_iff.mpr ⟨c, hget⟩)
    rw [hm] at hknown
    simp only [rename?, hglobal, hknown, Bool.and_self, if_true]
    exact hc
  | structs =>
    have hc : ctx.symbols.structs.get? t = some c := hc
    simp [rename?, hc, Option.filter, hne]
  | calls =>
    have hc : ctx.symbols.calls.get? t = some c := hc
    simp [rename?, hc, Option.filter, hne]
  | labels => exact hc
  | locals => exact hc

/-- Where it meets an identifier, a pass writes the name that the table behind it has for it. -/
theorem image_of_lookup (h : Collected cctx ctx.symbols) (hm : cctx.metadata = ctx.metadata)
    (hc : ctx.symbols.lookup p t = some c) : p.image ctx t = c := by
  have hp : p ≠ .structSuffixes := by
    rintro rfl
    simp [SymbolTables.lookup] at hc
  rw [image]
  cases hr : p.rename? ctx t with
  | some x => exact Option.some.inj ((lookup_of_rename? hp hr).symm.trans hc)
  | none =>
    by_contra hne
    rw [rename?_of_lookup h hm hc (Ne.symm hne)] at hr
    simp at hr

/-- A pass leaves a name alone without a stem of its own if, and only if, the table behind it does
not know the name. -/
theorem rename?_eq_none_iff (h : Collected cctx ctx.symbols) (hm : cctx.metadata = ctx.metadata)
    (hp : p ≠ .structSuffixes) (ht : ∀ stem ∈ p.stemsOf, ¬ IsNumbered stem t) :
    p.rename? ctx t = none ↔ ctx.symbols.lookup p t = none := by
  constructor
  · intro hnone
    cases hc : ctx.symbols.lookup p t with
    | none => rfl
    | some c =>
      obtain ⟨stem, hstem, hn⟩ := isNumbered_of_lookup h.sound hc
      have hne : c ≠ t := by
        rintro rfl
        exact ht stem hstem hn
      rw [rename?_of_lookup h hm hc hne] at hnone
      simp at hnone
  · intro hnone
    cases hr : p.rename? ctx t with
    | none => rfl
    | some c =>
      rw [lookup_of_rename? hp hr] at hnone
      simp at hnone

/-- The first pass leaves of a name what stands for a type. -/
theorem structSuffixes_image_eq (ctx : PassContext) (t : String) :
    structSuffixes.image ctx t = ctx.metadata.bareName t := by
  simp only [image, rename?, Metadata.bareName]
  by_cases htype : (Token.isLocal t && (Token.isStructLike (Token.stripSuffix t) ||
      ctx.metadata.hasStruct (Token.stripSuffix t))) = true
  · by_cases heq : Token.stripSuffix t = t <;> simp [htype, heq]
  · simp [htype]

/-- The first pass leaves a name alone that loses no suffix. -/
theorem structSuffixes_rename?_of_bareName (h : ctx.metadata.bareName t = t) :
    structSuffixes.rename? ctx t = none := by
  cases hr : structSuffixes.rename? ctx t with
  | none => rfl
  | some c =>
    have himage : structSuffixes.image ctx t = c := by simp [image, hr]
    rw [structSuffixes_image_eq, h] at himage
    simp only [rename?] at hr
    split at hr
    · rename_i hif
      simp only [Bool.and_eq_true, decide_eq_true_eq] at hif
      exact absurd ((Option.some.inj hr).trans himage.symm) hif.2
    · simp at hr

/-- Every pass but the one that strips suffixes writes names with a stem of its own. -/
theorem isNumbered_of_rename? (hs : ctx.symbols.Sound) (hp : p ≠ .structSuffixes)
    (h : p.rename? ctx t = some c) : ∃ stem ∈ p.stemsOf, IsNumbered stem c :=
  isNumbered_of_lookup hs (lookup_of_rename? hp h)

/-- A pass leaves a name alone, or writes one with a stem of its own. -/
theorem image_cases (hs : ctx.symbols.Sound) (hp : p ≠ .structSuffixes) (t : String) :
    p.rename? ctx t = none ∧ p.image ctx t = t ∨
      p.rename? ctx t ≠ none ∧ ∃ stem ∈ p.stemsOf, IsNumbered stem (p.image ctx t) := by
  cases hr : p.rename? ctx t with
  | none => exact Or.inl ⟨rfl, image_eq_self hr⟩
  | some c =>
    have himage : p.image ctx t = c := by simp [image, hr]
    rw [himage]
    exact Or.inr ⟨by simp, isNumbered_of_rename? hs hp hr⟩

/-- Different names stay different in a pass, unless it renames one and leaves the other alone,
which has a stem of its own. -/
theorem image_inj (hs : ctx.symbols.Sound) (hp : p ≠ .structSuffixes)
    (ht : p.rename? ctx t = none → p.rename? ctx u ≠ none →
      ∀ stem ∈ p.stemsOf, ¬ IsNumbered stem t)
    (hu : p.rename? ctx u = none → p.rename? ctx t ≠ none →
      ∀ stem ∈ p.stemsOf, ¬ IsNumbered stem u)
    (h : p.image ctx t = p.image ctx u) : t = u := by
  rcases image_cases hs hp t with ⟨hnone, heq⟩ | ⟨hsome, stem, hstem, hn⟩ <;>
    rcases image_cases hs hp u with ⟨hnone', heq'⟩ | ⟨hsome', stem', hstem', hn'⟩
  · rw [← heq, ← heq', h]
  · exact absurd (heq ▸ h ▸ hn') (ht hnone hsome' stem' hstem')
  · exact absurd (heq' ▸ h ▸ hn) (hu hnone' hsome stem hstem)
  · obtain ⟨c, hc⟩ := Option.ne_none_iff_exists'.mp hsome
    obtain ⟨c', hc'⟩ := Option.ne_none_iff_exists'.mp hsome'
    have himage : c = c' := by simpa [image, hc, hc'] using h
    exact lookup_inj hs (lookup_of_rename? hp hc) (himage ▸ lookup_of_rename? hp hc')

/-! ### Several passes -/

/-- Several passes leave a name alone, or one of them has written what comes out. -/
theorem images_cases (hs : ctx.symbols.Sound) (ps : List Pass)
    (hps : ∀ p ∈ ps, p ≠ .structSuffixes) (t : String) :
    (∀ p ∈ ps, p.rename? ctx t = none) ∧ images ctx ps t = t ∨
      ∃ p ∈ ps, ∃ stem ∈ p.stemsOf, IsNumbered stem (images ctx ps t) := by
  induction ps generalizing t with
  | nil => exact Or.inl ⟨by simp, rfl⟩
  | cons p ps ih =>
    rw [images_cons]
    rcases ih (fun q hq => hps q (by simp [hq])) (p.image ctx t) with
      ⟨hnone, heq⟩ | ⟨q, hq, stem, hstem, hn⟩
    · rcases image_cases hs (hps p (by simp)) t with ⟨hself, himage⟩ | ⟨-, stem, hstem, hn⟩
      · rw [himage] at hnone heq ⊢
        exact Or.inl ⟨List.forall_mem_cons.mpr ⟨hself, hnone⟩, heq⟩
      · exact Or.inr ⟨p, by simp, stem, hstem, heq.symm ▸ hn⟩
    · exact Or.inr ⟨q, by simp [hq], stem, hstem, hn⟩

/-- Names without the stem of any of several passes stay different in them. -/
theorem images_inj (hs : ctx.symbols.Sound) (hnodup : ps.Nodup)
    (hps : ∀ p ∈ ps, p ≠ .structSuffixes)
    (ht : ∀ p ∈ ps, ∀ stem ∈ p.stemsOf, ¬ IsNumbered stem t)
    (hu : ∀ p ∈ ps, ∀ stem ∈ p.stemsOf, ¬ IsNumbered stem u)
    (h : images ctx ps t = images ctx ps u) : t = u := by
  induction ps generalizing t u with
  | nil => exact h
  | cons p ps ih =>
    obtain ⟨hp, hps⟩ := List.forall_mem_cons.mp hps
    obtain ⟨ht, hts⟩ := List.forall_mem_cons.mp ht
    obtain ⟨hu, hus⟩ := List.forall_mem_cons.mp hu
    -- what the first of them writes has its own stem, and none of the others
    have hothers {v : String} (hv : ∀ q ∈ ps, ∀ stem ∈ q.stemsOf, ¬ IsNumbered stem v) :
        ∀ q ∈ ps, ∀ stem ∈ q.stemsOf, ¬ IsNumbered stem (p.image ctx v) := by
      intro q hq stem hstem hn
      rcases image_cases hs hp v with ⟨-, heq⟩ | ⟨-, stem', hstem', hn'⟩
      · exact hv q hq stem hstem (heq ▸ hn)
      · have hne : q ≠ p := by
          rintro rfl
          exact (List.nodup_cons.mp hnodup).1 hq
        exact hn.ne (stemsApart_of_ne hne stem hstem stem' hstem') hn' rfl
    have himage : p.image ctx t = p.image ctx u :=
      ih (List.nodup_cons.mp hnodup).2 hps (hothers hts) (hothers hus) h
    exact image_inj hs hp (fun _ _ => ht) (fun _ _ => hu) himage

end Pass

/-! ### All passes -/

namespace PassContext

variable {ctx : PassContext} {t u : String}

/-- The passes over identifiers strip the suffixes of types first. -/
theorem canonicalSymbol_eq_images (ctx : PassContext) (t : String) :
    ctx.canonicalSymbol t =
      Pass.images ctx [.globals, .structs, .calls, .labels, .locals] (ctx.metadata.bareName t) := by
  rw [← Pass.structSuffixes_image_eq]
  rfl

/-- Two identifiers that are of no canonical form without the suffixes of types come to be one if,
and only if, they are one without these suffixes. -/
theorem canonicalSymbol_eq_iff_bareName (hs : ctx.symbols.Sound)
    (ht : Uncanonical (ctx.metadata.bareName t)) (hu : Uncanonical (ctx.metadata.bareName u)) :
    ctx.canonicalSymbol t = ctx.canonicalSymbol u ↔
      ctx.metadata.bareName t = ctx.metadata.bareName u := by
  rw [canonicalSymbol_eq_images, canonicalSymbol_eq_images]
  refine ⟨fun h => ?_, fun h => by rw [h]⟩
  exact Pass.images_inj hs (by decide) (by decide)
    (fun p _ stem hstem => ht stem (p.mem_stems_of_mem_stemsOf stem hstem))
    (fun p _ stem hstem => hu stem (p.mem_stems_of_mem_stemsOf stem hstem)) h

end PassContext

end InstrGraph
