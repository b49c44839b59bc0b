import InstrGraph.Proofs.Canonical.Agreement
import InstrGraph.Proofs.Fixpoint.Names

/-!
# What becomes of the names of a well-named function

An identifier of a well-named function becomes one of five things (`PassContext.Image`): the
canonical name that its table has for it, itself if it is another global name, the canonical name of
an aggregate type, its name without suffix, or itself if it is another local name. Case by case this
gives what a second run depends on: the sigil stays, no suffix is left to strip, and no identifier
becomes what a parameter, a label, a variable or a global name becomes, unless it is the same one
(`Tabled.eq_of_canonicalSymbol_eq`).
-/

namespace InstrGraph

open Pass

/-- The tables of a well-named function, with globals left alone. Parameters, labels, variables and
callees have names of the function. -/
structure PassContext.Tabled (f : Function) (ctx : PassContext) : Prop where
  params : ∀ n ∈ ctx.symbols.params.names, n ∈ f.declaredParams
  labels : ∀ n ∈ ctx.symbols.labels.names, n ∈ f.labelNames
  calls : ∀ n ∈ ctx.symbols.calls.names, n ∈ f.identifiers
  wellNamed : f.WellNamed ctx.metadata ctx.frequency
  globals : ctx.symbols.globals = none
  collected : Collected (f.collectContext ctx.metadata ctx.frequency) ctx.symbols
  vars : ∀ n ∈ ctx.symbols.vars.names, n ∈ f.definedVars
  knows_labels : ∀ n ∈ f.labelNames, ctx.symbols.Knows n
  knows_types : ∀ id t, .token id t ∈ f.sightings → Token.isLocal t = true →
    ctx.symbols.KnowsType ctx.metadata t

namespace PassContext

/-- What becomes of an identifier. -/
inductive Image (ctx : PassContext) (t : String) : String → Prop
  /-- Its table has a name for it. -/
  | tabled {p : Pass} {c : String} (hc : ctx.symbols.canonical? t = some (p, c)) : Image ctx t c
  /-- A global name that is not called, or commonly called. -/
  | global (hc : ctx.symbols.canonical? t = none) (hg : Token.isGlobal t = true) : Image ctx t t
  /-- A type that is known. -/
  | numbered {c : String} (hl : Token.isLocal t = true)
    (hknown : ctx.metadata.hasStruct t = true ∨
      ctx.metadata.hasStruct (Token.stripSuffix t) = true)
    (hc : IsNumbered "%struct_" c) : Image ctx t c
  /-- A type that has been seen under a suffix only, or that is not known. -/
  | base (hl : Token.isLocal t = true)
    (hlike : (Token.isStructLike (Token.stripSuffix t) ||
      ctx.metadata.hasStruct (Token.stripSuffix t)) = true)
    (hnot : Token.stripSuffix t ∉ ctx.symbols.structs.names) : Image ctx t (Token.stripSuffix t)
  /-- Another local name. -/
  | same (hc : ctx.symbols.canonical? t = none) (hl : Token.isLocal t = true)
    (hsuffix : structSuffixes.rename? ctx t = none) (hnot : t ∉ ctx.symbols.structs.names) :
    Image ctx t t

namespace Tabled

variable {f : Function} {ctx ctx' : PassContext} {p q : Pass} {t u c y : String}

/-! ### Tables -/

/-- The names in the tables of parameters, labels, variables and callees are identifiers of the
function. -/
theorem mem_identifiers_of_names (h : ctx.Tabled f) (hn : t ∈ ctx.symbols.params.names ∨
    t ∈ ctx.symbols.labels.names ∨ t ∈ ctx.symbols.vars.names ∨ t ∈ ctx.symbols.calls.names) :
    t ∈ f.identifiers := by
  rcases hn with hn | hn | hn | hn
  · exact h.wellNamed.param_mem_identifiers (h.params t hn)
  · exact List.mem_append_right _ (h.labels t hn)
  · exact h.wellNamed.var_mem_identifiers (h.vars t hn)
  · exact h.calls t hn

/-- A local name that is known is that of no aggregate type. -/
theorem localName_of_knows (h : ctx.Tabled f) (hn : ctx.symbols.Knows t) :
    LocalName ctx.metadata t := by
  rcases hn with hn | hn | hn
  · exact h.wellNamed.params t (h.params t hn)
  · exact h.wellNamed.labels t (h.labels t hn)
  · exact h.wellNamed.vars t (h.vars t hn)

/-- A table knows the identifiers that it has a name for. -/
theorem mem_names_of_lookup (h : ctx.Tabled f) (hc : ctx.symbols.lookup p t = some c) :
    p = .labels ∧ t ∈ ctx.symbols.labels.names ∨
      p = .locals ∧ (t ∈ ctx.symbols.params.names ∨ t ∈ ctx.symbols.vars.names) ∨
      p = .calls ∧ t ∈ ctx.symbols.calls.names ∨
      p = .structs ∧ t ∈ ctx.symbols.structs.names := by
  have hmem {table : RenameTable} (hc : table.get? t = some c) : t ∈ table.names :=
    RenameTable.mem_names_iff.mpr ⟨c, hc⟩
  cases p with
  | stripAnnotations | constants | structSuffixes => simp [SymbolTables.lookup] at hc
  | globals => simp [SymbolTables.lookup, h.globals] at hc
  | structs => exact Or.inr (Or.inr (Or.inr ⟨rfl, hmem hc⟩))
  | calls => exact Or.inr (Or.inr (Or.inl ⟨rfl, hmem hc⟩))
  | labels => exact Or.inl ⟨rfl, hmem hc⟩
  | locals =>
    exact Or.inr (Or.inl ⟨rfl, (SymbolTables.lookup_locals hc).imp hmem hmem⟩)

/-- An identifier that a table names is a local name or a callee. -/
theorem names_of_canonical? (h : ctx.Tabled f) (hc : ctx.symbols.canonical? t = some (p, c)) :
    p = .labels ∧ t ∈ ctx.symbols.labels.names ∨
      p = .locals ∧ (t ∈ ctx.symbols.params.names ∨ t ∈ ctx.symbols.vars.names) ∨
      p = .calls ∧ t ∈ ctx.symbols.calls.names := by
  obtain ⟨hp, hlookup⟩ := lookup_of_canonical? hc
  rcases h.mem_names_of_lookup hlookup with hn | hn | hn | ⟨rfl, -⟩
  · exact Or.inl hn
  · exact Or.inr (Or.inl hn)
  · exact Or.inr (Or.inr hn)
  · simp at hp

/-- The canonical name of a local or a callee is canonical, and none of an aggregate type. -/
theorem isCanonical_of_canonical? (h : ctx.Tabled f)
    (hc : ctx.symbols.canonical? t = some (p, c)) :
    IsCanonical c ∧ ¬ IsNumbered "%struct_" c := by
  obtain ⟨stem, hstem, hn⟩ := isNumbered_of_lookup h.collected.sound (lookup_of_canonical? hc).2
  have hown : ∀ p ∈ [Pass.labels, .locals, .calls], ∀ stem ∈ p.stemsOf, stem ∈ ownStems := by
    decide
  have hapart : ∀ p ∈ [Pass.labels, .locals, .calls], ∀ stem ∈ p.stemsOf,
      StemsApart stem "%struct_" := by
    decide
  have hp : p ∈ [Pass.labels, .locals, .calls] := by
    rcases h.names_of_canonical? hc with ⟨rfl, -⟩ | ⟨rfl, -⟩ | ⟨rfl, -⟩ <;> simp
  exact ⟨⟨stem, hown p hp stem hstem, hn⟩, fun hs => hn.ne (hapart p hp stem hstem) hs rfl⟩

/-- The numbered names of aggregate types are canonical. -/
theorem isCanonical_of_isNumbered (hc : IsNumbered "%struct_" c) : IsCanonical c :=
  ⟨_, by simp [ownStems], hc⟩

/-- A name has no canonical form if it is in none of the four tables. -/
theorem canonical?_eq_none_iff : ctx.symbols.canonical? t = none ↔
    ∀ p ∈ [Pass.labels, .locals, .calls, .globals], ctx.symbols.lookup p t = none := by
  simp only [SymbolTables.canonical?, List.findSome?_eq_none_iff, Option.map_eq_none_iff]

/-- A known local name and a renamed callee stand in a table. -/
theorem exists_canonical? (hn : ctx.symbols.Knows t ∨ t ∈ ctx.symbols.calls.names) :
    ∃ p c, ctx.symbols.canonical? t = some (p, c) := by
  cases hc : ctx.symbols.canonical? t with
  | some pc => exact ⟨pc.1, pc.2, rfl⟩
  | none =>
    rw [canonical?_eq_none_iff] at hc
    have hlabels : ctx.symbols.labels.get? t = none := hc .labels (by simp)
    have hlocals := hc .locals (by simp)
    have hcalls : ctx.symbols.calls.get? t = none := hc .calls (by simp)
    simp only [SymbolTables.lookup] at hlocals
    split at hlocals
    · simp at hlocals
    · rename_i hparams
      rw [RenameTable.get?_eq_none_iff] at hlabels hlocals hcalls hparams
      simp [SymbolTables.Knows, hlabels, hlocals, hcalls, hparams] at hn

/-! ### The passes -/

/-- No pass makes anything of a name that none of them knows. -/
theorem rename?_of_isCanonical (h : ctx.Tabled f) (hc : IsCanonical c) (hp : p ≠ .structSuffixes) :
    p.rename? ctx c = none := by
  cases hr : p.rename? ctx c with
  | none => rfl
  | some d =>
    have hfresh (hn : c ∈ f.identifiers) : False := h.wellNamed.fresh c hn hc
    rcases h.mem_names_of_lookup (lookup_of_rename? hp hr) with
      ⟨-, hn⟩ | ⟨-, hn⟩ | ⟨-, hn⟩ | ⟨-, hn⟩
    · exact (hfresh (h.mem_identifiers_of_names (Or.inr (Or.inl hn)))).elim
    · exact (hfresh (h.mem_identifiers_of_names (hn.imp_right fun hn => Or.inr (Or.inl hn)))).elim
    · exact (hfresh (h.mem_identifiers_of_names (Or.inr (Or.inr (Or.inr hn))))).elim
    · have := (h.collected.structs c hn).2
      rw [show CollectContext.metadata _ = ctx.metadata from rfl,
        (h.wellNamed.fresh_metadata c hc).1] at this
      exact absurd this (by simp)

/-- The pass over suffixes leaves local names alone that are none of aggregate types. -/
theorem structSuffixes_of_localName (ht : LocalName ctx.metadata t) :
    structSuffixes.rename? ctx t = none := by
  simp [rename?, ht.notStructLike_base, ht.noStructBase]

/-- The pass over suffixes leaves global names alone. -/
theorem structSuffixes_of_isGlobal (ht : Token.isGlobal t = true) :
    structSuffixes.rename? ctx t = none := by
  have hl : Token.isLocal t = false := by
    cases hl : Token.isLocal t with
    | false => rfl
    | true =>
      rw [Token.isGlobal_of_isLocal hl] at ht
      exact absurd ht (by simp)
  simp [rename?, hl]

/-- The pass over globals leaves all names alone. -/
theorem globals_rename? (h : ctx.Tabled f) (t : String) : Pass.globals.rename? ctx t = none := by
  simp [rename?, h.globals]

/-- The pass over aggregate types leaves alone what is not in its table. -/
theorem structs_rename?_of_not_mem (hn : t ∉ ctx.symbols.structs.names) :
    structs.rename? ctx t = none := by
  simp [rename?, RenameTable.get?_eq_none_iff.mpr hn]

/-- The pass over calls leaves local names alone. -/
theorem calls_rename?_of_isLocal (h : ctx.Tabled f) (hl : Token.isLocal t = true) :
    Pass.calls.rename? ctx t = none := by
  have hn : t ∉ ctx.symbols.calls.names := by
    intro hn
    have := (h.collected.calls t hn).1
    rw [Token.isGlobal_of_isLocal hl] at this
    exact absurd this (by simp)
  simp [rename?, RenameTable.get?_eq_none_iff.mpr hn]

/-- No global name is in the table of aggregate types. -/
theorem not_mem_structs_of_isGlobal (h : ctx.Tabled f) (ht : Token.isGlobal t = true) :
    t ∉ ctx.symbols.structs.names := by
  intro hn
  rw [Token.isGlobal_of_isLocal (h.collected.structs t hn).1] at ht
  exact absurd ht (by simp)

/-- A global name means nothing to the passes before the callees. -/
theorem rename?_of_isGlobal (h : ctx.Tabled f) (ht : Token.isGlobal t = true) :
    ∀ q ∈ [structSuffixes, .globals, structs], q.rename? ctx t = none := by
  simp only [List.forall_mem_cons, List.not_mem_nil, false_implies, implies_true, and_true]
  exact ⟨structSuffixes_of_isGlobal ht, h.globals_rename? t,
    structs_rename?_of_not_mem (h.not_mem_structs_of_isGlobal ht)⟩

/-- No local name that is none of an aggregate type is in the table of them. -/
theorem not_mem_structs_of_localName (h : ctx.Tabled f) (ht : LocalName ctx.metadata t) :
    t ∉ ctx.symbols.structs.names := by
  intro hn
  have : ctx.metadata.hasStruct t = true := (h.collected.structs t hn).2
  rw [ht.noStruct] at this
  exact absurd this (by simp)

/-- An identifier gets the name that its table has for it. -/
theorem canonicalSymbol_of_canonical? (h : ctx.Tabled f)
    (hc : ctx.symbols.canonical? t = some (p, c)) : ctx.canonicalSymbol t = c := by
  have hcanonical := (h.isCanonical_of_canonical? hc).1
  refine (canonicalSymbol_eq_iff h.collected rfl hc).mpr ⟨fun q hq => ?_, Or.inl ?_⟩
  · exact h.rename?_of_isCanonical hcanonical (not_mem_of_mem_after hq).2
  · refine images_eq_self fun q hq => ?_
    -- a local name means nothing to the passes before, nor does a callee
    have hearly (ht : LocalName ctx.metadata t) :
        ∀ q ∈ [structSuffixes, .globals, structs, .calls], q.rename? ctx t = none := by
      simp only [List.forall_mem_cons, List.not_mem_nil, false_implies, implies_true, and_true]
      exact ⟨structSuffixes_of_localName ht, h.globals_rename? t,
        structs_rename?_of_not_mem (h.not_mem_structs_of_localName ht),
        h.calls_rename?_of_isLocal ht.isLocal⟩
    rcases h.names_of_canonical? hc with ⟨rfl, hn⟩ | ⟨rfl, hn⟩ | ⟨rfl, hn⟩
    · exact hearly (h.localName_of_knows (Or.inr (Or.inl hn))) q hq
    · have hnot : t ∉ f.labelNames := by
        rcases hn with hn | hn
        · exact h.wellNamed.params_labels t (h.params t hn)
        · exact fun hl => h.wellNamed.labels_vars t hl (h.vars t hn)
      rcases List.mem_append.mp (show q ∈ [structSuffixes, .globals, structs, .calls] ++ [.labels]
        from hq) with hq | hq
      · exact hearly (h.localName_of_knows (hn.imp_right Or.inr)) q hq
      · rw [List.mem_singleton.mp hq]
        exact RenameTable.get?_eq_none_iff.mpr fun hl => hnot (h.labels t hl)
    · exact h.rename?_of_isGlobal (h.collected.calls t hn).1 q hq

/-- The last passes leave alone what no table has a name for. -/
theorem rename?_of_lookup_eq_none (hp : p ∈ [Pass.calls, .labels, .locals])
    (ht : ctx.symbols.lookup p t = none) : p.rename? ctx t = none := by
  simp only [List.mem_cons, List.not_mem_nil, or_false] at hp
  rcases hp with rfl | rfl | rfl
  · have ht : ctx.symbols.calls.get? t = none := ht
    simp [rename?, ht]
  · exact ht
  · exact ht

/-- What is written like an aggregate type is in no table but that of these types. -/
theorem lookup_eq_none_of_type (h : ctx.Tabled f) (hl : Token.isLocal t = true)
    (hlike : (Token.isStructLike t || ctx.metadata.hasStruct t) = true) :
    ∀ p ∈ [Pass.calls, .labels, .locals], ctx.symbols.lookup p t = none := by
  intro p hp
  have hnot : ¬ LocalName ctx.metadata t := fun ht => by
    simp [ht.notStructLike, ht.noStruct] at hlike
  cases hc : ctx.symbols.lookup p t with
  | none => rfl
  | some c =>
    rcases h.mem_names_of_lookup hc with ⟨-, hn⟩ | ⟨-, hn⟩ | ⟨-, hn⟩ | ⟨rfl, -⟩
    · exact absurd (h.localName_of_knows (Or.inr (Or.inl hn))) hnot
    · exact absurd (h.localName_of_knows (hn.imp_right Or.inr)) hnot
    · have := (h.collected.calls t hn).1
      rw [Token.isGlobal_of_isLocal hl] at this
      exact absurd this (by simp)
    · simp at hp

/-- Behind the tables of types nothing becomes of a name that no table has. -/
theorem images_of_not_mem (hnot : t ∉ ctx.symbols.structs.names)
    (hlast : ∀ p ∈ [Pass.calls, .labels, .locals], p.rename? ctx t = none) :
    images ctx [structs, .calls, .labels, .locals] t = t := by
  rw [images_cons, image_eq_self (structs_rename?_of_not_mem hnot), images_eq_self hlast]

/-- A type that is known gets its canonical name. -/
theorem images_of_mem_structs (h : ctx.Tabled f) (ht : t ∈ ctx.symbols.structs.names) :
    IsNumbered "%struct_" (images ctx [structs, .calls, .labels, .locals] t) := by
  obtain ⟨c, hc⟩ := Option.ne_none_iff_exists'.mp
    (fun hnone => RenameTable.get?_eq_none_iff.mp hnone ht)
  have hn := h.collected.sound.structs.2 ▸ h.collected.sound.structs.1.isNumbered hc
  have hcanonical := isCanonical_of_isNumbered hn
  have hne : c ≠ t := by
    rintro rfl
    have : ctx.metadata.hasStruct c = true := (h.collected.structs c ht).2
    rw [(h.wellNamed.fresh_metadata c hcanonical).1] at this
    exact absurd this (by simp)
  have himage : structs.image ctx t = c := by simp [image, rename?, hc, Option.filter, hne]
  have hlast : ∀ p ∈ [Pass.calls, .labels, .locals], p.rename? ctx c = none := fun p hp =>
    h.rename?_of_isCanonical hcanonical (by rintro rfl; simp at hp)
  rw [images_cons, himage, images_eq_self hlast]
  exact hn

/-- What becomes of an identifier. -/
theorem image_canonicalSymbol (h : ctx.Tabled f) (hsym : Token.isSymbol t = true) :
    ctx.Image t (ctx.canonicalSymbol t) := by
  cases hc : ctx.symbols.canonical? t with
  | some pc =>
    rw [h.canonicalSymbol_of_canonical? hc]
    exact .tabled hc
  | none =>
    have hlookup := canonical?_eq_none_iff.mp hc
    have hlast : ∀ p ∈ [Pass.calls, .labels, .locals], p.rename? ctx t = none := fun p hp =>
      rename?_of_lookup_eq_none hp (hlookup p (by
        simp only [List.mem_cons, List.not_mem_nil, or_false] at hp ⊢
        rcases hp with rfl | rfl | rfl <;> simp))
    -- the first pass may take a suffix away, then types are told apart from other names
    have hpasses : ctx.canonicalSymbol t = images ctx [structs, .calls, .labels, .locals]
        (Pass.globals.image ctx (structSuffixes.image ctx t)) := rfl
    rw [hpasses, image_eq_self (h.globals_rename? _)]
    cases hl : Token.isLocal t with
    | false =>
      have hg := Token.isGlobal_of_isSymbol hsym hl
      rw [image_eq_self (structSuffixes_of_isGlobal hg),
        images_of_not_mem (h.not_mem_structs_of_isGlobal hg) hlast]
      exact .global hc hg
    | true =>
      cases hr : structSuffixes.rename? ctx t with
      | none =>
        rw [image_eq_self hr]
        by_cases hx : t ∈ ctx.symbols.structs.names
        · exact .numbered hl (Or.inl (h.collected.structs t hx).2) (h.images_of_mem_structs hx)
        · rw [images_of_not_mem hx hlast]
          exact .same hc hl hr hx
      | some x =>
        have himage : structSuffixes.image ctx t = x := by simp [image, hr]
        rw [himage]
        simp only [rename?] at hr
        split at hr
        · rename_i hif
          obtain rfl := Option.some.inj hr
          simp only [Bool.and_eq_true, decide_eq_true_eq] at hif
          have hlike := hif.1.2
          by_cases hx : Token.stripSuffix t ∈ ctx.symbols.structs.names
          · exact .numbered hl (Or.inr (h.collected.structs _ hx).2) (h.images_of_mem_structs hx)
          · have hbase := h.lookup_eq_none_of_type (Token.isLocal_stripSuffix hsym hl) hlike
            rw [images_of_not_mem hx fun p hp => rename?_of_lookup_eq_none hp (hbase p hp)]
            exact .base hl hlike hx
        · simp at hr

/-! ### What the images have in common -/

/-- The canonical form of a name has its sigil. -/
theorem head?_of_canonical? (h : ctx.Tabled f) (hc : ctx.symbols.canonical? t = some (p, c)) :
    c.toList.head? = t.toList.head? := by
  obtain ⟨stem, hstem, hn⟩ := isNumbered_of_lookup h.collected.sound (lookup_of_canonical? hc).2
  have hlocal (ht : LocalName ctx.metadata t) (hp : p = .labels ∨ p = .locals) :
      c.toList.head? = t.toList.head? := by
    have hstems : ∀ p ∈ [Pass.labels, .locals], ∀ stem ∈ p.stemsOf,
        stem.toList.head? = some '%' := by decide
    have hhead := hstems p (by rcases hp with rfl | rfl <;> simp) stem hstem
    rw [hn.head?_eq hhead, Token.isLocal_iff.mp ht.isLocal]
  rcases h.names_of_canonical? hc with ⟨hp, hmem⟩ | ⟨hp, hmem⟩ | ⟨rfl, hmem⟩
  · exact hlocal (h.localName_of_knows (Or.inr (Or.inl hmem))) (Or.inl hp)
  · exact hlocal (h.localName_of_knows (hmem.imp_right Or.inr)) (Or.inr hp)
  · have hstems : ∀ stem ∈ Pass.calls.stemsOf, stem.toList.head? = some '@' := by decide
    rw [hn.head?_eq (hstems stem hstem), Token.isGlobal_iff.mp (h.collected.calls t hmem).1]

/-- The sigil stays. -/
theorem head?_image (h : ctx.Tabled f) (hsym : Token.isSymbol t = true) (hy : ctx.Image t y) :
    y.toList.head? = t.toList.head? := by
  cases hy with
  | tabled hc => exact h.head?_of_canonical? hc
  | global => rfl
  | numbered hl hknown hc => exact (hc.head?_eq rfl).trans (Token.isLocal_iff.mp hl).symm
  | base => exact Token.head?_stripSuffix hsym
  | same => rfl

/-- No suffix is left to strip. -/
theorem structSuffixes_image (h : ctx.Tabled f) (hm : ctx'.metadata = ctx.metadata)
    (hy : ctx.Image t y) : structSuffixes.rename? ctx' y = none := by
  cases hy with
  | tabled hc => simp [rename?, (h.isCanonical_of_canonical? hc).1.stripSuffix_eq]
  | global hc hg => exact structSuffixes_of_isGlobal hg
  | numbered hl hknown hc => simp [rename?, (isCanonical_of_isNumbered hc).stripSuffix_eq]
  | base => simp [rename?, Token.stripSuffix_stripSuffix]
  | same hc hl hsuffix hnot => simpa only [rename?, hm] using hsuffix

/-- A name that is seen in a first run is none of a known type in a second one. -/
theorem noStruct_image (h : ctx.Tabled f) (hk : ctx.symbols.KnowsType ctx.metadata t)
    (hl : Token.isLocal t = true) (hy : ctx.Image t y) :
    ctx.metadata.hasStruct y = false ∧
      ctx.metadata.hasStruct (Token.stripSuffix y) = false := by
  have hcanonical {c : String} (hc : IsCanonical c) : ctx.metadata.hasStruct c = false ∧
      ctx.metadata.hasStruct (Token.stripSuffix c) = false := by
    have := (h.wellNamed.fresh_metadata c hc).1
    rw [hc.stripSuffix_eq]
    exact ⟨this, this⟩
  cases hy with
  | tabled hc => exact hcanonical (h.isCanonical_of_canonical? hc).1
  | global hc hg => exact absurd hg (by simp [Token.isGlobal_of_isLocal hl])
  | numbered hl hknown hc => exact hcanonical (isCanonical_of_isNumbered hc)
  | base hl hlike hnot =>
    rcases hk with hk | ⟨hbase, -⟩
    · have ht := h.localName_of_knows hk
      simp [ht.notStructLike_base, ht.noStructBase] at hlike
    · rw [Token.stripSuffix_stripSuffix, ← Bool.not_eq_true]
      exact ⟨fun hs => hnot (hbase hs), fun hs => hnot (hbase hs)⟩
  | same hc hl hsuffix hnot =>
    rcases hk with hk | ⟨hbase, hname⟩
    · obtain ⟨p, c, hsome⟩ := exists_canonical? (Or.inl hk)
      rw [hsome] at hc
      simp at hc
    · have hno : ctx.metadata.hasStruct (Token.stripSuffix t) = false := by
        rw [← Bool.not_eq_true]
        intro hs
        have heq : Token.stripSuffix t = t := by
          by_contra hne
          simp [rename?, hl, hs, hne] at hsuffix
        exact hnot (heq ▸ hbase hs)
      refine ⟨?_, hno⟩
      rw [← Bool.not_eq_true]
      exact fun hs => hnot (hname hno hs)

/-- A global name is renamed as a callee, or not at all. -/
theorem image_of_isGlobal (h : ctx.Tabled f) (hg : Token.isGlobal t = true) (hy : ctx.Image t y) :
    t ∈ ctx.symbols.calls.names ∧ IsCanonical y ∨ t ∉ ctx.symbols.calls.names ∧ y = t := by
  have hnot (hl : Token.isLocal t = true) : False := by
    rw [Token.isGlobal_of_isLocal hl] at hg
    exact absurd hg (by simp)
  cases hy with
  | tabled hc =>
    rcases h.names_of_canonical? hc with ⟨-, hmem⟩ | ⟨-, hmem⟩ | ⟨-, hmem⟩
    · exact (hnot (h.localName_of_knows (Or.inr (Or.inl hmem))).isLocal).elim
    · exact (hnot (h.localName_of_knows (hmem.imp_right Or.inr)).isLocal).elim
    · exact Or.inl ⟨hmem, (h.isCanonical_of_canonical? hc).1⟩
  | global hc =>
    refine Or.inr ⟨fun hmem => ?_, rfl⟩
    obtain ⟨p, c, hsome⟩ := exists_canonical? (Or.inr hmem)
    rw [hsome] at hc
    simp at hc
  | numbered hl => exact (hnot hl).elim
  | base hl => exact (hnot hl).elim
  | same hc hl => exact (hnot hl).elim

/-- A name that cannot be taken for a type stays if no table has a name for it. -/
theorem image_eq_self_of_none (ht : LocalName ctx.metadata t ∨ Token.isGlobal t = true)
    (hc : ctx.symbols.canonical? t = none) (hy : ctx.Image t y) : y = t := by
  have hlocal (hl : Token.isLocal t = true) : LocalName ctx.metadata t := by
    refine ht.resolve_right fun hg => ?_
    rw [Token.isGlobal_of_isLocal hl] at hg
    exact absurd hg (by simp)
  cases hy with
  | tabled hsome =>
    rw [hsome] at hc
    simp at hc
  | global => rfl
  | numbered hl hknown => simp [(hlocal hl).noStruct, (hlocal hl).noStructBase] at hknown
  | base hl hlike => simp [(hlocal hl).notStructLike_base, (hlocal hl).noStructBase] at hlike
  | same => rfl

/-- No other identifier becomes what a name becomes that cannot be taken for a type. -/
theorem eq_of_canonicalSymbol_eq (h : ctx.Tabled f) (ht : t ∈ f.identifiers)
    (hkind : LocalName ctx.metadata t ∨ Token.isGlobal t = true) (hu : u ∈ f.identifiers)
    (heq : ctx.canonicalSymbol u = ctx.canonicalSymbol t) : u = t := by
  have hsymt := h.wellNamed.isSymbol_of_mem_identifiers ht
  have hsymu := h.wellNamed.isSymbol_of_mem_identifiers hu
  have hyt := h.image_canonicalSymbol hsymt
  have hyu := h.image_canonicalSymbol hsymu
  rw [heq] at hyu
  have hnotType (hl : Token.isLocal (Token.stripSuffix u) = true) (hcu : Token.stripSuffix u = t)
      (hlike : (Token.isStructLike (Token.stripSuffix u) ||
        ctx.metadata.hasStruct (Token.stripSuffix u)) = true) : False := by
    rw [hcu] at hlike hl
    rcases hkind with hkind | hkind
    · simp [hkind.notStructLike, hkind.noStruct] at hlike
    · rw [Token.isGlobal_of_isLocal hl] at hkind
      exact absurd hkind (by simp)
  cases hc : ctx.symbols.canonical? t with
  | some pc =>
    -- the name stands in a table, and no other identifier has that canonical name
    obtain ⟨p, c⟩ := pc
    rw [h.canonicalSymbol_of_canonical? hc] at hyu
    obtain ⟨hcanonical, hnumbered⟩ := h.isCanonical_of_canonical? hc
    cases hyu with
    | tabled hcu => exact canonical?_inj h.collected.sound hcu hc
    | global => exact absurd hcanonical (h.wellNamed.fresh u hu)
    | numbered hl hknown hn => exact absurd hn hnumbered
    | base hl hlike =>
      simp [hcanonical.not_isStructLike, (h.wellNamed.fresh_metadata _ hcanonical).1] at hlike
    | same => exact absurd hcanonical (h.wellNamed.fresh u hu)
  | none =>
    -- the name stays, and it is not of canonical form
    have hself := image_eq_self_of_none hkind hc hyt
    rw [hself] at hyu
    have hfresh := h.wellNamed.fresh t ht
    cases hyu with
    | tabled hcu => exact absurd (h.isCanonical_of_canonical? hcu).1 hfresh
    | global => rfl
    | numbered hl hknown hn => exact absurd (isCanonical_of_isNumbered hn) hfresh
    | base hl hlike => exact (hnotType (Token.isLocal_stripSuffix hsymu hl) rfl hlike).elim
    | same => rfl

end Tabled

end PassContext

/-! ### The tables of a well-named function -/

/-- The callees that are collected are identifiers of the function. -/
theorem Function.WellNamed.mem_identifiers_of_mem_calls {f : Function} {metadata : Metadata}
    {frequency : FrequencyTables} (h : f.WellNamed metadata frequency)
    (config : Config.Canonicalize) :
    ∀ n ∈ (collectSymbols metadata frequency config f).1.calls.names, n ∈ f.identifiers := by
  rw [collectSymbols_eq_foldl]
  refine Function.collection_induction (P := fun s => ∀ n ∈ s.calls.names, n ∈ f.identifiers) ?_
    fun c e he hc => ?_
  · simp [SymbolTables.empty, RenameTable.empty, RenameTable.names]
  · rcases sighting_cases he with ⟨p, hp, rfl⟩ | ⟨b, hb, rfl⟩ | ⟨id, s, hs, t, ht, rfl⟩
    · exact hc
    · exact hc
    · have hsees := Collection.sees_see (f.collectContext metadata frequency) id c t
      rw [Collection.note]
      generalize Collection.see (f.collectContext metadata frequency) id c t = c' at hsees ⊢
      generalize c'.symbols = s' at hsees ⊢
      cases hsees with
      | call => exact RenameTable.forall_names_insert hc (h.token_mem_identifiers hs ht)
      | nothing | var | type | global | exempt => exact hc

/-- The tables of a well-named function are of that sort. -/
theorem Function.WellNamed.tabled {f : Function} {metadata : Metadata}
    {frequency : FrequencyTables} (h : f.WellNamed metadata frequency)
    (config : Config.Canonicalize) (hg : config.renameGlobals = false) :
    (passContext metadata frequency config f).Tabled f := by
  have hcollected := collected_collectSymbols metadata frequency config f
  exact
    { params := fun _ => mem_params_collectSymbols.mp
      labels := fun _ => mem_labels_collectSymbols.mp
      calls := h.mem_identifiers_of_mem_calls config
      wellNamed := h
      globals := globals_collectSymbols hg metadata frequency f
      collected := hcollected
      vars := fun n hn => (hcollected.vars n hn).2
      knows_labels := fun _ hn => Or.inr (Or.inl (mem_labels_collectSymbols.mpr hn))
      knows_types := fun id t he hl => by
        simp only [passContext, collectSymbols_eq_foldl]
        exact Collection.knowsType_of_mem he hl _ }

end InstrGraph
