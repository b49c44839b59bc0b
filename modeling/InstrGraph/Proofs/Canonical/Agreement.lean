import InstrGraph.Config.Validation
import InstrGraph.Proofs.Canonical.Identifiers
import InstrGraph.Proofs.Symbols.FirstSight

/-!
# When an identifier gets the name that its table gives it

The tables of a function say under which canonical name an identifier is known
(`SymbolTables.canonical?`), and one of the passes is to write that name. The other passes may get
in the way: one before may rename the identifier first, and one behind may rename the name again.

* `canonicalSymbol_eq_iff`: the identifier gets its name exactly if neither happens. An earlier pass
  may do no harm only by writing the very name.
* `symbols_agree`: what this asks of the names, wherever they stand in a text. An identifier gets
  its name if it loses no suffix, is the name of no type, and its canonical name is none that the
  function has itself (`Function.Unmistakable`), and there are tables to tell exactly when
  (`SymbolTables.Unhindered`). Identifiers that are different without suffixes stay different.
* `symbols_disagree_of_suffixExample`: a variable that looks like a type with a suffix does not get
  the name that its table has for it.
-/

namespace InstrGraph

/-- The canonical name of an identifier that is not the name of a type, and the pass that is to
write it. Labels come before other locals. -/
def SymbolTables.canonical? (s : SymbolTables) (t : String) : Option (Pass × String) :=
  [Pass.labels, .locals, .calls, .globals].findSome? fun p => (s.lookup p t).map fun c => (p, c)

namespace Pass

/-- The passes over identifiers that run before a pass. -/
def before (p : Pass) : List Pass := symbolPasses.takeWhile (· ≠ p)

/-- The passes over identifiers that run after a pass. -/
def after (p : Pass) : List Pass := (symbolPasses.dropWhile (· ≠ p)).tail

variable {ctx : PassContext} {p q : Pass} {ps : List Pass} {t u c : String}

/-- The passes over identifiers are those before one, the one, and those after it. -/
theorem symbolPasses_eq (hp : p ∈ symbolPasses) : symbolPasses = p.before ++ p :: p.after := by
  simp only [symbolPasses, List.mem_cons, List.not_mem_nil, or_false] at hp
  rcases hp with rfl | rfl | rfl | rfl | rfl | rfl <;> rfl

/-- The passes in front of one are those before it. -/
theorem before_eq_of_symbolPasses {qs rs : List Pass} (h : symbolPasses = qs ++ p :: rs) :
    p.before = qs := by
  have hnodup : symbolPasses.Nodup := by decide
  rw [h, List.nodup_middle, List.nodup_cons, List.mem_append, not_or] at hnodup
  rw [before, h, List.takeWhile_append_of_pos]
  · simp
  · intro q hq
    have hne : q ≠ p := by
      rintro rfl
      exact hnodup.1.1 hq
    simp [hne]

/-- A later pass is another one, and not the first. -/
theorem not_mem_of_mem_after (hq : q ∈ p.after) : q ≠ p ∧ q ≠ .structSuffixes := by
  revert q
  cases p <;> decide

/-- A pass that runs after the first and before another one is neither. -/
theorem mem_tail_before (hq : q ∈ p.before.tail) : q ≠ p ∧ q ≠ .structSuffixes := by
  revert q
  cases p <;> decide

/-- Only the first pass is not among those after it. -/
theorem mem_tail_before_of_ne (hq : q ∈ p.before) (hne : q ≠ .structSuffixes) :
    q ∈ p.before.tail := by
  revert q
  cases p <;> decide

/-- The passes after another one are those over callees and locals, but for the first ones. -/
theorem after_cases (hq : q ∈ p.after) :
    q ∈ [calls, labels, locals] ∨ p = .structSuffixes ∨ p = .globals ∧ q = .structs := by
  revert q
  cases p <;> decide

/-- The passes before one of the passes over tables that are asked for canonical names. -/
theorem before_cases (hp : p ∈ [labels, .locals, calls, globals]) (hq : q ∈ p.before) :
    q = .structSuffixes ∨ q = .structs ∨ q = .globals ∧ p = .calls ∨ q = .labels ∧ p = .locals ∨
      q ∈ [globals, calls] ∧ p ∈ [labels, .locals] := by
  revert q
  revert p
  decide

/-- Passes none of which writes a name give it only to what is that name already. -/
theorem images_eq_iff (h : ∀ q ∈ ps, ∀ x, q.rename? ctx x ≠ some c) :
    images ctx ps t = c ↔ t = c ∧ ∀ q ∈ ps, q.rename? ctx c = none := by
  induction ps generalizing t with
  | nil => simp
  | cons q ps ih =>
    rw [images_cons, ih fun r hr => h r (by simp [hr]), List.forall_mem_cons]
    have himage : q.image ctx t = c ↔ t = c ∧ q.rename? ctx c = none := by
      rw [image]
      cases hr : q.rename? ctx t with
      | some x =>
        refine ⟨fun hx => absurd (hr.trans (congrArg some hx)) (h q (by simp) t), ?_⟩
        rintro ⟨rfl, hnone⟩
        rw [hr] at hnone
        exact absurd hnone (by simp)
      | none =>
        refine ⟨?_, fun hx => hx.1⟩
        rintro rfl
        exact ⟨rfl, hr⟩
    rw [himage, and_assoc]

end Pass

open Pass

variable {cctx : CollectContext} {ctx : PassContext} {p q : Pass} {t u c : String}

section

variable {s : SymbolTables}

/-- A canonical name stands in the table behind the pass that is to write it. -/
theorem lookup_of_canonical? (h : s.canonical? t = some (p, c)) :
    p ∈ [labels, .locals, .calls, .globals] ∧ s.lookup p t = some c := by
  obtain ⟨p', hp', hc⟩ := List.exists_of_findSome?_eq_some h
  obtain ⟨c', hc', heq⟩ := Option.map_eq_some_iff.mp hc
  obtain ⟨rfl, rfl⟩ := Prod.mk.inj heq
  exact ⟨hp', hc'⟩

/-- The pass that is to write a canonical name looks at identifiers, and is not the first. -/
theorem mem_symbolPasses_of_canonical? (h : s.canonical? t = some (p, c)) :
    p ∈ symbolPasses ∧ p ≠ .structSuffixes :=
  (by decide : ∀ p ∈ [Pass.labels, .locals, .calls, .globals],
    p ∈ symbolPasses ∧ p ≠ .structSuffixes) p (lookup_of_canonical? h).1

/-- A label is not known as a parameter or variable. -/
theorem labels_lookup_of_canonical? (h : s.canonical? t = some (.locals, c)) :
    s.lookup .labels t = none := by
  cases hl : s.lookup .labels t with
  | none => rfl
  | some d => simp [SymbolTables.canonical?, hl] at h

/-- Different identifiers are known under different names. -/
theorem canonical?_inj (hs : s.Sound) (ht : s.canonical? t = some (p, c))
    (hu : s.canonical? u = some (q, c)) : t = u := by
  have ht := (lookup_of_canonical? ht).2
  have hu := (lookup_of_canonical? hu).2
  by_cases hpq : p = q
  · exact lookup_inj hs ht (hpq ▸ hu)
  · exact absurd rfl (ne_of_lookup hs hpq ht hu)

end

/-- A name that stands in the table behind a pass comes out in the end exactly if that pass leaves
it behind and no later pass renames it: nothing else writes it. -/
theorem canonicalSymbol_eq_iff_image (hs : ctx.symbols.Sound) (hp : p ∈ symbolPasses)
    (hlookup : ctx.symbols.lookup p u = some c) :
    ctx.canonicalSymbol t = c ↔
      (∀ q ∈ p.after, q.rename? ctx c = none) ∧ p.image ctx (images ctx p.before t) = c := by
  have hafter : ∀ q ∈ p.after, ∀ x, q.rename? ctx x ≠ some c := by
    intro q hq x hx
    obtain ⟨hqp, hqs⟩ := not_mem_of_mem_after hq
    exact ne_of_lookup hs hqp (lookup_of_rename? hqs hx) hlookup rfl
  rw [PassContext.canonicalSymbol, symbolPasses_eq hp, images_append, images_cons,
    images_eq_iff hafter, and_comm]

/-- An identifier gets the name of its table exactly if no later pass renames that name, and the
earlier passes leave the identifier as it is or write that name themselves. -/
theorem canonicalSymbol_eq_iff (h : Collected cctx ctx.symbols)
    (hm : cctx.metadata = ctx.metadata) (hc : ctx.symbols.canonical? t = some (p, c)) :
    ctx.canonicalSymbol t = c ↔
      (∀ q ∈ p.after, q.rename? ctx c = none) ∧
        (images ctx p.before t = t ∨ images ctx p.before t = c ∧ p.rename? ctx c = none) := by
  have hlookup := (lookup_of_canonical? hc).2
  obtain ⟨hp, hfirst⟩ := mem_symbolPasses_of_canonical? hc
  rw [canonicalSymbol_eq_iff_image h.sound hp hlookup]
  refine and_congr_right fun _ => ?_
  -- what the pass meets is the identifier, or an earlier pass has written the name
  generalize images ctx p.before t = u
  constructor
  · intro himage
    rw [image] at himage
    cases hu : p.rename? ctx u with
    | none =>
      rw [hu] at himage
      exact Or.inr ⟨himage, himage ▸ hu⟩
    | some c' =>
      rw [hu] at himage
      have hu := lookup_of_rename? hfirst hu
      rw [show c' = c from himage] at hu
      exact Or.inl (lookup_inj h.sound hu hlookup)
  · rintro (rfl | ⟨rfl, hnone⟩)
    · exact image_of_lookup h hm hlookup
    · exact image_eq_self hnone

/-! ### Names that stand in nobody's way -/

/-- The names that a function has itself: of parameters, labels, variables and callees. -/
def Function.ownNames (f : Function) : List String :=
  f.declaredParams ++ f.labelNames ++ f.definedVars ++ f.callees

/-- An identifier and its canonical name that the passes cannot take for anything else. -/
structure Function.Unmistakable (f : Function) (metadata : Metadata) (t c : String) : Prop where
  /-- The identifier loses no suffix. -/
  bare : metadata.bareName t = t
  /-- It is not the name of a type. -/
  noType : Token.isLocal t = true → metadata.hasStruct t = false
  /-- It is no global name that is declared as a parameter. -/
  param : t ∈ f.declaredParams → Token.isLocal t = true
  /-- The canonical name is none that the function has itself. -/
  own : c ∉ f.ownNames

/-- The tables do not keep an identifier from its canonical name: it loses no suffix, no earlier
pass knows it, and no later pass knows the name. -/
structure SymbolTables.Unhindered (s : SymbolTables) (metadata : Metadata) (p : Pass)
    (t c : String) : Prop where
  bare : metadata.bareName t = t
  before : ∀ q ∈ p.before, s.lookup q t = none
  after : ∀ q ∈ p.after, s.lookup q c = none

/-- The pass behind a table leaves alone what no table knows. -/
theorem rename?_eq_none_of_lookup (hbare : p = .structSuffixes → ctx.metadata.bareName t = t)
    (h : ctx.symbols.lookup p t = none) : p.rename? ctx t = none := by
  by_cases hp : p = .structSuffixes
  · rw [hp, structSuffixes_rename?_of_bareName (hbare hp)]
  · cases hr : p.rename? ctx t with
    | none => rfl
    | some c =>
      rw [lookup_of_rename? hp hr] at h
      exact h

/-- Where nothing is in the way, an identifier gets its canonical name. -/
theorem SymbolTables.Unhindered.canonicalSymbol_eq
    (hfree : ctx.symbols.Unhindered ctx.metadata p t c) (h : Collected cctx ctx.symbols)
    (hm : cctx.metadata = ctx.metadata) (hc : ctx.symbols.canonical? t = some (p, c)) :
    ctx.canonicalSymbol t = c := by
  refine (canonicalSymbol_eq_iff h hm hc).mpr ⟨fun q hq => ?_, Or.inl ?_⟩
  · exact rename?_eq_none_of_lookup (fun hs => absurd hs (not_mem_of_mem_after hq).2)
      (hfree.after q hq)
  · exact images_eq_self fun q hq =>
      rename?_eq_none_of_lookup (fun _ => hfree.bare) (hfree.before q hq)

/-- The first pass takes the suffix, and the other passes before one follow. -/
theorem images_before_eq (hp : p ∈ symbolPasses) (hs : p ≠ .structSuffixes) (t : String) :
    images ctx p.before t = images ctx p.before.tail (ctx.metadata.bareName t) := by
  have hbefore : p.before = .structSuffixes :: p.before.tail :=
    (by decide : ∀ p ∈ symbolPasses, p ≠ .structSuffixes →
      p.before = .structSuffixes :: p.before.tail) p hp hs
  rw [hbefore, images_cons, structSuffixes_image_eq, List.tail_cons]

/-- An identifier of no canonical form gets its canonical name only where nothing is in the way. A
type that is known by a canonical name is left out: the first pass could write that name. -/
theorem unhindered_of_canonicalSymbol_eq (h : Collected cctx ctx.symbols)
    (hm : cctx.metadata = ctx.metadata) (hc : ctx.symbols.canonical? t = some (p, c))
    (ht : Uncanonical t) (htype : ctx.metadata.hasStruct c = false)
    (heq : ctx.canonicalSymbol t = c) : ctx.symbols.Unhindered ctx.metadata p t c := by
  have hlookup := (lookup_of_canonical? hc).2
  obtain ⟨hp, hfirst⟩ := mem_symbolPasses_of_canonical? hc
  obtain ⟨stem, hstem, hn⟩ := isNumbered_of_lookup h.sound hlookup
  have hstems := p.mem_stems_of_mem_stemsOf stem hstem
  obtain ⟨hafter, hbefore⟩ := (canonicalSymbol_eq_iff h hm hc).mp heq
  rw [images_before_eq hp hfirst] at hbefore
  -- what an earlier pass writes has its own stem, so it is neither the identifier nor its name
  rcases images_cases h.sound _ (fun q hq => (mem_tail_before hq).2) (ctx.metadata.bareName t) with
    ⟨hnone, hself⟩ | ⟨q, hq, stem', hstem', hn'⟩
  · rw [hself] at hbefore
    have hbare : ctx.metadata.bareName t = t := by
      refine hbefore.elim id fun ⟨hname, _⟩ => (ctx.metadata.bareName_eq_or t).resolve_right ?_
      rw [hname, Token.isStructLike_of_not_mem (hn.not_mem hstems).1, htype]
      simp
    rw [hbare] at hnone
    refine ⟨hbare, fun q hq => ?_, fun q hq => ?_⟩
    · by_cases hqs : q = .structSuffixes
      · rw [hqs]
        rfl
      · have hq : q ∈ p.before.tail := mem_tail_before_of_ne hq hqs
        exact (rename?_eq_none_iff h hm hqs fun stem hstem =>
          ht stem (q.mem_stems_of_mem_stemsOf stem hstem)).mp (hnone q hq)
    · obtain ⟨hqp, hqs⟩ := not_mem_of_mem_after hq
      refine (rename?_eq_none_iff h hm hqs fun stem' hstem' hn' => ?_).mp (hafter q hq)
      exact hn'.ne (stemsApart_of_ne hqp stem' hstem' stem hstem) hn rfl
  · rcases hbefore with hself | ⟨hname, -⟩
    · exact absurd (hself ▸ hn') (ht stem' (q.mem_stems_of_mem_stemsOf stem' hstem'))
    · have hqp := (mem_tail_before hq).1
      exact absurd rfl ((hname ▸ hn').ne (stemsApart_of_ne hqp stem' hstem' stem hstem) hn)

section

variable {metadata : Metadata} {frequency : FrequencyTables} {config : Config.Canonicalize}
  {f : Function}

/-- The tables of labels, other locals and callees know names that the function has itself. -/
theorem mem_ownNames_of_lookup (hp : p ∈ [Pass.calls, .labels, .locals])
    (h : (collectSymbols metadata frequency config f).1.lookup p t = some c) : t ∈ f.ownNames := by
  have hcollected := collected_collectSymbols metadata frequency config f
  simp only [Function.ownNames, List.mem_append]
  simp only [List.mem_cons, List.not_mem_nil, or_false] at hp
  rcases hp with rfl | rfl | rfl
  · exact Or.inr (hcollected.calls t (RenameTable.mem_names_iff.mpr ⟨c, h⟩)).2.2.2
  · exact Or.inl (Or.inl (Or.inr
      (mem_labels_collectSymbols.mp (RenameTable.mem_names_iff.mpr ⟨c, h⟩))))
  · rcases SymbolTables.lookup_locals h with hparam | hvar
    · exact Or.inl (Or.inl (Or.inl
        (mem_params_collectSymbols.mp (RenameTable.mem_names_iff.mpr ⟨c, hparam⟩))))
    · exact Or.inl (Or.inr (hcollected.vars t (RenameTable.mem_names_iff.mpr ⟨c, hvar⟩)).2)

/-- No later table knows a canonical name, unless the function has a name like this itself. -/
theorem lookup_after_eq_none
    (h : (collectSymbols metadata frequency config f).1.lookup p t = some c)
    (hown : c ∉ f.ownNames) (hq : q ∈ p.after) :
    (collectSymbols metadata frequency config f).1.lookup q c = none := by
  have hcollected := collected_collectSymbols metadata frequency config f
  cases hd : (collectSymbols metadata frequency config f).1.lookup q c with
  | none => rfl
  | some d =>
    rcases after_cases hq with hq | rfl | ⟨rfl, rfl⟩
    · exact absurd (mem_ownNames_of_lookup hq hd) hown
    · simp [SymbolTables.lookup] at h
    · -- a type is a local name, and the canonical name of a global is not
      obtain ⟨stem, hstem, hn⟩ := isNumbered_of_lookup hcollected.sound h
      obtain rfl : stem = "@global_var_" := by simpa [stemsOf] using hstem
      have hglobal := Token.isGlobal_iff.mpr (hn.head?_eq rfl)
      have hlocal := (hcollected.structs c (RenameTable.mem_names_iff.mpr ⟨d, hd⟩)).1
      rw [Token.isGlobal_of_isLocal hlocal] at hglobal
      simp at hglobal

end

namespace Collected

variable {s : SymbolTables}

/-- The table of globals knows global names of the metadata. -/
theorem globals_lookup (h : Collected cctx s) (hc : s.lookup .globals t = some c) :
    Token.isGlobal t = true ∧ cctx.metadata.hasGlobal t = true := by
  obtain ⟨table, htable, hget⟩ := Option.bind_eq_some_iff.mp hc
  exact h.globals table htable t (RenameTable.mem_names_iff.mpr ⟨c, hget⟩)

/-- The table of types knows local names of the metadata. -/
theorem structs_lookup (h : Collected cctx s) (hc : s.lookup .structs t = some c) :
    Token.isLocal t = true ∧ cctx.metadata.hasStruct t = true :=
  h.structs t (RenameTable.mem_names_iff.mpr ⟨c, hc⟩)

/-- The table of callees knows global names that the metadata lacks. -/
theorem calls_lookup (h : Collected cctx s) (hc : s.lookup .calls t = some c) :
    Token.isGlobal t = true ∧ cctx.metadata.hasGlobal t = false :=
  have hcall := h.calls t (RenameTable.mem_names_iff.mpr ⟨c, hc⟩)
  ⟨hcall.1, hcall.2.1⟩

/-- The table of labels knows local names. -/
theorem labels_lookup (h : Collected cctx s) (hc : s.lookup .labels t = some c) :
    Token.isLocal t = true := h.labels t (RenameTable.mem_names_iff.mpr ⟨c, hc⟩)

end Collected

section

variable {metadata : Metadata} {frequency : FrequencyTables} {config : Config.Canonicalize}
  {f : Function}

/-- Labels, parameters and variables have local names. -/
theorem Function.Unmistakable.isLocal (hu : f.Unmistakable metadata t c)
    (hp : p ∈ [Pass.labels, .locals])
    (hc : (collectSymbols metadata frequency config f).1.lookup p t = some c) :
    Token.isLocal t = true := by
  have h := collected_collectSymbols metadata frequency config f
  simp only [List.mem_cons, List.not_mem_nil, or_false] at hp
  rcases hp with rfl | rfl
  · exact h.labels_lookup hc
  · rcases SymbolTables.lookup_locals hc with hparam | hvar
    · exact hu.param (mem_params_collectSymbols.mp (RenameTable.mem_names_iff.mpr ⟨c, hparam⟩))
    · exact (h.vars t (RenameTable.mem_names_iff.mpr ⟨c, hvar⟩)).1

/-- No earlier table knows an identifier that cannot be taken for anything else. -/
theorem Function.Unmistakable.lookup_before_eq_none (hu : f.Unmistakable metadata t c)
    (hc : (collectSymbols metadata frequency config f).1.canonical? t = some (p, c))
    (hq : q ∈ p.before) : (collectSymbols metadata frequency config f).1.lookup q t = none := by
  have h := collected_collectSymbols metadata frequency config f
  obtain ⟨hp, hlookup⟩ := lookup_of_canonical? hc
  cases hd : (collectSymbols metadata frequency config f).1.lookup q t with
  | none => rfl
  | some d =>
    rcases before_cases hp hq with rfl | rfl | ⟨rfl, rfl⟩ | ⟨rfl, rfl⟩ | ⟨hq, hp⟩
    · simp [SymbolTables.lookup] at hd
    · obtain ⟨hlocal, htype⟩ := h.structs_lookup hd
      have hnone : (f.collectContext metadata frequency).metadata.hasStruct t = false :=
        hu.noType hlocal
      rw [hnone] at htype
      simp at htype
    · have hknown := (h.globals_lookup hd).2
      rw [(h.calls_lookup hlookup).2] at hknown
      simp at hknown
    · rw [labels_lookup_of_canonical? hc] at hd
      simp at hd
    · have hglobal : Token.isGlobal t = true := by
        simp only [List.mem_cons, List.not_mem_nil, or_false] at hq
        rcases hq with rfl | rfl
        · exact (h.globals_lookup hd).1
        · exact (h.calls_lookup hd).1
      rw [Token.isGlobal_of_isLocal (hu.isLocal hp hlookup)] at hglobal
      simp at hglobal

/-- Nothing is in the way of an identifier that cannot be taken for anything else. -/
theorem Function.Unmistakable.unhindered (hu : f.Unmistakable metadata t c)
    (hc : (collectSymbols metadata frequency config f).1.canonical? t = some (p, c)) :
    (collectSymbols metadata frequency config f).1.Unhindered metadata p t c where
  bare := hu.bare
  before _ hq := hu.lookup_before_eq_none hc hq
  after _ hq := lookup_after_eq_none (lookup_of_canonical? hc).2 hu.own hq

end

/-! ### The identifiers of a text -/

/-- The identifiers of texts and of their canonical forms, for the tables of any function.

* An identifier that the tables know gets its canonical name, in its place, if it cannot be taken
  for anything else: it loses no suffix, it is the name of no type, and its canonical name is none
  that the function has itself.
* For an identifier of no canonical form this is exact with the tables at hand: it gets its name if,
  and only if, it loses no suffix, no earlier table knows it, and no later table knows the name.
* No later table knows the name that an earlier one has for an identifier, unless the function has
  a name like this itself.
* Two identifiers of no canonical form become one if, and only if, they are one without the suffixes
  of types. No two identifiers are known under one name.

The placeholder must not have a sigil, else it may hold an identifier itself. -/
theorem symbols_agree (metadata : Metadata) (frequency : FrequencyTables)
    (config : Config.Canonicalize) (f : Function)
    (hp : ∀ ch ∈ config.constantPlaceholder.toList, Text.isSigil ch = false) :
    let ctx := passContext metadata frequency config f
    (∀ (text : String) (k : Nat) (t c : String) (p : Pass),
      (Token.symbols (Token.stripAnnotations text))[k]? = some t →
      ctx.symbols.canonical? t = some (p, c) →
        (f.Unmistakable metadata t c → (Token.symbols (runPasses ctx text).text)[k]? = some c) ∧
        (Uncanonical t → metadata.hasStruct c = false →
          ((Token.symbols (runPasses ctx text).text)[k]? = some c ↔
            ctx.symbols.Unhindered metadata p t c))) ∧
      (∀ (p q : Pass) (t c : String), ctx.symbols.lookup p t = some c → c ∉ f.ownNames →
        q ∈ p.after → ctx.symbols.lookup q c = none) ∧
      (∀ (text text' : String) (k l : Nat) (t u : String),
        (Token.symbols (Token.stripAnnotations text))[k]? = some t →
        (Token.symbols (Token.stripAnnotations text'))[l]? = some u →
        Uncanonical (metadata.bareName t) → Uncanonical (metadata.bareName u) →
          ((Token.symbols (runPasses ctx text).text)[k]? =
              (Token.symbols (runPasses ctx text').text)[l]? ↔
            metadata.bareName t = metadata.bareName u)) ∧
      ∀ (t u c : String) (p q : Pass), ctx.symbols.canonical? t = some (p, c) →
        ctx.symbols.canonical? u = some (q, c) → t = u := by
  intro ctx
  have h : Collected (f.collectContext metadata frequency) ctx.symbols :=
    collected_collectSymbols metadata frequency config f
  have hplace (text : String) (k : Nat) (t : String)
      (ht : (Token.symbols (Token.stripAnnotations text))[k]? = some t) :
      (Token.symbols (runPasses ctx text).text)[k]? = some (ctx.canonicalSymbol t) := by
    rw [symbols_runPasses h.sound hp, List.getElem?_map, ht, Option.map_some]
  refine ⟨fun text k t c p ht hc => ⟨fun hu => ?_, fun hfresh htype => ?_⟩,
    fun p q t c hc hown hq => lookup_after_eq_none hc hown hq,
    fun text text' k l t u ht hu htfresh hufresh => ?_,
    fun t u c p q ht hu => canonical?_inj h.sound ht hu⟩
  · have hfree : ctx.symbols.Unhindered ctx.metadata p t c := hu.unhindered hc
    rw [hplace text k t ht, hfree.canonicalSymbol_eq h rfl hc]
  · rw [hplace text k t ht, Option.some.injEq]
    exact ⟨fun heq => unhindered_of_canonicalSymbol_eq h rfl hc hfresh htype heq,
      fun hfree => SymbolTables.Unhindered.canonicalSymbol_eq hfree h rfl hc⟩
  · rw [hplace text k t ht, hplace text' l u hu, Option.some.injEq]
    exact PassContext.canonicalSymbol_eq_iff_bareName h.sound htfresh hufresh

/-- A function with two variables, one of which looks like the name of a type with a suffix. -/
def suffixExample : Function :=
  { name := "f"
    blocks := [⟨"%0", [{ id := 1, opcode := .other "alloca", text := "%x = alloca i32" },
                       { id := 2, opcode := .other "alloca",
                         text := "%class.addr.1 = alloca i32" }]⟩] }

/-- One of the two variables gets its name. The other loses its suffix, so it does not, but the two
stay different. -/
theorem symbols_agree_of_suffixExample :
    let ctx := passContext {} {} {} suffixExample
    (∀ ch ∈ ({} : Config.Canonicalize).constantPlaceholder.toList, Text.isSigil ch = false) ∧
      (Token.symbols (runPasses ctx "%x = alloca i32").text)[0]? = some "%var0" ∧
      (Token.symbols (runPasses ctx "%class.addr.1 = alloca i32").text)[0]? ≠ some "%var1" ∧
      (Token.symbols (runPasses ctx "%x = alloca i32").text)[0]? ≠
        (Token.symbols (runPasses ctx "%class.addr.1 = alloca i32").text)[0]? := by
  have hp : ∀ ch ∈ ({} : Config.Canonicalize).constantPlaceholder.toList,
      Text.isSigil ch = false := Text.forall_mem_of_all (by decide)
  obtain ⟨hagree, -, happart, -⟩ := symbols_agree {} {} {} suffixExample hp
  have hplain : (Token.symbols (Token.stripAnnotations "%x = alloca i32"))[0]? = some "%x" := by
    decide +kernel
  have hsuffixed : (Token.symbols (Token.stripAnnotations "%class.addr.1 = alloca i32"))[0]? =
      some "%class.addr.1" := by decide +kernel
  refine ⟨hp, ?_, ?_, ?_⟩
  · have hx : suffixExample.Unmistakable {} "%x" "%var0" :=
      ⟨by decide +kernel, by decide +kernel, by decide +kernel, by decide +kernel⟩
    exact (hagree _ 0 "%x" "%var0" .locals hplain (by decide +kernel)).1 hx
  · have hexact := (hagree _ 0 "%class.addr.1" "%var1" .locals hsuffixed (by decide +kernel)).2
      (uncanonical_of_startsWith (by decide +kernel)) (by decide +kernel)
    rw [ne_eq, hexact]
    exact fun hfree => absurd hfree.bare (by decide +kernel)
  · rw [ne_eq, happart _ _ 0 0 "%x" "%class.addr.1" hplain hsuffixed
      (uncanonical_of_startsWith (by decide +kernel))
      (uncanonical_of_startsWith (by decide +kernel))]
    decide +kernel

/-- So it is not the canonical name of the variable that stands in its place, and the canonical name
that its table has for it stands nowhere in the text. -/
theorem symbols_disagree_of_suffixExample :
    Config.validate {} = .ok () ∧
      (Token.symbols (Token.stripAnnotations "%class.addr.1 = alloca i32"))[0]? =
        some "%class.addr.1" ∧
      (passContext {} {} {} suffixExample).symbols.canonical? "%class.addr.1" =
        some (.locals, "%var1") ∧
      (Token.symbols (runPasses (passContext {} {} {} suffixExample)
        "%class.addr.1 = alloca i32").text)[0]? = some "%class.addr" := by
  decide +kernel

end InstrGraph
