import InstrGraph.Proofs.Symbols.FirstSight

/-!
# What is collected from a function

The identifiers of a function sort themselves: a local name is a parameter or label, a variable that
the function defines, or a type (`Function.isFree`); a global name is a global of the metadata, a
common callee, another callee, or missing. `collectSymbols_firstSeen` says that each table holds the
identifiers of its sort in the order in which they are first seen, and that each missing name is
reported once (`Function.gap?`).
-/

namespace InstrGraph

namespace Function

/-- The identifiers that satisfy a test, in the order of first sight. -/
def firstSeen (f : Function) (p : Occurrence → Bool) : List String :=
  ((f.occurrences.filter p).map Occurrence.token).eraseDups

/-- A local name that is no parameter or label where it stands. -/
def isOpen (f : Function) (o : Occurrence) : Bool :=
  Token.isLocal o.token && !(f.introducedAt o).contains o.token

/-- A local name that is no parameter, label or variable. -/
def isFree (f : Function) (o : Occurrence) : Bool :=
  f.isOpen o && !f.definedVars.contains o.token

/-- What the metadata lacks where an identifier stands: an aggregate type, by its name without
suffix, or a global that nothing calls. -/
def gap? (f : Function) (metadata : Metadata) (frequency : FrequencyTables) (o : Occurrence) :
    Option Gap :=
  if Token.isLocal o.token then
    if f.isFree o && (metadata.typeOf? o.token).isNone && Token.isStructLike o.token then
      some ⟨o.instruction, "struct", Token.stripSuffix o.token⟩
    else none
  else if !metadata.hasGlobal o.token && !frequency.isCommonCall o.token &&
      !f.callees.contains o.token then
    some ⟨o.instruction, "global", o.token⟩
  else none

variable {f : Function} {o : Occurrence} {t : String} {metadata : Metadata}
  {frequency : FrequencyTables}

/-- What occurs in a function are identifiers. -/
theorem isSymbol_of_mem_occurrences (ho : o ∈ f.occurrences) : Token.isSymbol o.token = true := by
  have htext {id : Option UInt32} {texts : List String}
      (ho : o ∈ texts.flatMap (Occurrence.ofText id)) : Token.isSymbol o.token = true := by
    obtain ⟨text, -, ho⟩ := List.mem_flatMap.mp ho
    obtain ⟨t, ht, rfl⟩ := List.mem_map.mp ho
    exact Token.isSymbol_of_mem ht
  rcases List.mem_append.mp ho with ho | ho
  · exact htext ho
  · obtain ⟨i, -, ho⟩ := List.mem_flatMap.mp ho
    exact htext ho

/-- What occurs in a function is either local or global. -/
theorem isGlobal_eq_of_mem (ho : o ∈ f.occurrences) :
    Token.isGlobal o.token = !Token.isLocal o.token := by
  cases hl : Token.isLocal o.token with
  | false => exact Token.isGlobal_of_isSymbol (isSymbol_of_mem_occurrences ho) hl
  | true =>
    rw [Bool.not_true, ← Bool.not_eq_true, Token.isGlobal_iff, Token.isLocal_iff.mp hl]
    decide

/-- An identifier of the function is among those of a class that are seen first if it is in the
class. -/
theorem contains_firstSeen (p : String → Bool) (ho : o ∈ f.occurrences) :
    (f.firstSeen fun o => p o.token).contains o.token = p o.token := by
  rw [Bool.eq_iff_iff, List.contains_iff_mem, firstSeen, List.mem_eraseDups, List.mem_map]
  constructor
  · rintro ⟨o', ho', heq⟩
    rw [← heq]
    exact (List.mem_filter.mp ho').2
  · exact fun hp => ⟨o, List.mem_filter.mpr ⟨ho, hp⟩, rfl⟩

/-- The names that are entered as one of a kind are those that pass the test for it. -/
theorem filterMap_name?_roles {ctx : CollectContext} {kind : SymbolKind} {p : Occurrence → Bool}
    (h : ∀ o ∈ f.occurrences, (ctx.role (f.introducedAt o) o.token).name? kind =
      if p o then some o.token else none) :
    ((f.roles ctx).filterMap fun e => e.2.name? kind).eraseDups = f.firstSeen p := by
  rw [roles, List.filterMap_map, firstSeen, ← List.filterMap_eq_filter, List.map_filterMap]
  congr 1
  refine List.filterMap_congr fun o ho => ?_
  rw [Function.comp_apply, h o ho]
  cases hp : p o <;> simp [Option.guard, hp]

end Function

namespace CollectContext

/-! ### The names of a role -/

variable {ctx : CollectContext} {introduced : List String} {t : String} {id : Option UInt32}

/-- A local name is noted as a variable if it is no parameter or label and the function defines
it. -/
theorem name?_role_var : (ctx.role introduced t).name? .var =
    if Token.isLocal t && !introduced.contains t && ctx.defined.contains t then some t
    else none := by
  unfold role
  split_ifs <;> (try split) <;> simp_all [Role.name?]

/-- A local name is noted as a type if it is none of parameter, label and variable, and the metadata
has the type that it stands for. -/
theorem name?_role_type : (ctx.role introduced t).name? .type =
    if Token.isLocal t && !introduced.contains t && !ctx.defined.contains t then
      ctx.metadata.typeOf? t
    else none := by
  unfold role
  split_ifs <;> (try split) <;> simp_all [Role.name?]

/-- A global name is noted as a global if the metadata has it. -/
theorem name?_role_global : (ctx.role introduced t).name? .global =
    if !Token.isLocal t && ctx.metadata.hasGlobal t then some t else none := by
  unfold role
  split_ifs <;> (try split) <;> simp_all [Role.name?]

/-- A global name is noted as a call that keeps its name if the metadata does not have it and it is
common. -/
theorem name?_role_exemptCall : (ctx.role introduced t).name? .exemptCall =
    if !Token.isLocal t && !ctx.metadata.hasGlobal t && ctx.frequency.isCommonCall t then some t
    else none := by
  unfold role
  split_ifs <;> (try split) <;> simp_all [Role.name?]

/-- A global name is noted as a call if the metadata does not have it, it is not common, and the
function calls it. -/
theorem name?_role_call : (ctx.role introduced t).name? .call =
    if !Token.isLocal t && !ctx.metadata.hasGlobal t && !ctx.frequency.isCommonCall t &&
      ctx.callees.contains t then some t
    else none := by
  unfold role
  split_ifs <;> (try split) <;> simp_all [Role.name?]

end CollectContext

namespace Function

variable {f : Function} {o : Occurrence} {metadata : Metadata} {frequency : FrequencyTables}

/-- The role of an identifier says what the metadata lacks just where it lacks it. -/
theorem gap?_role : ((f.collectContext metadata frequency).role (f.introducedAt o) o.token).gap?
    o.instruction = f.gap? metadata frequency o := by
  cases hm : metadata.typeOf? o.token <;>
    grind [CollectContext.role, collectContext, gap?, isFree, isOpen, Role.gap?]

/-- A missing global is reported where no table and no list has it. -/
theorem mem_gaps_iff (ho : o ∈ f.occurrences) (hg : Token.isGlobal o.token = true) :
    o.token ∈ (f.occurrences.filterMap (f.gap? metadata frequency)).map Gap.name ↔
      (!metadata.hasGlobal o.token && !frequency.isCommonCall o.token &&
        !f.callees.contains o.token) = true := by
  have hlocal : Token.isLocal o.token = false := by
    rw [isGlobal_eq_of_mem ho] at hg
    simpa using hg
  rw [List.mem_map]
  constructor
  · rintro ⟨g, hgap, hname⟩
    obtain ⟨o', ho', hgap⟩ := List.mem_filterMap.mp hgap
    rw [gap?] at hgap
    split_ifs at hgap with hl htype hunknown
    · -- a missing type has a local name
      obtain rfl := Option.some.inj hgap
      have hsuffix := Token.isLocal_stripSuffix (isSymbol_of_mem_occurrences ho') hl
      rw [show Token.stripSuffix o'.token = o.token from hname, hlocal] at hsuffix
      cases hsuffix
    · obtain rfl := Option.some.inj hgap
      rw [← show o'.token = o.token from hname]
      exact hunknown
  · intro hmissing
    refine ⟨⟨o.instruction, "global", o.token⟩, List.mem_filterMap.mpr ⟨o, ho, ?_⟩, rfl⟩
    rw [gap?, hlocal, if_neg Bool.false_ne_true, if_pos hmissing]

end Function

/-! ### What a collection holds -/

section

variable {c : Collection} {f : Function} {o : Occurrence} {metadata : Metadata}
  {frequency : FrequencyTables}

/-- A global name is exactly one of: a global, a common callee, another callee, a missing name. -/
theorem count_true_eq_one (hasGlobal isCommon isCallee : Bool) :
    [hasGlobal, !hasGlobal && isCommon, !hasGlobal && !isCommon && isCallee,
      !hasGlobal && !isCommon && !isCallee].count true = 1 := by
  cases hasGlobal <;> cases isCommon <;> cases isCallee <;> rfl

variable (h : c.FirstSeen (f.roles (f.collectContext metadata frequency)))

include h

namespace Collection.FirstSeen

/-- The variables are the local names that the function defines and that are no parameters or
labels. -/
theorem names_vars : c.symbols.vars.names =
    f.firstSeen fun o => f.isOpen o && f.definedVars.contains o.token := by
  rw [h.names .var _ rfl]
  exact Function.filterMap_name?_roles fun o _ => CollectContext.name?_role_var

/-- The types are those that the other local names stand for, each where it is first seen. -/
theorem names_structs : c.symbols.structs.names =
    ((f.occurrences.filter f.isFree).filterMap fun o => metadata.typeOf? o.token).eraseDups := by
  rw [h.names .type _ rfl, Function.roles, List.filterMap_map, List.filterMap_filter]
  congr 1
  refine List.filterMap_congr fun o _ => ?_
  rw [Function.comp_apply, CollectContext.name?_role_type]
  rfl

/-- The globals are the global names of the metadata, if globals are noted at all. -/
theorem names_globals : c.symbols.globals.map RenameTable.names =
    if c.symbols.globals.isSome then
      some (f.firstSeen fun o => Token.isGlobal o.token && metadata.hasGlobal o.token)
    else none := by
  cases htable : c.symbols.globals with
  | none => rfl
  | some table =>
    have hnames := h.names .global table.names (by rw [SymbolTables.noted, htable]; rfl)
    rw [Option.map_some, hnames, Option.isSome_some, if_pos rfl]
    refine congrArg some (Function.filterMap_name?_roles fun o ho => ?_)
    rw [CollectContext.name?_role_global, Function.isGlobal_eq_of_mem ho]
    rfl

/-- The calls that keep their names are the common ones that the metadata does not have. -/
theorem exemptCalls_eq : c.symbols.exemptCalls = f.firstSeen fun o => Token.isGlobal o.token &&
    !metadata.hasGlobal o.token && frequency.isCommonCall o.token := by
  rw [h.names .exemptCall _ rfl]
  refine Function.filterMap_name?_roles fun o ho => ?_
  rw [CollectContext.name?_role_exemptCall, Function.isGlobal_eq_of_mem ho]
  rfl

/-- The calls are the callees that are not common and that the metadata does not have. -/
theorem names_calls : c.symbols.calls.names = f.firstSeen fun o => Token.isGlobal o.token &&
    !metadata.hasGlobal o.token && !frequency.isCommonCall o.token &&
    f.callees.contains o.token := by
  rw [h.names .call _ rfl]
  refine Function.filterMap_name?_roles fun o ho => ?_
  rw [CollectContext.name?_role_call, Function.isGlobal_eq_of_mem ho]
  rfl

/-- There is a warning for each name that the metadata lacks, where it is first missed. -/
theorem diagnostics_eq : c.diagnostics =
    (firstBy Gap.name (f.occurrences.filterMap (f.gap? metadata frequency))).map
      Gap.diagnostic := by
  rw [h.gaps.diagnostics, Function.roles, List.filterMap_map]
  congr 2
  exact List.filterMap_congr fun o _ => Function.gap?_role

/-- A global name is a global, a common callee, another callee, or missing, and never two of
these. -/
theorem count_global (ho : o ∈ f.occurrences) (hg : Token.isGlobal o.token = true) :
    [metadata.hasGlobal o.token, c.symbols.exemptCalls.contains o.token,
      c.symbols.calls.names.contains o.token,
      ((firstBy Gap.name (f.occurrences.filterMap (f.gap? metadata frequency))).map
        Gap.name).contains o.token].count true = 1 := by
  have hexempt : c.symbols.exemptCalls.contains o.token =
      (Token.isGlobal o.token && !metadata.hasGlobal o.token &&
        frequency.isCommonCall o.token) := by
    rw [h.exemptCalls_eq]
    exact Function.contains_firstSeen (fun t =>
      Token.isGlobal t && !metadata.hasGlobal t && frequency.isCommonCall t) ho
  have hcalls : c.symbols.calls.names.contains o.token =
      (Token.isGlobal o.token && !metadata.hasGlobal o.token &&
        !frequency.isCommonCall o.token && f.callees.contains o.token) := by
    rw [h.names_calls]
    exact Function.contains_firstSeen (fun t => Token.isGlobal t && !metadata.hasGlobal t &&
      !frequency.isCommonCall t && f.callees.contains t) ho
  have hgaps : ((firstBy Gap.name (f.occurrences.filterMap (f.gap? metadata frequency))).map
      Gap.name).contains o.token = (!metadata.hasGlobal o.token &&
        !frequency.isCommonCall o.token && !f.callees.contains o.token) := by
    rw [Bool.eq_iff_iff, List.contains_iff_mem, mem_map_firstBy, Function.mem_gaps_iff ho hg]
  rw [hexempt, hcalls, hgaps, hg, Bool.true_and]
  exact count_true_eq_one ..

end Collection.FirstSeen

end

/-- What is collected from a function, for any metadata, common names and configuration. Labels are
known in the instructions only, so none counts as such in the declarations of the parameters.

* Parameters and labels are numbered in their order.
* The variables are the local names that the function defines, unless they are parameters or labels.
* The other local names stand for types: with the type that the metadata knows, if there is one.
* A global name is a global, a common callee, another callee, or missing, and never two of these.
* Each missing name is reported where it is missed first, a type by its name without suffix. -/
theorem collectSymbols_firstSeen (metadata : Metadata) (frequency : FrequencyTables)
    (config : Config.Canonicalize) (f : Function) :
    let s := (collectSymbols metadata frequency config f).1
    let gaps := firstBy Gap.name (f.occurrences.filterMap (f.gap? metadata frequency))
    s.params.names = f.declaredParams.eraseDups ∧
      s.labels.names = f.labelNames.eraseDups ∧
      s.vars.names = f.firstSeen (fun o => f.isOpen o && f.definedVars.contains o.token) ∧
      s.structs.names =
        ((f.occurrences.filter f.isFree).filterMap fun o => metadata.typeOf? o.token).eraseDups ∧
      s.globals.map RenameTable.names =
        (if config.renameGlobals then
          some (f.firstSeen fun o => Token.isGlobal o.token && metadata.hasGlobal o.token)
        else none) ∧
      s.exemptCalls = f.firstSeen (fun o => Token.isGlobal o.token &&
        !metadata.hasGlobal o.token && frequency.isCommonCall o.token) ∧
      s.calls.names = f.firstSeen (fun o => Token.isGlobal o.token &&
        !metadata.hasGlobal o.token && !frequency.isCommonCall o.token &&
        f.callees.contains o.token) ∧
      (collectSymbols metadata frequency config f).2 = gaps.map Gap.diagnostic ∧
      ∀ o ∈ f.occurrences, Token.isGlobal o.token = true →
        [metadata.hasGlobal o.token, s.exemptCalls.contains o.token, s.calls.names.contains o.token,
          (gaps.map Gap.name).contains o.token].count true = 1 := by
  intro s gaps
  obtain ⟨c, hc, hparams, hlabels, hrename, hfirst⟩ :=
    exists_collection metadata frequency config f
  have hs : s = c.symbols := congrArg Prod.fst hc
  rw [hs, hc, ← hrename, hparams, hlabels]
  exact ⟨RenameTable.names_insertAll rfl _, RenameTable.names_insertAll rfl _, hfirst.names_vars,
    hfirst.names_structs, hfirst.names_globals, hfirst.exemptCalls_eq, hfirst.names_calls,
    hfirst.diagnostics_eq,
    fun _ ho hg => hfirst.count_global ho hg⟩

/-- A function that has a type and a label of one name, one that has a variable as well, and one
that defines a global name. -/
def labelledTypes : List Function :=
  [{ name := "f", params := ["%struct.node %0"], blocks := [⟨"struct.node", []⟩] },
   { name := "f", params := ["%x %0"],
     blocks := [⟨"x", [{ id := 1, opcode := .other "add", text := "%x = add i32 1, 2",
                         definedVar := some "%x" }]⟩] },
   { name := "f",
     blocks := [⟨"%0", [{ id := 1, opcode := .other "add", text := "@x = add i32 1, 2",
                          definedVar := some "@x" }]⟩] }]

/-- In the declarations the label counts as no label: the type is missed, and the variable is noted.
The global name is no variable. -/
theorem collectSymbols_labelledTypes :
    (labelledTypes.map fun f =>
      ((collectSymbols {} {} {} f).1.labels.names, (collectSymbols {} {} {} f).1.vars.names,
        (collectSymbols {} {} {} f).2.map Diagnostic.line)) =
      [(["%struct.node"], [], ["[metadata_gap] struct `%struct.node` not found in metadata"]),
       (["%x"], ["%x"], []),
       (["%0"], [], ["[metadata_gap] #1: global `@x` not found in metadata"])] := by
  decide +kernel

end InstrGraph
