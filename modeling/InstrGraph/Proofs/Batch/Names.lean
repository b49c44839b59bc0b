import InstrGraph.Config.Validation
import InstrGraph.Proofs.Files.Components
import InstrGraph.Proofs.Files.FunctionNames
import InstrGraph.Proofs.Files.Units

/-!
# The names of outputs

Every output of a run is a name in the output directory: that of a graph is the stem of its unit,
an underscore, the name of its function as a part of a file name, and the suffix of graphs.

* `isName_graphName`, `isName_canonicalName`: they are names, so an output is neither the output
  directory nor anywhere else.
* `outputs_share_path_iff`: when two outputs of different units share their path. Nothing marks
  where the stem ends, so a stem that is continued with an underscore is another stem.
-/

namespace InstrGraph

open InstrGraph.Path (IsName join)

/-! ### The suffixes of a sensible configuration -/

namespace Config

/-- A suffix that passes the check is not empty and has no slash. -/
theorem suffix_of_validateSuffixes {suffixes : List (String × String)}
    (h : validateSuffixes suffixes = .ok ()) (field : String) {suffix : String}
    (hmem : (field, suffix) ∈ suffixes) : suffix ≠ "" ∧ '/' ∉ suffix.toList := by
  induction suffixes with
  | nil => cases hmem
  | cons head rest ih =>
    obtain ⟨f, s⟩ := head
    rw [validateSuffixes] at h
    split at h
    · cases h
    · rename_i hne
      split at h
      · cases h
      · rename_i hslash
        rcases List.mem_cons.mp hmem with heq | hmem
        · obtain ⟨-, rfl⟩ := Prod.mk.inj heq
          refine ⟨by simpa using hne, fun hs => hslash ?_⟩
          exact List.any_eq_true.mpr ⟨'/', hs, by simp⟩
        · exact ih h hmem

/-- Files that pass the check have suffixes that do. -/
theorem validateSuffixes_of_validate {files : Files} (h : files.validate = .ok ()) :
    validateSuffixes
      [("io.summary_suffix", files.summarySuffix), ("io.globals_suffix", files.globalsSuffix),
        ("io.structs_suffix", files.structsSuffix), ("io.iscg_suffix", files.graphSuffix)] =
      .ok () := by
  rw [Files.validate] at h
  generalize hv : validateSuffixes _ = r at h ⊢
  cases r with
  | error e => simp [bind, Except.bind] at h
  | ok u => rfl

/-- The suffix of graphs has no slash if the check is passed. -/
theorem Files.graphSuffix_noSlash {files : Files} (h : files.validate = .ok ()) :
    '/' ∉ files.graphSuffix.toList :=
  (suffix_of_validateSuffixes (validateSuffixes_of_validate h) "io.iscg_suffix" (by simp)).2

variable {config : Config} (h : config.validate = .ok ())

include h

/-- A configuration that passes the check has files that do. -/
theorem files_validate : config.files.validate = .ok () := by
  rw [validate] at h
  cases hc : config.canonicalize.validate with
  | error e => simp [hc, bind, Except.bind] at h
  | ok u =>
    cases hf : config.frequency.validate with
    | error e => simp [hc, hf, bind, Except.bind] at h
    | ok u =>
      cases hp : config.parallel.validate with
      | error e => simp [hc, hf, hp, bind, Except.bind] at h
      | ok u => simpa [hc, hf, hp, bind, Except.bind] using h

/-- The suffix of graphs has no slash in a configuration that passes the check. -/
theorem graphSuffix_noSlash : '/' ∉ config.files.graphSuffix.toList :=
  Files.graphSuffix_noSlash (files_validate h)

/-- The suffix of summaries has no slash in a configuration that passes the check. -/
theorem summarySuffix_noSlash : '/' ∉ config.files.summarySuffix.toList :=
  (suffix_of_validateSuffixes (validateSuffixes_of_validate (files_validate h))
    "io.summary_suffix" (by simp)).2

end Config

/-! ### The name of a function as a part of a file name -/

/-- The part of a file name for a function has no slash. -/
theorem noSlash_fileComponent (name : String) : '/' ∉ (fileComponent name).toList := by
  rw [fileComponent_eq]
  exact fun h =>
    (isFilePart_fileComponentWith isHashPart_hashPart name).no_reserved '/' h (by decide)

/-- A name of safe characters that begins like a name stands for itself. -/
theorem fileComponent_eq_self {name : String} (hat : name.toList.head? ≠ some '@')
    (hsafe : ∀ c ∈ name.toList, isUnsafeInName c = false)
    (hne : name ≠ "" ∧ name ≠ "." ∧ name ≠ "..") : fileComponent name = name := by
  rw [fileComponent_eq]
  exact fileComponentWith_eq_self hat (isFilePart_iff.mpr ⟨hne, hsafe⟩)

/-! ### The names of outputs -/

/-- The name of the graph of a function. -/
def graphName (stem function : String) (files : Config.Files) : String :=
  stem ++ "_" ++ fileComponent function ++ files.graphSuffix

/-- The name of the canonical functions of a unit. -/
def canonicalName (stem : String) : String := stem ++ "_canonical.json"

/-- The name of the log of a run. -/
def logName : String := "errors.json"

section

variable {config : Config} {stem function : String}

/-- The name of a graph has an underscore, so it is no name for a directory. -/
theorem underscore_mem_graphName (stem function : String) (files : Config.Files) :
    '_' ∈ (graphName stem function files).toList := by
  simp [graphName]

/-- The name of canonical functions has an underscore, so it is no name for a directory. -/
theorem underscore_mem_canonicalName (stem : String) : '_' ∈ (canonicalName stem).toList := by
  simp [canonicalName]

/-- The name of a graph is a name of a file if neither its suffix nor the stem has a slash. -/
theorem isName_graphName_of_noSlash {files : Config.Files}
    (hsuffix : '/' ∉ files.graphSuffix.toList) (hstem : '/' ∉ stem.toList) (function : String) :
    IsName (graphName stem function files) := by
  refine Path.isName_of_underscore (underscore_mem_graphName ..) ?_
  simp only [graphName, String.toList_append, List.mem_append, not_or]
  exact ⟨⟨⟨hstem, by decide⟩, noSlash_fileComponent function⟩, hsuffix⟩

/-- The name of a graph is a name of a file if the check is passed and the stem has no slash. -/
theorem isName_graphName (hvalid : config.validate = .ok ()) (hstem : '/' ∉ stem.toList)
    (function : String) : IsName (graphName stem function config.files) :=
  isName_graphName_of_noSlash (Config.graphSuffix_noSlash hvalid) hstem function

/-- The name of canonical functions is a name of a file if the stem has no slash. -/
theorem isName_canonicalName (hstem : '/' ∉ stem.toList) : IsName (canonicalName stem) := by
  refine Path.isName_of_underscore (underscore_mem_canonicalName stem) ?_
  simp only [canonicalName, String.toList_append, List.mem_append, not_or]
  exact ⟨hstem, by decide⟩

/-- The name of the log is a name of a file. -/
theorem isName_logName : IsName logName := ⟨by decide, by decide, by decide, by decide⟩

/-- A graph is saved under its name in the output directory. -/
theorem graphPath_eq_join (outDir stem function : String) (files : Config.Files) :
    graphPath outDir stem function files = join outDir (graphName stem function files) := rfl

/-- Canonical functions are saved under their name in the output directory. -/
theorem canonicalPath_eq_join (outDir stem : String) :
    canonicalPath outDir stem = join outDir (canonicalName stem) := rfl

/-- The log is saved under its name in the output directory. -/
theorem errorsPath_eq_join (outDir : String) : errorsPath outDir = join outDir logName := rfl

end

/-! ### Outputs that share their path -/

/-- Two texts behind stems make one text with them: the stems are the same and the texts too, or
one stem is the other one continued with an underscore, and the text behind that is longer by the
same. -/
def Overlap (stem part stem' part' : String) : Prop :=
  stem = stem' ∧ part = part' ∨
    (∃ x, stem' = stem ++ "_" ++ x ∧ part = x ++ "_" ++ part') ∨
    ∃ x, stem = stem' ++ "_" ++ x ∧ part' = x ++ "_" ++ part

/-- Two texts behind stems make one text just if they overlap with their stems. -/
theorem append_underscore_eq_iff {stem part stem' part' : String} :
    stem ++ "_" ++ part = stem' ++ "_" ++ part' ↔ Overlap stem part stem' part' := by
  constructor
  · intro h
    have hlist : stem.toList ++ '_' :: part.toList = stem'.toList ++ '_' :: part'.toList := by
      simpa using congrArg String.toList h
    rcases List.append_eq_append_iff.mp hlist with ⟨cs, hstem, hpart⟩ | ⟨cs, hstem, hpart⟩
    · cases cs with
      | nil =>
        rw [List.append_nil] at hstem
        exact .inl ⟨String.toList_inj.mp hstem.symm, String.toList_inj.mp (by simpa using hpart)⟩
      | cons c cs =>
        obtain ⟨rfl, hrest⟩ : '_' = c ∧ part.toList = cs ++ '_' :: part'.toList := by
          simpa using hpart
        exact .inr (.inl ⟨String.ofList cs, String.toList_inj.mp (by simp [hstem]),
          String.toList_inj.mp (by simp [hrest])⟩)
    · cases cs with
      | nil =>
        rw [List.append_nil] at hstem
        exact .inl ⟨String.toList_inj.mp hstem, String.toList_inj.mp (by simpa using hpart.symm)⟩
      | cons c cs =>
        obtain ⟨rfl, hrest⟩ : '_' = c ∧ part'.toList = cs ++ '_' :: part.toList := by
          simpa using hpart
        exact .inr (.inr ⟨String.ofList cs, String.toList_inj.mp (by simp [hstem]),
          String.toList_inj.mp (by simp [hrest])⟩)
  · rintro (⟨rfl, rfl⟩ | ⟨x, rfl, rfl⟩ | ⟨x, rfl, rfl⟩)
    · rfl
    · simp [String.append_assoc]
    · simp [String.append_assoc]

section

variable {config : Config}

/-- Two graphs have one name just if the names of their functions overlap with the stems. -/
theorem graphName_eq_iff {stem stem' function function' : String} :
    graphName stem function config.files = graphName stem' function' config.files ↔
      Overlap stem (fileComponent function) stem' (fileComponent function') := by
  rw [← append_underscore_eq_iff, graphName, graphName]
  constructor
  · intro h
    have hlist : (stem ++ "_" ++ fileComponent function).toList ++ config.files.graphSuffix.toList =
        (stem' ++ "_" ++ fileComponent function').toList ++ config.files.graphSuffix.toList := by
      simpa using congrArg String.toList h
    exact String.toList_inj.mp (List.append_cancel_right hlist)
  · intro h
    rw [h]

/-- If one of two suffixes ends the other one, there are a graph and a unit with one name. -/
theorem exists_graphName_eq_canonicalName (hvalid : config.validate = .ok ())
    (h : config.files.graphSuffix.toList <:+ "_canonical.json".toList ∨
      "_canonical.json".toList <:+ config.files.graphSuffix.toList) :
    ∃ function stem, (∃ c ∈ stem.toList, c ≠ '.') ∧ '/' ∉ stem.toList ∧
      graphName "a" function config.files = canonicalName stem := by
  rcases h with ⟨front, hfront⟩ | ⟨front, hfront⟩
  · have hall : ("_canonical.json".toList.all fun c => !isUnsafeInName c) = true := rfl
    have hsafe : ∀ c ∈ "_canonical.json".toList, isUnsafeInName c = false := fun c hc => by
      simpa using List.all_eq_true.mp hall c hc
    have hcomponent : fileComponent (String.ofList ('b' :: front)) =
        String.ofList ('b' :: front) := by
      refine fileComponent_eq_self (by simp) ?_ ?_
      · intro c hc
        rw [String.toList_ofList] at hc
        rcases List.mem_cons.mp hc with rfl | hc
        · decide
        · exact hsafe c (hfront ▸ List.mem_append_left _ hc)
      · refine ⟨?_, ?_, ?_⟩ <;> intro he <;> simpa using congrArg String.toList he
    refine ⟨String.ofList ('b' :: front), "a_b", ⟨'a', by decide, by decide⟩, by decide,
      String.toList_inj.mp ?_⟩
    rw [graphName, canonicalName, hcomponent]
    simp only [String.toList_append, String.toList_ofList, List.append_assoc, List.cons_append,
      hfront]
    rfl
  · have hslash : '/' ∉ front := fun hs =>
      Config.graphSuffix_noSlash hvalid (hfront ▸ List.mem_append_left _ hs)
    refine ⟨"b", String.ofList ("a_b".toList ++ front), ⟨'a', by simp, by decide⟩, ?_,
      String.toList_inj.mp ?_⟩
    · simpa using hslash
    · have hcomponent : fileComponent "b" = "b" := rfl
      rw [graphName, canonicalName, hcomponent]
      simp [← hfront]

/-- A summary is found by its stem and the suffix, if the stem is more than dots and has no
slash. -/
theorem stem?_append {stem : String} (hvalid : config.validate = .ok ())
    (hdot : ∃ c ∈ stem.toList, c ≠ '.') (hslash : '/' ∉ stem.toList) :
    UnitPaths.stem? (stem ++ config.files.summarySuffix) config.files.summarySuffix =
      some stem := by
  obtain ⟨c, hc, hcdot⟩ := hdot
  have hname : IsName (stem ++ config.files.summarySuffix) := by
    have hmem : c ∈ (stem ++ config.files.summarySuffix).toList := by simp [hc]
    refine ⟨fun he => ?_, fun he => ?_, fun he => ?_, ?_⟩
    · simp [he] at hmem
    · exact hcdot (by simpa [he] using hmem)
    · exact hcdot (by simpa [he] using hmem)
    · simp [hslash, Config.summarySuffix_noSlash hvalid]
  refine UnitPaths.stem?_eq_some_iff.mpr ⟨?_, fun he => by simp [he] at hc⟩
  have hlist : (stem ++ config.files.summarySuffix).toList =
      [] ++ (stem ++ config.files.summarySuffix).toList := rfl
  rw [Path.fileName?, Path.getLast?_components hlist (.inl rfl) hname]

end

/-- When two outputs of units share their path. Graphs of functions of two units do just if their
stems and the names of the functions overlap, for nothing marks where a stem ends: so never if
neither stem begins with the other one and an underscore, and the stems differ. A graph has the
path of canonical functions for some units and functions just if the suffix of graphs ends with
that of canonical functions, or ends it. -/
theorem outputs_share_path_iff {config : Config} (hvalid : config.validate = .ok ())
    (outDir : String) :
    (∀ summary summary' stem stem',
      UnitPaths.stem? summary config.files.summarySuffix = some stem →
      UnitPaths.stem? summary' config.files.summarySuffix = some stem' →
      ∀ f f', Path.components (graphPath outDir stem f config.files) =
          Path.components (graphPath outDir stem' f' config.files) ↔
        Overlap stem (fileComponent f) stem' (fileComponent f')) ∧
    ((∃ summary summary' stem stem' f,
      UnitPaths.stem? summary config.files.summarySuffix = some stem ∧
      UnitPaths.stem? summary' config.files.summarySuffix = some stem' ∧
      Path.components (graphPath outDir stem f config.files) =
        Path.components (canonicalPath outDir stem')) ↔
      (config.files.graphSuffix.toList <:+ "_canonical.json".toList ∨
        "_canonical.json".toList <:+ config.files.graphSuffix.toList)) := by
  constructor
  · intro summary summary' stem stem' hstem hstem' f f'
    rw [graphPath_eq_join, graphPath_eq_join, Path.components_join_inj
      (isName_graphName hvalid (UnitPaths.noSlash_of_stem? hstem) f)
      (isName_graphName hvalid (UnitPaths.noSlash_of_stem? hstem') f'), graphName_eq_iff]
  · constructor
    · rintro ⟨summary, summary', stem, stem', f, hstem, hstem', h⟩
      rw [graphPath_eq_join, canonicalPath_eq_join, Path.components_join_inj
        (isName_graphName hvalid (UnitPaths.noSlash_of_stem? hstem) f)
        (isName_canonicalName (UnitPaths.noSlash_of_stem? hstem'))] at h
      have hlist : (stem ++ "_" ++ fileComponent f).toList ++ config.files.graphSuffix.toList =
          stem'.toList ++ "_canonical.json".toList := by
        simpa [graphName, canonicalName] using congrArg String.toList h
      exact List.suffix_or_suffix_of_suffix ⟨_, hlist⟩ ⟨_, rfl⟩
    · intro h
      obtain ⟨f, stem, hdot, hslash, hname⟩ := exists_graphName_eq_canonicalName hvalid h
      refine ⟨_, _, "a", stem, f,
        stem?_append hvalid ⟨'a', by decide, by decide⟩ (by decide),
        stem?_append hvalid hdot hslash, ?_⟩
      rw [graphPath_eq_join, canonicalPath_eq_join, hname]

/-- With the usual suffixes two units can share the path of a graph, but no graph has the path of
canonical functions. -/
theorem outputs_share_path_of_defaults :
    ({} : Config).validate = .ok () ∧
      Path.components (graphPath "out" "a" "b_c" {}) =
        Path.components (graphPath "out" "a_b" "c" {}) ∧
      ¬ ∃ summary summary' stem stem' f,
        UnitPaths.stem? summary "_info_summary.json" = some stem ∧
        UnitPaths.stem? summary' "_info_summary.json" = some stem' ∧
        Path.components (graphPath "out" stem f {}) =
          Path.components (canonicalPath "out" stem') := by
  have hvalid : ({} : Config).validate = .ok () := rfl
  refine ⟨hvalid, ?_, ?_⟩
  · have ha : UnitPaths.stem? "in/a_info_summary.json" "_info_summary.json" = some "a" :=
      rfl
    have hb : UnitPaths.stem? "in/a_b_info_summary.json" "_info_summary.json" = some "a_b" :=
      rfl
    refine ((outputs_share_path_iff hvalid "out").1 _ _ _ _ ha hb "b_c" "c").mpr ?_
    exact .inr (.inl ⟨"b", rfl, rfl⟩)
  · intro h
    exact absurd ((outputs_share_path_iff hvalid "out").2.mp h) (by decide)

/-- Two summaries, whose functions have one file for their graphs. -/
def clashingUnits : FileTree where
  entries :=
    [(["summaries"], .directory),
      (["summaries", "a_b_info_summary.json"], .file "[[\"c\",[],[]]]"),
      (["summaries", "a_info_summary.json"], .file "[[\"b_c\",[],[]]]")]

/-- Both summaries are found, and their functions share the path of their graphs. -/
theorem graphPath_eq_of_clashingUnits :
    ({} : Config).validate = .ok () ∧
      clashingUnits.unitsBelow "summaries" ({} : Config).files.summarySuffix =
        .ok ["summaries/a_b_info_summary.json", "summaries/a_info_summary.json"] ∧
      UnitPaths.stem? "summaries/a_b_info_summary.json" ({} : Config).files.summarySuffix =
        some "a_b" ∧
      UnitPaths.stem? "summaries/a_info_summary.json" ({} : Config).files.summarySuffix =
        some "a" ∧
      clashingUnits.loadSummary "summaries/a_b_info_summary.json" = .ok [{ name := "c" }] ∧
      clashingUnits.loadSummary "summaries/a_info_summary.json" = .ok [{ name := "b_c" }] ∧
      graphPath "out" "a_b" "c" ({} : Config).files =
        graphPath "out" "a" "b_c" ({} : Config).files := by
  have hcomputed : ({} : Config).validate = .ok () ∧
      clashingUnits.ListsInOrder "summaries" ({} : Config).files.summarySuffix ["summaries"]
        ["summaries/a_b_info_summary.json", "summaries/a_info_summary.json"] ∧
      UnitPaths.stem? "summaries/a_b_info_summary.json" ({} : Config).files.summarySuffix =
        some "a_b" ∧
      UnitPaths.stem? "summaries/a_info_summary.json" ({} : Config).files.summarySuffix =
        some "a" ∧
      clashingUnits.loadSummary "summaries/a_b_info_summary.json" = .ok [{ name := "c" }] ∧
      clashingUnits.loadSummary "summaries/a_info_summary.json" = .ok [{ name := "b_c" }] ∧
      graphPath "out" "a_b" "c" ({} : Config).files =
        graphPath "out" "a" "b_c" ({} : Config).files := by
    decide +kernel
  exact ⟨hcomputed.1, hcomputed.2.1.unitsBelow_eq, hcomputed.2.2⟩

end InstrGraph
