import InstrGraph.Proofs.Batch.Names
import InstrGraph.Proofs.Files.Writers
import InstrGraph.Proofs.Text.Pieces
import Mathlib.Data.List.Perm.Basic

/-!
# Saving the graphs of a unit side by side

The functions of a unit are worked on side by side, so their graphs are saved by writers that take
their turns in any order. Their temporary files replace what is behind the last dot of the name, and
that dot can be one in the name of a function.

* `temporariesApart_iff_keepsApart`: with which suffixes of graphs the temporary files of a unit
  keep apart, whatever its functions are called. The usual one is among them.
* `graphs_saved_side_by_side_iff`: two graphs are there in the end in every order of turns just if
  their temporary files keep apart.
-/

namespace InstrGraph

open InstrGraph.Path (IsName join)
open FileTree (BothSaved Jobs TemporariesApart Writer)

/-! ### Suffixes that keep writers apart -/

/-- What a suffix of graphs has to be for the writers of a unit never to meet: it holds a dot, so
that the temporary file has what is in front of it, and the temporary file does not end with it. -/
def KeepsApart (suffix : String) : Prop :=
  '.' ∈ suffix.toList ∧ ¬ suffix.toList <:+ (FileTree.temporaryName ("_" ++ suffix)).toList

instance (suffix : String) : Decidable (KeepsApart suffix) :=
  inferInstanceAs (Decidable (_ ∧ _))

/-- A text with a dot is determined by what is in front of its last dot and what is behind it. -/
theorem append_dot_inj {as bs xs ys : List Char} (hxs : '.' ∉ xs) (hys : '.' ∉ ys)
    (h : as ++ '.' :: xs = bs ++ '.' :: ys) : as = bs ∧ xs = ys := by
  rcases List.append_eq_append_iff.mp h with ⟨cs, hb, hx⟩ | ⟨cs, ha, hy⟩
  · cases cs with
    | nil => exact ⟨by simpa using hb.symm, by simpa using hx⟩
    | cons c cs =>
      obtain ⟨-, hx⟩ := List.cons.inj hx
      exact absurd (hx ▸ by simp) hxs
  · cases cs with
    | nil => exact ⟨by simpa using ha, by simpa using hy.symm⟩
    | cons c cs =>
      obtain ⟨-, hy⟩ := List.cons.inj hy
      exact absurd (hy ▸ by simp) hys

/-- The temporary file of a name keeps what is in front of its last dot. -/
theorem toList_temporaryName {name : String} {front ext : List Char}
    (hname : name.toList = front ++ '.' :: ext) (hfront : front ≠ []) (hext : '.' ∉ ext) :
    (FileTree.temporaryName name).toList = front ++ ".json.tmp".toList := by
  have hdrop : name.toList.reverse.dropWhile (· != '.') = '.' :: front.reverse := by
    have hall : ∀ c ∈ ext.reverse, (c != '.') = true := fun c hc => by
      simpa using fun heq : c = '.' => hext (heq ▸ List.mem_reverse.mp hc)
    rw [hname, List.reverse_append, List.reverse_cons, List.append_assoc,
      List.dropWhile_append_of_pos hall]
    rfl
  obtain ⟨c, cs, hcs⟩ := List.exists_cons_of_ne_nil (List.reverse_ne_nil_iff.mpr hfront)
  have hstem : (Path.stem name).toList = front := by
    rw [Path.stem, hdrop, hcs]
    simp only [String.toList_ofList]
    rw [← hcs, List.reverse_reverse]
  rw [FileTree.temporaryName, String.toList_append, String.toList_append, hstem]
  simp

/-- A text with a dot, cut at its last one. -/
theorem exists_last_dot {suffix : String} (h : '.' ∈ suffix.toList) :
    ∃ front ext, suffix.toList = front ++ '.' :: ext ∧ '.' ∉ ext := by
  obtain ⟨as, bs, hsplit, has⟩ := List.eq_append_cons_of_mem (List.mem_reverse.mpr h)
  refine ⟨bs.reverse, as.reverse, ?_, by simpa using has⟩
  rw [← List.reverse_reverse suffix.toList, hsplit]
  simp

/-- An extension without a dot is shorter than that of temporary files. -/
theorem not_temporary_suffix {front ext : List Char} (hext : '.' ∉ ext) :
    ¬ front ++ ".json.tmp".toList <:+ front ++ '.' :: ext := by
  intro h
  have hlength : ".tmp".toList.length ≤ ext.length := by
    have := h.length_le
    simp at this ⊢
    omega
  have htmp : ".tmp".toList <:+ front ++ '.' :: ext :=
    List.IsSuffix.trans ⟨front ++ ".json".toList, by simp⟩ h
  have hend : ext <:+ front ++ '.' :: ext := ⟨front ++ ['.'], by simp⟩
  have hmem : '.' ∈ ".tmp".toList := by decide
  exact hext ((List.suffix_of_suffix_length_le htmp hend hlength).mem hmem)

section

variable {config : Config} {stem : String}

/-- The name of a graph in front of the suffix. -/
def graphFront (stem function : String) : List Char :=
  (stem ++ "_" ++ fileComponent function).toList

/-- The name of a graph is what is in front of the suffix, and the suffix. -/
theorem toList_graphName (stem function : String) (files : Config.Files) :
    (graphName stem function files).toList =
      graphFront stem function ++ files.graphSuffix.toList := by
  simp [graphName, graphFront]

/-- Something is in front of the suffix. -/
theorem graphFront_ne_nil (stem function : String) : graphFront stem function ≠ [] := by
  simp [graphFront]

/-- The temporary file of a graph keeps what is in front of the last dot of the suffix. -/
theorem toList_temporaryName_graphName {function : String} {files : Config.Files}
    {front ext : List Char} (hsuffix : files.graphSuffix.toList = front ++ '.' :: ext)
    (hext : '.' ∉ ext) : (FileTree.temporaryName (graphName stem function files)).toList =
      graphFront stem function ++ (front ++ ".json.tmp".toList) := by
  have hname : (graphName stem function files).toList =
      (graphFront stem function ++ front) ++ '.' :: ext := by
    rw [toList_graphName, hsuffix, List.append_assoc]
  rw [toList_temporaryName hname (by simp [graphFront_ne_nil]) hext, List.append_assoc]

/-- The temporary file of the shortest name with a suffix. -/
theorem toList_temporaryName_suffix {files : Config.Files} {front ext : List Char}
    (hsuffix : files.graphSuffix.toList = front ++ '.' :: ext) (hext : '.' ∉ ext) :
    (FileTree.temporaryName ("_" ++ files.graphSuffix)).toList =
      '_' :: (front ++ ".json.tmp".toList) := by
  have hname : ("_" ++ files.graphSuffix).toList = ('_' :: front) ++ '.' :: ext := by
    simp [hsuffix]
  rw [toList_temporaryName hname (by simp) hext, List.cons_append]

/-- With a suffix that keeps writers apart, no temporary file has the name of a graph. -/
theorem temporaryName_graphName_ne {f g : String} (h : KeepsApart config.files.graphSuffix) :
    FileTree.temporaryName (graphName stem f config.files) ≠ graphName stem g config.files := by
  obtain ⟨hdot, hsuffix⟩ := h
  obtain ⟨front, ext, hcut, hext⟩ := exists_last_dot hdot
  intro heq
  have hlist := congrArg String.toList heq
  rw [toList_temporaryName_graphName hcut hext, toList_graphName] at hlist
  rcases List.suffix_or_suffix_of_suffix ⟨_, hlist⟩ ⟨_, rfl⟩ with hlong | hshort
  · rw [hcut] at hlong
    exact not_temporary_suffix hext hlong
  · refine hsuffix ?_
    rw [toList_temporaryName_suffix hcut hext]
    exact hshort.trans (List.suffix_cons _ _)

/-- If the name of a function can be used as it is, it stands behind the stem and an underscore. -/
theorem graphFront_of_fileComponent {function : String} (h : fileComponent function = function) :
    graphFront stem function = (stem ++ "_").toList ++ function.toList := by
  rw [graphFront, h, String.toList_append]

/-- Without a dot in the suffix, the dot in the name of a function is taken for that of an
extension. -/
theorem temporaryName_eq_of_noDot {files : Config.Files} (h : '.' ∉ files.graphSuffix.toList) :
    FileTree.temporaryName (graphName stem "a.b" files) =
      FileTree.temporaryName (graphName stem "a.c" files) := by
  have htemporary (f ext : String) (hf : fileComponent f = f)
      (hcut : f.toList = 'a' :: '.' :: ext.toList) (hext : '.' ∉ ext.toList) :
      (FileTree.temporaryName (graphName stem f files)).toList =
        (stem ++ "_a").toList ++ ".json.tmp".toList := by
    have hname : (graphName stem f files).toList =
        (stem ++ "_a").toList ++ '.' :: (ext.toList ++ files.graphSuffix.toList) := by
      rw [toList_graphName, graphFront_of_fileComponent hf, hcut]
      simp
    exact toList_temporaryName hname (by simp) (by simp [hext, h])
  refine String.toList_inj.mp ?_
  rw [htemporary "a.b" "b" (by decide) (by decide) (by decide),
    htemporary "a.c" "c" (by decide) (by decide) (by decide)]

/-- A suffix that the shortest of its temporary files ends with has the extension `tmp`, and what
stands before it is a rotation of what stands before `.json.tmp`. -/
theorem exists_rotated_of_suffix {front ext : List Char} (hext : '.' ∉ ext)
    (h : front ++ '.' :: ext <:+ '_' :: (front ++ ".json.tmp".toList)) :
    ext = "tmp".toList ∧ ∃ more, more ++ front = front ++ ".json".toList := by
  obtain ⟨more, hmore⟩ := h
  cases more with
  | nil => exact absurd ⟨['_'], hmore.symm⟩ (not_temporary_suffix hext)
  | cons c more =>
    have hmore : more ++ (front ++ '.' :: ext) = front ++ ".json.tmp".toList :=
      (List.cons.inj hmore).2
    obtain ⟨hrotated, rfl⟩ : more ++ front = front ++ ".json".toList ∧ ext = "tmp".toList := by
      refine append_dot_inj hext (by decide) ?_
      rw [List.append_assoc, hmore]
      simp
    exact ⟨rfl, more, hrotated⟩

/-- The letters of `.json` are safe in the name of a function, in any order. -/
theorem fileComponent_of_perm {more : List Char} (h : more.Perm ".json".toList) :
    fileComponent (String.ofList ('a' :: more)) = String.ofList ('a' :: more) := by
  have hsafe : ∀ c ∈ ".json".toList, isUnsafeInName c = false :=
    Text.forall_mem_of_all (by decide)
  refine fileComponent_eq_self (by simp) (fun c hc => ?_) ⟨?_, ?_, ?_⟩
  · rw [String.toList_ofList] at hc
    rcases List.mem_cons.mp hc with rfl | hc
    · decide
    · exact hsafe c (h.mem_iff.mp hc)
  all_goals
    intro heq
    simpa using congrArg String.toList heq

/-- If a temporary file can end with the suffix, it is the graph of some function. -/
theorem exists_graphName_eq_temporaryName (stem : String) {files : Config.Files}
    (hdot : '.' ∈ files.graphSuffix.toList)
    (hsuffix : files.graphSuffix.toList <:+
      (FileTree.temporaryName ("_" ++ files.graphSuffix)).toList) :
    ∃ f, graphFront stem "a" ≠ graphFront stem f ∧
      FileTree.temporaryName (graphName stem "a" files) = graphName stem f files := by
  obtain ⟨front, ext, hcut, hext⟩ := exists_last_dot hdot
  rw [toList_temporaryName_suffix hcut hext, hcut] at hsuffix
  obtain ⟨rfl, more, hrotated⟩ := exists_rotated_of_suffix hext hsuffix
  have hperm : more.Perm ".json".toList :=
    (List.perm_append_left_iff front).mp (List.perm_append_comm.trans (.of_eq hrotated))
  have hcomponent := fileComponent_of_perm hperm
  have ha : fileComponent "a" = "a" := by decide
  refine ⟨String.ofList ('a' :: more), fun heq => ?_, String.toList_inj.mp ?_⟩
  · rw [graphFront_of_fileComponent ha, graphFront_of_fileComponent hcomponent] at heq
    have hlength := congrArg List.length heq
    simp [hperm.length_eq] at hlength
  · have hjoined : front ++ ".json.tmp".toList = more ++ (front ++ '.' :: "tmp".toList) := by
      rw [← List.append_assoc, hrotated]
      simp
    rw [toList_temporaryName_graphName hcut (by decide), toList_graphName,
      graphFront_of_fileComponent hcomponent, graphFront_of_fileComponent ha, hcut, hjoined]
    simp

/-- The writers of a unit keep apart, whatever its functions are called, just if the suffix of
graphs keeps them apart. -/
theorem temporariesApart_iff_keepsApart (hvalid : config.validate = .ok ())
    (hstem : '/' ∉ stem.toList) (outDir : String) :
    (∀ f g, graphPath outDir stem f config.files ≠ graphPath outDir stem g config.files →
      TemporariesApart (graphPath outDir stem f config.files)
        (graphPath outDir stem g config.files)) ↔ KeepsApart config.files.graphSuffix := by
  have hname (f : String) := isName_graphName hvalid hstem f
  have hpath (f g : String) : graphPath outDir stem f config.files =
      graphPath outDir stem g config.files ↔ graphFront stem f = graphFront stem g := by
    rw [graphPath_eq_join, graphPath_eq_join, Path.join_inj (hname f) (hname g),
      ← String.toList_inj, toList_graphName, toList_graphName]
    exact List.append_left_inj _
  have hiff (f g : String) : FileTree.TemporariesApart (graphPath outDir stem f config.files)
      (graphPath outDir stem g config.files) ↔
        FileTree.temporaryName (graphName stem f config.files) ≠
          FileTree.temporaryName (graphName stem g config.files) ∧
        FileTree.temporaryName (graphName stem f config.files) ≠ graphName stem g config.files ∧
        FileTree.temporaryName (graphName stem g config.files) ≠ graphName stem f config.files := by
    rw [graphPath_eq_join, graphPath_eq_join]
    exact FileTree.temporariesApart_join_iff (hname f) (hname g)
  constructor
  · intro h
    have hdot : '.' ∈ config.files.graphSuffix.toList := by
      by_contra hdot
      refine ((hiff "a.b" "a.c").mp (h _ _ ?_)).1 (temporaryName_eq_of_noDot hdot)
      rw [Ne, hpath, graphFront_of_fileComponent (by decide),
        graphFront_of_fileComponent (by decide)]
      simp
    refine ⟨hdot, fun hsuffix => ?_⟩
    obtain ⟨f, hne, heq⟩ := exists_graphName_eq_temporaryName stem hdot hsuffix
    exact ((hiff "a" f).mp (h _ _ (mt (hpath "a" f).mp hne))).2.1 heq
  · intro h f g hne
    rw [Ne, hpath] at hne
    obtain ⟨front, ext, hcut, hext⟩ := exists_last_dot h.1
    refine (hiff f g).mpr
      ⟨fun heq => hne ?_, temporaryName_graphName_ne h, temporaryName_graphName_ne h⟩
    have hlist := congrArg String.toList heq
    rw [toList_temporaryName_graphName hcut hext, toList_temporaryName_graphName hcut hext] at hlist
    exact List.append_cancel_right hlist

end

example : KeepsApart ({} : Config).files.graphSuffix := by decide

/-! ### Graphs of one unit -/

/-- The graphs of two functions of a unit, saved side by side. Both are there in the end in every
order of turns, and no temporary file is, just if their temporary files keep apart. -/
theorem graphs_saved_side_by_side_iff {config : Config} (hvalid : config.validate = .ok ())
    {summary stem : String}
    (hstem : UnitPaths.stem? summary config.files.summarySuffix = some stem) (outDir f g : String)
    (hne : graphPath outDir stem f config.files ≠ graphPath outDir stem g config.files)
    {t : FileTree} (hf : t.CanSave (graphPath outDir stem f config.files))
    (hg : t.CanSave (graphPath outDir stem g config.files)) :
    (∀ a b (order : List Writer), order.count .first = 2 → order.count .second = 2 →
      BothSaved (graphPath outDir stem f config.files) a (graphPath outDir stem g config.files) b
        ((Jobs.pair (graphPath outDir stem f config.files) a
          (graphPath outDir stem g config.files) b).run t order)) ↔
      TemporariesApart (graphPath outDir stem f config.files)
        (graphPath outDir stem g config.files) := by
  have hslash := UnitPaths.noSlash_of_stem? hstem
  refine FileTree.pair_run_iff (isName_graphName hvalid hslash f)
    (isName_graphName hvalid hslash g) (fun heq => hne ?_) hf hg
  exact congrArg (join outDir) heq

/-- A directory for outputs, in which nothing is yet. -/
def emptyOutput : FileTree := ⟨[(["out"], .directory)]⟩

/-- In an empty output directory, every name that can be used can be saved under. -/
theorem canSave_emptyOutput {name : String} (hname : IsName name) (hu : FileTree.IsUsable name)
    (htmp : FileTree.IsUsable (FileTree.temporaryName name)) :
    emptyOutput.CanSave (join "out" name) := by
  have hdir : emptyOutput.HasDirectory "out" ["out"] := ⟨by decide, by decide, by decide⟩
  have hempty : emptyOutput.Contents ["out"] fun _ => none :=
    FileTree.contents_of_not_inside (by decide)
  exact hempty.canSave hdir hname hu htmp

/-- With the usual suffix two graphs of a unit are saved in every order of turns. -/
theorem graphs_saved_side_by_side_of_defaults :
    ({} : Config).validate = .ok () ∧
      emptyOutput.CanSave (graphPath "out" "u" "f.json" {}) ∧
      emptyOutput.CanSave (graphPath "out" "u" "f" {}) ∧
      ∀ a b (order : List Writer), order.count .first = 2 → order.count .second = 2 →
        BothSaved "out/u_f.json_iscg.json" a "out/u_f_iscg.json" b
          ((Jobs.pair "out/u_f.json_iscg.json" a "out/u_f_iscg.json" b).run emptyOutput order) := by
  have hvalid : ({} : Config).validate = .ok () := rfl
  have hf : emptyOutput.CanSave (graphPath "out" "u" "f.json" {}) :=
    canSave_emptyOutput (by decide) (by decide) (by decide)
  have hg : emptyOutput.CanSave (graphPath "out" "u" "f" {}) :=
    canSave_emptyOutput (by decide) (by decide) (by decide)
  have hstem : UnitPaths.stem? "in/u_info_summary.json" "_info_summary.json" = some "u" := rfl
  refine ⟨hvalid, hf, hg, ?_⟩
  exact (graphs_saved_side_by_side_iff hvalid hstem "out" "f.json" "f" (by decide) hf hg).mpr
    ⟨by decide, by decide, by decide⟩

/-- A suffix of graphs that ends like a temporary file. -/
def temporarySuffix : Config := { files := { graphSuffix := ".tmp" } }

/-- With this suffix the graph of `f.json` is the temporary file of that of `f`. Both can be saved,
but the first one is gone when the second one is saved after it. -/
theorem graph_gone_of_temporarySuffix :
    temporarySuffix.validate = .ok () ∧
      graphPath "out" "u" "f.json" temporarySuffix.files ≠
        graphPath "out" "u" "f" temporarySuffix.files ∧
      emptyOutput.CanSave (graphPath "out" "u" "f.json" temporarySuffix.files) ∧
      emptyOutput.CanSave (graphPath "out" "u" "f" temporarySuffix.files) ∧
      ¬ ∀ a b (order : List Writer), order.count .first = 2 → order.count .second = 2 →
        BothSaved (graphPath "out" "u" "f.json" temporarySuffix.files) a
          (graphPath "out" "u" "f" temporarySuffix.files) b
          ((Jobs.pair (graphPath "out" "u" "f.json" temporarySuffix.files) a
            (graphPath "out" "u" "f" temporarySuffix.files) b).run emptyOutput order) := by
  refine ⟨by decide +kernel, by decide, canSave_emptyOutput (by decide) (by decide) (by decide),
    canSave_emptyOutput (by decide) (by decide) (by decide), fun h => ?_⟩
  have hsaved := (h "a" "b" [.first, .first, .second, .second] rfl rfl).readA
  have hgone : ((Jobs.pair (graphPath "out" "u" "f.json" temporarySuffix.files) "a"
      (graphPath "out" "u" "f" temporarySuffix.files) "b").run emptyOutput
      [.first, .first, .second, .second]).tree.read
        (graphPath "out" "u" "f.json" temporarySuffix.files) = .error .notFound := by
    decide +kernel
  rw [hgone] at hsaved
  cases hsaved

end InstrGraph
