import InstrGraph.FileTree.Load
import InstrGraph.Proofs.Files.Save
import InstrGraph.UnitPaths
import Mathlib.Tactic.MkIffOfInductiveProp

/-!
# The units below a directory

A summary that is found has the name of a summary, so it belongs to a unit
(`exists_stem?_of_mem_unitsBelow`). The stem of a unit is never empty and holds no slash
(`stem?_eq_some_iff`, `noSlash_of_stem?`), so the files that are named after it are names in a
directory.
-/

namespace InstrGraph

open InstrGraph.Path (IsName)

/-! ### Stems -/

/-- An end can be dropped from just the texts that it ends. -/
theorem dropTail?_eq_some_iff {s tail front : String} :
    dropTail? s tail = some front ↔ s = front ++ tail := by
  rw [dropTail?]
  constructor
  · intro h
    split at h
    · rename_i hs
      obtain ⟨cs, hcs⟩ := List.isSuffixOf_iff_suffix.mp hs
      rw [Option.some_inj] at h
      rw [← hcs] at h
      simp only [List.length_append, Nat.add_sub_cancel, List.take_left'] at h
      refine String.toList_inj.mp ?_
      rw [← hcs, ← h]
      simp
    · cases h
  · rintro rfl
    rw [if_pos (by simp [List.isSuffixOf_iff_suffix])]
    simp

namespace Path

/-- A component between slashes is a name of a file. -/
theorem isName_of_innerComponent? {piece : List Char} {s : String} (hslash : '/' ∉ piece)
    (h : innerComponent? piece = some (.name s)) : IsName s := by
  rw [innerComponent?] at h
  split at h
  · cases h
  · rename_i hne
    split at h
    · cases h
    · rename_i hup
      simp only [Option.some.injEq, Component.name.injEq] at h
      simp only [Bool.or_eq_true, decide_eq_true_eq, not_or] at hne
      subst h
      exact ⟨by simpa using hne.1,
        fun hs => hne.2 (by simpa using congrArg String.toList hs),
        fun hs => hup (by simpa using congrArg String.toList hs), by simpa using hslash⟩

/-- The components of a path that are names are names of files. -/
theorem isName_of_mem_components {path s : String} (h : Component.name s ∈ components path) :
    IsName s := by
  have hinner : Component.name s ∈ (pieces path.toList).filterMap innerComponent? := by
    rw [components] at h
    split at h
    · simpa using h
    · simp at h
    · simpa using h
    · exact h
  obtain ⟨piece, hpiece, hs⟩ := List.mem_filterMap.mp hinner
  exact isName_of_innerComponent? (noSlash_of_mem_pieces hpiece) hs

/-- What is found as the name of a file is one. -/
theorem isName_of_fileName? {path name : String} (h : fileName? path = some name) :
    IsName name := by
  rw [fileName?] at h
  split at h
  · rename_i s hs
    obtain rfl := Option.some_inj.mp h
    exact isName_of_mem_components (List.mem_of_getLast? hs)
  · cases h

end Path

namespace UnitPaths

variable {path suffix stem : String}

/-- The stem of a summary is what stands before the suffix in the name of its file. -/
theorem stem?_eq_some_iff :
    stem? path suffix = some stem ↔ Path.fileName? path = some (stem ++ suffix) ∧ stem ≠ "" := by
  rw [stem?, Option.filter_eq_some_iff, Option.bind_eq_some_iff]
  simp only [dropTail?_eq_some_iff]
  constructor
  · rintro ⟨⟨name, hname, rfl⟩, hne⟩
    exact ⟨hname, by simpa using hne⟩
  · rintro ⟨hname, hne⟩
    exact ⟨⟨_, hname, rfl⟩, by simpa using hne⟩

/-- A stem has no slashes. -/
theorem noSlash_of_stem? (h : stem? path suffix = some stem) : '/' ∉ stem.toList := fun hs =>
  (Path.isName_of_fileName? (stem?_eq_some_iff.mp h).1).no_slash (by simp [hs])

/-- The stem of a unit is that of its summary. -/
theorem stem?_of_resolve? {globalsDir structsDir : Option String} {files : Config.Files}
    {unit : UnitPaths} (h : resolve? path globalsDir structsDir files = some unit) :
    stem? path files.summarySuffix = some unit.stem := by
  obtain ⟨stem, hstem, rfl⟩ := Option.map_eq_some_iff.mp h
  exact hstem

end UnitPaths

namespace FileTree

variable {t t' : FileTree} {root suffix : String} {found : List String} {p : Place}

/-! ### Discovery -/

/-- Every entry is at a place that a tree can have: behind what leads out of the working directory
come names. -/
def IsProper (t : FileTree) : Prop :=
  ∀ e ∈ t.entries, ∃ out names, e.1 = out ++ names ∧
    (∀ s ∈ out, s = ".." ∨ s = "/") ∧ ∀ s ∈ names, IsName s

/-- What leads from a place to one below it are names. -/
theorem isName_of_mem_below {q way : Place} {out names : List String} (hq : q = out ++ names)
    (hout : ∀ s ∈ out, s = ".." ∨ s = "/") (hnames : ∀ s ∈ names, IsName s)
    (h : p.below? q = some way) : ∀ s ∈ way, IsName s := by
  rw [Place.below?] at h
  split at h
  · rename_i hb
    obtain rfl := Option.some_inj.mp h
    simp only [Bool.and_eq_true, Option.any_eq_true] at hb
    obtain ⟨-, s, hs, hne⟩ := hb
    intro x hx
    have hlength : out.length ≤ p.length := by
      by_contra hlt
      -- else the way would begin inside of what leads out of the working directory
      have hmem : s ∈ out := by
        rw [List.head?_drop, hq, List.getElem?_append_left (by omega)] at hs
        exact List.mem_of_getElem? hs
      rcases hout s hmem with rfl | rfl <;> simp at hne
    rw [hq, List.drop_append, List.drop_eq_nil_of_le hlength, List.nil_append] at hx
    exact hnames x (List.mem_of_mem_drop hx)
  · cases h

/-- The files below a place have proper names on their way. -/
theorem isName_of_mem_filesBelow (ht : t.IsProper) {f : Place × String}
    (h : f ∈ t.filesBelow p) : ∀ s ∈ f.1, IsName s := by
  rw [filesBelow, List.mem_filterMap] at h
  obtain ⟨⟨q, e⟩, he, hf⟩ := h
  obtain ⟨out, names, hq, hout, hnames⟩ := ht _ he
  cases e with
  | directory => cases hf
  | file text =>
    obtain ⟨way, hway, rfl⟩ := Option.map_eq_some_iff.mp hf
    exact isName_of_mem_below hq hout hnames hway

/-- The last name on the way to a file is the file name of its path. -/
theorem fileName?_pathBelow {dir name : String} {way : List String}
    (h : ∀ s ∈ way ++ [name], IsName s) :
    Path.fileName? (pathBelow dir (way ++ [name])) = some name := by
  have hname : IsName name := h name (by simp)
  have htext : ∃ cs, (cs = [] ∨ cs.getLast? = some '/') ∧
      ("/".intercalate (way ++ [name])).toList = cs ++ name.toList := by
    clear h
    induction way with
    | nil => exact ⟨[], .inl rfl, by simp⟩
    | cons w way ih =>
      obtain ⟨cs, hcs, hlist⟩ := ih
      refine ⟨w.toList ++ ['/'] ++ cs, ?_, ?_⟩
      · rcases hcs with rfl | hcs
        · exact .inr (by simp)
        · exact .inr (by rw [List.getLast?_append, hcs]; rfl)
      · obtain ⟨x, xs, hx⟩ := List.exists_cons_of_ne_nil (l := way ++ [name]) (by simp)
        rw [List.cons_append, hx, String.intercalate_cons_cons, ← hx]
        simp [hlist]
  obtain ⟨cs, hcs, hlist⟩ := htext
  have hhead : ("/".intercalate (way ++ [name])).toList.head? ≠ some '/' := by
    cases way with
    | nil => simpa using hname.head?_ne
    | cons w way =>
      have hw := h w (by simp)
      obtain ⟨x, xs, hx⟩ := List.exists_cons_of_ne_nil (l := way ++ [name]) (by simp)
      rw [List.cons_append, hx, String.intercalate_cons_cons]
      simpa [List.head?_append_of_ne_nil _ hw.toList_ne_nil] using hw.head?_ne
  have hjoin : (Path.join dir ("/".intercalate (way ++ [name]))).toList =
      (Path.base dir ++ cs) ++ name.toList := by
    rw [Path.toList_join_of_head?_ne hhead, hlist, List.append_assoc]
  have hbase : Path.base dir ++ cs = [] ∨ (Path.base dir ++ cs).getLast? = some '/' := by
    rcases hcs with rfl | hcs
    · simpa using Path.base_eq_nil_or_getLast? dir
    · exact .inr (by simp [List.getLast?_append, hcs])
  rw [pathBelow, Path.fileName?, Path.getLast?_components hjoin hbase hname]

/-- The units below a directory are its summaries in the order of their paths. -/
theorem unitsBelow_of_directory (h : t.find root = .ok .directory) (suffix : String) :
    ∃ r, t.locate root = .ok r ∧ t.unitsBelow root suffix =
      .ok ((((t.filesBelow r).filter fun f =>
        f.1.getLast?.any fun name => isSummaryName suffix name).map fun f =>
          pathBelow root f.1).mergeSort fun a b => !Path.before b a) := by
  rw [find] at h
  split at h
  · cases h
  · rename_i r hr
    refine ⟨r, hr, ?_⟩
    split at h
    · rename_i e he
      obtain rfl : e = .directory := by simpa using h
      rw [unitsBelow, hr]
      simp only [he]
    · cases h

/-- The summaries below a directory, if the files of the tree stand in the order of their paths
already. Nothing has to be sorted then, and all of it can be computed. -/
@[mk_iff] structure ListsInOrder (t : FileTree) (root suffix : String) (r : Place)
    (found : List String) : Prop where
  directory : t.find root = .ok .directory
  place : t.locate root = .ok r
  listed : (((t.filesBelow r).filter fun f =>
    f.1.getLast?.any fun name => isSummaryName suffix name).map fun f =>
      pathBelow root f.1) = found
  sorted : found.Pairwise fun a b => (!Path.before b a) = true

instance (t : FileTree) (root suffix : String) (r : Place) (found : List String) :
    Decidable (t.ListsInOrder root suffix r found) :=
  decidable_of_iff' _ (t.listsInOrder_iff root suffix r found)

/-- The units below a directory are the summaries that are listed in order. -/
theorem ListsInOrder.unitsBelow_eq {r : Place} (h : t.ListsInOrder root suffix r found) :
    t.unitsBelow root suffix = .ok found := by
  obtain ⟨r', hr', hunits⟩ := unitsBelow_of_directory h.directory suffix
  obtain rfl : r = r' := by simpa [h.place] using hr'
  rw [hunits, h.listed, List.mergeSort_of_pairwise h.sorted]

/-- A summary that is found below a directory belongs to a unit. -/
theorem exists_stem?_of_mem_unitsBelow (ht : t.IsProper) (h : t.find root = .ok .directory)
    (hfound : t.unitsBelow root suffix = .ok found) {summary : String} (hs : summary ∈ found) :
    ∃ stem, UnitPaths.stem? summary suffix = some stem := by
  obtain ⟨r, -, hunits⟩ := unitsBelow_of_directory h suffix
  rw [hunits, Except.ok.injEq] at hfound
  subst hfound
  rw [List.mem_mergeSort, List.mem_map] at hs
  obtain ⟨f, hf, rfl⟩ := hs
  obtain ⟨hmem, hany⟩ := List.mem_filter.mp hf
  obtain ⟨name, hlast, hname⟩ := (Option.any_eq_true _ _).mp hany
  obtain ⟨way, hway⟩ := List.getLast?_eq_some_iff.mp hlast
  have hnames : ∀ s ∈ way ++ [name], IsName s := hway ▸ isName_of_mem_filesBelow ht hmem
  rw [isSummaryName, Bool.and_eq_true] at hname
  obtain ⟨cs, hcs⟩ := List.isSuffixOf_iff_suffix.mp hname.1
  refine ⟨String.ofList cs, UnitPaths.stem?_eq_some_iff.mpr ⟨?_, ?_⟩⟩
  · rw [hway, fileName?_pathBelow hnames, Option.some_inj]
    exact String.toList_inj.mp (by simp [hcs])
  · rintro he
    obtain rfl : cs = [] := by simpa using he
    have : name = suffix := String.toList_inj.mp (by simpa using hcs.symm)
    simp [this] at hname

/-- What is found does not depend on what is by the side of the directory. -/
theorem SameOutside.unitsBelow_eq (hsame : SameOutside p t t')
    (hfind : t.find root = .ok .directory) (hvisited : ∀ r ∈ t.visitedBy root, ¬ p.Inside r)
    (hroot : ∀ r, t.locate root = .ok r → ¬ r <+: p) :
    t'.unitsBelow root suffix = t.unitsBelow root suffix := by
  have hentry : ∀ r ∈ t.visitedBy root, t'.entry? r = t.entry? r := fun r hr =>
    hsame.entry r (hvisited r hr)
  obtain ⟨r, hr, hunits⟩ := unitsBelow_of_directory hfind suffix
  obtain ⟨r', hr', hunits'⟩ := unitsBelow_of_directory ((find_congr hentry).trans hfind) suffix
  obtain rfl : r = r' := by
    rw [locate_congr hentry, hr] at hr'
    simpa using hr'
  rw [hunits, hunits', hsame.files r (hroot r hr)]

end FileTree

end InstrGraph
