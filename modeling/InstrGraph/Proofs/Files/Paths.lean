import InstrGraph.FileTree.Save
import Mathlib.Data.List.Basic

/-!
# Names in directories

What becomes of the path of a name in a directory, as far as its text decides it. `join dir name`
leads where `dir` leads and then into `name`:

* `stepsOf_join`: its steps are those of `dir` (`leadOf`) and one into `name`.
* `fileName?_join`: the name is its last component, so different names make different paths
  (`components_join_inj`).
* `exists_parent?_join`: its parent has the steps of `dir` again, as far as they mean anything.
* `temporaryPath_join`: its temporary file is one with another name in the same directory.
-/

namespace InstrGraph

namespace Path

/-- A text that names something in a directory. -/
structure IsName (s : String) : Prop where
  ne_empty : s ≠ ""
  ne_here : s ≠ "."
  ne_up : s ≠ ".."
  no_slash : '/' ∉ s.toList

instance (s : String) : Decidable (IsName s) :=
  decidable_of_iff (s ≠ "" ∧ s ≠ "." ∧ s ≠ ".." ∧ '/' ∉ s.toList)
    ⟨fun h => ⟨h.1, h.2.1, h.2.2.1, h.2.2.2⟩,
      fun h => ⟨h.ne_empty, h.ne_here, h.ne_up, h.no_slash⟩⟩

namespace IsName

variable {s : String} (h : IsName s)

include h

/-- A name is not empty. -/
theorem toList_ne_nil : s.toList ≠ [] := fun hs => h.ne_empty (by simpa using hs)

/-- A name does not begin with a slash. -/
theorem head?_ne : s.toList.head? ≠ some '/' := fun hs =>
  h.no_slash (List.mem_of_mem_head? hs)

/-- A name between slashes is a component of its path. -/
theorem innerComponent?_eq : innerComponent? s.toList = some (.name s) := by
  have hhere : s.toList ≠ ['.'] := fun hs => h.ne_here (String.toList_inj.mp hs)
  have hup : s.toList ≠ ['.', '.'] := fun hs => h.ne_up (String.toList_inj.mp hs)
  simp [innerComponent?, h.toList_ne_nil, hhere, hup]

/-- A name between slashes is a step into what is called so. -/
theorem ofPiece_eq : Step.ofPiece s.toList = .into s := by
  have hhere : s.toList ≠ ['.'] := fun hs => h.ne_here (String.toList_inj.mp hs)
  have hup : s.toList ≠ ['.', '.'] := fun hs => h.ne_up (String.toList_inj.mp hs)
  simp [Step.ofPiece, h.toList_ne_nil, hhere, hup]

end IsName

/-! ### Cutting at slashes -/

/-- There is always a piece, if only an empty one. -/
theorem pieces_ne_nil (cs : List Char) : pieces cs ≠ [] := by
  cases cs with
  | nil => simp [pieces]
  | cons c cs =>
    rw [pieces]
    split
    · simp
    · split <;> simp

/-- A text without slashes is a single piece. -/
theorem pieces_of_noSlash {cs : List Char} (h : '/' ∉ cs) : pieces cs = [cs] := by
  induction cs with
  | nil => rfl
  | cons c cs ih =>
    simp only [List.mem_cons, not_or] at h
    simp [pieces, ih h.2, Ne.symm h.1]

/-- A slash ends one piece and begins another one. -/
theorem pieces_append_slash (xs ys : List Char) :
    pieces (xs ++ '/' :: ys) = pieces xs ++ pieces ys := by
  induction xs with
  | nil => simp [pieces]
  | cons x xs ih =>
    by_cases hx : x = '/'
    · simp [pieces, hx, ih]
    · obtain ⟨p, ps, hp⟩ := List.exists_cons_of_ne_nil (pieces_ne_nil xs)
      simp [pieces, hx, ih, hp]

/-- No piece has a slash. -/
theorem noSlash_of_mem_pieces {cs p : List Char} (h : p ∈ pieces cs) : '/' ∉ p := by
  induction cs generalizing p with
  | nil => simp_all [pieces]
  | cons c cs ih =>
    obtain ⟨q, qs, hq⟩ := List.exists_cons_of_ne_nil (pieces_ne_nil cs)
    rw [pieces, hq] at h
    rw [hq] at ih
    by_cases hc : c = '/'
    · simp only [hc, beq_self_eq_true, if_true, List.mem_cons] at h
      rcases h with rfl | h
      · simp
      · exact ih (List.mem_cons.mpr h)
    · simp only [beq_iff_eq, hc, if_false, List.mem_cons] at h
      rcases h with rfl | h
      · simpa [Ne.symm hc] using ih (List.mem_cons_self ..)
      · exact ih (List.mem_cons_of_mem _ h)

/-! ### The text in front of a name -/

/-- What `join` puts in front of a name. -/
def base (dir : String) : List Char :=
  if dir.isEmpty then []
  else if dir.toList.getLast? == some '/' then dir.toList
  else dir.toList ++ ['/']

/-- A relative path is joined to a directory by what is put in front of it. -/
theorem toList_join_of_head?_ne {path : String} (h : path.toList.head? ≠ some '/') (dir : String) :
    (join dir path).toList = base dir ++ path.toList := by
  have hhead : (path.toList.head? == some '/') = false := by simpa using h
  rw [join, base, hhead, Bool.false_or]
  by_cases hd : dir.isEmpty
  · simp [hd]
  · by_cases hl : dir.toList.getLast? == some '/'
    · simp [hd, hl]
    · simp [hd, hl]

/-- A name is joined to a directory by what is put in front of it. -/
theorem toList_join {name : String} (h : IsName name) (dir : String) :
    (join dir name).toList = base dir ++ name.toList :=
  toList_join_of_head?_ne h.head?_ne dir

/-- Different names in a directory have different paths. -/
theorem join_inj {m n : String} (hm : IsName m) (hn : IsName n) {dir : String} :
    join dir m = join dir n ↔ m = n := by
  constructor
  · intro h
    have := congrArg String.toList h
    rw [toList_join hm, toList_join hn] at this
    exact String.toList_inj.mp (List.append_cancel_left this)
  · rintro rfl
    rfl

/-- The text in front of a name is empty or ends with a slash. -/
theorem base_cases (dir : String) : dir = "" ∧ base dir = [] ∨
    ∃ cs, base dir = cs ++ ['/'] ∧ (dir.toList = cs ∨ dir.toList = cs ++ ['/']) := by
  by_cases hd : dir.isEmpty
  · exact .inl ⟨by simpa using hd, by simp [base, hd]⟩
  · right
    by_cases hl : dir.toList.getLast? = some '/'
    · obtain ⟨cs, hcs⟩ := List.getLast?_eq_some_iff.mp hl
      exact ⟨cs, by simp [base, hd, hcs], .inr hcs⟩
    · exact ⟨dir.toList, by simp [base, hd, hl], .inl rfl⟩

/-- What is put in front of a name begins like its directory. -/
theorem head?_base (dir : String) (h : dir ≠ "") : (base dir).head? = dir.toList.head? := by
  rcases base_cases dir with ⟨hd, -⟩ | ⟨cs, hcs, hd | hd⟩
  · exact absurd hd h
  · have hne : cs ≠ [] := fun hs => h (by rw [hs] at hd; simpa using hd)
    rw [hcs, hd, List.head?_append_of_ne_nil _ hne]
  · rw [hcs, hd]

/-- But for the slash at its end, what is put in front of a name is made of the directory. -/
theorem mem_base {dir : String} {c : Char} (h : c ∈ base dir) (hc : c ≠ '/') : c ∈ dir.toList := by
  rcases base_cases dir with ⟨-, hb⟩ | ⟨cs, hcs, hd | hd⟩
  · simp [hb] at h
  · rw [hcs] at h
    rw [hd]
    simpa [hc] using h
  · rw [hcs] at h
    rwa [hd]

/-- The pieces of the directory, the last one if it means anything. -/
def leadPieces (dir : String) : List (List Char) := (pieces (base dir)).dropLast

/-- A text without slashes is the last piece behind a directory. -/
theorem pieces_base_append {cs : List Char} (h : '/' ∉ cs) (dir : String) :
    pieces (base dir ++ cs) = leadPieces dir ++ [cs] := by
  rcases base_cases dir with ⟨-, hb⟩ | ⟨ds, hds, -⟩
  · rw [leadPieces, hb, List.nil_append, pieces_of_noSlash h]
    rfl
  · rw [leadPieces, hds, List.append_assoc, List.singleton_append, pieces_append_slash,
      pieces_append_slash, pieces_of_noSlash h]
    simp [pieces]

/-- What is put in front of a name ends with a slash, behind which there is an empty piece. -/
theorem pieces_base (dir : String) : pieces (base dir) = leadPieces dir ++ [[]] := by
  simpa using pieces_base_append List.not_mem_nil dir

/-- The pieces of a directory are those in front of a name in it, but perhaps for an empty one. -/
theorem pieces_cases (dir : String) :
    pieces dir.toList = leadPieces dir ∨ pieces dir.toList = leadPieces dir ++ [[]] := by
  rcases base_cases dir with ⟨rfl, hb⟩ | ⟨cs, hcs, hd | hd⟩
  · right
    simp [leadPieces, hb, pieces]
  · left
    rw [hd, leadPieces, hcs, pieces_append_slash]
    simp [pieces]
  · right
    rw [hd, ← hcs, pieces_base]

/-! ### The last component -/

/-- A name behind a slash, or alone, is the last component of a path. -/
theorem getLast?_components {cs : List Char} {name : String} {path : String}
    (hpath : path.toList = cs ++ name.toList) (hcs : cs = [] ∨ cs.getLast? = some '/')
    (h : IsName name) : (components path).getLast? = some (.name name) := by
  have hpieces : ∃ ps, pieces path.toList = ps ++ [name.toList] := by
    rcases hcs with rfl | hcs
    · exact ⟨[], by rw [hpath, List.nil_append, pieces_of_noSlash h.no_slash]; rfl⟩
    · obtain ⟨ds, rfl⟩ := List.getLast?_eq_some_iff.mp hcs
      refine ⟨pieces ds, ?_⟩
      rw [hpath, List.append_assoc, List.singleton_append, pieces_append_slash,
        pieces_of_noSlash h.no_slash]
  obtain ⟨ps, hps⟩ := hpieces
  have hinner : ∃ inner, (pieces path.toList).filterMap innerComponent? =
      inner ++ [Component.name name] := by
    refine ⟨ps.filterMap innerComponent?, ?_⟩
    simp [hps, h.innerComponent?_eq]
  obtain ⟨inner, hinner⟩ := hinner
  have hhere : path.toList ≠ ['.'] := by
    intro hdot
    rw [hpath] at hdot
    rcases hcs with rfl | hcs
    · exact h.ne_here (String.toList_inj.mp hdot)
    · obtain ⟨ds, rfl⟩ := List.getLast?_eq_some_iff.mp hcs
      have hmem : '/' ∈ ds ++ ['/'] ++ name.toList := by simp
      rw [hdot] at hmem
      simp at hmem
  rw [components, hinner]
  split
  · rw [← List.cons_append, List.getLast?_concat]
  · exact absurd (by assumption) hhere
  · rw [← List.cons_append, List.getLast?_concat]
  · rw [List.getLast?_concat]

variable {name : String}

/-- What is put in front of a name is empty or ends with a slash. -/
theorem base_eq_nil_or_getLast? (dir : String) :
    base dir = [] ∨ (base dir).getLast? = some '/' := by
  rcases base_cases dir with ⟨-, hb⟩ | ⟨cs, hcs, -⟩
  · exact .inl hb
  · exact .inr (by simp [hcs])

/-- The last component of the path of a name is the name. -/
theorem getLast?_components_join (h : IsName name) (dir : String) :
    (components (join dir name)).getLast? = some (.name name) :=
  getLast?_components (toList_join h dir) (base_eq_nil_or_getLast? dir) h

/-- The name of a file is found in its path. -/
theorem fileName?_join (h : IsName name) (dir : String) :
    fileName? (join dir name) = some name := by
  rw [fileName?, getLast?_components_join h]

/-- Different names in a directory make different paths. -/
theorem components_join_inj {m n : String} (hm : IsName m) (hn : IsName n) {dir : String} :
    components (join dir m) = components (join dir n) ↔ m = n := by
  constructor
  · intro h
    have := congrArg List.getLast? h
    rw [getLast?_components_join hm, getLast?_components_join hn] at this
    simpa using this
  · rintro rfl
    rfl

/-! ### The parent -/

/-- Trimming the end of a text drops pieces that mean no step. -/
theorem exists_map_ofPiece_trimReversed (cs : List Char) :
    ∃ k, (pieces cs.reverse).map Step.ofPiece =
      (pieces (trimReversed cs).reverse).map Step.ofPiece ++ List.replicate k .stay := by
  fun_induction trimReversed cs with
  | case1 => exact ⟨0, by simp⟩
  | case2 cs hcs ih =>
    obtain ⟨k, hk⟩ := ih
    refine ⟨k + 1, ?_⟩
    rw [List.reverse_cons, pieces_append_slash, List.map_append, hk, List.append_assoc,
      List.replicate_succ']
    rfl
  | case3 => exact ⟨0, by simp [pieces, Step.ofPiece]⟩
  | case4 cs hcs ih =>
    obtain ⟨k, hk⟩ := ih
    refine ⟨k, ?_⟩
    rw [← hk, List.reverse_cons, List.reverse_cons, List.append_assoc, List.singleton_append,
      pieces_append_slash, pieces_append_slash, List.map_append, List.map_append]
    rfl
  | case5 => exact ⟨0, by simp⟩

/-- Slashes and dots are only dropped at the end of a path, so its first character stays. -/
theorem getLast?_trimReversed (cs : List Char) : (trimReversed cs).getLast? = cs.getLast? := by
  fun_induction trimReversed cs with
  | case1 => rfl
  | case2 cs hcs ih =>
    rw [ih, List.getLast?_cons_of_ne_nil]
    rintro rfl
    exact hcs rfl
  | case3 => rfl
  | case4 cs hcs ih =>
    rw [ih]
    exact (List.getLast?_cons_of_ne_nil (by simp)).symm
  | case5 => rfl

/-- What is left of a path when slashes and dots are dropped is part of it. -/
theorem trimReversed_subset (cs : List Char) : trimReversed cs ⊆ cs := by
  fun_induction trimReversed cs with
  | case1 => exact List.Subset.refl _
  | case2 cs hcs ih => exact List.Subset.trans ih (List.subset_cons_self ..)
  | case3 => exact List.subset_cons_self ..
  | case4 cs hcs ih => exact List.Subset.trans ih (List.subset_cons_self ..)
  | case5 => exact List.Subset.refl _

/-- Behind a name there is nothing to trim. -/
theorem trimReversed_append (h : IsName name) (cs : List Char) :
    trimReversed (name.toList.reverse ++ cs) = name.toList.reverse ++ cs := by
  obtain ⟨c, ds, hds⟩ := List.exists_cons_of_ne_nil
    (List.reverse_ne_nil_iff.mpr h.toList_ne_nil)
  have hslash : ∀ d ∈ c :: ds, d ≠ '/' := by
    rintro d hd rfl
    rw [← hds, List.mem_reverse] at hd
    exact h.no_slash hd
  rw [hds, List.cons_append]
  unfold trimReversed
  have hc := hslash c (by simp)
  cases ds with
  | nil =>
    have hdot : c ≠ '.' := by
      rintro rfl
      refine h.ne_here (String.toList_inj.mp ?_)
      rw [← List.reverse_reverse name.toList, hds]
      rfl
    split <;> simp_all
  | cons d ds =>
    have hd := hslash d (by simp)
    split <;> simp_all

/-- Cutting a path at its last slash takes away just the name. -/
theorem dropWhile_name (h : IsName name) {cs : List Char}
    (hcs : cs = [] ∨ cs.getLast? = some '/') :
    (name.toList.reverse ++ cs.reverse).dropWhile (· != '/') = cs.reverse := by
  have hname : ∀ c ∈ name.toList.reverse, (c != '/') = true := by
    intro c hc
    rw [List.mem_reverse] at hc
    simpa using fun hs : c = '/' => h.no_slash (hs ▸ hc)
  rw [List.dropWhile_append_of_pos hname]
  rcases hcs with rfl | hcs
  · rfl
  · obtain ⟨ds, rfl⟩ := List.getLast?_eq_some_iff.mp hcs
    simp

end Path

open InstrGraph.Path

variable {name : String}

/-- The steps of a path into a directory, but for a last one that stays where it is. -/
def leadOf (dir : String) : List Step := (leadPieces dir).map Step.ofPiece

/-- The way to a name is the way to its directory and a step into it. -/
theorem stepsOf_join (h : IsName name) (dir : String) :
    stepsOf (join dir name) = leadOf dir ++ [.into name] := by
  rw [stepsOf, toList_join h, pieces_base_append h.no_slash, List.map_append, leadOf,
    List.map_singleton, h.ofPiece_eq]

/-- The way to a directory is that to the names in it, up to a step that stays. -/
theorem stepsOf_cases (dir : String) :
    stepsOf dir = leadOf dir ∨ stepsOf dir = leadOf dir ++ [.stay] := by
  rcases pieces_cases dir with hp | hp
  · exact .inl (by rw [stepsOf, hp, leadOf])
  · exact .inr (by rw [stepsOf, hp, leadOf, List.map_append]; rfl)

/-- The way to a name starts where the way to its directory starts. -/
theorem startOf_join (h : IsName name) (dir : String) :
    startOf (join dir name) = startOf dir := by
  rw [startOf, startOf, toList_join h]
  by_cases hd : dir = ""
  · subst hd
    have : base "" = [] := by simp [base]
    simp [this, h.head?_ne]
  · have hbase : base dir ≠ [] := by
      rcases base_cases dir with ⟨rfl, -⟩ | ⟨cs, hcs, -⟩
      · exact absurd rfl hd
      · simp [hcs]
    rw [List.head?_append_of_ne_nil _ hbase, head?_base dir hd]

/-- All names in a directory have one parent. -/
theorem parent?_join (h : IsName name) (dir : String) : parent? (join dir name) =
    some (String.ofList (trimReversed (base dir).reverse).reverse) := by
  rw [parent?, getLast?_components_join h]
  simp only [toList_join h, List.reverse_append, trimReversed_append h,
    dropWhile_name h (base_eq_nil_or_getLast? dir)]

/-- The parent of a path of a name leads into the directory again. -/
theorem exists_parent?_join (h : IsName name) (dir : String) :
    ∃ parent k, parent? (join dir name) = some parent ∧ startOf parent = startOf dir ∧
      stepsOf parent ++ List.replicate k .stay = leadOf dir ++ [.stay] ∧
      ∀ c ∈ parent.toList, c ≠ '/' → c ∈ dir.toList := by
  obtain ⟨k, hk⟩ := exists_map_ofPiece_trimReversed (base dir).reverse
  refine ⟨String.ofList (trimReversed (base dir).reverse).reverse, k, parent?_join h dir,
    ?_, ?_, ?_⟩
  · rw [startOf, startOf, String.toList_ofList, List.head?_reverse, getLast?_trimReversed,
      List.getLast?_reverse]
    by_cases hd : dir = ""
    · subst hd
      simp [base]
    · rw [head?_base dir hd]
  · rw [List.reverse_reverse, pieces_base] at hk
    rw [stepsOf, String.toList_ofList, ← hk, leadOf, List.map_append]
    rfl
  · intro c hc hslash
    rw [String.toList_ofList, List.mem_reverse] at hc
    exact mem_base (List.mem_reverse.mp (trimReversed_subset _ hc)) hslash

namespace FileTree

/-! ### The temporary file -/

/-- The name of the temporary file for an output with a name. -/
def temporaryName (name : String) : String := stem name ++ "." ++ "json.tmp"

/-- The stem of a name has no characters of its own. -/
theorem stem_subset (name : String) : (stem name).toList ⊆ name.toList := by
  rw [stem]
  split
  · rename_i c cs heq
    intro d hd
    rw [String.toList_ofList, List.mem_reverse] at hd
    refine List.mem_reverse.mp ((List.dropWhile_sublist (· != '.')).subset ?_)
    rw [heq]
    exact List.mem_cons_of_mem _ hd
  · exact List.Subset.refl _

/-- The name of every temporary file has the letter `j`, that of its ending. -/
theorem j_mem_temporaryName (name : String) : 'j' ∈ (temporaryName name).toList := by
  simp [temporaryName]

/-- The temporary file of a name has a name itself. -/
theorem isName_temporaryName (h : IsName name) : IsName (temporaryName name) where
  ne_empty hs := by simpa [hs] using j_mem_temporaryName name
  ne_here hs := by simpa [hs] using j_mem_temporaryName name
  ne_up hs := by simpa [hs] using j_mem_temporaryName name
  no_slash hs := by
    simp only [temporaryName, String.toList_append, List.mem_append] at hs
    rcases hs with (hs | hs) | hs
    · exact h.no_slash (stem_subset name hs)
    · simp at hs
    · simp at hs

/-- The temporary file of a file is in the same directory. -/
theorem temporaryPath_join (h : IsName name) (dir : String) :
    temporaryPath (join dir name) = join dir (temporaryName name) := by
  refine String.toList_inj.mp ?_
  rw [toList_join (isName_temporaryName h), temporaryPath, withExtension, fileName?_join h]
  simp only [toList_join h, List.reverse_append, trimReversed_append h, String.toList_append,
    String.toList_ofList, temporaryName, List.append_assoc]
  rw [List.drop_left' (by simp [String.length_toList]), List.reverse_reverse]

/-- No file is its own temporary file. -/
theorem temporaryName_ne (name : String) : temporaryName name ≠ name := by
  intro h
  have hlist : name.toList = (stem name).toList ++ ".json.tmp".toList := by
    conv_lhs => rw [← h]
    simp [temporaryName]
  -- cutting the extension of this text once more leaves a longer text than the stem is
  have hstem : stem name = String.ofList ((stem name).toList ++ ".json".toList) := by
    conv_lhs => rw [stem, hlist]
    simp
  have hlength := congrArg String.length hstem
  simp at hlength

/-- A name that does not end in `p` is not that of a temporary file. -/
theorem temporaryName_ne_of_getLast? {n : String} (h : n.toList.getLast? ≠ some 'p') (m : String) :
    temporaryName m ≠ n := by
  rintro rfl
  exact h (by simp [temporaryName])

end FileTree

end InstrGraph
