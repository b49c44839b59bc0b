import InstrGraph.Proofs.Batch.Names

/-!
# Where outputs go

Every output of a unit is a name in the output directory, whatever its functions are called:
`outputs_in_directory`. Two functions of a unit share their file just if they share the part of it
that is made of their names, whatever the stem, the directory and the configuration are
(`components_graphPath_inj`). They do not if the hashes of their names differ, unless one is called
what the other one becomes (`outputs_collide_iff_imitates`); so every function whose name has to be
changed has one that collides with it.
-/

namespace InstrGraph

open InstrGraph.Path (IsName join components)

/-! ### Outputs in their directory -/

/-- A name of a function becomes a safe part of a file name, with any hash, and this part stands for
itself. So the outputs of a unit are in the output directory and nowhere else. -/
theorem outputs_in_directory :
    (∀ hash : String → String, (∀ s, IsHashPart (hash s)) → ∀ name,
      IsFilePart (fileComponentWith hash name) ∧
        fileComponentWith hash (fileComponentWith hash name) = fileComponentWith hash name) ∧
    ((∀ s, IsHashPart (hashPart s)) ∧
      ∀ name, fileComponent name = fileComponentWith hashPart name) ∧
    ∀ files : Config.Files, files.validate = .ok () →
      ∀ path suffix stem, UnitPaths.stem? path suffix = some stem → ∀ outDir function,
        (∃ parent, Path.parent? (graphPath outDir stem function files) = some parent ∧
          components parent = components outDir) ∧
        ∃ parent, Path.parent? (canonicalPath outDir stem) = some parent ∧
          components parent = components outDir := by
  refine ⟨fun hash hhash name => ⟨isFilePart_fileComponentWith hhash name,
    fileComponentWith_fileComponentWith hhash name⟩, ⟨isHashPart_hashPart, fileComponent_eq⟩,
    fun files hvalid path suffix stem hstem outDir function => ⟨?_, ?_⟩⟩
  · have hname : IsName (graphName stem function files) :=
      isName_graphName_of_noSlash (Config.Files.graphSuffix_noSlash hvalid)
        (UnitPaths.noSlash_of_stem? hstem) function
    rw [graphPath_eq_join]
    exact Path.exists_parent?_join_eq hname outDir
  · have hname : IsName (canonicalName stem) :=
      isName_canonicalName (UnitPaths.noSlash_of_stem? hstem)
    rw [canonicalPath_eq_join]
    exact Path.exists_parent?_join_eq hname outDir

/-- A name that would lead out of the output directory if it were not changed. -/
theorem outputs_in_directory_of_upwards :
    IsFilePart (fileComponent "@../../etc/passwd") ∧
      fileComponent (fileComponent "@../../etc/passwd") = fileComponent "@../../etc/passwd" ∧
      ∃ parent, Path.parent? (graphPath "out/" "lib" "@../../etc/passwd" {}) = some parent ∧
        components parent = [.name "out"] := by
  have hvalid : ({} : Config.Files).validate = .ok () := rfl
  have hstem : UnitPaths.stem? "in/lib_info_summary.json" "_info_summary.json" = some "lib" := rfl
  obtain ⟨hparts, ⟨hhash, hcomponent⟩, hparent⟩ := outputs_in_directory
  obtain ⟨hpart, htwice⟩ := hparts hashPart hhash "@../../etc/passwd"
  simp only [hcomponent]
  exact ⟨hpart, htwice, (hparent {} hvalid _ _ _ hstem "out/" _).1⟩

/-! ### Functions that share their file -/

/-- The part of a function stands behind an underscore in the path of its graph, and what is around
it does not depend on the function. -/
theorem exists_graphPath_eq (outDir stem : String) (files : Config.Files) :
    ∃ xs, xs.getLast? = some '_' ∧ ∀ function, graphPath outDir stem function files =
      String.ofList (xs ++ (fileComponent function).toList ++ files.graphSuffix.toList) := by
  have htext (function : String) :
      (stem ++ "_" ++ fileComponent function ++ files.graphSuffix).toList =
        (stem ++ "_").toList ++ ((fileComponent function).toList ++ files.graphSuffix.toList) := by
    simp
  have hhead (function : String) :
      (stem ++ "_" ++ fileComponent function ++ files.graphSuffix).toList.head? =
        (stem ++ "_").toList.head? := by
    rw [htext, List.head?_append_of_ne_nil _ (by simp)]
  by_cases habsolute : (stem ++ "_").toList.head? = some '/'
  · refine ⟨(stem ++ "_").toList, by simp, fun function => ?_⟩
    rw [graphPath, join, hhead, habsolute]
    exact String.toList_inj.mp (by simp)
  · refine ⟨Path.base outDir ++ (stem ++ "_").toList, by simp, fun function => ?_⟩
    refine String.toList_inj.mp ?_
    rw [graphPath, Path.toList_join_of_head?_ne (hhead function ▸ habsolute), htext]
    simp

/-- The path of a graph shows what the name of the function becomes. -/
theorem components_graphPath_inj {outDir stem f g : String} {files : Config.Files} :
    components (graphPath outDir stem f files) = components (graphPath outDir stem g files) ↔
      fileComponent f = fileComponent g := by
  constructor
  · intro h
    obtain ⟨xs, hxs, hpath⟩ := exists_graphPath_eq outDir stem files
    rw [hpath, hpath] at h
    exact Path.eq_of_components_eq hxs (noSlash_fileComponent f) (noSlash_fileComponent g) h
  · intro h
    rw [graphPath, graphPath, h]

/-- When functions of a unit share their file although the hashes of their names differ: if one of
them is called what the other one becomes. -/
theorem outputs_collide_iff_imitates {f g : String} (hne : bareName f ≠ bareName g)
    (hhash : hashPart (bareName f) ≠ hashPart (bareName g)) :
    (fileComponent f = fileComponent g ↔ Imitates hashPart f g ∨ Imitates hashPart g f) ∧
      ∀ outDir stem files,
        components (graphPath outDir stem f files) = components (graphPath outDir stem g files) ↔
          fileComponent f = fileComponent g := by
  refine ⟨?_, fun _ _ _ => components_graphPath_inj⟩
  rw [fileComponent_eq, fileComponent_eq]
  exact fileComponentWith_eq_iff isHashPart_hashPart hne hhash

/-! ### Names with their hashes -/

/-- The loop puts what it has in front of the bytes that are left. -/
theorem toList_loop (bytes : ByteArray) (i : Nat) (front : List UInt8) :
    ByteArray.toList.loop bytes i front = front.reverse ++ bytes.data.toList.drop i := by
  fun_induction ByteArray.toList.loop bytes i front with
  | case1 i front h ih =>
    have hi : i < bytes.data.toList.length := h
    have hget : bytes.get! i = bytes.data.toList[i] := getElem!_pos bytes.data i h
    rw [ih, List.reverse_cons, List.append_assoc, List.singleton_append,
      List.drop_eq_getElem_cons hi, hget]
  | case2 i front h =>
    have hi : bytes.data.toList.length ≤ i := Nat.le_of_not_lt h
    rw [List.drop_eq_nil_of_le hi, List.append_nil]

/-- The octets of a text are those of its characters. -/
theorem toList_toUTF8 (s : String) : s.toUTF8.toList = s.toList.flatMap String.utf8EncodeChar := by
  have hdata : s.toUTF8 = (s.toList.flatMap String.utf8EncodeChar).toByteArray :=
    String.utf8Encode_toList.symm
  rw [ByteArray.toList, toList_loop, hdata, List.reverse_nil, List.nil_append, List.drop_zero]
  simp

/-- The hash keeps two changed names apart. -/
theorem outputs_apart_of_changedNames :
    bareName "a:b" ≠ bareName "a/b" ∧ hashPart (bareName "a:b") ≠ hashPart (bareName "a/b") ∧
      fileComponent "a:b" ≠ fileComponent "a/b" := by
  have hne : bareName "a:b" ≠ bareName "a/b" := by decide
  have hhash : hashPart (bareName "a:b") ≠ hashPart (bareName "a/b") := by
    simp only [hashPart, Blake3.hexHash, toList_toUTF8]
    decide +kernel
  have hchanged : ¬ IsFilePart (bareName "a:b") ∧ ¬ IsFilePart (bareName "a/b") := by
    rw [← cleanName_eq_self_iff, ← cleanName_eq_self_iff]
    decide
  refine ⟨hne, hhash, fun h => ?_⟩
  rcases (outputs_collide_iff_imitates hne hhash).1.mp h with himitates | himitates
  · exact hchanged.1 (himitates.isFilePart isHashPart_hashPart)
  · exact hchanged.2 (himitates.isFilePart isHashPart_hashPart)

/-- A function that is called what another one becomes has its file, although the names differ and
so do their hashes. -/
theorem graphPath_eq_of_imitatedName :
    bareName "a:b" ≠ bareName "a_b_9f48b7e8" ∧
      hashPart (bareName "a:b") ≠ hashPart (bareName "a_b_9f48b7e8") ∧
      fileComponent "a:b" = fileComponent "a_b_9f48b7e8" ∧
      graphPath "out" "u" "a:b" {} = graphPath "out" "u" "a_b_9f48b7e8" {} := by
  have hbare : bareName "a:b" = "a:b" ∧ bareName "a_b_9f48b7e8" = "a_b_9f48b7e8" := by decide
  have hhash : hashPart "a:b" = "9f48b7e8" ∧ hashPart "a_b_9f48b7e8" ≠ "9f48b7e8" := by
    simp only [hashPart, Blake3.hexHash, toList_toUTF8]
    decide +kernel
  have hchanged : ¬ IsFilePart (bareName "a:b") := by
    rw [← cleanName_eq_self_iff]
    decide
  have hsafe : IsFilePart (bareName "a_b_9f48b7e8") := by
    rw [← cleanName_eq_self_iff]
    decide
  have hclean : cleanName "a:b" = "a_b" := by decide
  have hcomponent : fileComponent "a:b" = fileComponent "a_b_9f48b7e8" := by
    rw [fileComponent_eq, fileComponent_eq, fileComponentWith_of_not_isFilePart hchanged,
      fileComponentWith_of_isFilePart hsafe, hbare.1, hbare.2, hclean, hhash.1]
    decide
  refine ⟨by decide, ?_, hcomponent, ?_⟩
  · rw [hbare.1, hbare.2, hhash.1]
    exact hhash.2.symm
  · rw [graphPath, graphPath, hcomponent]

end InstrGraph
