import InstrGraph.Proofs.Files.Paths
import Mathlib.Data.List.Induction

/-!
# Paths by their components

Two paths are the same if their components are. The components of a path are what its beginning
means, which is at most one, and those of its pieces (`components_eq`). So a slash and what means
nothing behind it can be left out at the end of a path (`components_trimReversed`), and the parent
of a name in a directory is this directory (`exists_parent?_join_eq`). A piece in the middle of a
path can be read off its components, whatever stands around it (`eq_of_components_eq`).
-/

namespace InstrGraph

namespace Path

/-- What the beginning of a path means by itself. -/
def leading (cs : List Char) : List Component :=
  if cs.head? = some '/' then [.root]
  else if cs = ['.'] ∨ cs.take 2 = ['.', '/'] then [.here]
  else []

/-- The components that the pieces of a path stand for. -/
def inner (cs : List Char) : List Component := (pieces cs).filterMap innerComponent?

/-- The components of a path are those that its beginning stands for, and those between slashes. -/
theorem components_eq (path : String) :
    components path = leading path.toList ++ inner path.toList := by
  rw [components, ← inner]
  split
  · rename_i h
    simp [h, leading]
  · rename_i h
    simp [h, leading, inner, pieces, innerComponent?]
  · rename_i h
    simp [h, leading]
  · rename_i hroot hhere hbehind
    have hhead : path.toList.head? ≠ some '/' := fun h => by
      obtain ⟨cs, hcs⟩ := List.head?_eq_some_iff.mp h
      exact hroot cs hcs
    have hdot : ¬ (path.toList = ['.'] ∨ path.toList.take 2 = ['.', '/']) := by
      rintro (h | h)
      · exact hhere h
      · exact hbehind (path.toList.drop 2) (by rw [← List.take_append_drop 2 path.toList, h]; simp)
    rw [leading, if_neg hhead, if_neg hdot, List.nil_append]

/-- A slash ends one component and begins another one. -/
theorem inner_append_slash (xs ys : List Char) :
    inner (xs ++ '/' :: ys) = inner xs ++ inner ys := by
  rw [inner, pieces_append_slash, List.filterMap_append, inner, inner]

/-- What a path begins with does not depend on what comes behind a slash. -/
theorem leading_append_slash {xs : List Char} (h : xs ≠ []) (ys : List Char) :
    leading (xs ++ '/' :: ys) = leading xs := by
  match xs with
  | [c] => simp [leading]
  | c :: d :: rest => simp [leading]

/-- A piece that stands for nothing, behind a slash. -/
theorem components_append_slash {xs ys : List Char} (h : xs ≠ []) (hys : inner ys = []) :
    components (String.ofList (xs ++ '/' :: ys)) = components (String.ofList xs) := by
  rw [components_eq, components_eq, String.toList_ofList, String.toList_ofList,
    leading_append_slash h, inner_append_slash, hys, List.append_nil]

/-- Dropping slashes and dots at the end does not change the components. -/
theorem components_trimReversed (cs : List Char) :
    components (String.ofList (trimReversed cs).reverse) =
      components (String.ofList cs.reverse) := by
  fun_induction trimReversed cs with
  | case1 => rfl
  | case2 cs hcs ih =>
    rw [ih, List.reverse_cons]
    exact (components_append_slash (by simpa using hcs) rfl).symm
  | case3 => rfl
  | case4 cs hcs ih =>
    have hne : cs.reverse ≠ [] := by simpa using hcs
    rw [ih, List.reverse_cons, List.reverse_cons, List.reverse_cons, List.append_assoc,
      List.singleton_append, components_append_slash hne rfl, components_append_slash hne rfl]
  | case5 => rfl

/-- What is put in front of a name has the components of its directory. -/
theorem components_base (dir : String) :
    components (String.ofList (base dir)) = components dir := by
  rcases base_cases dir with ⟨rfl, hb⟩ | ⟨cs, hcs, hd | hd⟩
  · rw [hb]
  · have hne : cs ≠ [] := by
      rintro rfl
      obtain rfl : dir = "" := by simpa using hd
      simp [base] at hcs
    rw [hcs, components_append_slash hne rfl, ← hd, String.ofList_toList]
  · rw [hcs, ← hd, String.ofList_toList]

/-- The parent of a name in a directory is the directory. -/
theorem exists_parent?_join_eq {name : String} (h : IsName name) (dir : String) :
    ∃ parent, parent? (join dir name) = some parent ∧ components parent = components dir := by
  refine ⟨_, parent?_join h dir, ?_⟩
  rw [components_trimReversed, List.reverse_reverse, components_base]

/-! ### A piece in the middle -/

/-- What the pieces mean can be told from what the beginning means. -/
theorem inner_eq_of_components_eq {p q : String} (h : components p = components q) :
    inner p.toList = inner q.toList := by
  have hinner (path : String) : (components path).filter (fun c => c ≠ .root ∧ c ≠ .here) =
      inner path.toList := by
    have hleading : (leading path.toList).filter (fun c => c ≠ .root ∧ c ≠ .here) = [] := by
      rw [leading]
      split
      · decide
      · split <;> decide
    rw [components_eq, List.filter_append, hleading, List.nil_append, List.filter_eq_self]
    intro c hc
    obtain ⟨piece, -, hpiece⟩ := List.mem_filterMap.mp hc
    rw [innerComponent?] at hpiece
    split at hpiece
    · cases hpiece
    · split at hpiece <;> simp [← Option.some_inj.mp hpiece]
  rw [← hinner, ← hinner, h]

/-- The last piece of a text, and what is in front of it. -/
theorem exists_last_piece (cs : List Char) :
    ∃ front piece, cs = front ++ piece ∧ '/' ∉ piece ∧
      (front = [] ∨ front.getLast? = some '/') := by
  induction cs using List.reverseRecOn with
  | nil => exact ⟨[], [], rfl, List.not_mem_nil, .inl rfl⟩
  | append_singleton cs c ih =>
    by_cases hc : c = '/'
    · exact ⟨cs ++ [c], [], by simp, List.not_mem_nil, .inr (by simp [hc])⟩
    · obtain ⟨front, piece, rfl, hpiece, hfront⟩ := ih
      refine ⟨front, piece ++ [c], List.append_assoc .., ?_, hfront⟩
      simp [hpiece, Ne.symm hc]

/-- The first piece of a text, and what is behind it. -/
theorem exists_first_piece (cs : List Char) :
    ∃ piece back, cs = piece ++ back ∧ '/' ∉ piece ∧
      (back = [] ∨ back.head? = some '/') := by
  obtain ⟨front, piece, hcs, hpiece, hfront⟩ := exists_last_piece cs.reverse
  refine ⟨piece.reverse, front.reverse, ?_, by simpa using hpiece, ?_⟩
  · rw [← List.reverse_append, ← hcs, List.reverse_reverse]
  · simpa using hfront

/-- What a name means among pieces in front of it and behind it. -/
theorem exists_inner_middle {front back : List Char}
    (hfront : front = [] ∨ front.getLast? = some '/') (hback : back = [] ∨ back.head? = some '/') :
    ∃ before after, ∀ name, IsName name →
      inner (front ++ name.toList ++ back) = before ++ .name name :: after := by
  have hleft : ∃ before, ∀ cs, inner (front ++ cs) = before ++ inner cs := by
    rcases hfront with rfl | hfront
    · exact ⟨[], fun cs => rfl⟩
    · obtain ⟨ds, rfl⟩ := List.getLast?_eq_some_iff.mp hfront
      exact ⟨inner ds, fun cs => by
        rw [List.append_assoc, List.singleton_append, inner_append_slash]⟩
  have hright : ∃ after, ∀ cs, inner (cs ++ back) = inner cs ++ after := by
    rcases hback with rfl | hback
    · exact ⟨[], fun cs => by simp⟩
    · obtain ⟨ds, rfl⟩ := List.head?_eq_some_iff.mp hback
      exact ⟨inner ds, fun cs => inner_append_slash cs ds⟩
  obtain ⟨before, hbefore⟩ := hleft
  obtain ⟨after, hafter⟩ := hright
  refine ⟨before, after, fun name h => ?_⟩
  rw [List.append_assoc, hbefore, hafter, inner, pieces_of_noSlash h.no_slash,
    List.filterMap_cons_some h.innerComponent?_eq]
  rfl

/-- A text with an underscore and without slashes is a name of a file. -/
theorem isName_of_underscore {name : String} (h : '_' ∈ name.toList) (hslash : '/' ∉ name.toList) :
    IsName name where
  ne_empty hn := by simp [hn] at h
  ne_here hn := by simp [hn] at h
  ne_up hn := by simp [hn] at h
  no_slash := hslash

/-- Behind an underscore, a text without slashes can be read off the components of a path. -/
theorem eq_of_components_eq {xs ys : List Char} {m n : String} (hx : xs.getLast? = some '_')
    (hm : '/' ∉ m.toList) (hn : '/' ∉ n.toList)
    (h : components (String.ofList (xs ++ m.toList ++ ys)) =
      components (String.ofList (xs ++ n.toList ++ ys))) : m = n := by
  obtain ⟨front, p, rfl, hp, hfront⟩ := exists_last_piece xs
  obtain ⟨s, back, rfl, hs, hback⟩ := exists_first_piece ys
  obtain ⟨before, after, hinner⟩ := exists_inner_middle hfront hback
  have hunderscore : '_' ∈ p := by
    rcases List.eq_nil_or_concat p with rfl | ⟨p, c, rfl⟩
    · rcases hfront with rfl | hfront
      · cases hx
      · rw [List.append_nil, hfront] at hx
        exact absurd hx (by decide)
    · have hc : c = '_' := by simpa using hx
      simp [hc]
  have hname {t : String} (ht : '/' ∉ t.toList) :
      IsName (String.ofList (p ++ t.toList ++ s)) :=
    isName_of_underscore (by simp [hunderscore]) (by simp [hp, ht, hs])
  have htext (t : String) : front ++ p ++ t.toList ++ (s ++ back) =
      front ++ (String.ofList (p ++ t.toList ++ s)).toList ++ back := by simp
  have hpieces := inner_eq_of_components_eq h
  rw [String.toList_ofList, String.toList_ofList, htext, htext, hinner _ (hname hm),
    hinner _ (hname hn)] at hpieces
  simpa using hpieces

end Path

end InstrGraph
