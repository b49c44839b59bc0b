import InstrGraph.FileTree.Load
import InstrGraph.Proofs.Files.Paths

/-!
# Looking things up in a tree

* `entry?_set`, `entry?_erase`: a change at one place is not seen at another one.
* `find_congr`: what a path leads to depends on the places that are visited on its way only.
* `HasDirectory`: a path leads to a directory at a place. Names in it are found below that place
  (`HasDirectory.locate_join_of_isUsable`), and making it changes nothing
  (`HasDirectory.makeDirectory`).
* `Contents`: which files a directory holds, if it holds nothing but files.
-/

namespace InstrGraph

/-- The second place is somewhere below the first one. -/
def Place.Inside (p q : Place) : Prop := ∃ way, way ≠ [] ∧ q = p ++ way

/-- Inside a place is strictly below it. -/
theorem Place.inside_iff {p q : Place} : p.Inside q ↔ p <+: q ∧ p ≠ q := by
  constructor
  · rintro ⟨way, hway, rfl⟩
    exact ⟨List.prefix_append p way, by simpa using hway⟩
  · rintro ⟨⟨way, rfl⟩, hne⟩
    exact ⟨way, by simpa using hne, rfl⟩

instance (p q : Place) : Decidable (p.Inside q) := decidable_of_iff _ Place.inside_iff.symm

/-- No place is inside itself. -/
theorem Place.not_inside_self (p : Place) : ¬ p.Inside p := by
  rintro ⟨way, hway, h⟩
  exact hway (by simpa using h)

/-- What a directory holds is inside it. -/
theorem Place.inside_concat (p : Place) (name : String) : p.Inside (p ++ [name]) :=
  ⟨[name], by simp, rfl⟩

/-- A directory that is not below a place holds nothing that is below it. -/
theorem Place.below?_eq_none {r p : Place} {name : String} (h : ¬ r <+: p) :
    r.below? (p ++ [name]) = none := by
  rw [Place.below?, if_neg]
  intro hb
  rw [Bool.and_eq_true, List.isPrefixOf_iff_prefix] at hb
  obtain ⟨hleads, hany⟩ := hb
  rcases List.prefix_concat_iff.mp hleads with rfl | hr
  · simp at hany
  · exact h hr

namespace FileTree

variable {t t' : FileTree} {p q : Place} {e : Entry}

/-! ### One place at a time -/

/-- Without the entries of a place, nothing is found there, and everywhere else what was found
before. -/
theorem lookup_filter_ne (es : List (Place × Entry)) (p q : Place) :
    (es.filter fun e => e.1 != p).lookup q = if q = p then none else es.lookup q := by
  induction es with
  | nil => simp
  | cons e es ih =>
    by_cases he : e.1 = p
    · rw [List.filter_cons_of_neg (by simp [he]), ih, List.lookup_cons]
      by_cases hq : q = p
      · simp [hq]
      · have hb : (q == e.1) = false := by simpa [he] using hq
        simp [hq, hb]
    · rw [List.filter_cons_of_pos (by simpa using he), List.lookup_cons, List.lookup_cons, ih]
      by_cases hq : q = p
      · have hb : (p == e.1) = false := by simpa using Ne.symm he
        simp [hq, hb]
      · simp [hq]

/-- The root is a directory. -/
@[simp] theorem entry?_nil (t : FileTree) : t.entry? [] = some .directory := rfl

/-- Below the root, the entry of a place is the first one in the list. -/
theorem entry?_of_ne_nil (hq : q ≠ []) : t.entry? q = t.entries.lookup q := by
  simp [FileTree.entry?, hq]

/-- Erasing clears one place and leaves the others as they are. -/
theorem entry?_erase (hp : p ≠ []) : entry? (t.erase p) q = if q = p then none else t.entry? q := by
  by_cases hq : q = []
  · subst hq
    simp [hp.symm]
  · rw [entry?_of_ne_nil hq, entry?_of_ne_nil hq, erase, lookup_filter_ne]

/-- Setting an entry changes what is at its place and nothing else. -/
theorem entry?_set (hp : p ≠ []) : entry? (t.set p e) q = if q = p then some e else t.entry? q := by
  by_cases hq : q = []
  · subst hq
    simp [hp.symm]
  · by_cases hqp : q = p
    · rw [if_pos hqp, hqp, entry?_of_ne_nil hp, set, List.lookup_cons_self]
    · have hb : (q == p) = false := by simpa using hqp
      have herase : entry? (t.erase p) q = t.entry? q := by rw [entry?_erase hp, if_neg hqp]
      rw [if_neg hqp, ← herase, entry?_of_ne_nil hq, entry?_of_ne_nil hq, set, List.lookup_cons, hb]

/-- Erasing outside a directory does not change which files are below it. -/
theorem filesBelow_erase {r : Place} (h : r.below? p = none) :
    (t.erase p).filesBelow r = t.filesBelow r := by
  rw [filesBelow, filesBelow, erase, List.filterMap_filter]
  refine List.filterMap_congr fun e _ => ?_
  by_cases he : e.1 = p
  · obtain ⟨q, x⟩ := e
    cases x <;> simp_all
  · simp [he]

/-- Setting an entry outside a directory does not change which files are below it. -/
theorem filesBelow_set {r : Place} (h : r.below? p = none) :
    (t.set p e).filesBelow r = t.filesBelow r := by
  rw [← filesBelow_erase (t := t) h, filesBelow, filesBelow, set]
  cases e with
  | file text => simp [h]
  | directory => rfl

/-! ### The way of a path -/

/-- The place that one step leads to. -/
def enter (t : FileTree) (p : Place) (s : Step) : Except FileError Place :=
  match t.entry? p with
  | none => .error .notFound
  | some (.file _) => .error .notADirectory
  | some .directory =>
    match s with
    | .stay => .ok p
    | .up => .ok p.up
    | .into name => if isLongName name then .error .nameTooLong else .ok (p ++ [name])

/-- A walk takes its first step, and goes on from there. -/
theorem walk_cons (t : FileTree) (p : Place) (s : Step) (steps : List Step) :
    t.walk p (s :: steps) = (t.enter p s).bind fun q => t.walk q steps := by
  rw [enter.eq_def, walk.eq_def]
  dsimp only
  cases t.entry? p with
  | none => rfl
  | some e =>
    cases e with
    | file text => rfl
    | directory =>
      cases s with
      | stay => rfl
      | up => rfl
      | into name => by_cases hl : isLongName name = true <;> simp [hl, Except.bind]

/-- A walk along two routes in a row goes on from where the first one ends. -/
theorem walk_append (t : FileTree) (p : Place) (xs ys : List Step) :
    t.walk p (xs ++ ys) = (t.walk p xs).bind fun q => t.walk q ys := by
  induction xs generalizing p with
  | nil => rfl
  | cons x xs ih =>
    rw [List.cons_append, walk_cons, walk_cons]
    cases t.enter p x with
    | error e => rfl
    | ok q => exact ih q

/-- Whether a step can be taken depends on the entry of the place that it starts from. -/
theorem enter_congr {s : Step} (h : t'.entry? p = t.entry? p) : t'.enter p s = t.enter p s := by
  rw [enter.eq_def, enter.eq_def, h]

/-- Steps are taken from directories only. -/
theorem entry?_of_enter {s : Step} (h : t.enter p s = .ok q) : t.entry? p = some .directory := by
  rw [enter.eq_def] at h
  split at h
  · cases h
  · cases h
  · assumption

/-- A walk of at least one step arrives if its first step does and the rest of it arrives from
there. -/
theorem walk_cons_eq_ok {s : Step} {steps : List Step} :
    t.walk p (s :: steps) = .ok q ↔ ∃ r, t.enter p s = .ok r ∧ t.walk r steps = .ok q := by
  rw [walk_cons]
  cases t.enter p s <;> simp [Except.bind]

/-- Walking needs nothing but directories. -/
theorem walk_mono (h : ∀ q, t.entry? q = some .directory → t'.entry? q = some .directory)
    {steps : List Step} (hw : t.walk p steps = .ok q) : t'.walk p steps = .ok q := by
  induction steps generalizing p with
  | nil => exact hw
  | cons s steps ih =>
    obtain ⟨r, hr, hw⟩ := walk_cons_eq_ok.mp hw
    have hp := entry?_of_enter hr
    exact walk_cons_eq_ok.mpr ⟨r, (enter_congr ((h p hp).trans hp.symm)).trans hr, ih hw⟩

/-- A walk that ends in a directory begins in one. -/
theorem entry?_of_walk {steps : List Step} (hw : t.walk p steps = .ok q)
    (hq : t.entry? q = some .directory) : t.entry? p = some .directory := by
  cases steps with
  | nil =>
    cases hw
    exact hq
  | cons s steps =>
    obtain ⟨r, hr, -⟩ := walk_cons_eq_ok.mp hw
    exact entry?_of_enter hr

/-- Staying succeeds in directories, and does not move. -/
theorem enter_stay_eq_ok : t.enter p .stay = .ok q ↔ t.entry? p = some .directory ∧ q = p := by
  rw [enter.eq_def]
  cases t.entry? p with
  | none => simp
  | some e => cases e <;> simp [eq_comm]

/-- A walk that only stays does not move. -/
theorem walk_stays {k : Nat} (hw : t.walk p (List.replicate k .stay) = .ok q) : q = p := by
  induction k with
  | zero =>
    cases hw
    rfl
  | succ k ih =>
    obtain ⟨r, hr, hrest⟩ := walk_cons_eq_ok.mp hw
    obtain ⟨-, rfl⟩ := enter_stay_eq_ok.mp hr
    exact ih hrest

/-- One can stay in a directory as often as one likes. -/
theorem walk_stays_of_directory (hp : t.entry? p = some .directory) (k : Nat) :
    t.walk p (List.replicate k .stay) = .ok p := by
  induction k with
  | zero => rfl
  | succ k ih => exact walk_cons_eq_ok.mpr ⟨p, enter_stay_eq_ok.mpr ⟨hp, rfl⟩, ih⟩

/-- Staying at the end of a walk makes no difference if the walk ends in a directory. -/
theorem walk_append_stays {steps : List Step} {k : Nat} (hq : t.entry? q = some .directory) :
    t.walk p (steps ++ List.replicate k .stay) = .ok q ↔ t.walk p steps = .ok q := by
  rw [walk_append]
  cases hs : t.walk p steps with
  | error e => simp [Except.bind]
  | ok r =>
    refine ⟨fun hw => by rw [walk_stays hw], fun hw => ?_⟩
    cases hw
    exact walk_stays_of_directory hq k

/-- The places that are looked at on the way along some steps, and the one at their end. -/
def visited (t : FileTree) : Place → List Step → List Place
  | p, [] => [p]
  | p, s :: steps =>
    p :: match t.enter p s with
      | .ok q => visited t q steps
      | .error _ => []

/-- The places that are looked at on the way of a path. -/
def visitedBy (t : FileTree) (path : String) : List Place :=
  t.visited (startOf path) (stepsOf path)

/-- Where a walk ends depends on the entries of the places that it visits. -/
theorem walk_congr {steps : List Step}
    (h : ∀ r ∈ t.visited p steps, t'.entry? r = t.entry? r) :
    t'.walk p steps = t.walk p steps := by
  induction steps generalizing p with
  | nil => rfl
  | cons s steps ih =>
    have hp : t'.entry? p = t.entry? p := h p (by rw [visited]; exact List.mem_cons_self ..)
    rw [walk_cons, walk_cons, enter_congr hp]
    cases hs : t.enter p s with
    | error e => rfl
    | ok q =>
      refine ih fun r hr => h r ?_
      rw [visited, hs]
      exact List.mem_cons_of_mem _ hr

/-- Which places a walk visits depends on the entries of these very places. -/
theorem visited_congr {steps : List Step}
    (h : ∀ r ∈ t.visited p steps, t'.entry? r = t.entry? r) :
    t'.visited p steps = t.visited p steps := by
  induction steps generalizing p with
  | nil => rfl
  | cons s steps ih =>
    have hp : t'.entry? p = t.entry? p := h p (by rw [visited]; exact List.mem_cons_self ..)
    rw [visited, visited, enter_congr hp]
    cases hs : t.enter p s with
    | error e => rfl
    | ok q =>
      refine congrArg (p :: ·) (ih fun r hr => h r ?_)
      rw [visited, hs]
      exact List.mem_cons_of_mem _ hr

/-- The end of a walk is among the places that it visits. -/
theorem mem_visited_of_walk {steps : List Step} (hw : t.walk p steps = .ok q) :
    q ∈ t.visited p steps := by
  induction steps generalizing p with
  | nil =>
    cases hw
    exact List.mem_singleton_self _
  | cons s steps ih =>
    obtain ⟨r, hr, hw⟩ := walk_cons_eq_ok.mp hw
    rw [visited, hr]
    exact List.mem_cons_of_mem _ (ih hw)

/-- Where a path leads depends on the entries of the places that it visits. -/
theorem locate_congr {path : String} (h : ∀ r ∈ t.visitedBy path, t'.entry? r = t.entry? r) :
    t'.locate path = t.locate path := by
  rw [locate, locate, walk_congr h]

/-- What a path leads to depends on the places that are visited on its way only. -/
theorem find_congr {path : String} (h : ∀ r ∈ t.visitedBy path, t'.entry? r = t.entry? r) :
    t'.find path = t.find path := by
  rw [find, find, locate_congr h]
  split
  · rfl
  · rename_i r hr
    rw [h r]
    rw [locate] at hr
    split at hr
    · exact absurd hr (by simp)
    · split at hr
      · exact absurd hr (by simp)
      · exact mem_visited_of_walk hr

/-! ### A directory and the names in it -/

/-- The path of a directory leads to it, at a place. -/
structure HasDirectory (t : FileTree) (dir : String) (p : Place) : Prop where
  no_null : '\x00' ∉ dir.toList
  walk : t.walk (startOf dir) (stepsOf dir) = .ok p
  directory : t.entry? p = some .directory

/-- A name that a path may have: it is not too long and holds no null character. -/
def IsUsable (name : String) : Prop := '\x00' ∉ name.toList ∧ isLongName name = false

instance (name : String) : Decidable (IsUsable name) :=
  inferInstanceAs (Decidable (_ ∧ _))

namespace HasDirectory

variable {dir name : String} (h : t.HasDirectory dir p)

include h

/-- A directory is still found by its path in a tree that keeps all directories. -/
theorem mono (hdirs : ∀ q, t.entry? q = some .directory → t'.entry? q = some .directory) :
    t'.HasDirectory dir p :=
  ⟨h.no_null, walk_mono hdirs h.walk, hdirs p h.directory⟩

/-- Up to the slashes at its end, the path of the directory leads to it. -/
theorem walk_lead : t.walk (startOf dir) (leadOf dir) = .ok p := by
  have hw := h.walk
  rcases stepsOf_cases dir with hs | hs
  · rwa [hs] at hw
  · rw [hs] at hw
    exact (walk_append_stays (k := 1) h.directory).mp hw

/-- The path of a name in the directory leads to the place of that name, unless the name is too
long. -/
theorem walk_into (hname : Path.IsName name) :
    t.walk (startOf (Path.join dir name)) (stepsOf (Path.join dir name)) =
      if isLongName name then .error .nameTooLong else .ok (p ++ [name]) := by
  rw [startOf_join hname, stepsOf_join hname, walk_append, h.walk_lead]
  dsimp only [Except.bind]
  rw [walk_cons, enter.eq_def, h.directory]
  by_cases hl : isLongName name = true
  · simp [hl, Except.bind]
  · simp [hl, Except.bind, FileTree.walk]

/-- A null character in the path of a file in the directory is one in its name. -/
theorem null_mem_join_iff (hname : Path.IsName name) :
    '\x00' ∈ (Path.join dir name).toList ↔ '\x00' ∈ name.toList := by
  rw [Path.toList_join hname, List.mem_append]
  constructor
  · rintro (hb | hn)
    · exact absurd (Path.mem_base hb (by decide)) h.no_null
    · exact hn
  · exact .inr

/-- The path of a name that can be used leads to the place of that name in the directory. -/
theorem locate_join_of_isUsable (hname : Path.IsName name) (hu : IsUsable name) :
    t.locate (Path.join dir name) = .ok (p ++ [name]) := by
  have hnull : (Path.join dir name).toList.contains '\x00' = false := by
    simpa using fun hn => hu.1 ((h.null_mem_join_iff hname).mp hn)
  have hempty : (Path.join dir name).isEmpty = false := by
    have : (Path.join dir name).toList ≠ [] := by
      rw [Path.toList_join hname]
      simp [hname.toList_ne_nil]
    simpa using fun hs : Path.join dir name = "" => this (by simp [hs])
  rw [locate, hnull, hempty, h.walk_into hname, hu.2]
  rfl

/-- The path of a name that cannot be used leads nowhere. -/
theorem exists_locate_join_eq_error (hname : Path.IsName name) (hu : ¬ IsUsable name) :
    ∃ e, t.locate (Path.join dir name) = .error e := by
  rw [locate]
  by_cases hnull : '\x00' ∈ name.toList
  · have : (Path.join dir name).toList.contains '\x00' = true := by
      simpa using (h.null_mem_join_iff hname).mpr hnull
    exact ⟨_, by rw [this, if_pos rfl]⟩
  · have hl : isLongName name = true := by
      simpa [IsUsable, hnull] using hu
    rw [h.walk_into hname, hl]
    split
    · exact ⟨_, rfl⟩
    · split
      · exact ⟨_, rfl⟩
      · exact ⟨_, rfl⟩

/-- There is something at the path of a name if the name can be used and the directory holds it. -/
theorem leadsSomewhere_join (hname : Path.IsName name) :
    t.leadsSomewhere (Path.join dir name) =
      (decide (IsUsable name) && (t.entry? (p ++ [name])).isSome) := by
  rw [leadsSomewhere, find]
  by_cases hu : IsUsable name
  · rw [h.locate_join_of_isUsable hname hu]
    dsimp only
    cases t.entry? (p ++ [name]) <;> simp [hu, Except.toOption]
  · obtain ⟨e, he⟩ := h.exists_locate_join_eq_error hname hu
    simp [he, hu, Except.toOption]

/-- A file of the directory is read by its path just if its name can be used and its text is
there. -/
theorem read_join (hname : Path.IsName name) {text : String} :
    t.read (Path.join dir name) = .ok text ↔
      IsUsable name ∧ t.entry? (p ++ [name]) = some (.file text) := by
  rw [read, find]
  by_cases hu : IsUsable name
  · rw [h.locate_join_of_isUsable hname hu]
    dsimp only
    cases t.entry? (p ++ [name]) with
    | none => simp
    | some e => cases e <;> simp [hu]
  · obtain ⟨e, he⟩ := h.exists_locate_join_eq_error hname hu
    simp [he, hu]

end HasDirectory

/-! ### Making a directory that is there -/

/-- A directory that is there already need not be made. -/
theorem ensureDirectory_of_directory (hp : t.entry? p = some .directory) :
    t.ensureDirectory p = t := by
  simp [ensureDirectory, hp]

/-- Making directories along a walk that ends in a directory changes nothing. -/
theorem makeDirectories_of_walk {steps : List Step} (hw : t.walk p steps = .ok q)
    (hq : t.entry? q = some .directory) : t.makeDirectories p steps = (.ok (), t) := by
  induction steps generalizing p with
  | nil => rfl
  | cons s steps ih =>
    obtain ⟨r, hr, hw⟩ := walk_cons_eq_ok.mp hw
    have hdir := entry?_of_walk hw hq
    rw [enter.eq_def, entry?_of_enter hr] at hr
    cases s with
    | stay =>
      cases hr
      exact ih hw
    | up =>
      cases hr
      rw [makeDirectories, ensureDirectory_of_directory hdir]
      exact ih hw
    | into name =>
      dsimp only at hr
      split at hr
      · cases hr
      · rename_i hl
        cases hr
        rw [makeDirectories, if_neg hl, hdir]
        exact ih hw

namespace HasDirectory

variable {dir name : String} (h : t.HasDirectory dir p)

include h

/-- Making the directory again changes nothing. -/
theorem makeDirectory : t.makeDirectory dir = (.ok (), t) := by
  have hnull : dir.toList.contains '\x00' = false := by simpa using h.no_null
  rw [FileTree.makeDirectory, hnull,
    ensureDirectory_of_directory (entry?_of_walk h.walk h.directory)]
  exact makeDirectories_of_walk h.walk h.directory

/-- The directory of a name in it is there already. -/
theorem makeParent_join (hname : Path.IsName name) :
    t.makeParent (Path.join dir name) = (.ok (), t) := by
  obtain ⟨parent, k, hparent, hstart, hsteps, hchars⟩ := exists_parent?_join hname dir
  have hwalk : t.walk (startOf dir) (leadOf dir ++ [.stay]) = .ok p :=
    (walk_append_stays (k := 1) h.directory).mpr h.walk_lead
  have hdir : t.HasDirectory parent p := by
    refine ⟨fun hn => h.no_null (hchars _ hn (by decide)), ?_, h.directory⟩
    rw [← hsteps] at hwalk
    rw [hstart]
    exact (walk_append_stays h.directory).mp hwalk
  rw [makeParent, hparent]
  simp [hdir.makeDirectory, Except.mapError]

end HasDirectory

/-! ### What a directory holds -/

/-- The directory at a place holds these files, each by its name, and nothing else. -/
def Contents (t : FileTree) (p : Place) (files : String → Option String) : Prop :=
  ∀ way, way ≠ [] → ∀ e, t.entry? (p ++ way) = some e ↔
    ∃ name text, way = [name] ∧ e = .file text ∧ files name = some text

/-- A directory that no entry is inside of is empty. -/
theorem contents_of_not_inside (h : ∀ x ∈ t.entries, ¬ p.Inside x.1) :
    t.Contents p fun _ => none := by
  intro way hway e
  rw [entry?_of_ne_nil (by simp [hway])]
  refine ⟨fun he => ?_, by simp⟩
  obtain ⟨front, back, hentries, -⟩ := List.lookup_eq_some_iff.mp he
  exact absurd ⟨way, hway, rfl⟩ (h (p ++ way, e) (by simp [hentries]))

/-- Nothing is changed by the side of a directory. Its own entry counts as being by its side. -/
structure SameOutside (p : Place) (t t' : FileTree) : Prop where
  entry : ∀ q, ¬ p.Inside q → t'.entry? q = t.entry? q
  files : ∀ r, ¬ r <+: p → t'.filesBelow r = t.filesBelow r

/-- A tree is the same as itself outside of any place. -/
theorem SameOutside.refl (p : Place) (t : FileTree) : SameOutside p t t :=
  ⟨fun _ _ => rfl, fun _ _ => rfl⟩

/-- Trees that are the same as a third one outside of a place are the same there. -/
theorem SameOutside.trans {t'' : FileTree} (h : SameOutside p t t') (h' : SameOutside p t' t'') :
    SameOutside p t t'' :=
  ⟨fun q hq => (h'.entry q hq).trans (h.entry q hq),
    fun r hr => (h'.files r hr).trans (h.files r hr)⟩

/-- Being the same outside of a place does not depend on which tree comes first. -/
theorem SameOutside.symm (h : SameOutside p t t') : SameOutside p t' t :=
  ⟨fun q hq => (h.entry q hq).symm, fun r hr => (h.files r hr).symm⟩

/-- A path that does not get inside a place visits the same places in trees that differ only
there. -/
theorem SameOutside.visitedBy_eq {path : String} (h : SameOutside p t t')
    (hpath : ∀ r ∈ t.visitedBy path, ¬ p.Inside r) : t'.visitedBy path = t.visitedBy path :=
  visited_congr fun r hr => h.entry r (hpath r hr)

/-- A path that does not get inside a place leads to the same place in trees that differ only
there. -/
theorem SameOutside.locate_eq {path : String} (h : SameOutside p t t')
    (hpath : ∀ r ∈ t.visitedBy path, ¬ p.Inside r) : t'.locate path = t.locate path :=
  locate_congr fun r hr => h.entry r (hpath r hr)

/-- A path that does not get inside a place finds the same entry in trees that differ only there. -/
theorem SameOutside.find_eq {path : String} (h : SameOutside p t t')
    (hpath : ∀ r ∈ t.visitedBy path, ¬ p.Inside r) : t'.find path = t.find path :=
  find_congr fun r hr => h.entry r (hpath r hr)

namespace Contents

variable {files : String → Option String} (h : t.Contents p files)

include h

/-- The entry of a name in the directory is the file of this name, if there is one. -/
theorem entry?_eq (name : String) : t.entry? (p ++ [name]) = (files name).map .file := by
  cases hf : files name with
  | none =>
    rw [Option.map_none, Option.eq_none_iff_forall_ne_some]
    intro e he
    obtain ⟨name', text, hname, -, hfile⟩ := (h [name] (by simp) e).mp he
    rw [List.singleton_inj] at hname
    rw [← hname, hf] at hfile
    cases hfile
  | some text => exact (h [name] (by simp) _).mpr ⟨name, text, rfl, rfl, hf⟩

/-- There are only files in the directory. -/
theorem entry?_ne_directory (name : String) : t.entry? (p ++ [name]) ≠ some .directory := by
  rw [h.entry?_eq]
  cases files name <;> simp

/-- No directory is inside. -/
theorem not_inside_of_directory (hq : t.entry? q = some .directory) : ¬ p.Inside q := by
  rintro ⟨way, hway, rfl⟩
  obtain ⟨name, text, -, he, -⟩ := (h way hway _).mp hq
  cases he

/-- The directory is found again in a tree that differs inside of it only. -/
theorem hasDirectory {dir : String} (hdir : t.HasDirectory dir p) (hsame : SameOutside p t t') :
    t'.HasDirectory dir p :=
  hdir.mono fun q hq => by rw [hsame.entry q (h.not_inside_of_directory hq), hq]

/-- Two directories with the same files but one have the same entries but one, if the trees are the
same by their side. -/
theorem entry?_congr {files' : String → Option String} (h' : t'.Contents p files')
    (hsame : SameOutside p t t') {x : String} (hfiles : ∀ n, n ≠ x → files' n = files n) {q : Place}
    (hq : q ≠ p ++ [x]) : t'.entry? q = t.entry? q := by
  by_cases hin : p.Inside q
  · obtain ⟨way, hway, rfl⟩ := hin
    refine Option.ext fun e => ?_
    rw [h' way hway, h way hway]
    refine exists_congr fun n => exists_congr fun text => and_congr_right fun hn => ?_
    rw [hfiles n fun heq => hq (by rw [hn, heq])]
  · exact hsame.entry q hin

/-- There is something at the path of a name that can be used just if there is a file of this
name. -/
theorem isSome_iff {dir name : String} (hdir : t.HasDirectory dir p) (hname : Path.IsName name)
    (hu : IsUsable name) :
    t.leadsSomewhere (Path.join dir name) = (files name).isSome := by
  rw [hdir.leadsSomewhere_join hname, h.entry?_eq]
  simp [hu]

end Contents

end FileTree

end InstrGraph
