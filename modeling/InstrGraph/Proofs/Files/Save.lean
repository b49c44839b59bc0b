import InstrGraph.Proofs.Files.Tree
import Mathlib.Logic.Function.Basic

/-!
# What saving does

An output of a directory that is there is saved by way of a temporary file next to it.
`HasDirectory.save_join_cases` says once what can happen; the rest follows from it:

* `canSave_join_iff`: saving succeeds just if neither of the two names is out of use, for being
  too long or that of a directory.
* `HasDirectory.sameOutside_save`: nothing happens by the side of the directory, whether saving
  succeeds or not.
* `Contents.save`: after a success the directory holds the output, and nothing by the name of the
  temporary file any more. This is where an output is lost whose name is that of a temporary file.
* `Contents.exists_save`: in any case no third name is touched, nor one that cannot be used.
* `read_of_save`: whatever the tree is like, what has been saved with success can be read.
-/

namespace InstrGraph.FileTree

open InstrGraph.Path (IsName join)

/-- Whatever is to be saved at a path can be saved. -/
def CanSave (t : FileTree) (path : String) : Prop := ∀ text, (t.save path text).1 = .ok ()

/-- A file can be written by a name in the directory at a place. -/
def CanWrite (t : FileTree) (p : Place) (name : String) : Prop :=
  IsUsable name ∧ t.entry? (p ++ [name]) ≠ some .directory

/-- The tree in which a temporary file has been written. -/
def staged (t : FileTree) (p : Place) (name text : String) : FileTree :=
  t.set (p ++ [temporaryName name]) (.file text)

/-- The tree in which an output has been saved. -/
def saved (t : FileTree) (p : Place) (name text : String) : FileTree :=
  ((t.staged p name text).erase (p ++ [temporaryName name])).set (p ++ [name]) (.file text)

variable {t t' : FileTree} {dir name text : String} {p q : Place}

/-- Names in a directory are different if their places are. -/
theorem concat_inj {p : Place} {m n : String} : p ++ [m] = p ++ [n] ↔ m = n := by simp

/-- With a temporary file written, its text is at its place, and all else is as before. -/
theorem entry?_staged : entry? (t.staged p name text) q =
    if q = p ++ [temporaryName name] then some (.file text) else t.entry? q := by
  rw [staged, entry?_set (by simp)]

/-- With a file saved, its text is at its place, its temporary file is gone, and all else is as
before. -/
theorem entry?_saved : entry? (t.saved p name text) q =
    if q = p ++ [name] then some (.file text)
    else if q = p ++ [temporaryName name] then none else t.entry? q := by
  rw [saved, entry?_set (by simp), entry?_erase (by simp), entry?_staged]
  by_cases htmp : q = p ++ [temporaryName name] <;> simp [htmp]

/-- Writing the temporary file changes nothing outside of the directory. -/
theorem sameOutside_staged : SameOutside p t (t.staged p name text) where
  entry q hq := by
    rw [entry?_staged, if_neg]
    rintro rfl
    exact hq (p.inside_concat _)
  files r hr := filesBelow_set (Place.below?_eq_none hr)

/-- Erasing a file changes nothing outside of its directory. -/
theorem sameOutside_erase (t : FileTree) (p : Place) (name : String) :
    SameOutside p t (t.erase (p ++ [name])) where
  entry q hq := by
    rw [entry?_erase (by simp), if_neg]
    rintro rfl
    exact hq (p.inside_concat _)
  files r hr := filesBelow_erase (Place.below?_eq_none hr)

/-- Saving a file changes nothing outside of its directory. -/
theorem sameOutside_saved : SameOutside p t (t.saved p name text) where
  entry q hq := by
    rw [entry?_saved, if_neg, if_neg]
    · rintro rfl
      exact hq (p.inside_concat _)
    · rintro rfl
      exact hq (p.inside_concat _)
  files r hr := by
    rw [saved, filesBelow_set (Place.below?_eq_none hr), filesBelow_erase (Place.below?_eq_none hr)]
    exact sameOutside_staged.files r hr

namespace HasDirectory

variable (h : t.HasDirectory dir p) (hname : IsName name)

include h hname

/-- A file that can be written is written at its place. -/
theorem write_join_of_canWrite (hw : t.CanWrite p name) (text : String) :
    t.write (join dir name) text = (.ok (), t.set (p ++ [name]) (.file text)) := by
  rw [write, h.locate_join_of_isUsable hname hw.1]
  dsimp only
  cases he : t.entry? (p ++ [name]) with
  | none => rfl
  | some e =>
    cases e with
    | file old => rfl
    | directory => exact absurd he hw.2

/-- A file that cannot be written is refused, and nothing changes. -/
theorem exists_write_join_eq_error (hw : ¬ t.CanWrite p name) (text : String) :
    ∃ e, t.write (join dir name) text = (.error e, t) := by
  rw [write]
  by_cases hu : IsUsable name
  · have hdir : t.entry? (p ++ [name]) = some .directory := not_not.mp fun hd => hw ⟨hu, hd⟩
    rw [h.locate_join_of_isUsable hname hu]
    dsimp only
    rw [hdir]
    exact ⟨_, rfl⟩
  · obtain ⟨e, he⟩ := h.exists_locate_join_eq_error hname hu
    exact ⟨e, by rw [he]⟩

omit hname in
/-- The directory is still there when the temporary file is written. -/
theorem hasDirectory_staged (hw : t.CanWrite p (temporaryName name)) (text : String) :
    (t.staged p name text).HasDirectory dir p :=
  h.mono fun q hq => by
    rw [entry?_staged, if_neg, hq]
    rintro rfl
    exact hw.2 hq

/-- The temporary file is written if it can be. -/
theorem stage_join_of_canWrite (htmp : t.CanWrite p (temporaryName name)) (text : String) :
    t.stage (join dir name) text = (.ok (), t.staged p name text) := by
  rw [stage, h.makeParent_join hname, temporaryPath_join hname]
  dsimp only
  rw [h.write_join_of_canWrite (isName_temporaryName hname) htmp]
  rfl

/-- The temporary file takes the place of the output, whatever it holds. -/
theorem commit_join_of_file (htmp : IsUsable (temporaryName name)) (hw : t.CanWrite p name)
    (hfile : t.entry? (p ++ [temporaryName name]) = some (.file text)) :
    t.commit (join dir name) =
      (.ok (), (t.erase (p ++ [temporaryName name])).set (p ++ [name]) (.file text)) := by
  rw [commit, temporaryPath_join hname, rename,
    h.locate_join_of_isUsable (isName_temporaryName hname) htmp,
    h.locate_join_of_isUsable hname hw.1]
  dsimp only
  rw [hfile]
  cases he : t.entry? (p ++ [name]) with
  | none => rfl
  | some e =>
    cases e with
    | file old => rfl
    | directory => exact absurd he hw.2

/-- Without its temporary file an output cannot be moved to its place. -/
theorem exists_commit_join_eq_error_of_none (htmp : IsUsable (temporaryName name))
    (hw : t.CanWrite p name) (hnone : t.entry? (p ++ [temporaryName name]) = none) :
    ∃ e, t.commit (join dir name) = (.error e, t) := by
  rw [commit, temporaryPath_join hname, rename,
    h.locate_join_of_isUsable (isName_temporaryName hname) htmp,
    h.locate_join_of_isUsable hname hw.1]
  dsimp only
  rw [hnone]
  exact ⟨_, rfl⟩

/-- The temporary file takes the place of the file if that can be written. -/
theorem commit_of_canWrite (htmp : t.CanWrite p (temporaryName name)) (hw : t.CanWrite p name)
    (text : String) :
    (t.staged p name text).commit (join dir name) = (.ok (), t.saved p name text) := by
  have hsame : entry? (t.staged p name text) (p ++ [name]) = t.entry? (p ++ [name]) := by
    rw [entry?_staged, if_neg fun heq => temporaryName_ne name (concat_inj.mp heq).symm]
  exact (h.hasDirectory_staged htmp text).commit_join_of_file hname htmp.1
    ⟨hw.1, hsame ▸ hw.2⟩ (by rw [entry?_staged, if_pos rfl])

/-- If the file cannot be written, the temporary one stays where it is. -/
theorem exists_commit_eq_error (htmp : t.CanWrite p (temporaryName name))
    (hw : ¬ t.CanWrite p name) (text : String) :
    ∃ e, (t.staged p name text).commit (join dir name) = (.error e, t.staged p name text) := by
  have hdir := h.hasDirectory_staged htmp text
  rw [commit, temporaryPath_join hname, rename,
    hdir.locate_join_of_isUsable (isName_temporaryName hname) htmp.1]
  by_cases hu : IsUsable name
  · have hd : t.entry? (p ++ [name]) = some .directory := not_not.mp fun hd => hw ⟨hu, hd⟩
    rw [hdir.locate_join_of_isUsable hname hu]
    dsimp only
    rw [entry?_staged, if_pos rfl, entry?_staged,
      if_neg (fun heq => temporaryName_ne name (concat_inj.mp heq).symm), hd]
    exact ⟨_, rfl⟩
  · obtain ⟨e, he⟩ := hdir.exists_locate_join_eq_error hname hu
    rw [he]
    exact ⟨_, rfl⟩

/-- What saving an output can do: it succeeds, the temporary file cannot be written, or it is
written and stays. -/
theorem save_join_cases (text : String) :
    t.CanWrite p (temporaryName name) ∧ t.CanWrite p name ∧
        t.save (join dir name) text = (.ok (), t.saved p name text) ∨
      ¬ t.CanWrite p (temporaryName name) ∧
        (∃ e, t.save (join dir name) text = (.error e, t)) ∨
      t.CanWrite p (temporaryName name) ∧ ¬ t.CanWrite p name ∧
        ∃ e, t.save (join dir name) text = (.error e, t.staged p name text) := by
  rw [save]
  by_cases htmp : t.CanWrite p (temporaryName name)
  · rw [h.stage_join_of_canWrite hname htmp]
    by_cases hw : t.CanWrite p name
    · exact .inl ⟨htmp, hw, h.commit_of_canWrite hname htmp hw text⟩
    · exact .inr (.inr ⟨htmp, hw, h.exists_commit_eq_error hname htmp hw text⟩)
  · obtain ⟨e, he⟩ := h.exists_write_join_eq_error (isName_temporaryName hname) htmp text
    rw [stage, h.makeParent_join hname, temporaryPath_join hname]
    dsimp only
    rw [he]
    exact .inr (.inl ⟨htmp, _, rfl⟩)

/-- A file can be saved just if it and its temporary file can be written. -/
theorem canSave_join_iff :
    t.CanSave (join dir name) ↔ t.CanWrite p (temporaryName name) ∧ t.CanWrite p name := by
  constructor
  · intro hsave
    rcases h.save_join_cases hname "" with ⟨htmp, hw, -⟩ | ⟨-, e, he⟩ | ⟨-, -, e, he⟩
    · exact ⟨htmp, hw⟩
    · have := hsave ""
      simp [he] at this
    · have := hsave ""
      simp [he] at this
  · rintro ⟨htmp, hw⟩ text
    rcases h.save_join_cases hname text with ⟨-, -, he⟩ | ⟨hn, -⟩ | ⟨-, hn, -⟩
    · rw [he]
    · exact absurd htmp hn
    · exact absurd hw hn

/-- A file that can be saved is saved at its place. -/
theorem save_join_of_canSave (hsave : t.CanSave (join dir name)) (text : String) :
    t.save (join dir name) text = (.ok (), t.saved p name text) := by
  obtain ⟨htmp, hw⟩ := (h.canSave_join_iff hname).mp hsave
  rcases h.save_join_cases hname text with ⟨-, -, he⟩ | ⟨hn, -⟩ | ⟨-, hn, -⟩
  · exact he
  · exact absurd htmp hn
  · exact absurd hw hn

/-- Whatever becomes of an output, nothing happens by the side of its directory. -/
theorem sameOutside_save (text : String) :
    SameOutside p t (t.save (join dir name) text).2 := by
  rcases h.save_join_cases hname text with ⟨-, -, he⟩ | ⟨-, e, he⟩ | ⟨-, -, e, he⟩
  · rw [he]
    exact sameOutside_saved
  · rw [he]
    exact SameOutside.refl p t
  · rw [he]
    exact sameOutside_staged

end HasDirectory

namespace Contents

variable {files : String → Option String} (h : t.Contents p files)

include h

/-- In a directory of files, every name that can be used can be written. -/
theorem canWrite_iff : t.CanWrite p name ↔ IsUsable name :=
  ⟨And.left, fun hu => ⟨hu, h.entry?_ne_directory name⟩⟩

/-- What stands elsewhere stands there whatever becomes of one name. -/
theorem entry?_of_ne {way : List String} (hway : way ≠ []) (hw : way ≠ [name])
    (v : Option String) (e : Entry) :
    t.entry? (p ++ way) = some e ↔
      ∃ n text, way = [n] ∧ e = .file text ∧ Function.update files name v n = some text := by
  rw [h way hway e]
  refine exists_congr fun n => exists_congr fun x => and_congr_right fun hn => ?_
  have : n ≠ name := fun heq => hw (heq ▸ hn)
  rw [Function.update_of_ne this]

/-- A directory with one more file. -/
theorem set (name text : String) :
    (t.set (p ++ [name]) (.file text)).Contents p (Function.update files name (some text)) := by
  intro way hway e
  rw [entry?_set (by simp)]
  by_cases hw : way = [name]
  · subst hw
    simp [eq_comm]
  · have hne : p ++ way ≠ p ++ [name] := fun heq => hw (List.append_cancel_left heq)
    rw [if_neg hne]
    exact h.entry?_of_ne hway hw _ e

/-- A directory with one file less. -/
theorem erase (name : String) :
    (t.erase (p ++ [name])).Contents p (Function.update files name none) := by
  intro way hway e
  rw [entry?_erase (by simp)]
  by_cases hw : way = [name]
  · subst hw
    simp
  · have hne : p ++ way ≠ p ++ [name] := fun heq => hw (List.append_cancel_left heq)
    rw [if_neg hne]
    exact h.entry?_of_ne hway hw _ e

/-- Saving a file in a directory of files puts its text there and takes its temporary file away. -/
theorem saved (name text : String) : (t.saved p name text).Contents p
    (Function.update (Function.update files (temporaryName name) none) name (some text)) := by
  have := ((h.set (temporaryName name) text).erase (temporaryName name)).set name text
  rwa [Function.update_idem] at this

variable (hdir : t.HasDirectory dir p) (hname : IsName name)

include hdir hname

/-- In a directory of files everything can be saved that the names do not rule out. -/
theorem canSave (hu : IsUsable name) (htmp : IsUsable (temporaryName name)) :
    t.CanSave (join dir name) :=
  (hdir.canSave_join_iff hname).mpr ⟨h.canWrite_iff.mpr htmp, h.canWrite_iff.mpr hu⟩

/-- What can be saved depends on the names only. -/
theorem canSave_congr {files' : String → Option String} (h' : t'.Contents p files')
    (hdir' : t'.HasDirectory dir p) (hsave : t.CanSave (join dir name)) :
    t'.CanSave (join dir name) := by
  obtain ⟨htmp, hw⟩ := (hdir.canSave_join_iff hname).mp hsave
  exact h'.canSave hdir' hname (h.canWrite_iff.mp hw) (h.canWrite_iff.mp htmp)

/-- After an output has been saved, the directory holds it, and the temporary file is gone. -/
theorem save (hsave : t.CanSave (join dir name)) (text : String) :
    (t.save (join dir name) text).2.Contents p
      (Function.update (Function.update files (temporaryName name) none) name (some text)) := by
  rw [hdir.save_join_of_canSave hname hsave]
  exact h.saved name text

/-- Saving an output touches its own name and that of its temporary file at most, and its own name
only if that can be used. -/
theorem exists_save (text : String) :
    ∃ files', (t.save (join dir name) text).2.Contents p files' ∧
      ∀ m, (m = name → ¬ IsUsable name) → m ≠ temporaryName name → files' m = files m := by
  rcases hdir.save_join_cases hname text with ⟨-, hw, he⟩ | ⟨-, e, he⟩ | ⟨-, -, e, he⟩
  · rw [he]
    refine ⟨_, h.saved name text, fun m hm hm' => ?_⟩
    rw [Function.update_of_ne fun heq => hm heq hw.1, Function.update_of_ne hm']
  · rw [he]
    exact ⟨files, h, fun _ _ _ => rfl⟩
  · rw [he]
    exact ⟨_, h.set _ text, fun m _ hm' => Function.update_of_ne hm' ..⟩

end Contents

/-! ### What has been saved can be read -/

/-- What is no directory is not the root. -/
theorem ne_nil_of_entry?_ne_directory (h : t.entry? p ≠ some .directory) : p ≠ [] := by
  rintro rfl
  exact h (entry?_nil t)

/-- A path leads to the same place in a tree that keeps all directories. -/
theorem locate_mono (t' : FileTree) {path : String} (h : t.locate path = .ok p)
    (hdirs : ∀ q, t.entry? q = some .directory → t'.entry? q = some .directory) :
    t'.locate path = .ok p := by
  rw [locate] at h ⊢
  split at h
  · cases h
  · rename_i hnull
    split at h
    · cases h
    · rename_i hempty
      rw [if_neg hnull, if_neg hempty]
      exact walk_mono hdirs h

/-- Writing succeeds by setting the file that the path leads to. -/
theorem write_eq_ok {path : String} (h : t.write path text = (.ok (), t')) :
    ∃ p, t.locate path = .ok p ∧ t.entry? p ≠ some .directory ∧ t' = t.set p (.file text) := by
  rw [write] at h
  cases hlocate : t.locate path with
  | error e => simp [hlocate] at h
  | ok p =>
    rw [hlocate] at h
    dsimp only at h
    split at h
    · cases h
    · rename_i hentry
      exact ⟨p, rfl, hentry, (Prod.mk.inj h).2.symm⟩

/-- Renaming succeeds by moving the text of one file to the place of the other one. -/
theorem rename_eq_ok {source target : String} (h : t.rename source target = (.ok (), t')) :
    ∃ p q text, t.locate source = .ok p ∧ t.locate target = .ok q ∧
      t.entry? p = some (.file text) ∧ t.entry? q ≠ some .directory ∧
      t' = (t.erase p).set q (.file text) := by
  rw [rename] at h
  split at h
  · cases h
  · cases h
  · rename_i p q hp hq
    split at h
    · cases h
    · rename_i text hfile hentry
      exact ⟨p, q, text, hp, hq, hfile, hentry, (Prod.mk.inj h).2.symm⟩
    · cases h
    · cases h

/-- Staging succeeds by making the directory and writing the temporary file there. -/
theorem stage_eq_ok {path : String} (h : t.stage path text = (.ok (), t')) :
    ∃ t₀, t.makeParent path = (.ok (), t₀) ∧ t₀.write (temporaryPath path) text = (.ok (), t') := by
  rw [stage] at h
  split at h
  · cases h
  · rename_i t₀ hparent
    refine ⟨t₀, hparent, ?_⟩
    cases hwrite : t₀.write (temporaryPath path) text with
    | mk result tree =>
      rw [hwrite] at h
      cases result with
      | error e => cases h
      | ok u =>
        obtain rfl := (Prod.mk.inj h).2
        rfl

/-- Committing succeeds by renaming the temporary file. -/
theorem commit_eq_ok {path : String} (h : t.commit path = (.ok (), t')) :
    t.rename (temporaryPath path) path = (.ok (), t') := by
  rw [commit] at h
  cases hrename : t.rename (temporaryPath path) path with
  | mk result tree =>
    rw [hrename] at h
    cases result with
    | error e => cases h
    | ok u =>
      obtain rfl := (Prod.mk.inj h).2
      rfl

/-- An output that has been saved can be read. -/
theorem read_of_save {path : String} (h : t.save path text = (.ok (), t')) :
    t'.read path = .ok text := by
  rw [save] at h
  split at h
  · cases h
  rename_i t₁ hstage
  obtain ⟨t₀, -, hwrite⟩ := stage_eq_ok hstage
  obtain ⟨p, hlocate, hplace, rfl⟩ := write_eq_ok hwrite
  have hp := ne_nil_of_entry?_ne_directory hplace
  obtain ⟨p', q, text', hp', hq, hfile, htarget, rfl⟩ := rename_eq_ok (commit_eq_ok h)
  -- the temporary file is found again where it has been written
  obtain rfl : p = p' := by
    have hagain := locate_mono (t₀.set p (.file text)) hlocate fun r hr => by
      rw [entry?_set hp, if_neg, hr]
      rintro rfl
      exact hplace hr
    exact Except.ok.inj (hagain.symm.trans hp')
  obtain rfl : text = text' := by
    rw [entry?_set hp, if_pos rfl] at hfile
    exact Entry.file.inj (Option.some.inj hfile)
  have hq' := ne_nil_of_entry?_ne_directory htarget
  have hfound := locate_mono (((t₀.set p (.file text)).erase p).set q (.file text)) hq
    fun r hr => by
      rw [entry?_set hq', if_neg, entry?_erase hp, if_neg, hr]
      · rintro rfl
        rw [entry?_set hp, if_pos rfl] at hr
        cases hr
      · rintro rfl
        exact htarget hr
  rw [read, find, hfound]
  dsimp only
  rw [entry?_set hq', if_pos rfl]

end InstrGraph.FileTree
