import InstrGraph.Json.Fields
import InstrGraph.Proofs.Json.Text

/-!
# The fields of a record

A record is written as an object that leaves out some of its members (`Json.present`), and read
field by field. Where no name stands twice among the fields, each reader finds its own, a member
that was left out as an absent one (`Json.fields?_present`); so a record is read back if every
field is.

`Json.Fits` says of a value that its text is read back and that it nests no deeper than a given
room, as a reader asks of the records whose parts share one object.
-/

namespace InstrGraph.Json

/-- The members of fields, some of which may be left out. -/
def present (fields : List (String × Option Json)) : List (String × Json) :=
  fields.filterMap fun f => f.2.map fun j => (f.1, j)

/-- The fields that are present in two lists are those of the first one and then those of the
second. -/
theorem present_append (fields fields' : List (String × Option Json)) :
    present (fields ++ fields') = present fields ++ present fields' := List.filterMap_append

variable {fields : List (String × Option Json)} {name : String} {field : Option Json}

/-- A member that is present is a field with a value. -/
theorem mem_present {m : String × Json} (h : m ∈ present fields) : (m.1, some m.2) ∈ fields := by
  obtain ⟨f, hf, hm⟩ := List.mem_filterMap.mp h
  obtain ⟨j, hj, rfl⟩ := Option.map_eq_some_iff.mp hm
  rw [← hj]
  exact hf

/-- Picking the members of a name is picking the fields of this name. -/
theorem filter_present (name : String) (fields : List (String × Option Json)) :
    (present fields).filter (fun m => [name].contains m.1) =
      present (fields.filter fun f => f.1 == name) := by
  induction fields with
  | nil => rfl
  | cons f fields ih =>
    obtain ⟨n, _ | j⟩ := f
    · by_cases hn : n = name <;> simp_all [present]
    · by_cases hn : n = name <;> simp_all [present]

/-- If no name occurs twice, picking a name gives its field. -/
theorem filter_eq_singleton (hd : (fields.map Prod.fst).Nodup) (h : (name, field) ∈ fields) :
    fields.filter (fun f => f.1 == name) = [(name, field)] := by
  induction fields with
  | nil => simp at h
  | cons f fields ih =>
    rw [List.map_cons, List.nodup_cons] at hd
    rcases List.mem_cons.mp h with rfl | h
    · have hnone : fields.filter (fun f => f.1 == name) = [] := by
        rw [List.filter_eq_nil_iff]
        intro f hf heq
        exact hd.1 (List.mem_map.mpr ⟨f, hf, beq_iff_eq.mp heq⟩)
      rw [List.filter_cons_of_pos (by simp), hnone]
    · have hne : f.1 ≠ name := by
        rintro rfl
        exact hd.1 (List.mem_map.mpr ⟨_, h, rfl⟩)
      rw [List.filter_cons_of_neg (by simpa using hne), ih hd.2 h]

/-- A field is found under its name, or found absent. -/
theorem member?_present (hd : (fields.map Prod.fst).Nodup) (h : (name, field) ∈ fields) :
    member? [name] (present fields) = some field := by
  rw [member?, filter_present, filter_eq_singleton hd h]
  cases field <;> rfl

/-- A reader finds the fields it asks for. -/
theorem fields?_present (fields chosen : List (String × Option Json))
    (hd : (fields.map Prod.fst).Nodup) (h : chosen ⊆ fields) :
    (object (present fields)).fields? (chosen.map fun f => [f.1]) =
      some (chosen.map Prod.snd) := by
  rw [fields?]
  induction chosen with
  | nil => rfl
  | cons f chosen ih =>
    rw [List.map_cons, List.mapM_cons, member?_present hd (h List.mem_cons_self),
      ih fun g hg => h (List.mem_cons_of_mem f hg)]
    rfl

/-! ### Fields of one shape -/

section

variable {α : Type}

/-- A required field is read as its value is. -/
@[simp] theorem required_some (value : Json → Option α) (j : Json) :
    required value (some j) = value j := rfl

/-- A field with a default is read as its value is, if there is one. -/
@[simp] theorem withDefault_some (default : α) (value : Json → Option α) (j : Json) :
    withDefault default value (some j) = value j := rfl

/-- A text is read from its value. -/
@[simp] theorem string?_string (s : String) : string? (string s) = some s := rfl

/-- A boolean is read from its value. -/
@[simp] theorem bool?_bool (b : Bool) : bool? (bool b) = some b := rfl

/-- A list is read back if its items are. -/
theorem list?_array {item : Json → Option α} {write : α → Json} {xs : List α}
    (h : ∀ x ∈ xs, item (write x) = some x) : list? item (array (xs.map write)) = some xs := by
  rw [list?]
  induction xs with
  | nil => rfl
  | cons x xs ih =>
    rw [List.map_cons, List.mapM_cons, h x List.mem_cons_self,
      ih fun y hy => h y (List.mem_cons_of_mem x hy)]
    rfl

/-- The members of an object are read back, in their order and with every repetition, if their
values are. -/
theorem members?_object {value : Json → Option α} {write : α → Json} {xs : List (String × α)}
    (h : ∀ x ∈ xs, value (write x.2) = some x.2) :
    members? value (object (xs.map fun x => (x.1, write x.2))) = some xs := by
  rw [members?]
  induction xs with
  | nil => rfl
  | cons x xs ih =>
    simp only [List.map_cons, List.mapM_cons, h x List.mem_cons_self,
      ih fun y hy => h y (List.mem_cons_of_mem x hy)]
    rfl

end

/-- Texts are read from the array of them. -/
@[simp] theorem list?_strings (xs : List String) : list? string? (strings xs) = some xs :=
  list?_array fun _ _ => rfl

/-- A list of strings that is left out if it is empty. -/
def stringsIfAny (xs : List String) : Option Json := if xs.isEmpty then none else some (strings xs)

/-- A member for texts that can be left out is a field that is present if there are any. -/
theorem memberIfAny_eq (name : String) (xs : List String) :
    memberIfAny name xs = present [(name, stringsIfAny xs)] := by
  rw [memberIfAny, stringsIfAny]
  split <;> rfl

/-- A member for a text that can be left out is a field that is present if there is one. -/
theorem memberIfSome_eq (name : String) (o : Option String) :
    memberIfSome name o = present [(name, o.map string)] := by cases o <;> rfl

/-- Texts are read back also where none of them means no field. -/
@[simp] theorem withDefault_stringsIfAny (xs : List String) :
    withDefault [] (list? string?) (stringsIfAny xs) = some xs := by
  cases xs with
  | nil => rfl
  | cons x xs => exact list?_strings (x :: xs)

/-- A text is read back also where its absence means no field. -/
@[simp] theorem withDefault_map_string (o : Option String) :
    withDefault none (nullable? string?) (o.map string) = some o := by cases o <;> rfl

/-- A word of 32 bits is read from its number. -/
@[simp] theorem word32?_toNat (n : UInt32) : word32? (int n.toNat) = some n := by
  have hn : (0 : Int) ≤ n.toNat ∧ (n.toNat : Int) ≤ 0xFFFFFFFF := by
    have := n.toNat_lt
    omega
  simp [word32?, intBetween?, hn]

/-- A number of at most 64 bits is read from its value. -/
theorem word64?_ofNat {n : Nat} (h : n < 0x10000000000000000) : word64? (int n) = some n := by
  have hn : (n : Int) ≤ 0xFFFFFFFFFFFFFFFF := by omega
  simp [word64?, intBetween?, hn]

/-! ### Values that a reader goes along with -/

/-- The value has no doubles, its integers fit into 64 bits, and at most `room` arrays and objects
are nested in it. -/
structure Fits (room : Nat) (j : Json) : Prop where
  isExact : isExact j = true
  readable : readable room j = true

section

variable {room : Nat} {items : List Json} {members : List (String × Json)}

/-- An array is one level deeper than its items. -/
theorem Fits.array (h : ∀ j ∈ items, Fits room j) : Fits (room + 1) (array items) := by
  have hitems : isExactItems items = true ∧ readableItems room items = true := by
    induction items with
    | nil => exact ⟨rfl, rfl⟩
    | cons j items ih =>
      obtain ⟨hj, hitems⟩ := List.forall_mem_cons.mp h
      obtain ⟨hexact, hreadable⟩ := ih hitems
      rw [isExactItems, readableItems, hj.isExact, hj.readable, hexact, hreadable]
      exact ⟨rfl, rfl⟩
  exact ⟨hitems.1, hitems.2⟩

/-- An object is one level deeper than its members. -/
theorem Fits.object (h : ∀ m ∈ members, Fits room m.2) : Fits (room + 1) (object members) := by
  have hmembers : isExactMembers members = true ∧ readableMembers room members = true := by
    induction members with
    | nil => exact ⟨rfl, rfl⟩
    | cons m members ih =>
      obtain ⟨hm, hmembers⟩ := List.forall_mem_cons.mp h
      obtain ⟨hexact, hreadable⟩ := ih hmembers
      rw [isExactMembers, readableMembers, hm.isExact, hm.readable, hexact, hreadable]
      exact ⟨rfl, rfl⟩
  exact ⟨hmembers.1, hmembers.2⟩

/-- An object of fields fits if the fields that are there do. -/
theorem Fits.present (h : ∀ f ∈ fields, ∀ j ∈ f.2, Fits room j) :
    Fits (room + 1) (Json.object (present fields)) :=
  .object fun m hm => h (m.1, some m.2) (mem_present hm) m.2 rfl

/-- A text fits in anywhere. -/
theorem Fits.string (room : Nat) (s : String) : Fits room (string s) := ⟨rfl, rfl⟩

/-- A boolean fits in anywhere. -/
theorem Fits.bool (room : Nat) (b : Bool) : Fits room (bool b) := ⟨rfl, rfl⟩

/-- A number of at most 64 bits fits in anywhere. -/
theorem Fits.ofNat (room : Nat) {n : Nat} (h : n < 0x10000000000000000) : Fits room (int n) := by
  refine ⟨decide_eq_true ?_, rfl⟩
  constructor <;> omega

/-- Texts are one level deep. -/
theorem Fits.strings (room : Nat) (xs : List String) : Fits (room + 1) (strings xs) :=
  .array <| List.forall_mem_map.mpr fun s _ => .string room s

/-- Texts are one level deep if there are any. -/
theorem Fits.stringsIfAny {xs : List String} : ∀ j ∈ stringsIfAny xs, Fits (room + 1) j := by
  intro j hj
  rw [Json.stringsIfAny] at hj
  split at hj
  · cases hj
  · cases hj
    exact .strings room xs

/-- A text fits in anywhere if there is one. -/
theorem Fits.map_string {o : Option String} : ∀ j ∈ o.map Json.string, Fits room j := by
  intro j hj
  obtain ⟨s, -, rfl⟩ := Option.map_eq_some_iff.mp hj
  exact .string room s

end

end InstrGraph.Json
