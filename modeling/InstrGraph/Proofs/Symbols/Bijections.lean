import InstrGraph.Proofs.Symbols.Numbers
import InstrGraph.Proofs.Symbols.Tables
import Mathlib.Logic.Function.Basic

/-!
# Rename tables are bijections

A numbered table has one entry for each name, and its canonical names differ. So looking a name up
and looking a canonical name up undo each other (`Numbered.get?_eq_some_iff_originalOf?`).

Both lookups are searches through the entries. Two indexes that say where names and canonical names
stand do the same without a search. `IndexedTable` keeps them beside the entries, and every
insertion keeps them right (`RenameTable.insert_indexed`), since a new canonical name never stands
there already.

A function has six tables (`TableKind`). An insertion into one leaves the others alone, so after any
insertions each holds the names that were inserted into it, in the order of first sight
(`SymbolTables.table?_insertAll_empty`). No two kinds share a stem, and no canonical name stands for
two names (`SymbolTables.Sound.eq_of_canonicalNameAt`).
-/

namespace InstrGraph

/-! ### Lookup by place -/

section

variable {α β : Type} [DecidableEq α]

/-- The value of a key stands where the key is found first. -/
theorem bind_idxOf?_eq_lookup (entries : List (α × β)) (a : α) :
    (((entries.map Prod.fst).idxOf? a).bind fun i => (entries[i]?).map Prod.snd) =
      entries.lookup a := by
  induction entries with
  | nil => rfl
  | cons e rest ih =>
    obtain ⟨key, value⟩ := e
    rw [List.map_cons, List.idxOf?_cons, List.lookup_cons]
    by_cases h : key = a
    · simp [h]
    · have hbeq : (a == key) = false := beq_eq_false_iff_ne.mpr (Ne.symm h)
      rw [hbeq, ← ih]
      cases (rest.map Prod.fst).idxOf? a <;> simp [h]

/-- A new item is found at the end, and every other one where it was. -/
theorem idxOf?_concat {xs : List α} {x : α} (h : x ∉ xs) :
    (fun y => (xs ++ [x]).idxOf? y) =
      Function.update (fun y => xs.idxOf? y) x (some xs.length) := by
  funext y
  have happend : (xs ++ [x]).idxOf? y =
      (xs.idxOf? y).or (([x].idxOf? y).map (· + xs.length)) := List.findIdx?_append
  rw [happend]
  by_cases hy : y = x
  · subst hy
    rw [List.idxOf?_eq_none_iff.mpr h]
    simp
  · have hnone : [x].idxOf? y = none := List.idxOf?_eq_none_iff.mpr (by simpa using hy)
    rw [hnone, Function.update_of_ne hy]
    simp

end

namespace RenameTable

variable {t : RenameTable} {name n c : String}

/-- Inserting a name that is there changes nothing. -/
theorem insert_of_mem (h : name ∈ t.names) : t.insert name = t := if_pos (contains_iff.mpr h)

/-- A new name gets the canonical name of the next index. -/
theorem insert_of_not_mem (h : name ∉ t.names) :
    t.insert name = { t with entries := t.entries ++ [(name, t.canonicalAt t.size)] } :=
  if_neg fun hc => h (contains_iff.mp hc)

/-- The canonical names, in the order of the entries. -/
def canonicals (t : RenameTable) : List String := t.entries.map Prod.snd

/-! ### Both directions -/

namespace Numbered

/-- The entries are the names with the canonical names of their indices. -/
theorem entries_eq (h : t.Numbered) :
    t.entries = t.names.zipIdx.map fun p => (p.1, t.canonicalAt p.2) := by
  apply List.ext_getElem?
  intro i
  rw [List.getElem?_map, List.getElem?_zipIdx, names, List.getElem?_map]
  cases he : t.entries[i]? with
  | none => rfl
  | some e => simp [← h.entry i e he]

/-- The canonical name at an index is that of the index. -/
theorem getElem?_canonicals (h : t.Numbered) {i : Nat} (hc : t.canonicals[i]? = some c) :
    c = t.canonicalAt i := by
  rw [canonicals, List.getElem?_map, Option.map_eq_some_iff] at hc
  obtain ⟨e, he, rfl⟩ := hc
  exact h.entry i e he

/-- The canonical name of the next index has not been given yet. -/
theorem canonicalAt_size_notMem (h : t.Numbered) : t.canonicalAt t.size ∉ t.canonicals := by
  intro hmem
  obtain ⟨i, hi, heq⟩ := List.getElem_of_mem hmem
  have hsize : i < t.size := by simpa [canonicals, size] using hi
  have hat := h.getElem?_canonicals (List.getElem?_eq_some_iff.mpr ⟨hi, heq⟩)
  exact hsize.ne' (canonicalAt_inj hat)

/-- No canonical name is given twice. -/
theorem nodup_canonicals (h : t.Numbered) : t.canonicals.Nodup := by
  rw [List.nodup_iff_getElem?_ne_getElem?]
  intro i j hij hj heq
  have hi := List.getElem?_eq_getElem (hij.trans hj)
  have hat := h.getElem?_canonicals hi
  exact hij.ne (canonicalAt_inj (hat.symm.trans (h.getElem?_canonicals (heq ▸ hi))))

/-- The canonical name of a name is the one that stands beside it. -/
theorem get?_eq_some_iff_mem (h : t.Numbered) : t.get? n = some c ↔ (n, c) ∈ t.entries :=
  lookup_eq_some_iff h.nodup

end Numbered

/-- To look a canonical name up is to look it up in the entries turned round. -/
theorem originalOf?_eq_lookup (t : RenameTable) (c : String) :
    t.originalOf? c = (t.entries.map Prod.swap).lookup c := by
  unfold originalOf?
  induction t.entries with
  | nil => rfl
  | cons e rest ih =>
    obtain ⟨key, value⟩ := e
    rw [List.find?_cons, List.map_cons, Prod.swap_prod_mk, List.lookup_cons]
    by_cases h : value = c
    · simp [h]
    · have hbeq : (c == value) = false := beq_eq_false_iff_ne.mpr (Ne.symm h)
      rw [hbeq, beq_eq_false_iff_ne.mpr h]
      exact ih

namespace Numbered

/-- The name of a canonical name is the one that stands beside it. -/
theorem originalOf?_eq_some_iff_mem (h : t.Numbered) :
    t.originalOf? c = some n ↔ (n, c) ∈ t.entries := by
  have hnodup : ((t.entries.map Prod.swap).map Prod.fst).Nodup := by
    rw [List.map_map]
    exact h.nodup_canonicals
  rw [originalOf?_eq_lookup, lookup_eq_some_iff hnodup, List.mem_map]
  constructor
  · rintro ⟨e, he, heq⟩
    obtain ⟨rfl, rfl⟩ := Prod.mk.inj heq
    exact he
  · intro he
    exact ⟨(n, c), he, rfl⟩

/-- The lookups undo each other. -/
theorem get?_eq_some_iff_originalOf? (h : t.Numbered) :
    t.get? n = some c ↔ t.originalOf? c = some n :=
  h.get?_eq_some_iff_mem.trans h.originalOf?_eq_some_iff_mem.symm

end Numbered

end RenameTable

/-! ### An index in each direction -/

/-- A table with two indexes that say where its names and canonical names stand. -/
structure IndexedTable where
  table : RenameTable
  slot : String → Option Nat
  canonicalSlot : String → Option Nat

namespace IndexedTable

/-- A table without names, and empty indexes. -/
def empty (stem : String) (base : Nat) : IndexedTable :=
  ⟨.empty stem base, fun _ => none, fun _ => none⟩

/-- The canonical name of a name. -/
def get? (t : IndexedTable) (name : String) : Option String :=
  (t.slot name).bind fun i => (t.table.entries[i]?).map Prod.snd

/-- The name that a canonical name stands for. -/
def originalOf? (t : IndexedTable) (canonical : String) : Option String :=
  (t.canonicalSlot canonical).bind fun i => (t.table.entries[i]?).map Prod.fst

/-- The table with a name, and where the name stands. A new one is entered in both indexes. -/
def enter (t : IndexedTable) (name : String) : IndexedTable × Nat :=
  match t.slot name with
  | some i => (t, i)
  | none =>
    let i := t.table.size
    let canonical := t.table.canonicalAt i
    ({ table := { t.table with entries := t.table.entries ++ [(name, canonical)] }
       slot := Function.update t.slot name (some i)
       canonicalSlot := Function.update t.canonicalSlot canonical (some i) }, i)

/-- Show the table a name, and have its canonical name. -/
def insert (t : IndexedTable) (name : String) : IndexedTable × Option String :=
  let (t, i) := t.enter name
  (t, (t.table.entries[i]?).map Prod.snd)

/-- Show the table names in order. -/
def insertAll (t : IndexedTable) (names : List String) : IndexedTable :=
  names.foldl (fun t name => (t.insert name).1) t

end IndexedTable

namespace RenameTable

variable {t : RenameTable} {name n c : String}

/-- The table with the places that searches find. -/
def indexed (t : RenameTable) : IndexedTable :=
  ⟨t, fun n => t.names.idxOf? n, fun c => t.canonicals.idxOf? c⟩

/-- Looking up a name by the index gives what the list gives. -/
theorem get?_indexed (t : RenameTable) (n : String) : t.indexed.get? n = t.get? n :=
  bind_idxOf?_eq_lookup t.entries n

/-- Looking up a canonical name by the index gives what the list gives. -/
theorem originalOf?_indexed (t : RenameTable) (c : String) :
    t.indexed.originalOf? c = t.originalOf? c := by
  rw [originalOf?_eq_lookup, ← bind_idxOf?_eq_lookup, List.map_map]
  simp only [List.getElem?_map, Option.map_map]
  rfl

/-- Entering a name into the indexes keeps them those of the list, and says where the name
stands. -/
theorem enter_indexed (h : t.Numbered) (name : String) :
    ∃ i, t.indexed.enter name = ((t.insert name).indexed, i) ∧
      (t.insert name).names.idxOf? name = some i := by
  by_cases hmem : name ∈ t.names
  · obtain ⟨i, hi⟩ := Option.isSome_iff_exists.mp (List.isSome_idxOf?.mpr hmem)
    have hslot : t.indexed.slot name = some i := hi
    refine ⟨i, ?_, ?_⟩
    · rw [IndexedTable.enter, hslot, insert_of_mem hmem]
    · rw [insert_of_mem hmem, hi]
  · have hslot : t.indexed.slot name = none := List.idxOf?_eq_none_iff.mpr hmem
    -- name and canonical name are both new, so both are found at the end and nothing else moves
    have hnames := idxOf?_concat hmem
    have hcanonicals := idxOf?_concat h.canonicalAt_size_notMem
    refine ⟨t.size, ?_, ?_⟩
    · rw [IndexedTable.enter, hslot, insert_of_not_mem hmem]
      simp only [indexed, names, canonicals, size, List.map_append, List.map_cons, List.map_nil,
        List.length_map] at hnames hcanonicals ⊢
      rw [hnames, hcanonicals]
    · have hat := congrFun hnames name
      rw [Function.update_self] at hat
      rw [names_insert, if_neg hmem, hat, names, List.length_map, size]

/-- The indexes follow the table, and the canonical name is the one that is found. -/
theorem insert_indexed (h : t.Numbered) (name : String) :
    t.indexed.insert name = ((t.insert name).indexed, (t.insert name).get? name) := by
  obtain ⟨i, henter, hi⟩ := enter_indexed h name
  have hfound := bind_idxOf?_eq_lookup (t.insert name).entries name
  rw [show ((t.insert name).entries.map Prod.fst).idxOf? name = some i from hi] at hfound
  rw [IndexedTable.insert, henter]
  exact congrArg (Prod.mk _) hfound

/-- Entering several names into the indexes keeps them those of the list. -/
theorem insertAll_indexed (h : t.Numbered) (ns : List String) :
    t.indexed.insertAll ns = (t.insertAll ns).indexed := by
  induction ns generalizing t with
  | nil => rfl
  | cons n ns ih =>
    have hstep : t.indexed.insertAll (n :: ns) = (t.insert n).indexed.insertAll ns :=
      congrArg (IndexedTable.insertAll · ns) (congrArg Prod.fst (insert_indexed h n))
    rw [hstep, ih (h.insert n)]
    rfl

/-- Entering names into empty indexes gives the indexes of the list of these names. -/
theorem insertAll_indexedEmpty (stem : String) (base : Nat) (ns : List String) :
    (IndexedTable.empty stem base).insertAll ns = ((empty stem base).insertAll ns).indexed :=
  insertAll_indexed (numbered_empty stem base) ns

/-- What a table without names has made of names: each is entered where it comes first. -/
theorem entries_insertAll_empty (stem : String) (base : Nat) (ns : List String) :
    ((empty stem base).insertAll ns).entries =
      ns.eraseDups.zipIdx.map fun p => (p.1, stem ++ toString (base + p.2)) := by
  rw [((numbered_empty stem base).insertAll ns).entries_eq, names_insertAll rfl]
  simp only [canonicalAt, stem_insertAll, base_insertAll]
  rfl

end RenameTable

/-! ### The six tables of a function -/

/-- The tables of a function. -/
inductive TableKind where
  | vars
  | params
  | labels
  | structs
  | calls
  | globals
  deriving DecidableEq, Repr

namespace TableKind

/-- What the canonical names of a table begin with. -/
def stem (style : Config.LabelStyle) : TableKind → String
  | vars => "%var"
  | params => "%arg"
  | labels => style.stem
  | structs => "%struct_"
  | calls => "@function_"
  | globals => "@global_var_"

/-- The number of the first canonical name of a table. -/
def base : TableKind → Nat
  | params => 1
  | vars | labels | structs | calls | globals => 0

/-- The names that are inserted into a table, in order. -/
def inserted (kind : TableKind) (es : List (TableKind × String)) : List String :=
  (es.filter fun e => e.1 = kind).map Prod.snd

/-- Tables of different kinds have stems apart, whatever the styles of their labels are. -/
theorem stemsApart_of_ne {kind kind' : TableKind} (h : kind ≠ kind')
    (style style' : Config.LabelStyle) :
    StemsApart (kind.stem style) (kind'.stem style') := by
  cases kind <;> cases kind' <;> cases style <;> cases style' <;>
    first | exact absurd rfl h | decide

end TableKind

namespace SymbolTables

variable {s : SymbolTables} {kind kind' : TableKind} {name c : String} {t : RenameTable}

/-- The table of a kind. That of globals may be absent. -/
def table? (s : SymbolTables) : TableKind → Option RenameTable
  | .vars => some s.vars
  | .params => some s.params
  | .labels => some s.labels
  | .structs => some s.structs
  | .calls => some s.calls
  | .globals => s.globals

/-- Insert a name into a table, if it is there. -/
def insert (s : SymbolTables) : TableKind → String → SymbolTables
  | .vars => s.noteVar
  | .params => s.noteParam
  | .labels => s.noteLabel
  | .structs => s.noteStruct
  | .calls => s.noteCall
  | .globals => s.noteGlobal

/-- Insert names into tables, in order. -/
def insertAll (s : SymbolTables) (es : List (TableKind × String)) : SymbolTables :=
  es.foldl (fun s e => s.insert e.1 e.2) s

/-- An insertion of a kind is one into the table of that kind. -/
theorem table?_insert_self :
    (s.insert kind name).table? kind = (s.table? kind).map (·.insert name) := by
  cases kind <;> rfl

/-- An insertion of a kind leaves the tables of the other kinds alone. -/
theorem table?_insert_of_ne (h : kind' ≠ kind) :
    (s.insert kind name).table? kind' = s.table? kind' := by
  cases kind <;> cases kind' <;> first | rfl | exact absurd rfl h

/-- An insertion does not touch the calls that keep their names. -/
@[simp] theorem exemptCalls_insert : (s.insert kind name).exemptCalls = s.exemptCalls := by
  cases kind <;> rfl

/-- There is nothing to the tables of a function but the six tables and the common callees. -/
theorem eq_of_table?_eq {s' : SymbolTables} (h : ∀ kind, s.table? kind = s'.table? kind)
    (hexempt : s.exemptCalls = s'.exemptCalls) : s = s' := by
  have hvars : s.vars = s'.vars := Option.some.inj (h .vars)
  have hparams : s.params = s'.params := Option.some.inj (h .params)
  have hlabels : s.labels = s'.labels := Option.some.inj (h .labels)
  have hstructs : s.structs = s'.structs := Option.some.inj (h .structs)
  have hcalls : s.calls = s'.calls := Option.some.inj (h .calls)
  have hglobals : s.globals = s'.globals := h .globals
  cases s
  cases s'
  rw [SymbolTables.mk.injEq]
  exact ⟨hvars, hparams, hlabels, hstructs, hcalls, hglobals, hexempt⟩

/-- To insert a name again changes nothing. -/
theorem insert_eq_self (h : ∀ t ∈ s.table? kind, name ∈ t.names) : s.insert kind name = s := by
  refine eq_of_table?_eq (fun kind' => ?_) exemptCalls_insert
  by_cases hkind : kind' = kind
  · subst hkind
    rw [table?_insert_self]
    cases ht : s.table? kind' with
    | none => rfl
    | some t => rw [Option.map_some, RenameTable.insert_of_mem (h t ht)]
  · exact table?_insert_of_ne hkind

/-- After several insertions, the table of a kind holds the names that were inserted for it. -/
theorem table?_insertAll (s : SymbolTables) (kind : TableKind) (es : List (TableKind × String)) :
    (s.insertAll es).table? kind = (s.table? kind).map (·.insertAll (kind.inserted es)) := by
  induction es generalizing s with
  | nil => simp [insertAll, TableKind.inserted, RenameTable.insertAll]
  | cons e es ih =>
    obtain ⟨k, n⟩ := e
    have hstep : s.insertAll ((k, n) :: es) = (s.insert k n).insertAll es := rfl
    rw [hstep, ih]
    by_cases h : k = kind
    · subst h
      rw [table?_insert_self, Option.map_map]
      simp [TableKind.inserted, RenameTable.insertAll, Function.comp_def]
    · rw [table?_insert_of_ne (Ne.symm h)]
      simp [TableKind.inserted, h]

/-- All tables are empty in the beginning, and globals have one only if they are renamed. -/
theorem table?_empty (style : Config.LabelStyle) (renameGlobals : Bool) (kind : TableKind) :
    (empty style renameGlobals).table? kind =
      if kind = .globals ∧ renameGlobals = false then none
      else some (.empty (kind.stem style) kind.base) := by
  cases kind <;> cases renameGlobals <;> rfl

/-- After insertions each table that is there has the names that were inserted into it. -/
theorem table?_insertAll_empty (style : Config.LabelStyle) (renameGlobals : Bool)
    (kind : TableKind) (es : List (TableKind × String)) :
    ((empty style renameGlobals).insertAll es).table? kind =
      if kind = .globals ∧ renameGlobals = false then none
      else some ((RenameTable.empty (kind.stem style) kind.base).insertAll (kind.inserted es)) := by
  rw [table?_insertAll, table?_empty]
  split <;> rfl

/-- The table of a kind is determined by the names that were inserted for it, in their order. -/
theorem eq_insertAll_of_mem_table? {style : Config.LabelStyle} {renameGlobals : Bool}
    {es : List (TableKind × String)}
    (ht : t ∈ ((empty style renameGlobals).insertAll es).table? kind) :
    t = (RenameTable.empty (kind.stem style) kind.base).insertAll (kind.inserted es) := by
  rw [table?_insertAll_empty, Option.mem_def] at ht
  split at ht
  · simp at ht
  · exact (Option.some.inj ht).symm

/-! ### Canonical names of different entries -/

/-- The canonical name of an entry of a table. -/
def canonicalNameAt (s : SymbolTables) (kind : TableKind) (i : Nat) : Option String :=
  (s.table? kind).bind fun t => (t.entries[i]?).map Prod.snd

namespace Sound

/-- Insertions keep every table numbered, with the stem of its kind. -/
theorem insert (h : s.Sound) (kind : TableKind) (name : String) : (s.insert kind name).Sound := by
  cases kind with
  | vars => exact h.noteVar name
  | params => exact h.noteParam name
  | labels => exact h.noteLabel name
  | structs => exact h.noteStruct name
  | calls => exact h.noteCall name
  | globals => exact h.noteGlobal name

/-- Several insertions keep every table numbered, with the stem of its kind. -/
theorem insertAll (h : s.Sound) (es : List (TableKind × String)) : (s.insertAll es).Sound := by
  induction es generalizing s with
  | nil => exact h
  | cons e es ih => exact ih (h.insert e.1 e.2)

/-- Each table is numbered and has a stem of its kind. -/
theorem table (h : s.Sound) (ht : s.table? kind = some t) :
    t.Numbered ∧ ∃ style, t.stem = kind.stem style := by
  -- the stem depends on the style for labels only
  cases kind with
  | vars => exact Option.some.inj ht ▸ ⟨h.vars.1, .label, h.vars.2⟩
  | params => exact Option.some.inj ht ▸ ⟨h.params.1, .label, h.params.2⟩
  | labels =>
    obtain rfl := Option.some.inj ht
    rcases h.labels.2 with hstem | hstem
    · exact ⟨h.labels.1, .label, hstem⟩
    · exact ⟨h.labels.1, .block, hstem⟩
  | structs => exact Option.some.inj ht ▸ ⟨h.structs.1, .label, h.structs.2⟩
  | calls => exact Option.some.inj ht ▸ ⟨h.calls.1, .label, h.calls.2⟩
  | globals =>
    obtain ⟨hnumbered, hstem⟩ := h.globals t ht
    exact ⟨hnumbered, .label, hstem⟩

/-- A canonical name belongs to one entry of one table. -/
theorem eq_of_canonicalNameAt (h : s.Sound) {i j : Nat} (hi : s.canonicalNameAt kind i = some c)
    (hj : s.canonicalNameAt kind' j = some c) : kind = kind' ∧ i = j := by
  obtain ⟨t, ht, hc⟩ := Option.bind_eq_some_iff.mp hi
  obtain ⟨t', ht', hc'⟩ := Option.bind_eq_some_iff.mp hj
  obtain ⟨hnumbered, style, hstem⟩ := h.table ht
  obtain ⟨hnumbered', style', hstem'⟩ := h.table ht'
  rw [← List.getElem?_map] at hc hc'
  have hat : c = t.canonicalAt i := hnumbered.getElem?_canonicals hc
  have hat' : c = t'.canonicalAt j := hnumbered'.getElem?_canonicals hc'
  have hkind : kind = kind' := by
    by_contra hne
    -- the stems of two kinds are no beginnings of each other, whatever the numbers are
    have hapart := TableKind.stemsApart_of_ne hne style style'
    rw [← hstem, ← hstem'] at hapart
    exact append_ne_of_stemsApart hapart _ _ (hat.symm.trans hat')
  subst hkind
  obtain rfl : t = t' := Option.some.inj (ht.symm.trans ht')
  exact ⟨rfl, RenameTable.canonicalAt_inj (hat.symm.trans hat')⟩

/-- The key of the canonical name of a global is the global, if it is in the table. -/
theorem globalKey_canonicalGlobal (h : s.Sound) (ht : t ∈ s.globals) (hname : name ∈ t.names) :
    s.globalKey (s.canonicalGlobal name) = name := by
  obtain ⟨c, hc⟩ := RenameTable.mem_names_iff.mp hname
  have hback : t.originalOf? c = some name := (h.globals t ht).1.get?_eq_some_iff_originalOf?.mp hc
  rw [Option.mem_def] at ht
  simp [globalKey, canonicalGlobal, ht, hc, hback]

end Sound

/-! ### What insertions make -/

/-- The tables that insertions make. The entries of each are the different names that were inserted
into it, every one with the stem and the number of its place. The lookups find the entries and undo
each other, with indexes as well as without, and a name that is inserted again changes nothing. No
two entries of whatever tables share a canonical name, and a global is found again under its own. -/
theorem insertions_bijective (style : Config.LabelStyle) (renameGlobals : Bool)
    (es : List (TableKind × String)) :
    let s := (empty style renameGlobals).insertAll es
    (∀ kind, (s.table? kind).map RenameTable.entries =
      if kind = .globals ∧ renameGlobals = false then none
      else some ((kind.inserted es).eraseDups.zipIdx.map fun p =>
        (p.1, kind.stem style ++ toString (kind.base + p.2)))) ∧
      (∀ kind, ∀ t ∈ s.table? kind,
        let kept := (IndexedTable.empty (kind.stem style) kind.base).insertAll (kind.inserted es)
        kept = t.indexed ∧ kept.get? = t.get? ∧ kept.originalOf? = t.originalOf? ∧
          (∀ n c, t.get? n = some c ↔ (n, c) ∈ t.entries) ∧
          (∀ n c, t.get? n = some c ↔ t.originalOf? c = some n) ∧
          ∀ n ∈ t.names, s.insert kind n = s ∧ kept.insert n = (kept, t.get? n)) ∧
      (∀ kind kind' i j c, s.canonicalNameAt kind i = some c → s.canonicalNameAt kind' j = some c →
        kind = kind' ∧ i = j) ∧
      ∀ t ∈ s.globals, ∀ n ∈ t.names, s.globalKey (s.canonicalGlobal n) = n := by
  intro s
  have hsound : s.Sound := (sound_empty style renameGlobals).insertAll es
  refine ⟨fun kind => ?_, fun kind t ht => ?_, fun kind kind' i j c hi hj =>
    hsound.eq_of_canonicalNameAt hi hj, fun t ht n hn => hsound.globalKey_canonicalGlobal ht hn⟩
  · rw [table?_insertAll_empty, apply_ite (Option.map RenameTable.entries), Option.map_none,
      Option.map_some, RenameTable.entries_insertAll_empty]
  · intro kept
    have hnumbered : t.Numbered := (hsound.table ht).1
    have hkept : kept = t.indexed := by
      rw [eq_insertAll_of_mem_table? ht]
      exact RenameTable.insertAll_indexedEmpty _ _ _
    refine ⟨hkept, ?_, ?_, fun n c => hnumbered.get?_eq_some_iff_mem,
      fun n c => hnumbered.get?_eq_some_iff_originalOf?, fun n hn => ⟨?_, ?_⟩⟩
    · rw [hkept]
      exact funext t.get?_indexed
    · rw [hkept]
      exact funext t.originalOf?_indexed
    · refine insert_eq_self fun t' ht' => ?_
      rw [Option.some.inj (ht'.symm.trans ht)]
      exact hn
    · rw [hkept, RenameTable.insert_indexed hnumbered, RenameTable.insert_of_mem hn]

/-- One name in three tables, and a name that is inserted twice. -/
def mixedInsertions : List (TableKind × String) :=
  [(.vars, "%x"), (.globals, "@g"), (.params, "%x"), (.vars, "%y"), (.vars, "%x"), (.labels, "%x"),
    (.globals, "@h")]

/-- Insertions of several kinds, with names that occur twice and names that look canonical. -/
theorem insertions_bijective_of_mixedInsertions :
    let s := (empty .block true).insertAll mixedInsertions
    s.vars.entries = [("%x", "%var0"), ("%y", "%var1")] ∧ s.params.entries = [("%x", "%arg1")] ∧
      s.labels.entries = [("%x", "%block_0")] ∧ s.vars.originalOf? "%var1" = some "%y" ∧
      s.insert .vars "%y" = s ∧ s.globalKey (s.canonicalGlobal "@h") = "@h" := by
  obtain ⟨hentries, htables, -, hkeys⟩ := insertions_bijective .block true mixedInsertions
  have hvars := (Option.some.inj (hentries .vars)).trans
    (show _ = [("%x", "%var0"), ("%y", "%var1")] by decide)
  obtain ⟨-, -, -, hfound, hundone, hknown⟩ := htables .vars _ rfl
  refine ⟨hvars, ?_, ?_, ?_, ?_, ?_⟩
  · exact (Option.some.inj (hentries .params)).trans (by decide)
  · exact (Option.some.inj (hentries .labels)).trans (by decide)
  · refine (hundone _ _).mp ((hfound _ _).mpr ?_)
    rw [hvars]
    decide
  · exact (hknown "%y" (by decide)).1
  · exact hkeys _ rfl "@h" (by decide)

end SymbolTables

end InstrGraph
