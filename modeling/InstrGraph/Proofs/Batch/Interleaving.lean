import InstrGraph.Proofs.Batch.Log
import Mathlib.Data.List.Induction
import Mathlib.Data.List.Nodup
import Mathlib.Logic.Function.Basic

/-!
# Logs and interleavings

Workers write to one log, in whatever order they get to it. What is written under a key depends on
the events of this key and on their order alone (`LogTable.ofEvents_apply`): the entry has the last
failure and all warnings, and there is one as soon as something is written. So two sequences of
events that are the same for every key make the same log, and this is all that the order decides
(`log_of_events`).

The rows of a log are kept in their order here. A table that has no order does as well, if its
entries are sorted in the end: `LogTable` is such a table, recording into both is the same
(`table_recordAll`), and sorting what is in the table, however it is listed, gives the rows
(`LogTable.ListedBy.mergeSort_eq`).
-/

namespace InstrGraph

namespace LogEvent

/-- What the event is about. -/
def key : LogEvent → LogKey
  | failure key _ => key
  | warnings key _ => key

/-- The event is written to the log: a failure is, and warnings are unless there are none. -/
def isWritten : LogEvent → Bool
  | failure .. => true
  | warnings _ ds => !ds.isEmpty

/-- The failure that the event brings. -/
def failure? : LogEvent → Option Failure
  | failure _ e => some (.ofError e)
  | warnings .. => none

/-- The lines of the warnings that the event brings. -/
def lines : LogEvent → List String
  | failure .. => []
  | warnings _ ds => ds.map Diagnostic.line

/-- The events about a key, in their order. -/
def about (key : LogKey) (events : List LogEvent) : List LogEvent :=
  events.filter fun e => e.key = key

/-- The events about a key, when one more event comes. -/
theorem about_concat (key : LogKey) (events : List LogEvent) (e : LogEvent) :
    about key (events ++ [e]) = about key events ++ if e.key = key then [e] else [] := by
  rw [about, List.filter_append, ← about]
  by_cases h : e.key = key <;> simp [h]

end LogEvent

namespace LogEntry

/-- The entry with one more event. -/
def add (entry : LogEntry) (e : LogEvent) : LogEntry :=
  { error := e.failure?.or entry.error, warnings := entry.warnings ++ e.lines }

/-- The last failure and all warnings of some events. -/
def ofEvents (events : List LogEvent) : LogEntry where
  error := (events.filterMap LogEvent.failure?).getLast?
  warnings := events.flatMap LogEvent.lines

/-- What an entry is after some events, when one more event comes. -/
theorem ofEvents_concat (events : List LogEvent) (e : LogEvent) :
    ofEvents (events ++ [e]) = (ofEvents events).add e := by
  cases e with
  | failure key e => simp [ofEvents, add, LogEvent.failure?, LogEvent.lines]
  | warnings key ds => simp [ofEvents, add, LogEvent.failure?, LogEvent.lines]

/-- What is not written adds nothing. -/
theorem add_of_not_isWritten {e : LogEvent} (h : e.isWritten = false) (entry : LogEntry) :
    entry.add e = entry := by
  cases e with
  | failure key e => cases h
  | warnings key ds =>
    obtain rfl : ds = [] := by simpa [LogEvent.isWritten] using h
    simp [add, LogEvent.failure?, LogEvent.lines]

/-- Events that write nothing leave an entry empty. -/
theorem ofEvents_of_forall_not_isWritten {events : List LogEvent}
    (h : ∀ e ∈ events, e.isWritten = false) : ofEvents events = {} := by
  induction events using List.reverseRecOn with
  | nil => rfl
  | append_singleton events e ih =>
    rw [ofEvents_concat, add_of_not_isWritten (h e (by simp)),
      ih fun x hx => h x (List.mem_append_left _ hx)]

end LogEntry

/-! ### A table without an order -/

/-- The entries of the keys that have one. -/
abbrev LogTable := LogKey → Option LogEntry

namespace LogTable

/-- The table after an event. What is written under a key for the first time makes its entry. -/
def record (t : LogTable) (e : LogEvent) : LogTable :=
  if e.isWritten then Function.update t e.key (some (((t e.key).getD {}).add e)) else t

/-- The table after some events. -/
def ofEvents (events : List LogEvent) : LogTable := events.foldl record fun _ => none

/-- What a table is after some events, when one more event comes. -/
theorem ofEvents_concat (events : List LogEvent) (e : LogEvent) :
    ofEvents (events ++ [e]) = (ofEvents events).record e := List.foldl_concat ..

/-- The entry of a key depends on the events about this key only. -/
theorem ofEvents_apply (events : List LogEvent) (key : LogKey) :
    ofEvents events key =
      if (LogEvent.about key events).any LogEvent.isWritten then
        some (.ofEvents (LogEvent.about key events))
      else none := by
  induction events using List.reverseRecOn with
  | nil => rfl
  | append_singleton events e ih =>
    rw [ofEvents_concat, record, LogEvent.about_concat]
    by_cases hkey : e.key = key
    · rw [if_pos hkey, List.any_append, LogEntry.ofEvents_concat]
      by_cases hwritten : e.isWritten
      · have hentry : ((ofEvents events key).getD {}) = .ofEvents (LogEvent.about key events) := by
          rw [ih]
          split
          · rfl
          · rename_i hnone
            refine (LogEntry.ofEvents_of_forall_not_isWritten fun x hx => ?_).symm
            simpa using fun h => hnone (List.any_eq_true.mpr ⟨x, hx, h⟩)
        simp [hkey, hwritten, hentry]
      · have hsame := LogEntry.add_of_not_isWritten (by simpa using hwritten)
          (.ofEvents (LogEvent.about key events))
        simp [hwritten, ih, hsame]
    · rw [if_neg hkey, List.append_nil, ← ih]
      split
      · exact Function.update_of_ne (Ne.symm hkey) ..
      · rfl

/-- The rows list the table: each entry is there once, in whatever order. -/
structure ListedBy (t : LogTable) (rows : List LogRow) : Prop where
  nodup : (rows.map LogRow.key).Nodup
  mem_iff : ∀ r, r ∈ rows ↔ t r.key = some r.entry

end LogTable

namespace ErrorLog

variable {rows : List LogRow}

/-! ### Rows as a table -/

/-- An update has the keys of the rows and its own. -/
theorem mem_keys_updateRows {key key' : LogKey} {f : LogEntry → LogEntry} :
    key' ∈ (updateRows key f rows).map LogRow.key ↔ key' = key ∨ key' ∈ rows.map LogRow.key := by
  induction rows with
  | nil => simp [updateRows]
  | cons x rows ih =>
    rw [updateRows]
    split
    · rename_i hx
      simp [hx]
    · split
      · simp
      · rw [List.map_cons, List.mem_cons, ih, List.map_cons, List.mem_cons]
        tauto

/-- What the rows say as a table. -/
def table (rows : List LogRow) : LogTable := fun key =>
  if key ∈ rows.map LogRow.key then some (entryAt rows key) else none

/-- The entry of a key in the table is the one that is found in the rows. -/
theorem getD_table (rows : List LogRow) (key : LogKey) :
    (table rows key).getD {} = entryAt rows key := by
  rw [table]
  split
  · rfl
  · rename_i h
    refine (entryAt_of_forall_ne fun r hr heq => ?_).symm
    exact h (List.mem_map.mpr ⟨r, hr, heq⟩)

/-- Updating rows updates the table of them at one key. -/
theorem table_updateRows (h : IsSorted rows) (key : LogKey) (f : LogEntry → LogEntry) :
    table (updateRows key f rows) =
      Function.update (table rows) key (some (f ((table rows key).getD {}))) := by
  funext key'
  rw [getD_table, table, Function.update_apply]
  simp only [mem_keys_updateRows, entryAt_updateRows h]
  by_cases hkey : key' = key
  · simp [hkey]
  · simp [hkey, table]

/-- Rows in their order list what they say. -/
theorem IsSorted.listedBy (h : IsSorted rows) : (table rows).ListedBy rows := by
  refine ⟨h.nodup_keys, fun r => ⟨fun hr => ?_, fun hr => ?_⟩⟩
  · rw [table, if_pos (List.mem_map_of_mem hr), h.entryAt_key hr]
  · obtain ⟨hkey, hentry⟩ := Option.ite_none_right_eq_some.mp hr
    obtain ⟨r', hr', hkey'⟩ := List.mem_map.mp hkey
    have hentry' : r'.entry = r.entry := by
      rw [← h.entryAt_key hr', hkey']
      exact Option.some.inj hentry
    obtain ⟨key, entry⟩ := r
    obtain ⟨key', entry'⟩ := r'
    obtain rfl : key' = key := hkey'
    obtain rfl : entry' = entry := hentry'
    exact hr'

/-! ### Recording into rows and into a table -/

variable {l : ErrorLog}

/-- An event updates the rows at its key if it writes anything. -/
theorem rows_record (l : ErrorLog) (e : LogEvent) :
    (l.record e).rows =
      if e.isWritten then updateRows e.key (fun entry => entry.add e) l.rows else l.rows := by
  cases e with
  | failure key e => simp [record, recordFailure, LogEvent.isWritten, LogEvent.key, LogEntry.add,
      LogEvent.failure?, LogEvent.lines]
  | warnings key ds =>
    by_cases hds : ds = []
    · simp [record, recordWarnings, LogEvent.isWritten, hds]
    · simp [record, recordWarnings, LogEvent.isWritten, LogEvent.key, LogEntry.add,
        LogEvent.failure?, LogEvent.lines, hds]

/-- Recording an event keeps the rows in strict order. -/
theorem isSorted_record (h : IsSorted l.rows) (e : LogEvent) : IsSorted (l.record e).rows := by
  rw [rows_record]
  split
  · exact isSorted_updateRows h
  · exact h

/-- Recording into the rows is recording into the table of them. -/
theorem table_record (h : IsSorted l.rows) (e : LogEvent) :
    table (l.record e).rows = (table l.rows).record e := by
  rw [rows_record, LogTable.record]
  split
  · exact table_updateRows h ..
  · rfl

/-- What is recorded last of several events. -/
theorem recordAll_concat (l : ErrorLog) (events : List LogEvent) (e : LogEvent) :
    l.recordAll (events ++ [e]) = (l.recordAll events).record e := List.foldl_concat ..

/-- What is recorded from the beginning is in strict order. -/
theorem isSorted_recordAll (events : List LogEvent) : IsSorted (recordAll {} events).rows := by
  induction events using List.reverseRecOn with
  | nil => exact .nil
  | append_singleton events e ih =>
    rw [recordAll_concat]
    exact isSorted_record ih e

/-- Recording events into rows and into a table gives the same table. -/
theorem table_recordAll (events : List LogEvent) :
    table (recordAll {} events).rows = .ofEvents events := by
  induction events using List.reverseRecOn with
  | nil => rfl
  | append_singleton events e ih =>
    rw [recordAll_concat, table_record (isSorted_recordAll events), ih, LogTable.ofEvents_concat]

/-- The rows of a log are what its events say about each key. -/
theorem mem_rows_recordAll {events : List LogEvent} {r : LogRow} :
    r ∈ (recordAll {} events).rows ↔
      (∃ e ∈ LogEvent.about r.key events, e.isWritten = true) ∧
        r.entry = .ofEvents (LogEvent.about r.key events) := by
  rw [(isSorted_recordAll events).listedBy.mem_iff, table_recordAll, LogTable.ofEvents_apply,
    Option.ite_none_right_eq_some, List.any_eq_true, Option.some_inj, eq_comm (a := r.entry)]

end ErrorLog

/-! ### Sorting in the end -/

namespace LogTable.ListedBy

open ErrorLog (IsSorted)

variable {t : LogTable} {rows listing : List LogRow}

/-- Two lists of one table differ in their order only. -/
theorem perm (h : t.ListedBy rows) (h' : t.ListedBy listing) : listing.Perm rows :=
  (List.perm_ext_iff_of_nodup (.of_map _ h'.nodup) (.of_map _ h.nodup)).mpr fun r =>
    (h'.mem_iff r).trans (h.mem_iff r).symm

/-- However a table is listed, sorting the list by the keys gives the same rows. -/
theorem mergeSort_eq (h : t.ListedBy rows) (hsorted : IsSorted rows) (h' : t.ListedBy listing) :
    (listing.mergeSort fun a b => !b.key.before a.key) = rows := by
  have hperm := (List.mergeSort_perm listing fun a b => !b.key.before a.key).trans (h.perm h')
  refine hperm.eq_of_pairwise (fun a b ha hb hab hba => ?_)
    (List.pairwise_mergeSort (fun a b c hab hbc => ?_) (fun a b => ?_) _)
    (hsorted.imp fun hab => by simpa using LogKey.before_asymm hab)
  · rw [Bool.not_eq_true', Bool.eq_false_iff] at hab hba
    by_contra hne
    have hkey : a.key ≠ b.key := fun hkey =>
      hne (List.inj_on_of_nodup_map h.nodup (hperm.subset ha) hb hkey)
    exact hba (LogKey.before_of_not_before hkey hab)
  · rw [Bool.not_eq_true', Bool.eq_false_iff] at *
    intro hca
    by_cases hkey : a.key = b.key
    · exact hbc (hkey ▸ hca)
    · exact hbc (LogKey.before_trans hca (LogKey.before_of_not_before hkey hab))
  · rw [Bool.or_eq_true, Bool.not_eq_true', Bool.not_eq_true', Bool.eq_false_iff,
      Bool.eq_false_iff]
    by_contra hboth
    push Not at hboth
    exact LogKey.before_asymm hboth.1 hboth.2

end LogTable.ListedBy

namespace ErrorLog

/-! ### What the events decide -/

/-- The failures of a log are the rows with one. -/
theorem failureCount_eq (l : ErrorLog) :
    l.failureCount = l.rows.countP fun r => r.entry.error.isSome :=
  List.countP_eq_length_filter.symm

/-- The warnings of a log are those of all its rows. -/
theorem warningCount_eq (l : ErrorLog) :
    l.warningCount = (l.rows.flatMap fun r => r.entry.warnings).length := by
  rw [warningCount]
  induction l.rows with
  | nil => rfl
  | cons r rows ih => rw [List.foldr_cons, ih, List.flatMap_cons, List.length_append]

/-- The log is empty just if no event writes anything. -/
theorem isEmpty_recordAll_iff {events : List LogEvent} :
    (recordAll {} events).isEmpty = true ↔ ∀ e ∈ events, e.isWritten = false := by
  rw [isEmpty, List.isEmpty_iff, List.eq_nil_iff_forall_not_mem]
  constructor
  · intro h e he
    by_contra hwritten
    have habout : e ∈ LogEvent.about e.key events := by simp [LogEvent.about, he]
    exact h ⟨e.key, .ofEvents (LogEvent.about e.key events)⟩
      (mem_rows_recordAll.mpr ⟨⟨e, habout, by simpa using hwritten⟩, rfl⟩)
  · intro h r hr
    obtain ⟨e, he, hwritten⟩ := (mem_rows_recordAll.mp hr).1
    rw [h e (List.mem_of_mem_filter he)] at hwritten
    cases hwritten

/-- A log depends on its events as far as they are about the same key, and not on how the events
about different keys take turns. Its rows are in strict order of their keys: there is one for every
key under which something was written, with the last failure and all warnings of the key, and the
numbers of failures and warnings are those in the rows. The same can be had from a table, however it
is listed, by sorting it in the end. -/
theorem log_of_events (events : List LogEvent) :
    (∀ events', (∀ key, LogEvent.about key events' = LogEvent.about key events) →
      recordAll {} events' = recordAll {} events) ∧
    ((recordAll {} events).rows.Pairwise fun a b => a.key.before b.key = true) ∧
    (∀ r, r ∈ (recordAll {} events).rows ↔
      (∃ e ∈ LogEvent.about r.key events, e.isWritten = true) ∧
        r.entry = .ofEvents (LogEvent.about r.key events)) ∧
    (recordAll {} events).failureCount =
      (recordAll {} events).rows.countP (fun r => r.entry.error.isSome) ∧
    (recordAll {} events).warningCount =
      ((recordAll {} events).rows.flatMap fun r => r.entry.warnings).length ∧
    ((recordAll {} events).isEmpty = true ↔ ∀ e ∈ events, e.isWritten = false) ∧
    (LogTable.ofEvents events).ListedBy (recordAll {} events).rows ∧
    ∀ listing, (LogTable.ofEvents events).ListedBy listing →
      (listing.mergeSort fun a b => !b.key.before a.key) = (recordAll {} events).rows ∧
        listing.countP (fun r => r.entry.error.isSome) = (recordAll {} events).failureCount ∧
        (listing.flatMap fun r => r.entry.warnings).length = (recordAll {} events).warningCount ∧
        listing.isEmpty = (recordAll {} events).isEmpty := by
  have hsorted := isSorted_recordAll events
  have hlisted : (LogTable.ofEvents events).ListedBy (recordAll {} events).rows :=
    table_recordAll events ▸ hsorted.listedBy
  refine ⟨fun events' hevents => ?_, hsorted, fun r => mem_rows_recordAll, failureCount_eq _,
    warningCount_eq _, isEmpty_recordAll_iff, hlisted, fun listing hlisting => ?_⟩
  · have htable : LogTable.ofEvents events' = .ofEvents events := by
      funext key
      rw [LogTable.ofEvents_apply, LogTable.ofEvents_apply, hevents]
    have hlisted' : (LogTable.ofEvents events).ListedBy (recordAll {} events').rows :=
      htable ▸ table_recordAll events' ▸ (isSorted_recordAll events').listedBy
    have hrows : (recordAll {} events').rows = (recordAll {} events).rows := by
      rw [← hlisted.mergeSort_eq hsorted hlisted',
        hlisted'.mergeSort_eq (isSorted_recordAll events') hlisted']
    exact congrArg ErrorLog.mk hrows
  · have hperm := hlisted.perm hlisting
    refine ⟨hlisted.mergeSort_eq hsorted hlisting, ?_, ?_, hperm.isEmpty_eq⟩
    · rw [failureCount_eq, hperm.countP_eq]
    · rw [warningCount_eq, (hperm.flatMap_right _).length_eq]

/-- Two workers write to a log: one about `a`, the other one about `b`. -/
theorem log_of_twoWorkers :
    let e : Error := @Error.json "not JSON"
    let d : Diagnostic := .unresolved 3 "%x"
    let a : LogKey := ⟨"u", "a"⟩
    let b : LogKey := ⟨"u", "b"⟩
    recordAll {} [.warnings b [d], .failure a e, .warnings b [], .warnings a [d], .warnings b [d]] =
        recordAll {} [.failure a e, .warnings a [d], .warnings b [d], .warnings b [],
          .warnings b [d]] ∧
      recordAll {} [.failure a e, .warnings a [d], .warnings b [d], .warnings b [],
          .warnings b [d]] =
        ⟨[⟨a, { error := some (.ofError e), warnings := [d.line] }⟩,
          ⟨b, { warnings := [d.line, d.line] }⟩]⟩ := by
  intro e d a b
  refine ⟨(log_of_events _).1 _ fun key => ?_, by decide⟩
  by_cases ha : a = key
  · subst ha
    simp [LogEvent.about, LogEvent.key, a, b]
  · by_cases hb : b = key <;> simp [LogEvent.about, LogEvent.key, ha, hb]

end ErrorLog

end InstrGraph
