import InstrGraph.Format.ConfigFile
import InstrGraph.Proofs.Yaml.Nodes
import InstrGraph.Proofs.Yaml.Word

/-!
# Configuration files are read back

A configuration file has every field of a configuration, so each section is read off its record
field by field, without a default. A text comes back whatever it is: one that looks like a number, a
boolean or an absent value stands between quotes, and is then nothing but a text.
-/

namespace InstrGraph.Config

open Yaml

variable {d : Yaml.Document}

/-! ### Records -/

/-- A node that is written for a value is no alias. -/
theorem follow_valueNode (d : Yaml.Document) (v : Value) :
    d.follow (valueNode v) = valueNode v := by
  cases v <;> rfl

/-- Reading the fields of a record one by one gives their names and nodes, if each of them is read
so. -/
theorem mapM_fieldNodes {read : Node × Node → Option (String × Node)}
    (h : ∀ name v, read (wordNode name, valueNode v) = some (name, valueNode v))
    (fs : List (String × Value)) :
    (fieldNodes fs).mapM read = some (fs.map fun f => (f.1, valueNode f.2)) := by
  induction fs with
  | nil => rfl
  | cons f fs ih =>
    obtain ⟨name, v⟩ := f
    rw [fieldNodes, List.mapM_cons, ih, h]
    rfl

/-- Every name of a table without doublets finds its own entry. -/
theorem map_lookup_fst {α β : Type} [BEq α] [LawfulBEq α] {entries : List (α × β)}
    (h : (entries.map Prod.fst).Nodup) :
    ((entries.map Prod.fst).map fun a => entries.lookup a) = entries.map fun e => some e.2 := by
  induction entries with
  | nil => rfl
  | cons e entries ih =>
    obtain ⟨a, b⟩ := e
    rw [List.map_cons, List.nodup_cons] at h
    have htail : ((entries.map Prod.fst).map fun a' => ((a, b) :: entries).lookup a') =
        (entries.map Prod.fst).map fun a' => entries.lookup a' := by
      refine List.map_congr_left fun a' ha' => ?_
      have hne : (a' == a) = false := beq_false_of_ne fun heq => h.1 (heq ▸ ha')
      rw [List.lookup_cons, hne]
    rw [List.map_cons, List.map_cons, htail, ih h.2]
    simp

/-- A record is read as the values of its fields, if it has the fields that are asked for. -/
theorem fields?_record {fs : List (String × Value)} {names : List String}
    (hnames : fs.map Prod.fst = names) (hnodup : names.Nodup) :
    (nodeForm d).fields? names (valueNode (.record fs)) =
      some (fs.map fun f => some (valueNode f.2)) := by
  have hentries : (fs.map fun f => (f.1, valueNode f.2)).map Prod.fst = names := by
    rw [List.map_map, ← hnames]
    rfl
  have hlookup := map_lookup_fst (hentries.symm ▸ hnodup)
  rw [hentries, List.map_map] at hlookup
  have hall : names.all names.contains = true := by simp
  change nodeFields? d names (d.follow (valueNode (.record fs))) = _
  rw [follow_valueNode, valueNode, nodeFields?, mapM_fieldNodes]
  · simp only [hentries, hall, hnodup, decide_true, Bool.and_self, if_true, hlookup]
    rfl
  · intro name v
    rfl

/-! ### Values -/

/-- A boolean is read back from its node. -/
theorem bool?_boolValue (b : Bool) : (nodeForm d).bool? (valueNode (boolValue b)) = some b := by
  cases b <;> rfl

/-- A text is read back from its node. -/
theorem string?_text (s : String) : (nodeForm d).string? (valueNode (.text s)) = some s := rfl

/-- The style of labels is read back from its name. -/
theorem labelStyle?_name (style : LabelStyle) :
    (nodeForm d).labelStyle? (valueNode (.word style.name)) = some style := by
  cases style <;> rfl

/-- The edge of a condition is read back from its name. -/
theorem conditionEdge?_name (edge : ConditionEdge) :
    (nodeForm d).conditionEdge? (valueNode (.word edge.name)) = some edge := by
  cases edge <;> rfl

/-- A number without sign is in the range of its type. -/
def IsUnsigned (n : Nat) : Prop := n < 0x10000000000000000

instance (n : Nat) : Decidable (IsUnsigned n) := inferInstanceAs (Decidable (_ < _))

/-- A number with sign is in the range of its type. -/
def IsSigned (n : Int) : Prop := -0x8000000000000000 ≤ n ∧ n < 0x8000000000000000

instance (n : Int) : Decidable (IsSigned n) := inferInstanceAs (Decidable (_ ∧ _))

/-- A number in the range of its type is read back from its node. -/
theorem unsigned?_number {n : Nat} (h : IsUnsigned n) :
    (nodeForm d).unsigned? (valueNode (.word (toString n))) = some n :=
  unsigned?_toString h

/-- Numbers in the range of their type are read back from their nodes. -/
theorem mapM_signed? {ns : List Int} (h : ∀ n ∈ ns, IsSigned n) :
    ((ns.map toString).map wordNode).mapM (nodeForm d).signed? = some ns := by
  induction ns with
  | nil => rfl
  | cons n ns ih =>
    obtain ⟨⟨hmin, hmax⟩, hns⟩ := List.forall_mem_cons.mp h
    have hn : (nodeForm d).signed? (wordNode (toString n)) = some n := signed?_toString hmin hmax
    rw [List.map_cons, List.map_cons, List.mapM_cons, hn, ih hns]
    rfl

/-- A text never stands for the absence of one. -/
theorem isNull?_text (s : String) : (nodeForm d).isNull? (valueNode (.text s)) = some false := by
  change nodeIsNull? (.scalar (textStyle s) none s) = some false
  cases hstyle : textStyle s with
  | plain =>
    have hother := looksOther_of_plain hstyle
    simp only [looksOther, Bool.or_eq_false_iff] at hother
    have hempty : s.isEmpty = false := by simpa using hother.1.1.1.1.1
    rw [nodeIsNull?, hempty, hother.1.1.1.1.2]
    rfl
  | _ => rfl

/-- Nor does a number. -/
theorem isNull?_number (n : Nat) :
    (nodeForm d).isNull? (valueNode (.word (toString n))) = some false := by
  change some ((toString n).isEmpty || isNullWord (toString n)) = some false
  have hlist : (toString n).toList = Nat.toDigits 10 n := Nat.toList_repr
  have hempty : (toString n).isEmpty = false := by
    rw [Bool.eq_false_iff, ne_eq, String.isEmpty_iff, ← String.toList_eq_nil_iff, hlist]
    exact Nat.toDigits_ne_nil
  have hnull : isNullWord (toString n) = false := by
    rw [isNullWord, List.contains_eq_mem, decide_eq_false_iff_not]
    intro hword
    have hletter : ∀ w ∈ ["null", "Null", "NULL", "~"], w.toList.all Char.isDigit = false := by
      decide
    obtain ⟨c, hc, hdigit⟩ := List.all_eq_false.mp (hletter _ hword)
    rw [hlist] at hc
    exact hdigit (isDigit_toDigits n c hc)
  rw [hempty, hnull]
  rfl

/-- A text, or its absence, is read back from its node. -/
theorem nullable?_textValue (o : Option String) :
    (nodeForm d).nullable? (nodeForm d).string? (valueNode (textValue o)) = some o := by
  cases o with
  | none => rfl
  | some s =>
    rw [textValue, Form.nullable?, isNull?_text, string?_text]
    rfl

/-- A number, or its absence, is read back from its node. -/
theorem nullable?_numberValue {o : Option Nat} (h : ∀ n ∈ o, IsUnsigned n) :
    (nodeForm d).nullable? (nodeForm d).unsigned? (valueNode (numberValue o)) = some o := by
  cases o with
  | none => rfl
  | some n =>
    rw [numberValue, Form.nullable?, isNull?_number, unsigned?_number (h n rfl)]
    rfl

/-! ### Sections -/

/-- The fields of the section about canonical functions. -/
def Canonicalize.fields (c : Canonicalize) : List (String × Value) :=
  [("label_style", .word c.labelStyle.name),
    ("rename_globals", boolValue c.renameGlobals),
    ("always_literal", .words (c.alwaysLiteral.map toString)),
    ("constant_placeholder", .text c.constantPlaceholder)]

/-- The section about canonical forms is read back, if its numbers are in the range of their
type. -/
theorem canonicalize?_fields {c : Canonicalize} (h : ∀ n ∈ c.alwaysLiteral, IsSigned n) :
    (nodeForm d).canonicalize? (valueNode (.record c.fields)) = some c := by
  have hlist : ((nodeForm d).list? (valueNode (.words (c.alwaysLiteral.map toString)))).bind
      (fun vs => vs.mapM (nodeForm d).signed?) = some c.alwaysLiteral := mapM_signed? h
  rw [Form.canonicalize?, fields?_record (by rfl) (by decide)]
  simp only [Canonicalize.fields, List.map_cons, List.map_nil, Form.field, labelStyle?_name,
    bool?_boolValue, string?_text, hlist]
  rfl

/-- The fields of the section about common constants and callees. -/
def Frequency.fields (c : Frequency) : List (String × Value) :=
  [("constants_path", textValue c.constantsPath),
    ("calls_path", textValue c.callsPath),
    ("min_count", .word (toString c.minCount)),
    ("top_k", numberValue c.topK)]

/-- The section about frequencies is read back, if its numbers are in the range of their type. -/
theorem frequency?_fields {c : Frequency} (hcount : IsUnsigned c.minCount)
    (hk : ∀ k ∈ c.topK, IsUnsigned k) :
    (nodeForm d).frequency? (valueNode (.record c.fields)) = some c := by
  rw [Form.frequency?, fields?_record (by rfl) (by decide)]
  simp only [Frequency.fields, List.map_cons, List.map_nil, Form.field, nullable?_textValue,
    unsigned?_number hcount, nullable?_numberValue hk]
  rfl

/-- The fields of the section about graphs. -/
def Graph.fields (c : Graph) : List (String × Value) :=
  [("condition_edge", .word c.conditionEdge.name),
    ("report_unreachable_blocks", boolValue c.reportUnreachableBlocks)]

/-- The section about graphs is read back. -/
theorem graph?_fields (c : Graph) :
    (nodeForm d).graph? (valueNode (.record c.fields)) = some c := by
  rw [Form.graph?, fields?_record (by rfl) (by decide)]
  simp only [Graph.fields, List.map_cons, List.map_nil, Form.field, conditionEdge?_name,
    bool?_boolValue]
  rfl

/-- The fields of the section about workers. -/
def Parallel.fields (c : Parallel) : List (String × Value) :=
  [("num_workers", .word (toString c.numWorkers)),
    ("stack_size_mb", .word (toString c.stackSizeMb))]

/-- The section about parallel work is read back, if its numbers are in the range of their type. -/
theorem parallel?_fields {c : Parallel} (hworkers : IsUnsigned c.numWorkers)
    (hstack : IsUnsigned c.stackSizeMb) :
    (nodeForm d).parallel? (valueNode (.record c.fields)) = some c := by
  rw [Form.parallel?, fields?_record (by rfl) (by decide)]
  simp only [Parallel.fields, List.map_cons, List.map_nil, Form.field, unsigned?_number hworkers,
    unsigned?_number hstack]
  rfl

/-- The fields of the section about files. -/
def Files.fields (c : Files) : List (String × Value) :=
  [("summary_suffix", .text c.summarySuffix),
    ("globals_suffix", .text c.globalsSuffix),
    ("structs_suffix", .text c.structsSuffix),
    ("iscg_suffix", .text c.graphSuffix),
    ("write_canonical", boolValue c.writeCanonical),
    ("skip_existing", boolValue c.skipExisting),
    ("pretty", boolValue c.pretty)]

/-- The section about files is read back. -/
theorem files?_fields (c : Files) :
    (nodeForm d).files? (valueNode (.record c.fields)) = some c := by
  rw [Form.files?, fields?_record (by rfl) (by decide)]
  simp only [Files.fields, List.map_cons, List.map_nil, Form.field, string?_text, bool?_boolValue]
  rfl

/-! ### Files -/

/-- The numbers that no check bounds are in the ranges of their types. -/
structure Fits (c : Config) : Prop where
  alwaysLiteral : ∀ n ∈ c.canonicalize.alwaysLiteral, IsSigned n
  minCount : IsUnsigned c.frequency.minCount
  topK : ∀ k ∈ c.frequency.topK, IsUnsigned k

/-- Two checks after each other are passed only together. -/
theorem then_eq_ok {ε : Type} {first second : Except ε Unit} :
    (first >>= fun _ => second) = .ok () ↔ first = .ok () ∧ second = .ok () := by
  cases first with
  | error e => simp [bind, Except.bind]
  | ok => simp [bind, Except.bind]

/-- A check that is passed bounds the numbers of workers and of their stack. -/
theorem isUnsigned_of_validate {c : Config} (h : c.validate = .ok ()) :
    IsUnsigned c.parallel.numWorkers ∧ IsUnsigned c.parallel.stackSizeMb := by
  obtain ⟨-, h⟩ := then_eq_ok.mp h
  obtain ⟨-, h⟩ := then_eq_ok.mp h
  obtain ⟨hparallel, -⟩ := then_eq_ok.mp h
  rw [Parallel.validate] at hparallel
  split_ifs at hparallel with hworkers hstack
  rw [Bool.or_eq_true, not_or, decide_eq_true_eq, decide_eq_true_eq] at hstack
  exact ⟨Nat.lt_of_le_of_lt (Nat.le_of_not_lt hworkers) (by decide),
    Nat.lt_of_le_of_lt (Nat.le_of_not_lt hstack.2) (by decide)⟩

/-- The record of a configuration has its version and its five sections. -/
theorem toRecord_eq (c : Config) :
    c.toRecord = [("version", .word "1"),
      ("canonicalize", .record c.canonicalize.fields),
      ("frequency", .record c.frequency.fields),
      ("graph", .record c.graph.fields),
      ("parallel", .record c.parallel.fields),
      ("io", .record c.files.fields)] := rfl

/-- A configuration that passes the check is read back from the document that is written for it. -/
theorem ofDocument?_toRecord {c : Config} (h : c.Fits) (hvalid : c.validate = .ok ()) :
    File.ofDocument? { root := .mapping (fieldNodes c.toRecord) } = some ⟨some 1, c⟩ := by
  change File.ofDocument? { root := valueNode (.record c.toRecord) } = _
  obtain ⟨hworkers, hstack⟩ := isUnsigned_of_validate hvalid
  have hversion (d : Yaml.Document) : Form.nullable? (nodeForm d) (version? (nodeForm d))
      (valueNode (.word "1")) = some (some 1) := rfl
  rw [File.ofDocument?, fields?_record (by rfl) (by decide)]
  simp only [toRecord_eq, List.map_cons, List.map_nil, Form.field, Form.config?, hversion,
    canonicalize?_fields h.alwaysLiteral, frequency?_fields h.minCount h.topK, graph?_fields,
    parallel?_fields hworkers hstack, files?_fields]
  rfl

/-! ### Words -/

/-- A boolean is written as a word that can be. -/
theorem isWritable_boolValue (b : Bool) : IsWritable (boolValue b) := by
  cases b <;> simp only [boolValue, IsWritable] <;> decide

/-- A text, or its absence, can be written. -/
theorem isWritable_textValue (o : Option String) : IsWritable (textValue o) := by
  cases o with
  | none => exact (by decide : IsWord "null".toList)
  | some s => trivial

/-- A number is written as a word that can be. -/
theorem isWritable_number (n : Nat) : IsWritable (.word (toString n)) := by
  rw [IsWritable, show (toString n).toList = Nat.toDigits 10 n from Nat.toList_repr]
  exact isWord_toDigits n

/-- A number, or its absence, can be written. -/
theorem isWritable_numberValue (o : Option Nat) : IsWritable (numberValue o) := by
  cases o with
  | none => exact (by decide : IsWord "null".toList)
  | some n => exact isWritable_number n

/-- The section about canonical forms can be written. -/
theorem areWritable_canonicalize (c : Canonicalize) : AreWritable c.fields := by
  have hstyle : IsWord c.labelStyle.name.toList := by cases c.labelStyle <;> decide
  have hlist : ∀ w ∈ c.alwaysLiteral.map toString, IsWord w.toList := by
    simpa using fun n _ => isWord_toString_int n
  exact .cons (by decide) hstyle (.cons (by decide) (isWritable_boolValue _)
    (.cons (by decide) hlist (.cons (by decide) trivial trivial)))

/-- The section about frequencies can be written. -/
theorem areWritable_frequency (c : Frequency) : AreWritable c.fields :=
  .cons (by decide) (isWritable_textValue _) (.cons (by decide) (isWritable_textValue _)
    (.cons (by decide) (isWritable_number _)
      (.cons (by decide) (isWritable_numberValue _) trivial)))

/-- The section about graphs can be written. -/
theorem areWritable_graph (c : Graph) : AreWritable c.fields := by
  have hedge : IsWord c.conditionEdge.name.toList := by cases c.conditionEdge <;> decide
  exact .cons (by decide) hedge (.cons (by decide) (isWritable_boolValue _) trivial)

/-- The section about parallel work can be written. -/
theorem areWritable_parallel (c : Parallel) : AreWritable c.fields :=
  .cons (by decide) (isWritable_number _) (.cons (by decide) (isWritable_number _) trivial)

/-- The section about files can be written. -/
theorem areWritable_files (c : Files) : AreWritable c.fields :=
  .cons (by decide) trivial (.cons (by decide) trivial (.cons (by decide) trivial
    (.cons (by decide) trivial (.cons (by decide) (isWritable_boolValue _)
      (.cons (by decide) (isWritable_boolValue _)
        (.cons (by decide) (isWritable_boolValue _) trivial))))))

/-- Whatever its texts are, a configuration can be written. -/
theorem areWritable_toRecord (c : Config) : AreWritable c.toRecord :=
  .cons (by decide) (by decide : IsWord "1".toList)
    (.cons (by decide) (areWritable_canonicalize _)
      (.cons (by decide) (areWritable_frequency _)
        (.cons (by decide) (areWritable_graph _)
          (.cons (by decide) (areWritable_parallel _)
            (.cons (by decide) (areWritable_files _) trivial)))))

/-- A configuration that passes its check is read back from the file that is written for it. -/
theorem ofYaml_toYaml {c : Config} (h : c.Fits) (hvalid : c.validate = .ok ()) :
    ofYaml c.toYaml = .ok c := by
  have hread : Yaml.read? c.toYaml = some { root := .mapping (fieldNodes c.toRecord) } :=
    read?_write (areWritable_toRecord c)
  have hversion : supportedVersions.contains 1 = true := rfl
  rw [ofYaml, hread, Option.bind_some, ofDocument?_toRecord h hvalid]
  simp only [File.check, hversion, if_true, hvalid]
  rfl

/-- What is read has passed its check. -/
theorem validate_of_ofYaml {text : String} {c : Config} (h : ofYaml text = .ok c) :
    c.validate = .ok () := by
  rw [ofYaml] at h
  split at h
  · rename_i f _
    rw [File.check] at h
    split at h
    · cases h
    · split_ifs at h
      cases hvalid : f.config.validate with
      | error e =>
        rw [hvalid] at h
        cases h
      | ok =>
        rw [hvalid] at h
        cases h
        exact hvalid
  · cases h

/-- A configuration that passes its check, whatever its texts are, is read back from the file that
is written for it, and every configuration that is read from a file passes its check. -/
theorem ofYaml_toYaml_and_validate :
    (∀ c : Config, c.Fits → c.validate = .ok () → ofYaml c.toYaml = .ok c) ∧
      ∀ (text : String) (c : Config), ofYaml text = .ok c → c.validate = .ok () :=
  ⟨fun _ => ofYaml_toYaml, fun _ _ => validate_of_ofYaml⟩

/-- A configuration with texts that look like something else. -/
def misleading : Config where
  canonicalize := { alwaysLiteral := [-5, 0], constantPlaceholder := "null" }
  frequency := { constantsPath := some "~", callsPath := some "a: 'b' # c\n\n", topK := some 3 }
  files := { summarySuffix := " 1.0\x7f", globalsSuffix := "\u2028\uFEFF", structsSuffix := "\r\n" }

/-- Texts that look like numbers, booleans or nothing come back as the texts that they are, and a
file without sections is the default configuration. -/
theorem ofYaml_toYaml_misleading :
    misleading.Fits ∧ misleading.validate = .ok () ∧ ofYaml misleading.toYaml = .ok misleading ∧
      ofYaml "version: 1\n" = .ok {} ∧ ({} : Config).validate = .ok () := by
  have hfits : misleading.Fits := ⟨by decide, by decide, by decide⟩
  have hvalid : misleading.validate = .ok () := by rfl
  have hword : IsWord "1".toList := by decide
  have htext : Yaml.write [("version", .word "1")] = "version: 1\n" := by decide
  have hdocument := @read?_write ("version", .word "1") [] (.cons (by decide) hword trivial)
  have hread : ofYaml "version: 1\n" = .ok {} := by
    rw [ofYaml, ← htext, hdocument]
    rfl
  exact ⟨hfits, hvalid, ofYaml_toYaml_and_validate.1 _ hfits hvalid, hread,
    ofYaml_toYaml_and_validate.2 _ _ hread⟩

end InstrGraph.Config
