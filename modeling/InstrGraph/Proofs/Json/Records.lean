import InstrGraph.FileTree.Load
import InstrGraph.Format.Document
import InstrGraph.Format.ErrorLog
import InstrGraph.Proofs.Json.Fields
import InstrGraph.Proofs.Text.Words

/-!
# Records are read back from JSON

For each record there is the list of its fields, of which the present ones are its members, and a
lemma that the record is read back from its fields. An opcode comes back if it comes from a name,
since blanks around the name are lost (`Opcode.IsRead`), a free value if it is in normal form, since
a reader sorts the members of its objects (`NodeAttrs.IsRead`).
-/

namespace InstrGraph

open Json (present strings stringsIfAny fields?_present present_append memberIfAny_eq
  memberIfSome_eq Fits)

/-! ### Functions -/

namespace Usage

/-- The fields of a usage. -/
def fields (u : Usage) : List (String × Option Json) :=
  [("globals", stringsIfAny u.globals), ("structs", stringsIfAny u.structs),
    ("calls", stringsIfAny u.calls), ("constants", stringsIfAny u.constants)]

/-- What the text of a usage holds: its tables that are not empty. -/
theorem toJson_eq (u : Usage) : u.toJson = .object (present u.fields) := by
  simp only [toJson, memberIfAny_eq, ← present_append]
  rfl

/-- A usage is read back from its value. -/
theorem ofJson?_toJson (u : Usage) : ofJson? u.toJson = some u := by
  have hnodup : (u.fields.map Prod.fst).Nodup :=
    (by decide : ["globals", "structs", "calls", "constants"].Nodup)
  have hfields := fields?_present u.fields u.fields hnodup (List.Subset.refl _)
  rw [toJson_eq, ofJson?]
  simp only [fields, List.map_cons, List.map_nil] at hfields ⊢
  simp [hfields]

/-- A usage is at most two levels deep. -/
theorem fits_toJson (room : Nat) (u : Usage) : Fits (room + 2) u.toJson := by
  rw [toJson_eq]
  refine .present fun f hf => ?_
  simp only [fields, List.mem_cons, List.not_mem_nil, or_false] at hf
  rcases hf with rfl | rfl | rfl | rfl <;> exact Fits.stringsIfAny

/-- The empty usage is the only one without names and numbers. -/
theorem eq_empty {u : Usage} (h : u.isEmpty = true) : u = {} := by
  simp only [isEmpty, Bool.and_eq_true, List.isEmpty_iff] at h
  obtain ⟨⟨⟨hglobals, hstructs⟩, hcalls⟩, hconstants⟩ := h
  cases u
  simp_all

end Usage

namespace Opcode

/-- The opcode is that of a name. -/
def IsRead (o : Opcode) : Prop := ∃ name, o = ofName name

/-- White space around the name of an opcode does not matter. -/
theorem ofName_trim (name : String) : ofName (Token.trim name) = ofName name := by
  have htrim : Token.trim (Token.trim name) = Token.trim name := by
    rw [Token.trim, Token.trim, Token.onString, Token.toList_onString, Text.trim_trim]
    rfl
  rw [ofName, htrim, ofName]

/-- An opcode that comes from a name is found again by the name that is written for it. -/
theorem ofName_name {o : Opcode} (h : o.IsRead) : ofName o.name = o := by
  obtain ⟨name, rfl⟩ := h
  have hname : (ofName name).name = Token.trim name := by
    unfold ofName
    split <;> simp_all [Opcode.name]
  rw [hname, ofName_trim]

end Opcode

namespace Instruction

/-- The fields of an instruction. -/
def fields (i : Instruction) : List (String × Option Json) :=
  [("id", some (.int i.id.toNat)), ("opcode", some (.string i.opcode.name)),
    ("text", some (.string i.text)), ("operands", some (strings i.operands)),
    ("defined_var", i.definedVar.map .string), ("condition", i.condition.map .string),
    ("targets", stringsIfAny i.targets), ("callee", i.callee.map .string),
    ("return_type", i.returnType.map .string), ("return_value", i.returnValue.map .string),
    ("usage", if i.usage.isEmpty then none else some i.usage.toJson)]

/-- What the text of an instruction holds: its fields that are not left out. -/
theorem toJson_eq (i : Instruction) : i.toJson = .object (present i.fields) := by
  have husage : (if i.usage.isEmpty then [] else [("usage", i.usage.toJson)]) =
      present [("usage", if i.usage.isEmpty then none else some i.usage.toJson)] := by
    split <;> rfl
  have hfront : [("id", .int i.id.toNat), ("opcode", .string i.opcode.name),
      ("text", .string i.text), ("operands", strings i.operands)] =
        present [("id", some (.int i.id.toNat)), ("opcode", some (.string i.opcode.name)),
          ("text", some (.string i.text)), ("operands", some (strings i.operands))] := rfl
  rw [toJson, husage, hfront]
  simp only [memberIfAny_eq, memberIfSome_eq, ← present_append]
  rfl

/-- A usage that is left out because it is empty is read back as the default. -/
theorem withDefault_usage (u : Usage) :
    Json.withDefault {} Usage.ofJson? (if u.isEmpty then none else some u.toJson) = some u := by
  split
  · rename_i hempty
    rw [Usage.eq_empty hempty]
    rfl
  · exact Usage.ofJson?_toJson u

/-- An instruction is read back from its value if its opcode comes from a name. -/
theorem ofJson?_toJson {i : Instruction} (h : i.opcode.IsRead) : ofJson? i.toJson = some i := by
  have hnodup : (i.fields.map Prod.fst).Nodup := (by decide : fieldNames.flatten.Nodup)
  have hfields := fields?_present i.fields i.fields hnodup (List.Subset.refl _)
  rw [toJson_eq, ofJson?, fieldNames]
  simp only [fields, List.map_cons, List.map_nil] at hfields ⊢
  simp [hfields, Opcode.ofName_name h, withDefault_usage]

/-- An instruction is at most three levels deep. -/
theorem fits_toJson (room : Nat) (i : Instruction) : Fits (room + 3) i.toJson := by
  rw [toJson_eq]
  refine .present fun f hf => ?_
  simp only [fields, List.mem_cons, List.not_mem_nil, or_false] at hf
  rcases hf with rfl | rfl | rfl | rfl | rfl | rfl | rfl | rfl | rfl | rfl | rfl
  · rintro _ ⟨⟩
    have := i.id.toNat_lt
    exact .ofNat _ (by omega)
  · rintro _ ⟨⟩
    exact .string _ _
  · rintro _ ⟨⟩
    exact .string _ _
  · rintro _ ⟨⟩
    exact .strings _ _
  · exact Fits.map_string
  · exact Fits.map_string
  · exact Fits.stringsIfAny
  · exact Fits.map_string
  · exact Fits.map_string
  · exact Fits.map_string
  · intro j hj
    split at hj
    · cases hj
    · cases hj
      exact Usage.fits_toJson room _

end Instruction

namespace Block

/-- A block is read back from its value if the opcodes of its instructions come from names. -/
theorem ofJson?_toJson {b : Block} (h : ∀ i ∈ b.instructions, i.opcode.IsRead) :
    ofJson? b.toJson = some b := by
  have hinstructions :
      Json.list? Instruction.ofJson? (.array (b.instructions.map (·.toJson))) =
        some b.instructions :=
    Json.list?_array fun i hi => Instruction.ofJson?_toJson (h i hi)
  have hfields : b.toJson.fields? [["label"], ["instructions"]] =
      some [some (.string b.label), some (.array (b.instructions.map (·.toJson)))] := rfl
  rw [ofJson?, hfields]
  simp [hinstructions]

/-- A block is at most five levels deep. -/
theorem fits_toJson (room : Nat) (b : Block) : Fits (room + 5) b.toJson := by
  refine .object ?_
  simp only [List.forall_mem_cons]
  refine ⟨.string _ _, .array ?_, by simp⟩
  exact List.forall_mem_map.mpr fun i _ => Instruction.fits_toJson room i

end Block

namespace Function

/-- Every opcode is that of a name. -/
def IsRead (f : Function) : Prop := ∀ b ∈ f.blocks, ∀ i ∈ b.instructions, i.opcode.IsRead

/-- The fields of a function. -/
def fields (f : Function) : List (String × Option Json) :=
  [("name", some (.string f.name)), ("params", some (strings f.params)),
    ("blocks", some (.array (f.blocks.map (·.toJson))))]

/-- A function is read back from its fields. -/
theorem ofFields?_fields {f : Function} (h : f.IsRead) :
    ofFields? (f.fields.map Prod.snd) = some f := by
  have hblocks : Json.list? Block.ofJson? (.array (f.blocks.map (·.toJson))) = some f.blocks :=
    Json.list?_array fun b hb => Block.ofJson?_toJson (h b hb)
  simp [fields, ofFields?, hblocks]

/-- A function is read back from its value. -/
theorem ofJson?_toJson {f : Function} (h : f.IsRead) : ofJson? f.toJson = some f := by
  have hfields : f.toJson.fields? fieldNames = some (f.fields.map Prod.snd) := rfl
  rw [ofJson?, hfields]
  exact ofFields?_fields h

/-- The fields of a function are at most six levels deep. -/
theorem fits_members (room : Nat) (f : Function) : ∀ m ∈ f.members, Fits (room + 6) m.2 := by
  simp only [members, List.forall_mem_cons]
  refine ⟨.string _ _, .strings _ _, .array ?_, by simp⟩
  exact List.forall_mem_map.mpr fun b _ => Block.fits_toJson room b

/-- A function is at most seven levels deep. -/
theorem fits_toJson (room : Nat) (f : Function) : Fits (room + 7) f.toJson :=
  .object (fits_members room f)

end Function

namespace UsedSets

/-- The fields of the derived sets. -/
def fields (s : UsedSets) : List (String × Option Json) :=
  [("globals_referenced", some (strings s.globals)),
    ("structs_referenced", some (strings s.structs)), ("calls_made", some (strings s.calls)),
    ("constants_seen", some (strings s.constants))]

/-- The sets of a canonical function are read back from its fields. -/
theorem ofFields?_fields (s : UsedSets) : ofFields? (s.fields.map Prod.snd) = some s := by
  simp [fields, ofFields?]

/-- The sets of a canonical function are at most one level deep. -/
theorem fits_members (room : Nat) (s : UsedSets) : ∀ m ∈ s.members, Fits (room + 1) m.2 := by
  simp only [members, List.forall_mem_cons]
  exact ⟨.strings _ _, .strings _ _, .strings _ _, .strings _ _, by simp⟩

end UsedSets

namespace CanonicalFunction

/-- A canonical function stays far below the depth that a reader allows. -/
theorem fits_toJson (c : CanonicalFunction) : Fits Json.depthLimit c.toJson :=
  .object <| List.forall_mem_append.mpr
    ⟨Function.fits_members 120 c.function, UsedSets.fits_members 125 c.sets⟩

/-- A canonical function is read back from its value. -/
theorem ofJson?_toJson {c : CanonicalFunction} (h : c.function.IsRead) :
    ofJson? c.toJson = some c := by
  have hobject : c.toJson = .object (present (c.function.fields ++ c.sets.fields)) := rfl
  have hnodup : ((c.function.fields ++ c.sets.fields).map Prod.fst).Nodup :=
    (by decide : (Function.fieldNames ++ UsedSets.fieldNames).flatten.Nodup)
  have hfunction := fields?_present _ c.function.fields hnodup (List.subset_append_left _ _)
  have hsets := fields?_present _ c.sets.fields hnodup (List.subset_append_right _ _)
  have hread : c.toJson.readable Json.depthLimit = true := c.fits_toJson.readable
  rw [hobject] at hread ⊢
  rw [ofJson?, if_pos hread]
  have hf : c.function.fields.map (fun f => [f.1]) = Function.fieldNames := rfl
  have hs : c.sets.fields.map (fun f => [f.1]) = UsedSets.fieldNames := rfl
  rw [← hf, ← hs, hfunction, hsets]
  simp [Function.ofFields?_fields h, UsedSets.ofFields?_fields]

end CanonicalFunction

/-! ### Documents -/

namespace NodeAttrs

/-- The word for the kind of node. -/
def kindName : NodeAttrs → String
  | function .. => "function"
  | block _ => "block"
  | instruction .. => "instruction"
  | parameter _ => "function_param"
  | global .. => "global"

/-- The fields of attributes beside the kind of node. -/
def fields : NodeAttrs → List (String × Option Json)
  | function paramCount blockCount =>
    [("num_params", some (.int paramCount)), ("bb_num", some (.int blockCount))]
  | block count => [("block_inst_count", some (.int count))]
  | instruction text opcode usesParam =>
    [("instruction", some (.string text)), ("opcode", some (.string opcode)),
      ("uses_param", some (.bool usesParam))]
  | parameter definition => [("define", some (.string definition))]
  | global definition globalType value linkage valueLens =>
    [("define", some (.string definition)), ("global_type", some (.string globalType.name)),
      ("value", some value), ("linkage", some (.string linkage)),
      ("value_lens", some valueLens)]

/-- What the text of a node holds: its kind, and then the fields that are not left out. -/
theorem toJson_eq (a : NodeAttrs) :
    a.toJson = .object (("type", .string a.kindName) :: present a.fields) := by cases a <;> rfl

/-- The free value of a node comes back: it is in normal form and without doubles, its integers fit
into 64 bits, and it nests no deeper than a reader of documents goes along with. -/
structure IsFree (j : Json) : Prop where
  fits : Fits (Json.depthLimit - 3) j
  normal : j.normal = j

/-- The counts fit into 64 bits, and the free values come back. -/
def IsRead : NodeAttrs → Prop
  | function paramCount blockCount =>
    paramCount < 0x10000000000000000 ∧ blockCount < 0x10000000000000000
  | block count => count < 0x10000000000000000
  | instruction .. => True
  | parameter _ => True
  | global _ _ value _ valueLens => IsFree value ∧ IsFree valueLens

/-- The type of a global is read back from its name. -/
theorem globalType?_name (g : GlobalType) : globalType? (.string g.name) = some g := by
  cases g <;> rfl

/-- A node is read back from its kind and its fields. -/
theorem ofRest?_fields {a : NodeAttrs} (h : a.IsRead) :
    ofRest? a.kindName (.object (present a.fields)) = some a := by
  have hnodup : (a.fields.map Prod.fst).Nodup := by cases a <;> simp [fields]
  have hfields := fields?_present a.fields a.fields hnodup (List.Subset.refl _)
  cases a with
  | function paramCount blockCount =>
    simp only [fields, kindName, ofRest?, List.map_cons, List.map_nil] at hfields ⊢
    simp [hfields, Json.word64?_ofNat h.1, Json.word64?_ofNat h.2]
  | block count =>
    simp only [fields, kindName, ofRest?, List.map_cons, List.map_nil] at hfields ⊢
    simp [hfields, Json.word64?_ofNat h]
  | instruction text opcode usesParam =>
    simp only [fields, kindName, ofRest?, List.map_cons, List.map_nil] at hfields ⊢
    simp [hfields]
  | parameter definition =>
    simp only [fields, kindName, ofRest?, List.map_cons, List.map_nil] at hfields ⊢
    simp [hfields]
  | global definition globalType value linkage valueLens =>
    simp only [fields, kindName, ofRest?, List.map_cons, List.map_nil] at hfields ⊢
    simp [hfields, globalType?_name, h.1.normal, h.2.normal]

/-- The fields of a node have room for three levels around them. -/
theorem fits_fields {a : NodeAttrs} (h : a.IsRead) :
    ∀ f ∈ a.fields, ∀ j ∈ f.2, Fits (Json.depthLimit - 3) j := by
  cases a with
  | function paramCount blockCount => simp [fields, Fits.ofNat _ h.1, Fits.ofNat _ h.2]
  | block count => simp [fields, Fits.ofNat _ h]
  | instruction text opcode usesParam => simp [fields, Fits.string, Fits.bool]
  | parameter definition => simp [fields, Fits.string]
  | global definition globalType value linkage valueLens =>
    simp [fields, Fits.string, h.1.fits, h.2.fits]

/-- A node has room for the two levels of the document around it. -/
theorem fits_toJson {a : NodeAttrs} (h : a.IsRead) : Fits (Json.depthLimit - 2) a.toJson := by
  rw [toJson_eq]
  show Fits (Json.depthLimit - 3 + 1) _
  refine .object <| List.forall_mem_cons.mpr ⟨.string _ _, fun m hm => ?_⟩
  exact fits_fields h (m.1, some m.2) (Json.mem_present hm) m.2 rfl

/-- A node is read back from its value. -/
theorem ofJson?_toJson {a : NodeAttrs} (h : a.IsRead) : ofJson? 2 a.toJson = some a := by
  have hread : a.toJson.readable (Json.depthLimit - 2) = true := (fits_toJson h).readable
  have hfields : ∀ f ∈ a.fields, f.1 ≠ "type" := by cases a <;> simp [fields]
  have hother : ∀ m ∈ present a.fields, m.1 ≠ "type" := fun m hm =>
    hfields (m.1, some m.2) (Json.mem_present hm)
  have hkind : (present a.fields).filter (fun m => m.1 == "type") = [] :=
    List.filter_eq_nil_iff.mpr fun m hm => by simpa using hother m hm
  have hrest : (present a.fields).filter (fun m => m.1 != "type") = present a.fields :=
    List.filter_eq_self.mpr fun m hm => by simpa using hother m hm
  rw [toJson_eq] at hread ⊢
  rw [ofJson?, if_pos hread]
  simp only [List.filter_cons, beq_self_eq_true, bne_self_eq_false, hkind, hrest, if_true]
  exact ofRest?_fields h

end NodeAttrs

namespace Link

/-- A link is read back from its value. -/
theorem ofJson?_toJson (l : Link) : ofJson? l.toJson = some l := by
  have hkind : EdgeKind.ofName? l.kind.name = some l.kind := EdgeKind.ofName?_name l.kind
  simp [toJson, ofJson?, Json.word?, hkind]

/-- A link is at most one level deep. -/
theorem fits_toJson (room : Nat) (l : Link) : Fits (room + 1) l.toJson := by
  refine .array ?_
  simp only [List.forall_mem_cons]
  exact ⟨.string _ _, .string _ _, .string _ _, by simp⟩

end Link

namespace Document

/-- The attributes of every node come back. -/
def IsRead (d : Document) : Prop := ∀ n ∈ d.nodesInfo, n.2.IsRead

/-- A document stays below the depth that a reader allows. -/
theorem fits_toJson {d : Document} (h : d.IsRead) : Fits Json.depthLimit d.toJson := by
  refine .object ?_
  simp only [List.forall_mem_cons]
  refine ⟨.string _ _, .strings _ _, .array ?_, .object ?_, by simp⟩
  · exact List.forall_mem_map.mpr fun l _ => Link.fits_toJson _ l
  · exact List.forall_mem_map.mpr fun n hn => NodeAttrs.fits_toJson (h n hn)

/-- A document is read back from its value. -/
theorem ofJson?_toJson {d : Document} (h : d.IsRead) : ofJson? d.toJson = some d := by
  have hlinks : Json.list? Link.ofJson? (.array (d.links.map (·.toJson))) = some d.links :=
    Json.list?_array fun l _ => Link.ofJson?_toJson l
  have hinfo : Json.members? (NodeAttrs.ofJson? 2)
      (.object (d.nodesInfo.map fun n => (n.1, n.2.toJson))) = some d.nodesInfo :=
    Json.members?_object fun n hn => NodeAttrs.ofJson?_toJson (h n hn)
  have hfields : d.toJson.fields? [["function_name"], ["nodes"], ["links"], ["nodes_info"]] =
      some [some (.string d.functionName), some (strings d.nodes),
        some (.array (d.links.map (·.toJson))),
        some (.object (d.nodesInfo.map fun n => (n.1, n.2.toJson)))] := rfl
  rw [ofJson?, hfields]
  simp [hlinks, hinfo]

end Document

/-! ### Logs -/

namespace Failure

/-- What is logged of a failure is read back from its value. -/
theorem ofJson?_toJson (f : Failure) : ofJson? f.toJson = some f := by
  have hfields : f.toJson.fields? [["kind"], ["message"]] =
      some [some (.string f.kind), some (.string f.message)] := rfl
  rw [ofJson?, hfields]
  simp

/-- What is logged of a failure is at most one level deep. -/
theorem fits_toJson (room : Nat) (f : Failure) : Fits (room + 1) f.toJson := by
  refine .object ?_
  simp only [List.forall_mem_cons]
  exact ⟨.string _ _, .string _ _, by simp⟩

end Failure

namespace LogRow

/-- The fields of a row. -/
def fields (r : LogRow) : List (String × Option Json) :=
  [("unit", some (.string r.key.unit)), ("function", some (.string r.key.function)),
    ("error", r.entry.error.map (·.toJson)), ("warnings", stringsIfAny r.entry.warnings)]

/-- What the text of a row holds: its key, and the fields of its entry that are not left out. -/
theorem toJson_eq (r : LogRow) : r.toJson = .object (present r.fields) := by
  obtain ⟨⟨unit, function⟩, ⟨error, warnings⟩⟩ := r
  rw [toJson, memberIfAny_eq]
  cases error <;> rfl

/-- A row stays below the depth that a reader allows. -/
theorem fits_toJson (r : LogRow) : Fits Json.depthLimit r.toJson := by
  rw [toJson_eq]
  refine .present fun f hf => ?_
  simp only [fields, List.mem_cons, List.not_mem_nil, or_false] at hf
  rcases hf with rfl | rfl | rfl | rfl
  · rintro _ ⟨⟩
    exact .string _ _
  · rintro _ ⟨⟩
    exact .string _ _
  · intro j hj
    obtain ⟨e, -, rfl⟩ := Option.map_eq_some_iff.mp hj
    exact Failure.fits_toJson _ e
  · exact Fits.stringsIfAny

/-- A row is read back from its value. -/
theorem ofJson?_toJson (r : LogRow) : ofJson? r.toJson = some r := by
  have hnodup : (r.fields.map Prod.fst).Nodup :=
    (by decide : ["unit", "function", "error", "warnings"].Nodup)
  have hfields := fields?_present r.fields r.fields hnodup (List.Subset.refl _)
  have hread : r.toJson.readable Json.depthLimit = true := r.fits_toJson.readable
  have herror : Json.withDefault none (Json.nullable? Failure.ofJson?)
      (r.entry.error.map (·.toJson)) = some r.entry.error := by
    cases r.entry.error with
    | none => rfl
    | some e => exact congrArg (Option.map some) (Failure.ofJson?_toJson e)
  rw [toJson_eq] at hread ⊢
  rw [ofJson?, if_pos hread]
  simp only [fields, List.map_cons, List.map_nil] at hfields ⊢
  simp [hfields, herror]

end LogRow

/-! ### Texts -/

namespace FileTree

/-- What is read back from a value is read back from both texts of the value, if the value is one
that the reader of texts goes along with. -/
theorem parse_text {α : Type} {ofJson? : Json → Option α} {j : Json} {a : α} {room : Nat}
    (isPretty : Bool) (hj : Fits room j) (h : ofJson? j = some a) :
    parse ofJson? (Json.text isPretty j) = .ok a := by
  rw [parse, Json.read?_text isPretty hj.isExact, Option.bind_some, h]

/-- Functions, canonical functions, documents and logs are read back from either of their texts. -/
theorem parse_text_records (isPretty : Bool) :
    (∀ f : Function, f.IsRead → parse Function.ofJson? (Json.text isPretty f.toJson) = .ok f) ∧
      (∀ c : CanonicalFunction, c.function.IsRead →
        parse CanonicalFunction.ofJson? (Json.text isPretty c.toJson) = .ok c) ∧
      (∀ d : Document, d.IsRead →
        parse Document.ofJson? (Json.text isPretty d.toJson) = .ok d) ∧
      ∀ rows : List LogRow,
        parse (Json.list? LogRow.ofJson?) (Json.text isPretty (ErrorLog.toJson ⟨rows⟩)) =
          .ok rows := by
  refine ⟨fun f hf => ?_, fun c hc => ?_, fun d hd => ?_, fun rows => ?_⟩
  · exact parse_text isPretty (Function.fits_toJson 0 f) (Function.ofJson?_toJson hf)
  · exact parse_text isPretty c.fits_toJson (CanonicalFunction.ofJson?_toJson hc)
  · exact parse_text isPretty (Document.fits_toJson hd) (Document.ofJson?_toJson hd)
  · have hfits : Fits (Json.depthLimit + 1) (ErrorLog.toJson ⟨rows⟩) :=
      .array <| List.forall_mem_map.mpr fun r _ => LogRow.fits_toJson r
    exact parse_text isPretty hfits (Json.list?_array fun r _ => LogRow.ofJson?_toJson r)

end FileTree

/-- A function with a call whose text takes every kind of escape, and an opcode without a rule. -/
def Function.escapesExample : Function :=
  { name := "@main"
    params := ["ptr %argv"]
    blocks := [⟨"entry", [{ id := 4294967295, opcode := .call
                            text := "call \"\\\n\x00\x7fß😀\""
                            callee := some "@puts", usage := { calls := ["@puts"] } },
                          { id := 0, opcode := .other "fence", text := "" }]⟩, ⟨"", []⟩] }

/-- A document that describes one node twice, once with free values. -/
def Document.twiceExample : Document :=
  { functionName := "main"
    nodes := ["@g", "function_start"]
    links := [⟨"@g", "function_start", .global⟩]
    nodesInfo :=
      [("@g", .global "@g = global i64 -1" .arrayPtr
          (.object [("a", .array [.int (-9223372036854775808), .null]), ("b", .bool true)]) ""
          .null),
        ("@g", .function 1 18446744073709551615)] }

/-- A function with a name full of special characters, a canonical function, a document and a log
are read back from their texts. -/
theorem FileTree.parse_text_records_examples :
    let f := Function.escapesExample
    let d := Document.twiceExample
    let rows : List LogRow := [⟨⟨"a", "*"⟩, {}⟩, ⟨⟨"a", "f"⟩, ⟨some ⟨"json", "\t"⟩, ["w"]⟩⟩]
    f.IsRead ∧ d.IsRead ∧ parse Function.ofJson? (Json.text true f.toJson) = .ok f ∧
      parse CanonicalFunction.ofJson? (Json.text true (CanonicalFunction.ofFunction f).toJson) =
        .ok (.ofFunction f) ∧
      parse Document.ofJson? (Json.text true d.toJson) = .ok d ∧
      parse (Json.list? LogRow.ofJson?) (Json.text true (ErrorLog.toJson ⟨rows⟩)) = .ok rows := by
  intro f d rows
  have hf : f.IsRead := by
    have hcall : Opcode.IsRead .call := ⟨"call", by decide +kernel⟩
    have hfence : Opcode.IsRead (.other "fence") := ⟨"fence", by decide +kernel⟩
    simp [f, Function.IsRead, Function.escapesExample, hcall, hfence]
  have hd : d.IsRead := by
    have hvalue : NodeAttrs.IsFree
        (.object [("a", .array [.int (-9223372036854775808), .null]), ("b", .bool true)]) :=
      ⟨⟨by decide +kernel, by decide +kernel⟩, rfl⟩
    have hnull : NodeAttrs.IsFree .null := ⟨⟨rfl, rfl⟩, rfl⟩
    simp [d, Document.IsRead, Document.twiceExample, NodeAttrs.IsRead, hvalue, hnull]
  obtain ⟨hfunction, hcanonical, hdocument, hlog⟩ := parse_text_records true
  exact ⟨hf, hd, hfunction f hf, hcanonical (.ofFunction f) hf, hdocument d hd, hlog rows⟩

end InstrGraph
