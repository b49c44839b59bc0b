import InstrGraph.Proofs.Metadata.Process

/-!
# Keys with and without their sigil

A table of metadata may key an entry with its sigil or without it. Where no key has more than one
sigil and none occurs in both spellings (`Metadata.SinglySpelled`), an identifier finds the entry of
its bare name however that is spelt (`SinglySpelledIn.lookup_congr`). So tables that differ in the
sigils of their keys, and in the order of their entries, lead to the same output or error
(`processFunction_respell`). The instructions must not use globals yet: those need not be
identifiers, and a bare one finds bare keys only.
-/

namespace InstrGraph

namespace Metadata

/-- A key without its sigil. -/
def bareKey (sigil key : String) : String := (Token.dropHead? key sigil).getD key

/-- The entries of a table under their bare keys. -/
def bareEntries {α : Type} (sigil : String) (entries : List (String × α)) : List (String × α) :=
  entries.map fun e => (bareKey sigil e.1, e.2)

/-- No key has more than one sigil, and none occurs in both spellings. -/
structure SinglySpelledIn {α : Type} (sigil : String) (entries : List (String × α)) : Prop where
  bare : ∀ e ∈ entries, Token.startsWith (bareKey sigil e.1) sigil = false
  nodup : ((bareEntries sigil entries).map Prod.fst).Nodup

/-- The keys of both tables are spelt in one way each. -/
structure SinglySpelled (m : Metadata) : Prop where
  globals : SinglySpelledIn "@" m.globals
  structs : SinglySpelledIn "%" m.structs

/-- The tables are the same but for the sigils of their keys and the order of their entries. -/
structure Respelled (m m' : Metadata) : Prop where
  globals : (bareEntries "@" m'.globals).Perm (bareEntries "@" m.globals)
  structs : (bareEntries "%" m'.structs).Perm (bareEntries "%" m.structs)

section

variable {α : Type} {sigil key bare : String} {entries entries' : List (String × α)} {v : α}

/-- A key stands for a bare name if it is that name, with or without the sigil. -/
theorem bareKey_eq_iff (hbare : Token.startsWith bare sigil = false) :
    bareKey sigil key = bare ↔ key = bare ∨ key = sigil ++ bare := by
  rw [bareKey]
  cases hdrop : Token.dropHead? key sigil with
  | some rest =>
    obtain rfl := Token.dropHead?_eq_some_iff.mp hdrop
    have hne : sigil ++ rest ≠ bare := by
      rintro rfl
      simp [Token.startsWith_iff.mpr] at hbare
    simp [hne, String.append_right_inj]
  | none =>
    have hne : key ≠ sigil ++ bare := by
      rintro rfl
      rw [Token.dropHead?_eq_some_iff.mpr rfl] at hdrop
      exact absurd hdrop (by simp)
    simp [hne]

/-- Under its bare key an entry is found at once, with and without its sigil. -/
theorem SinglySpelledIn.lookup_eq (h : SinglySpelledIn sigil entries)
    (hbare : Token.startsWith bare sigil = false) :
    (entries.lookup (sigil ++ bare) <|> entries.lookup bare) =
      (bareEntries sigil entries).lookup bare := by
  have hkeys : (entries.map Prod.fst).Nodup := by
    have hnodup := h.nodup
    rw [bareEntries, List.map_map] at hnodup
    exact List.Nodup.of_map (bareKey sigil) (by rwa [List.map_map])
  have hbareKey {key : String} (hkey : key = bare ∨ key = sigil ++ bare) {v : α}
      (hmem : (key, v) ∈ entries) : (bare, v) ∈ bareEntries sigil entries :=
    List.mem_map.mpr ⟨(key, v), hmem, by rw [(bareKey_eq_iff hbare).mpr hkey]⟩
  cases hfull : entries.lookup (sigil ++ bare) with
  | some v =>
    have hmem := hbareKey (Or.inr rfl) (mem_of_lookup_eq_some hfull)
    exact ((lookup_eq_some_iff h.nodup).mpr hmem).symm
  | none =>
    show entries.lookup bare = _
    refine Option.ext fun v => ?_
    rw [lookup_eq_some_iff hkeys, lookup_eq_some_iff h.nodup]
    refine ⟨hbareKey (Or.inl rfl), fun hmem => ?_⟩
    obtain ⟨⟨key, w⟩, he, heq⟩ := List.mem_map.mp hmem
    obtain ⟨hkey, rfl⟩ := Prod.mk.inj heq
    rcases (bareKey_eq_iff hbare).mp hkey with rfl | rfl
    · exact he
    · exact absurd (List.mem_map_of_mem he) (lookup_eq_none_iff.mp hfull)

/-- A table stays singly spelled when sigils and order change. -/
theorem SinglySpelledIn.perm (h : SinglySpelledIn sigil entries)
    (hp : (bareEntries sigil entries').Perm (bareEntries sigil entries)) :
    SinglySpelledIn sigil entries' where
  bare e he := by
    have hmem : (bareKey sigil e.1, e.2) ∈ bareEntries sigil entries :=
      hp.mem_iff.mp (List.mem_map_of_mem he)
    obtain ⟨e', he', heq⟩ := List.mem_map.mp hmem
    rw [← (Prod.mk.inj heq).1]
    exact h.bare e' he'
  nodup := (hp.map Prod.fst).nodup_iff.mpr h.nodup

/-- In two spellings of a table the same is found under a name with its sigil. -/
theorem SinglySpelledIn.lookup_congr (h : SinglySpelledIn sigil entries)
    (hp : (bareEntries sigil entries').Perm (bareEntries sigil entries))
    (hbare : Token.startsWith bare sigil = false) :
    (entries'.lookup (sigil ++ bare) <|> entries'.lookup bare) =
      (entries.lookup (sigil ++ bare) <|> entries.lookup bare) := by
  have h' := h.perm hp
  rw [h'.lookup_eq hbare, h.lookup_eq hbare]
  refine Option.ext fun v => ?_
  rw [lookup_eq_some_iff h'.nodup, lookup_eq_some_iff h.nodup, hp.mem_iff]

end

/-! ### Identifiers -/

/-- An identifier has one sigil. -/
theorem exists_eq_append_of_isSymbol (sigil : String) {t : String} {c : Char}
    (hc : sigil.toList = [c]) (ht : Token.isSymbol t = true) (hhead : t.toList.head? = some c) :
    ∃ bare, t = sigil ++ bare ∧ Token.startsWith bare sigil = false := by
  cases hchars : t.toList with
  | nil => simp [hchars] at hhead
  | cons d name =>
    rw [hchars, List.head?_cons, Option.some.injEq] at hhead
    subst hhead
    rw [Token.isSymbol, hchars, Text.isIdentifier_cons] at ht
    refine ⟨String.ofList name, String.toList_inj.mp (by simp [hchars, hc]), ?_⟩
    rw [Bool.eq_false_iff]
    intro hstarts
    obtain ⟨rest, hrest⟩ := Token.startsWith_iff.mp hstarts
    have hmem : d ∈ name := by
      rw [String.toList_ofList, hc] at hrest
      simp [← hrest]
    have hname := ht.2.2 d hmem
    rw [Text.isNameChar_of_isSigil ht.1] at hname
    exact absurd hname (by simp)

/-- A global is looked up with its sigil first and then without. -/
theorem global?_eq (m : Metadata) (bare : String) :
    m.global? ("@" ++ bare) = (m.globals.lookup ("@" ++ bare) <|> m.globals.lookup bare) := by
  rw [global?, Token.dropHead?_eq_some_iff.mpr rfl]
  cases m.globals.lookup ("@" ++ bare) <;> rfl

/-- An aggregate type is looked up with its sigil first and then without. -/
theorem hasStruct_eq (m : Metadata) (bare : String) :
    m.hasStruct ("%" ++ bare) =
      (m.structs.lookup ("%" ++ bare) <|> m.structs.lookup bare).isSome := by
  rw [hasStruct, Token.dropHead?_eq_some_iff.mpr rfl]
  cases m.structs.lookup ("%" ++ bare) <;> rfl

/-- A key with its sigil is the bare key with the sigil. -/
theorem withSigil_eq (key : String) : withSigil key = "@" ++ bareKey "@" key := by
  rw [withSigil, bareKey]
  cases hdrop : Token.dropHead? key "@" with
  | some rest =>
    obtain rfl := Token.dropHead?_eq_some_iff.mp hdrop
    have hglobal : Token.isGlobal ("@" ++ rest) = true := Token.startsWith_iff.mpr (by simp)
    simp [hglobal]
  | none =>
    have hglobal : Token.isGlobal key = false := by
      rw [Token.dropHead?] at hdrop
      simpa [Token.isGlobal] using hdrop
    simp [hglobal]

/-- Spelt otherwise, metadata says the same of every function that uses no globals yet. -/
theorem Respelled.agreeFor {m m' : Metadata} (h : m.Respelled m') (hm : m.SinglySpelled)
    {f : Function} (hf : ∀ i ∈ f.instructions, i.usage.globals = []) (placeholder : String) :
    m.AgreeFor m' f placeholder := by
  have hstruct {t : String} (ht : Token.isSymbol t = true) (hl : Token.isLocal t = true) :
      m'.hasStruct t = m.hasStruct t := by
    obtain ⟨bare, rfl, hbare⟩ := exists_eq_append_of_isSymbol "%" rfl ht (Token.isLocal_iff.mp hl)
    rw [hasStruct_eq, hasStruct_eq, hm.structs.lookup_congr h.structs hbare]
  refine { structs := fun t ht hl => ?_, globals := fun c hc => ?_, known := fun c _ => ?_
           used := fun i hi n hn => ?_ }
  · have hsymbol := Function.isSymbol_of_mem_names ht
    exact ⟨hstruct hsymbol hl, hstruct (Token.isSymbol_stripSuffix hsymbol)
      (Token.isLocal_stripSuffix hsymbol hl)⟩
  · obtain ⟨bare, rfl, hbare⟩ := exists_eq_append_of_isSymbol "@" rfl hc.isSymbol
      (Token.isGlobal_iff.mp hc.isGlobal)
    rw [global?_eq, global?_eq, hm.globals.lookup_congr h.globals hbare]
  · have hnames (m : Metadata) : m.globals.map (fun g => withSigil g.1) =
        (bareEntries "@" m.globals).map fun e => "@" ++ e.1 := by
      rw [bareEntries, List.map_map]
      exact List.map_congr_left fun g _ => withSigil_eq g.1
    rw [hnames, hnames]
    exact (h.globals.map _).mem_iff
  · rw [hf i hi] at hn
    exact absurd hn List.not_mem_nil

end Metadata

/-- Keys of metadata work the same with their sigil and without it. -/
theorem processFunction_respell (f : Function) (m m' : Metadata) (frequency : FrequencyTables)
    (config : Config) (hf : ∀ i ∈ f.instructions, i.usage.globals = []) (hm : m.SinglySpelled)
    (h : m.Respelled m') :
    processFunction f m' frequency config = processFunction f m frequency config :=
  processFunction_congr (h.agreeFor hm hf _) frequency

/-- A function that stores a global of an aggregate type in a variable. -/
def storeExample : Function :=
  { name := "f"
    blocks := [⟨"0", [{ id := 1, opcode := .other "alloca", text := "%p = alloca %struct.node.1",
                        definedVar := some "%p" },
                      { id := 2, opcode := .other "store", text := "store i32 @g, ptr %p",
                        operands := ["i32 @g", "ptr %p"] },
                      { id := 3, opcode := .ret, text := "ret void" }]⟩] }

/-- The sigils move from one key to another, and the entries change places. -/
theorem processFunction_respell_storeExample :
    let g : GlobalInfo := { globalType := .int }
    let m : Metadata := ⟨[("@g", g), ("h", {})], [("struct.node", .null)]⟩
    let m' : Metadata := ⟨[("@h", {}), ("g", g)], [("%struct.node", .null)]⟩
    (∀ i ∈ storeExample.instructions, i.usage.globals = []) ∧ m.SinglySpelled ∧ m.Respelled m' ∧
      processFunction storeExample m' {} {} = processFunction storeExample m {} {} := by
  intro g m m'
  have hf : ∀ i ∈ storeExample.instructions, i.usage.globals = [] := by decide +kernel
  have hkeys : Metadata.bareKey "@" "@g" = "g" ∧ Metadata.bareKey "@" "g" = "g" ∧
      Metadata.bareKey "@" "@h" = "h" ∧ Metadata.bareKey "@" "h" = "h" ∧
      Metadata.bareKey "%" "%struct.node" = Metadata.bareKey "%" "struct.node" := by decide +kernel
  have hm : m.SinglySpelled :=
    { globals := ⟨by simp [m]; decide +kernel, by decide +kernel⟩
      structs := ⟨by simp [m]; decide +kernel, by decide +kernel⟩ }
  have h : m.Respelled m' :=
    { globals := by simpa [m, m', Metadata.bareEntries, hkeys] using .swap _ _ _
      structs := by simp [m, m', Metadata.bareEntries, hkeys] }
  exact ⟨hf, hm, h, processFunction_respell storeExample m m' {} {} hf hm h⟩

end InstrGraph
