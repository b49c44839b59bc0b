import InstrGraph.Proofs.Metadata.Process

/-!
# Metadata that a function does not mention

All functions of a unit share one table of metadata. An entry is found under its key and under its
key behind the sigil (`Metadata.spellings`).

* `processFunction_extend`: an entry whose spellings are no names of a function changes nothing of
  what is made of the function, be it a result or an error. A global must not be one that the
  instructions use already either, nor may it have a numbered name, which the function may come to
  have.
* `processFunction_extend_ne_of_bareLabel`: it is not enough that no field has such a name. A bare
  label becomes a name when it is brought into reference form.
-/

namespace InstrGraph

namespace Metadata

/-- The names under which an entry of a table is found: its key, and its key behind the sigil. -/
def spellings (sigil key : String) : List String := [key, sigil ++ key]

section

variable {α : Type} (before after : List (String × α)) (v : α) {key n : String}

/-- One more entry does not matter for the other names. -/
theorem lookup_insert_of_ne (h : n ≠ key) :
    (before ++ (key, v) :: after).lookup n = (before ++ after).lookup n := by
  simp [List.lookup_append, List.lookup_cons, beq_false_of_ne h]

/-- A name that is no spelling of a new entry is found as before, without its sigil as well. -/
theorem lookup_insert_of_not_mem_spellings {sigil : String} (h : n ∉ spellings sigil key) :
    (before ++ (key, v) :: after).lookup n = (before ++ after).lookup n ∧
      ((Token.dropHead? n sigil).bind fun bare => (before ++ (key, v) :: after).lookup bare) =
        (Token.dropHead? n sigil).bind fun bare => (before ++ after).lookup bare := by
  simp only [spellings, List.mem_cons, List.not_mem_nil, or_false, not_or] at h
  refine ⟨lookup_insert_of_ne _ _ _ h.1,
    Option.bind_congr fun bare hbare => lookup_insert_of_ne _ _ _ ?_⟩
  rintro rfl
  exact h.2 (Token.dropHead?_eq_some_iff.mp hbare)

end

end Metadata

/-- The function mentions no global of this key: no spelling is a name of the function, used by an
instruction already, or a numbered name. -/
structure Function.OmitsGlobal (f : Function) (key : String) : Prop where
  names : ∀ n ∈ Metadata.spellings "@" key, n ∉ f.names
  used : ∀ n ∈ Metadata.spellings "@" key, ∀ i ∈ f.instructions, n ∉ i.usage.globals
  numbered : ∀ n ∈ Metadata.spellings "@" key,
    ¬ IsNumbered "@function_" n ∧ ¬ IsNumbered "@global_var_" n

/-- The function mentions no aggregate type of this key: no spelling is a name of the function, with
its numeric suffix or without it. -/
def Function.OmitsStruct (f : Function) (key : String) : Prop :=
  ∀ n ∈ Metadata.spellings "%" key, ∀ t ∈ f.names, n ≠ t ∧ n ≠ Token.stripSuffix t

instance (f : Function) (key : String) : Decidable (f.OmitsStruct key) :=
  inferInstanceAs (Decidable (∀ n ∈ Metadata.spellings "%" key, ∀ t ∈ f.names,
    n ≠ t ∧ n ≠ Token.stripSuffix t))

/-- The second table has one more entry, which the function does not mention. -/
inductive Metadata.Extends (f : Function) : Metadata → Metadata → Prop
  | global (before after : List (String × GlobalInfo)) {structs : List (String × Json)}
      {key : String} {info : GlobalInfo} (h : f.OmitsGlobal key) :
    Extends f ⟨before ++ after, structs⟩ ⟨before ++ (key, info) :: after, structs⟩
  | struct {globals : List (String × GlobalInfo)} (before after : List (String × Json))
      {key : String} {info : Json} (h : f.OmitsStruct key) :
    Extends f ⟨globals, before ++ after⟩ ⟨globals, before ++ (key, info) :: after⟩

namespace Metadata

variable {f : Function} {placeholder key c : String}

/-- A global name in scope is no spelling of a global that the function omits. -/
theorem not_mem_spellings_of_globalInScope (h : f.OmitsGlobal key)
    (hp : ∀ ch ∈ placeholder.toList, Text.isSigil ch = false)
    (hc : f.GlobalInScope placeholder c) : c ∉ spellings "@" key := by
  intro hmem
  rcases hc.origin with hname | hn | hn | hany
  · exact h.names c hmem hname
  · exact (h.numbered c hmem).1 hn
  · exact (h.numbered c hmem).2 hn
  · obtain ⟨ch, hch, hsigil⟩ := List.any_eq_true.mp hany
    rw [hp ch hch] at hsigil
    exact absurd hsigil (by simp)

/-- Metadata says the same of a function when it has one more entry that the function omits. -/
theorem Extends.agreeFor {m m' : Metadata} (h : m.Extends f m')
    (hp : ∀ ch ∈ placeholder.toList, Text.isSigil ch = false) : m.AgreeFor m' f placeholder := by
  cases h with
  | @global before after structs key info h =>
    have hfound (n : String) (hn : n ∉ spellings "@" key) :
        global? ⟨before ++ (key, info) :: after, structs⟩ n =
          global? ⟨before ++ after, structs⟩ n := by
      obtain ⟨hfull, hbare⟩ := lookup_insert_of_not_mem_spellings before after info hn
      rw [global?, global?, hfull, hbare]
    refine { structs := fun _ _ _ => ⟨rfl, rfl⟩
             globals := fun c hc => hfound c (not_mem_spellings_of_globalInScope h hp hc)
             known := fun c hc => ?_
             used := fun i hi n hn => hfound n fun hmem => h.used n hmem i hi hn }
    have hsigil : c ≠ withSigil key := by
      rintro rfl
      refine not_mem_spellings_of_globalInScope h hp hc ?_
      rw [withSigil, spellings]
      split <;> simp
    simp [hsigil]
  | @struct globals before after key info h =>
    have hfound (n : String) (hn : n ∉ spellings "%" key) :
        hasStruct ⟨globals, before ++ (key, info) :: after⟩ n =
          hasStruct ⟨globals, before ++ after⟩ n := by
      obtain ⟨hfull, hbare⟩ := lookup_insert_of_not_mem_spellings before after info hn
      rw [hasStruct, hasStruct, hfull, hbare]
    exact
      { structs := fun t ht _ => ⟨hfound t fun hmem => (h t hmem t ht).1 rfl,
          hfound _ fun hmem => (h _ hmem t ht).2 rfl⟩
        globals := fun _ _ => rfl
        known := fun _ _ => Iff.rfl
        used := fun _ _ _ _ => rfl }

end Metadata

/-- Metadata that a function does not mention has no effect on anything that is made of it: the
canonical form, the symbol tables, the document and the warnings, or the error. -/
theorem processFunction_extend (f : Function) (m m' : Metadata) (frequency : FrequencyTables)
    (config : Config)
    (hp : ∀ ch ∈ config.canonicalize.constantPlaceholder.toList, Text.isSigil ch = false)
    (h : m.Extends f m') :
    processFunction f m' frequency config = processFunction f m frequency config :=
  processFunction_congr (h.agreeFor hp) frequency

/-- A function that returns what it loads from a global. -/
def globalLoadExample : Function :=
  { name := "f"
    blocks := [⟨"0", [{ id := 1, opcode := .other "load", text := "%1 = load i32, ptr @g",
                        operands := ["ptr @g"], definedVar := some "%1" },
                      { id := 2, opcode := .ret, text := "ret i32 %1", operands := ["i32 %1"],
                        returnValue := some "%1" }]⟩] }

/-- Another global does not matter to it. -/
theorem processFunction_extend_globalLoadExample :
    let g : String × GlobalInfo := ("@g", { globalType := .int })
    (∀ ch ∈ ({} : Config).canonicalize.constantPlaceholder.toList, Text.isSigil ch = false) ∧
      Metadata.Extends globalLoadExample ⟨[g], []⟩ ⟨[("h", {}), g], []⟩ ∧
      processFunction globalLoadExample ⟨[("h", {}), g], []⟩ {} {} =
        processFunction globalLoadExample ⟨[g], []⟩ {} {} := by
  intro g
  have hp : ∀ ch ∈ ({} : Config).canonicalize.constantPlaceholder.toList,
      Text.isSigil ch = false := Text.forall_mem_of_all (by decide)
  have hnumbered : ∀ n ∈ Metadata.spellings "@" "h",
      ¬ IsNumbered "@function_" n ∧ ¬ IsNumbered "@global_var_" n := by
    intro n hn
    simp only [Metadata.spellings, List.mem_cons, List.not_mem_nil, or_false] at hn
    rcases hn with rfl | rfl <;> exact ⟨not_isNumbered (by decide), not_isNumbered (by decide)⟩
  have homits : globalLoadExample.OmitsGlobal "h" :=
    ⟨by decide +kernel, by decide +kernel, hnumbered⟩
  have h : Metadata.Extends globalLoadExample ⟨[g], []⟩ ⟨[("h", {}), g], []⟩ :=
    .global [] [g] homits
  exact ⟨hp, h, processFunction_extend globalLoadExample _ _ {} {} hp h⟩

/-- A function whose block has a bare label. -/
def bareLabelExample : Function := { name := "f", blocks := [⟨"foo.1", []⟩] }

/-- No field of it has an identifier, but its label is one in reference form, and that of a type. So
an entry for this type has an effect, although the function has no name of it. -/
theorem processFunction_extend_ne_of_bareLabel :
    ({} : Config).canonicalize.constantPlaceholder = "<const>" ∧
      (∀ n ∈ Metadata.spellings "%" "foo", ∀ t ∈ bareLabelExample.literalNames,
        n ≠ t ∧ n ≠ Token.stripSuffix t) ∧
      processFunction bareLabelExample ⟨[], [("foo", .array [])]⟩ {} {} ≠
        processFunction bareLabelExample ⟨[], []⟩ {} {} := by
  refine ⟨rfl, by decide +kernel, fun heq => ?_⟩
  have hlabels := congrArg
    (fun r => r.toOption.map fun o => o.canonical.function.blocks.map Block.label) heq
  revert hlabels
  decide +kernel

end InstrGraph
