import InstrGraph.Proofs.Json.Scalars

/-!
# The text of a value stands for the value

Both layouts of a JSON text are one (`layoutChars`) with different blanks before items and members
and behind colons. A reader skips blanks, so whatever they are, it finds the value and stops behind
it (`reads`). This is so of every value without doubles whose integers fit into 64 bits
(`Json.isExact`), and so such a value is read back from its text (`read?_text`).
-/

namespace InstrGraph.Json

mutual

/-- The value has no doubles, and its integers fit into 64 bits, with sign or without. -/
def isExact : Json → Bool
  | int n => decide (InRange n)
  | double _ | unreadable => false
  | array items => isExactItems items
  | object members => isExactMembers members
  | null | bool _ | string _ => true

/-- All items of an array are exact. -/
def isExactItems : List Json → Bool
  | [] => true
  | j :: rest => isExact j && isExactItems rest

/-- All members of an object are exact. -/
def isExactMembers : List (String × Json) → Bool
  | [] => true
  | (_, j) :: rest => isExact j && isExactMembers rest

end

/-! ### Layouts -/

/-- The blanks of a layout: before the items and members of a level, and behind a colon. -/
structure Layout where
  newline : Nat → List Char
  gap : List Char

namespace Layout

/-- No blanks at all. -/
def compact : Layout := ⟨fun _ => [], []⟩

/-- Every item and member on a line of its own. -/
def pretty : Layout := ⟨Json.newline, [' ']⟩

/-- The blanks are blanks. -/
structure Blank (L : Layout) : Prop where
  newline : ∀ level, ∀ c ∈ L.newline level, isSpace c = true
  gap : ∀ c ∈ L.gap, isSpace c = true

/-- The compact layout puts nothing between the parts of a value. -/
theorem blank_compact : compact.Blank := ⟨by simp [compact], by simp [compact]⟩

/-- The pretty layout puts only blanks between the parts of a value. -/
theorem blank_pretty : pretty.Blank where
  newline level c hc := by
    rcases List.mem_cons.mp hc with rfl | hc
    · rfl
    · rw [(List.mem_replicate.mp hc).2]
      rfl
  gap c hc := by
    rw [List.mem_singleton.mp hc]
    rfl

end Layout

mutual

/-- The text of a value in a layout. -/
def layoutChars (L : Layout) (level : Nat) : Json → List Char
  | array [] => ['[', ']']
  | array (j :: rest) =>
    '[' :: (L.newline (level + 1) ++ layoutChars L (level + 1) j ++
      layoutItems L (level + 1) rest ++ L.newline level ++ [']'])
  | object [] => ['\x7b', '\x7d']
  | object ((name, j) :: rest) =>
    '\x7b' :: (L.newline (level + 1) ++ quote name ++ ':' :: (L.gap ++
      layoutChars L (level + 1) j ++ layoutMembers L (level + 1) rest ++ L.newline level ++
        ['\x7d']))
  | j => scalarText j

/-- Further items of an array. -/
def layoutItems (L : Layout) (level : Nat) : List Json → List Char
  | [] => []
  | j :: rest =>
    ',' :: (L.newline level ++ layoutChars L level j ++ layoutItems L level rest)

/-- Further members of an object. -/
def layoutMembers (L : Layout) (level : Nat) : List (String × Json) → List Char
  | [] => []
  | (name, j) :: rest =>
    ',' :: (L.newline level ++ quote name ++ ':' :: (L.gap ++ layoutChars L level j ++
      layoutMembers L level rest))

end

mutual

/-- The pretty text of a value is its text in the pretty layout. -/
theorem layoutChars_pretty (level : Nat) :
    ∀ j : Json, layoutChars .pretty level j = prettyChars level j
  | array [] => by simp [layoutChars, prettyChars]
  | array (j :: rest) => by
    rw [layoutChars, prettyChars, layoutChars_pretty (level + 1) j,
      layoutItems_pretty (level + 1) rest]
    rfl
  | object [] => by simp [layoutChars, prettyChars]
  | object ((name, j) :: rest) => by
    rw [layoutChars, prettyChars, layoutChars_pretty (level + 1) j,
      layoutMembers_pretty (level + 1) rest]
    simp [Layout.pretty]
  | null | bool _ | int _ | double _ | string _ | unreadable => by simp [layoutChars, prettyChars]

/-- The pretty text of items is their text in the pretty layout. -/
theorem layoutItems_pretty (level : Nat) :
    ∀ js : List Json, layoutItems .pretty level js = prettyItems level js
  | [] => rfl
  | j :: rest => by
    rw [layoutItems, prettyItems, layoutChars_pretty level j, layoutItems_pretty level rest]
    rfl

/-- The pretty text of members is their text in the pretty layout. -/
theorem layoutMembers_pretty (level : Nat) :
    ∀ ms : List (String × Json), layoutMembers .pretty level ms = prettyMembers level ms
  | [] => rfl
  | (name, j) :: rest => by
    rw [layoutMembers, prettyMembers, layoutChars_pretty level j, layoutMembers_pretty level rest]
    simp [Layout.pretty]

end

mutual

/-- The compact text of a value is its text in the compact layout. -/
theorem layoutChars_compact (level : Nat) :
    ∀ j : Json, layoutChars .compact level j = compactChars j
  | array [] => by simp [layoutChars, compactChars, compactItems]
  | array (j :: rest) => by
    rw [layoutChars, compactChars, layoutChars_compact (level + 1) j,
      layoutItems_compact (level + 1) j rest]
    simp [Layout.compact]
  | object [] => by simp [layoutChars, compactChars, compactMembers]
  | object ((name, j) :: rest) => by
    rw [layoutChars, compactChars, layoutChars_compact (level + 1) j,
      layoutMembers_compact (level + 1) name j rest]
    simp [Layout.compact]
  | null | bool _ | int _ | double _ | string _ | unreadable => by simp [layoutChars, compactChars]

/-- The compact text of items is the first one and then the others in the compact layout. -/
theorem layoutItems_compact (level : Nat) (j : Json) :
    ∀ js : List Json, compactItems (j :: js) = compactChars j ++ layoutItems .compact level js
  | [] => by simp [compactItems, layoutItems]
  | j' :: rest => by
    rw [compactItems, layoutItems, layoutChars_compact level j',
      layoutItems_compact level j' rest]
    · simp [Layout.compact]
    · simp

/-- The compact text of members is the first one and then the others in the compact layout. -/
theorem layoutMembers_compact (level : Nat) (name : String) (j : Json) :
    ∀ ms : List (String × Json), compactMembers ((name, j) :: ms) =
      quote name ++ ':' :: (compactChars j ++ layoutMembers .compact level ms)
  | [] => by simp [compactMembers, layoutMembers]
  | (name', j') :: rest => by
    rw [compactMembers, layoutMembers, layoutChars_compact level j',
      layoutMembers_compact level name' j' rest]
    · simp [Layout.compact]
    · simp

end

/-! ### Reading a layout -/

section

variable {L : Layout}

/-- Blanks in front of a text are skipped. -/
theorem skipSpace_append {pad : List Char} (hpad : ∀ c ∈ pad, isSpace c = true) (cs : List Char) :
    skipSpace (pad ++ cs) = skipSpace cs := List.dropWhile_append_of_pos hpad

/-- Nothing is skipped in front of anything else. -/
theorem skipSpace_cons {c : Char} (h : isSpace c = false) (cs : List Char) :
    skipSpace (c :: cs) = c :: cs := List.dropWhile_cons_of_neg (by simp [h])

/-- A value is read behind any blanks, wherever its text does not go on like a number. -/
def Reads (L : Layout) (j : Json) : Prop :=
  ∀ (level fuel : Nat) (pad rest : List Char), (∀ c ∈ pad, isSpace c = true) → Ends rest →
    (layoutChars L level j).length ≤ fuel →
      readValue fuel (pad ++ (layoutChars L level j ++ rest)) = some (j, rest)

/-- A value ends in front of a comma, a closing bracket or a blank. -/
theorem ends_cons {c : Char} (h : c = ',' ∨ c = ']' ∨ c = '\x7d' ∨ isSpace c = true)
    (cs : List Char) : Ends (c :: cs) := by
  intro d hd
  obtain rfl : c = d := by simpa using hd
  rcases h with rfl | rfl | rfl | h
  · decide
  · decide
  · decide
  · simp only [isSpace, Bool.or_eq_true, beq_iff_eq] at h
    rcases h with ((rfl | rfl) | rfl) | rfl <;> decide

/-- A value ends in front of blanks if it ends behind them. -/
theorem ends_append {pad : List Char} (hpad : ∀ c ∈ pad, isSpace c = true) {cs : List Char}
    (h : Ends cs) : Ends (pad ++ cs) := by
  cases pad with
  | nil => exact h
  | cons c pad => exact ends_cons (Or.inr (Or.inr (Or.inr (hpad c List.mem_cons_self)))) _

/-- A text in quotation marks with something behind it. -/
theorem quote_append (s : String) (rest : List Char) :
    quote s ++ rest = '"' :: (s.toList.flatMap escapeChar ++ '"' :: rest) := by simp [quote]

/-- Behind an item come further items or the end of the array. -/
theorem ends_layoutItems (hL : L.Blank) (level close : Nat) (js : List Json) (rest : List Char) :
    Ends (layoutItems L level js ++ (L.newline close ++ ']' :: rest)) := by
  cases js with
  | nil => exact ends_append (hL.newline close) (ends_cons (by simp) _)
  | cons j js => exact ends_cons (by simp) _

/-- A value ends in front of the members that follow and the bracket that closes them. -/
theorem ends_layoutMembers (hL : L.Blank) (level close : Nat) (ms : List (String × Json))
    (rest : List Char) :
    Ends (layoutMembers L level ms ++ (L.newline close ++ '\x7d' :: rest)) := by
  cases ms with
  | nil => exact ends_append (hL.newline close) (ends_cons (by simp) _)
  | cons m ms => exact ends_cons (by simp) _

/-- Items are read up to the end of their array. -/
theorem readItems_layout (hL : L.Blank) (level close : Nat) (rest : List Char) (j : Json)
    (js : List Json) (hj : Reads L j) (hjs : ∀ j ∈ js, Reads L j) {fuel : Nat}
    (hfuel : (layoutChars L level j ++ layoutItems L level js).length < fuel) :
    readItems fuel (L.newline level ++ (layoutChars L level j ++
      (layoutItems L level js ++ (L.newline close ++ ']' :: rest)))) = some (j :: js, rest) := by
  induction js generalizing j fuel with
  | nil =>
    obtain ⟨fuel, rfl⟩ := Nat.exists_eq_add_one_of_ne_zero (Nat.ne_zero_of_lt hfuel)
    simp only [layoutItems, List.append_nil] at hfuel
    rw [readItems, hj level fuel _ _ (hL.newline level) (ends_layoutItems hL level close [] rest)
      (Nat.le_of_lt_succ hfuel)]
    simp only [layoutItems, List.nil_append]
    rw [skipSpace_append (hL.newline close), skipSpace_cons (by decide)]
    rfl
  | cons j' js ih =>
    obtain ⟨fuel, rfl⟩ := Nat.exists_eq_add_one_of_ne_zero (Nat.ne_zero_of_lt hfuel)
    simp only [layoutItems, List.length_append, List.length_cons] at hfuel
    have hrest := ih j' (hjs j' List.mem_cons_self) (fun k hk => hjs k (List.mem_cons_of_mem _ hk))
      (show (layoutChars L level j' ++ layoutItems L level js).length < fuel by
        rw [List.length_append]
        omega)
    rw [readItems, hj level fuel _ _ (hL.newline level)
      (ends_layoutItems hL level close (j' :: js) rest) (by omega)]
    simp only [layoutItems, List.cons_append, List.append_assoc]
    rw [skipSpace_cons (by decide)]
    simp only [hrest, Option.map_some]

/-- Members are read up to the end of their object. -/
theorem readMembers_layout (hL : L.Blank) (level close : Nat) (rest : List Char) (name : String)
    (j : Json) (ms : List (String × Json)) (hj : Reads L j) (hms : ∀ m ∈ ms, Reads L m.2)
    {fuel : Nat} (hfuel : (layoutChars L level j ++ layoutMembers L level ms).length < fuel) :
    readMembers fuel (L.newline level ++ (quote name ++ ':' :: (L.gap ++ (layoutChars L level j ++
      (layoutMembers L level ms ++ (L.newline close ++ '\x7d' :: rest)))))) =
        some (((name, j) :: ms).map fun m => (some m.1, m.2), rest) := by
  induction ms generalizing name j fuel with
  | nil =>
    obtain ⟨fuel, rfl⟩ := Nat.exists_eq_add_one_of_ne_zero (Nat.ne_zero_of_lt hfuel)
    simp only [layoutMembers, List.append_nil] at hfuel
    rw [readMembers, skipSpace_append (hL.newline level), quote_append, skipSpace_cons (by decide)]
    simp only [readChars_escaped]
    rw [skipSpace_cons (by decide)]
    simp only [hj level fuel _ _ hL.gap (ends_layoutMembers hL level close [] rest)
      (Nat.le_of_lt_succ hfuel)]
    simp only [layoutMembers, List.nil_append]
    rw [skipSpace_append (hL.newline close), skipSpace_cons (by decide)]
    simp
  | cons m ms ih =>
    obtain ⟨name', j'⟩ := m
    obtain ⟨fuel, rfl⟩ := Nat.exists_eq_add_one_of_ne_zero (Nat.ne_zero_of_lt hfuel)
    simp only [layoutMembers, List.length_append, List.length_cons] at hfuel
    have hrest := ih name' j' (hms (name', j') List.mem_cons_self)
      (fun k hk => hms k (List.mem_cons_of_mem _ hk))
      (show (layoutChars L level j' ++ layoutMembers L level ms).length < fuel by
        rw [List.length_append]
        omega)
    rw [readMembers, skipSpace_append (hL.newline level), quote_append, skipSpace_cons (by decide)]
    simp only [readChars_escaped]
    rw [skipSpace_cons (by decide)]
    simp only [hj level fuel _ _ hL.gap (ends_layoutMembers hL level close ((name', j') :: ms) rest)
      (by omega)]
    simp only [layoutMembers, List.cons_append, List.append_assoc]
    rw [skipSpace_cons (by decide)]
    simp only [hrest]
    simp

/-- Members that all have names are an object. -/
theorem objectOf_some (ms : List (String × Json)) :
    objectOf (ms.map fun m => (some m.1, m.2)) = object ms := by
  have hmembers (f : Option String × Json → Option (String × Json))
      (hf : ∀ m : String × Json, f (some m.1, m.2) = some m) :
      (ms.map fun m => (some m.1, m.2)).mapM f = some ms := by
    induction ms with
    | nil => rfl
    | cons m ms ih => simp [List.mapM_cons, hf, ih]
  rw [objectOf, hmembers _ fun _ => rfl]

/-- The first character of an integer is a digit or the sign. -/
theorem exists_toString_eq_cons (n : Int) :
    ∃ c cs, (toString n).toList = c :: cs ∧ (isDigit c = true ∨ c = '-') := by
  cases n with
  | ofNat k =>
    rw [Int.ofNat_eq_natCast, Text.toList_toString_ofNat]
    cases hds : Nat.toDigits 10 k with
    | nil => exact absurd hds Nat.toDigits_ne_nil
    | cons d ds => exact ⟨d, ds, rfl, Or.inl (isDigit_of_mem_toDigits (hds ▸ List.mem_cons_self))⟩
  | negSucc k => exact ⟨'-', _, Text.toList_toString_negSucc k, Or.inr rfl⟩

/-- Digits and minus signs are no blanks. -/
theorem isSpace_of_isDigit {c : Char} (h : isDigit c = true ∨ c = '-') : isSpace c = false := by
  rw [Bool.eq_false_iff]
  intro hspace
  simp only [isSpace, Bool.or_eq_true, beq_iff_eq] at hspace
  rcases hspace with ((rfl | rfl) | rfl) | rfl <;> exact absurd h (by decide)

/-- A value that is neither an array nor an object has the same text in every layout. -/
theorem layoutChars_of_scalar {level : Nat} {j : Json} (ha : ∀ items, j ≠ array items)
    (ho : ∀ members, j ≠ object members) : layoutChars L level j = scalarText j := by
  cases j with
  | array items => exact absurd rfl (ha items)
  | object members => exact absurd rfl (ho members)
  | null | bool _ | int _ | double _ | string _ | unreadable => simp [layoutChars]

/-- The text of a value begins with no blank and closes nothing. -/
theorem exists_layoutChars_eq_cons (L : Layout) (level : Nat) {j : Json} (hj : isExact j = true) :
    ∃ c cs, layoutChars L level j = c :: cs ∧ isSpace c = false ∧ c ≠ ']' := by
  cases j with
  | null => exact ⟨_, _, layoutChars_of_scalar (by simp) (by simp), by decide, by decide⟩
  | bool b =>
    rw [layoutChars_of_scalar (by simp) (by simp)]
    cases b with
    | true => exact ⟨_, _, rfl, by decide, by decide⟩
    | false => exact ⟨_, _, rfl, by decide, by decide⟩
  | int n =>
    obtain ⟨c, cs, hchars, hc⟩ := exists_toString_eq_cons n
    rw [layoutChars_of_scalar (by simp) (by simp)]
    refine ⟨c, cs, hchars, isSpace_of_isDigit hc, ?_⟩
    rintro rfl
    exact absurd hc (by decide)
  | string s => exact ⟨_, _, layoutChars_of_scalar (by simp) (by simp), by decide, by decide⟩
  | array items =>
    cases items with
    | nil => exact ⟨'[', _, by rw [layoutChars], by decide, by decide⟩
    | cons j js => exact ⟨'[', _, by rw [layoutChars], by decide, by decide⟩
  | object members =>
    cases members with
    | nil => exact ⟨'\x7b', _, by rw [layoutChars], by decide, by decide⟩
    | cons m ms => exact ⟨'\x7b', _, by rw [layoutChars], by decide, by decide⟩
  | double bits => simp [isExact] at hj
  | unreadable => simp [isExact] at hj

/-- A scalar is read if it is read without blanks before it. -/
theorem reads_scalar {j : Json} (ha : ∀ items, j ≠ array items)
    (ho : ∀ members, j ≠ object members) (hj : isExact j = true)
    (h : ∀ fuel rest, Ends rest → readValue (fuel + 1) (scalarText j ++ rest) = some (j, rest)) :
    Reads L j := by
  intro level fuel pad rest hpad hr hfuel
  obtain ⟨c, cs, hchars, hspace, -⟩ := exists_layoutChars_eq_cons L level hj
  obtain ⟨fuel, rfl⟩ : ∃ k, fuel = k + 1 := by
    refine Nat.exists_eq_add_one_of_ne_zero ?_
    rw [hchars] at hfuel
    simp at hfuel
    omega
  have hread := h fuel rest hr
  rw [← @layoutChars_of_scalar L level j ha ho, hchars] at hread
  rw [hchars, readValue, skipSpace_append hpad]
  rwa [readValue] at hread

/-- An integer is read back from its text if it is in range. -/
theorem reads_int {n : Int} (hn : InRange n) : Reads L (int n) := by
  refine reads_scalar (by simp) (by simp) (by simpa [isExact] using hn) fun fuel rest hr => ?_
  obtain ⟨c, cs, hchars, hc⟩ := exists_toString_eq_cons n
  have hnumeral := readNumeral_int hn hr
  rw [scalarText, hchars] at *
  rw [List.cons_append] at *
  rw [readValue, skipSpace_cons (isSpace_of_isDigit hc)]
  have hne : c ≠ '"' ∧ c ≠ '[' ∧ c ≠ '\x7b' ∧ c ≠ 'n' ∧ c ≠ 't' ∧ c ≠ 'f' := by
    refine ⟨?_, ?_, ?_, ?_, ?_, ?_⟩ <;> (rintro rfl; exact absurd hc (by decide))
  split <;> simp_all

/-- A text is read back from its quoted text. -/
theorem reads_string (s : String) : Reads L (string s) := by
  refine reads_scalar (by simp) (by simp) rfl fun fuel rest _ => ?_
  rw [scalarText, quote_append, readValue, skipSpace_cons (by decide)]
  simp only [readChars_escaped, Option.map_some, stringOf, String.ofList_toList]

/-- An array is read back if its items are. -/
theorem reads_array (hL : L.Blank) {items : List Json} (hexact : isExactItems items = true)
    (h : ∀ j ∈ items, Reads L j) : Reads L (array items) := by
  intro level fuel pad rest hpad _ hfuel
  cases items with
  | nil =>
    simp only [layoutChars, List.length_cons, List.length_nil] at hfuel
    obtain ⟨fuel, rfl⟩ : ∃ k, fuel = k + 1 := ⟨fuel - 1, by omega⟩
    rw [layoutChars, readValue, skipSpace_append hpad]
    simp only [List.cons_append, List.nil_append]
    rw [skipSpace_cons (by decide)]
    simp only
    rw [skipSpace_cons (by decide)]
    rfl
  | cons j js =>
    simp only [isExactItems, Bool.and_eq_true] at hexact
    obtain ⟨c, cs, hchars, hspace, hclose⟩ := exists_layoutChars_eq_cons L (level + 1) hexact.1
    simp only [layoutChars, List.length_cons, List.length_append] at hfuel
    obtain ⟨fuel, rfl⟩ : ∃ k, fuel = k + 1 := ⟨fuel - 1, by omega⟩
    have hitems := readItems_layout hL (level + 1) level rest j js (h j List.mem_cons_self)
      (fun k hk => h k (List.mem_cons_of_mem _ hk))
      (show (layoutChars L (level + 1) j ++ layoutItems L (level + 1) js).length < fuel by
        rw [List.length_append]
        simp at hfuel
        omega)
    rw [layoutChars, readValue, skipSpace_append hpad]
    simp only [List.cons_append, List.append_assoc, List.nil_append]
    rw [skipSpace_cons (by decide)]
    simp only
    rw [hitems, skipSpace_append (hL.newline _), hchars, List.cons_append, skipSpace_cons hspace]
    split
    · simp_all
    · simp

/-- An object is read back if the values of its members are. -/
theorem reads_object (hL : L.Blank) {members : List (String × Json)}
    (h : ∀ m ∈ members, Reads L m.2) : Reads L (object members) := by
  intro level fuel pad rest hpad _ hfuel
  cases members with
  | nil =>
    simp only [layoutChars, List.length_cons, List.length_nil] at hfuel
    obtain ⟨fuel, rfl⟩ : ∃ k, fuel = k + 1 := ⟨fuel - 1, by omega⟩
    rw [layoutChars, readValue, skipSpace_append hpad]
    simp only [List.cons_append, List.nil_append]
    rw [skipSpace_cons (by decide)]
    simp only
    rw [skipSpace_cons (by decide)]
    rfl
  | cons m ms =>
    obtain ⟨name, j⟩ := m
    simp only [layoutChars, List.length_cons, List.length_append] at hfuel
    obtain ⟨fuel, rfl⟩ : ∃ k, fuel = k + 1 := ⟨fuel - 1, by omega⟩
    have hmembers := readMembers_layout hL (level + 1) level rest name j ms
      (h (name, j) List.mem_cons_self) (fun k hk => h k (List.mem_cons_of_mem _ hk))
      (show (layoutChars L (level + 1) j ++ layoutMembers L (level + 1) ms).length < fuel by
        rw [List.length_append]
        simp at hfuel
        omega)
    rw [layoutChars, readValue, skipSpace_append hpad]
    simp only [List.cons_append, List.append_assoc, List.nil_append]
    rw [skipSpace_cons (by decide)]
    simp only
    rw [hmembers, skipSpace_append (hL.newline _), quote_append, skipSpace_cons (by decide)]
    simp only [Option.map_some, objectOf_some]
    rfl

end

mutual

/-- Every exact value is read from its text. -/
theorem reads {L : Layout} (hL : L.Blank) : ∀ j : Json, isExact j = true → Reads L j
  | null, _ => reads_scalar (by simp) (by simp) rfl fun fuel rest _ => by
    rw [scalarText, readValue]
    · simp [skipSpace_cons, isSpace, dropWord?]
    all_goals simp
  | bool b, _ => reads_scalar (by simp) (by simp) rfl fun fuel rest _ => by
    cases b <;> simp [scalarText, readValue, skipSpace_cons, isSpace, dropWord?]
  | int n, h => reads_int (by simpa [isExact] using h)
  | string s, _ => reads_string s
  | array items, h => reads_array hL h (readsItems hL items h)
  | object members, h => reads_object hL (readsMembers hL members h)
  | double _, h | unreadable, h => by simp [isExact] at h

/-- All items without doubles are read back. -/
theorem readsItems {L : Layout} (hL : L.Blank) :
    ∀ items : List Json, isExactItems items = true → ∀ j ∈ items, Reads L j
  | [], _ => by simp
  | j :: rest, h => by
    rw [isExactItems, Bool.and_eq_true] at h
    exact List.forall_mem_cons.mpr ⟨reads hL j h.1, readsItems hL rest h.2⟩

/-- All members without doubles are read back. -/
theorem readsMembers {L : Layout} (hL : L.Blank) :
    ∀ members : List (String × Json), isExactMembers members = true → ∀ m ∈ members, Reads L m.2
  | [], _ => by simp
  | (_, j) :: rest, h => by
    rw [isExactMembers, Bool.and_eq_true] at h
    exact List.forall_mem_cons.mpr ⟨reads hL j h.1, readsMembers hL rest h.2⟩

end

/-- A value without doubles is read back from its text in every layout. -/
theorem readChars?_layoutChars {L : Layout} (hL : L.Blank) {j : Json} (hj : isExact j = true) :
    readChars? (layoutChars L 0 j) = some j := by
  have hread := reads hL j hj 0 ((layoutChars L 0 j).length + 1) [] [] (by simp) (by simp [Ends])
    (Nat.le_succ _)
  rw [List.nil_append, List.append_nil] at hread
  rw [readChars?, hread]
  rfl

/-- A value without doubles whose integers fit into 64 bits is read back from its text, compact or
pretty. -/
theorem read?_text (isPretty : Bool) {j : Json} (hj : isExact j = true) :
    read? (text isPretty j) = some j := by
  rw [read?, text]
  split
  · rw [pretty, String.toList_ofList, ← layoutChars_pretty]
    exact readChars?_layoutChars Layout.blank_pretty hj
  · rw [compact, String.toList_ofList, ← layoutChars_compact 0]
    exact readChars?_layoutChars Layout.blank_compact hj

end InstrGraph.Json
