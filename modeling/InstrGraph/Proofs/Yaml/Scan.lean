import InstrGraph.Proofs.Yaml.Printable
import InstrGraph.Proofs.Yaml.Scanner

/-!
# The tokens of a written record

Every field of a record is scanned as a key, its name, the sign of a value, and the tokens of its
value, up to the beginning of the next line (`Scans`). The scanner does not look at what stands
there, as long as it is not further right than the field.
-/

namespace InstrGraph.Yaml

/-! ### Tokens -/

/-- How a text is written. -/
def textStyle (s : String) : Style :=
  if s.toList.contains '\n' then if canBeBlock s.toList then .literal else .doubleQuoted
  else if !looksOther s && canBePlain s.toList then .plain
  else if canBeQuoted s.toList then .singleQuoted
  else .doubleQuoted

/-- A text that looks like something else is not written plainly. -/
theorem looksOther_of_plain {s : String} (h : textStyle s = .plain) : looksOther s = false := by
  rw [textStyle] at h
  split_ifs at h with _ _ hplain
  rw [Bool.and_eq_true, Bool.not_eq_true'] at hplain
  exact hplain.1

/-- The tokens of the items of a list. -/
def itemTokens (words : List String) : List Token :=
  words.flatMap fun w => [.blockEntry, .scalar .plain w.toList]

mutual

/-- The tokens of a value. -/
def valueTokens : Value → List Token
  | .word w => [.scalar .plain w.toList]
  | .text s => [.scalar (textStyle s) s.toList]
  | .words [] => [.flowSequenceStart, .flowSequenceEnd]
  | .words (w :: ws) => itemTokens (w :: ws)
  | .record [] => [.flowMappingStart, .flowMappingEnd]
  | .record (f :: fs) => .blockMappingStart :: (fieldsTokens (f :: fs) ++ [.blockEnd])

/-- The tokens of fields. -/
def fieldsTokens : List (String × Value) → List Token
  | [] => []
  | (name, v) :: rest =>
    .key :: .scalar .plain name.toList :: .value :: (valueTokens v ++ fieldsTokens rest)

end

namespace Scanner

variable {cs tail rest : List Char} {i l k n count : Nat} {tokens ts : List Token} {indent : Int}
  {outer : List Int} {allowed crosses : Bool} {s s' : Scanner} {place place' : Cursor}
  {text : List Char}

/-! ### Keys -/

/-- The block that a field in a column stands in: the innermost one, or one that begins with it. -/
inductive Opens (n : Nat) (tokens : List Token) (outer : List Int) :
    Int → List Token → List Int → Prop
  | within : Opens n tokens outer n tokens outer
  | begins {indent : Int} (h : indent < n) :
    Opens n tokens outer indent (.blockMappingStart :: tokens) (indent :: outer)

/-- A plain scalar where a key can be is kept as a possible key. -/
theorem plain?_possibleKey (hread : readPlain false (indent + 1).toNat place =
      some (text, crosses, place')) :
    (inBlock place tokens count indent outer true).plain? =
      some { inBlock place' (.scalar .plain text :: tokens) (count + 1) indent outer crosses with
        simpleKey := some ⟨count, place, indent == place.column⟩ } := by
  simp [plain?, saveKey?, dropKey?, inBlock, inFlow, push, hread]

/-- A plain scalar where no key can be is a value. -/
theorem plain?_value (hread : readPlain false (indent + 1).toNat place =
      some (text, crosses, place')) :
    (inBlock place tokens count indent outer false).plain? =
      some (inBlock place' (.scalar .plain text :: tokens) (count + 1) indent outer crosses) := by
  simp [plain?, saveKey?, inBlock, inFlow, push, hread]

/-- A colon in front of a gap stands for a value. -/
theorem token?_colon (hrest : s.cursor.rest = ':' :: rest) (hgap : atGap rest = true)
    (hmarker : s.cursor.atMarker = false) (hflow : s.inFlow = false) : s.token? = s.value? := by
  rw [token?, hrest]
  simp [hmarker, hflow, hgap]

/-- A minus sign in front of a gap stands for an item of a list. -/
theorem token?_minus (hrest : s.cursor.rest = '-' :: rest) (hgap : atGap rest = true)
    (hmarker : s.cursor.atMarker = false) : s.token? = s.blockEntry? := by
  rw [token?, hrest]
  simp [hmarker, hgap]

/-- The possible key in front of a colon is one. -/
theorem value?_key {required : Bool} {tokens' : List Token} {outer' : List Int}
    (hblock : Opens n tokens outer indent tokens' outer') (hcolumn : place.column = n) :
    ∃ count', ({ inBlock ⟨':' :: tail, i, l, k⟩ (.scalar .plain text :: tokens) (count + 1) indent
          outer false with simpleKey := some ⟨count, place, required⟩ } : Scanner).value? =
      some (inBlock ⟨tail, i + 1, l, k + 1⟩ (.value :: .scalar .plain text :: .key :: tokens')
        count' n outer' false) := by
  cases hblock with
  | within =>
    refine ⟨count + 3, ?_⟩
    simp [value?, insertAt, beginBlock, inFlow, inBlock, push, past, hcolumn, Cursor.past]
  | begins h =>
    refine ⟨count + 4, ?_⟩
    simp [value?, insertAt, beginBlock, inFlow, inBlock, push, past, hcolumn, Cursor.past, h,
      Nat.add_assoc]

/-- A key at the beginning of a line, with the colon behind it. -/
theorem Yields.of_key {name : List Char} {tokens' : List Token} {outer' : List Int}
    (hs : s.AtLine (name ++ ':' :: tail) n tokens indent outer) (hword : IsWord name)
    (hshort : name.length ≤ 1024) (hgap : atGap tail = true)
    (hblock : Opens n tokens outer indent tokens' outer')
    (h : ∀ i l k count, n < k → (inBlock ⟨tail, i, l, k⟩
      (.value :: .scalar .plain name :: .key :: tokens') count n outer' false).Yields ts) :
    s.Yields ts := by
  obtain ⟨c, more, hname⟩ := List.exists_cons_of_ne_nil hword.ne_nil
  have hle : indent ≤ n := by
    cases hblock with
    | within => exact Int.le_refl _
    | begins hlt => exact Int.le_of_lt hlt
  have hpos := List.length_pos_iff.mpr hword.ne_nil
  refine .of_line hs (by simp) hle fun i l count => ?_
  have hplain := @token?_plain (more ++ ':' :: tail)
    (inBlock ⟨name ++ ':' :: tail, i, l, n⟩ tokens count indent outer true) c
    (by rw [hname]; rfl) (hword.not_atMarker tail) rfl
    (isLeadingSign_append (hword.isPlain.noLead c more hname) _)
    (hword.isPlain.head c (by rw [hname]; rfl))
  rw [plain?_possibleKey (readPlain_name hword hgap _)] at hplain
  refine ⟨_, hplain, by simp [inBlock, hpos], ?_⟩
  -- The scanner stands at the colon now.
  obtain ⟨count', hvalue⟩ := @value?_key tail (i + name.length) l (n + name.length) n count tokens
    indent outer ⟨name ++ ':' :: tail, i, l, n⟩ name (indent == n) tokens' outer' hblock rfl
  have hcolumn : 0 < n + name.length := by omega
  refine .of_token (fun fuel hfuel => ?_) ?_ ((token?_colon rfl hgap
    (Cursor.atMarker_of_column hcolumn) rfl).trans hvalue) ?_
    (h _ _ _ count' (by omega))
  · have hstart : StartsToken (':' :: tail) := by
      rintro _ ⟨⟩
      decide
    have hright : indent ≤ ((n + name.length : Nat) : Int) := by omega
    rw [skipToToken_spaces (n := 0) hstart rfl (Nat.zero_lt_of_lt hfuel),
      dropStaleKeys?_of_fresh rfl rfl]
    · exact congrArg some (endBlocks_eq_self hright)
    · simp [SimpleKey.isStale, hshort]
  · simp [inBlock]
  · simp [inBlock]

/-! ### Values -/

/-- Behind the colon of a field in a column, the scanner finds these tokens in a text, and goes on
at the beginning of the next line. -/
def Scans (indent : Nat) (text : List Char) (found : List Token) : Prop :=
  ∀ ⦃tail rest : List Char⦄ ⦃n : Nat⦄, IsLine tail n rest → n ≤ indent →
    ∀ ⦃i l k count : Nat⦄ ⦃tokens ts : List Token⦄ ⦃outer : List Int⦄, indent < k →
      (∀ s : Scanner, s.AtLine rest n (found.reverse ++ tokens) indent outer → s.Yields ts) →
        (inBlock ⟨text ++ tail, i, l, k⟩ tokens count indent outer false).Yields ts

/-- What can be written plain can begin a token. -/
theorem startsToken_of_isPlain (h : IsPlain cs) (tail : List Char) : StartsToken (cs ++ tail) := by
  obtain ⟨c, more, rfl⟩ := List.exists_cons_of_ne_nil h.ne_nil
  rintro _ ⟨⟩
  have hnumber : c ≠ '#' := by simpa using (noSign_cons h.noSign).2.1
  exact ⟨h.head c rfl, h.noBreak c (by simp), hnumber, fun hmark => h.noMark (by rw [hmark]; rfl)⟩

/-- What can be written plain is scanned as a plain scalar. -/
theorem token?_of_isPlain (h : IsPlain cs) (hk : 0 < k) (tail : List Char) :
    (inBlock ⟨cs ++ tail, i, l, k⟩ tokens count indent outer allowed).token? =
      (inBlock ⟨cs ++ tail, i, l, k⟩ tokens count indent outer allowed).plain? := by
  obtain ⟨c, more, hcs⟩ := List.exists_cons_of_ne_nil h.ne_nil
  exact @token?_plain (more ++ tail) _ c (by rw [hcs]; rfl) (Cursor.atMarker_of_column hk) rfl
    (isLeadingSign_append (h.noLead c more hcs) _) (h.head c (by rw [hcs]; rfl))

/-- A plain scalar on the line of its field is found in it. -/
theorem scans_plain {column : Nat} (h : IsPlain cs) :
    Scans column (' ' :: (cs ++ ['\n'])) [.scalar .plain cs] := by
  intro tail rest n hline hn i l k count tokens ts outer hk hnext
  have hread := @readPlain_line cs tail rest (i + 1) l (k + 1) n ((column : Int) + 1).toNat hline
    (by omega) h.toGoesOn (by omega)
  have htoken : (inBlock ⟨cs ++ '\n' :: tail, i + 1, l, k + 1⟩ tokens count column outer
      false).token? = some _ :=
    (token?_of_isPlain h (Nat.succ_pos k) _).trans (plain?_value hread)
  refine .of_spaces (n := 1) (startsToken_of_isPlain h _) (by simp) (by omega)
    (by rw [List.cons_append, List.append_assoc]; rfl) htoken ?_ (hnext _ (.of_line hline ?_ rfl))
  · have := List.length_pos_iff.mpr h.ne_nil
    rw [hline.eq]
    simp only [inBlock, List.length_append, List.length_cons]
    omega
  · simp

/-- The style of a kind of quoted scalars. -/
def quotedStyle (double : Bool) : Style := if double then .doubleQuoted else .singleQuoted

/-- A quotation mark begins a quoted scalar. -/
theorem token?_quote {double : Bool} (hmarker : place.atMarker = false)
    (hrest : place.rest = quoteSign double :: rest) :
    (inBlock place tokens count indent outer allowed).token? =
      (inBlock place tokens count indent outer allowed).quoted? (quotedStyle double) := by
  rw [token?]
  cases double <;> simp [inBlock, hrest, hmarker, inFlow, quoteSign, quotedStyle]

/-- A quoted scalar where no key can be is a value. -/
theorem quoted?_value {double : Bool} (hread : readQuoted double place.rest.length (place.past 1) =
      some (text, place')) :
    (inBlock place tokens count indent outer false).quoted? (quotedStyle double) =
      some (inBlock place' (.scalar (quotedStyle double) text :: tokens) (count + 1) indent outer
        false) := by
  have hstyle : (quotedStyle double == .doubleQuoted) = double := by cases double <;> rfl
  rw [← hstyle] at hread
  simp only [quoted?, node?, saveKey?, inBlock, push, Bool.false_eq_true, if_false,
    Option.bind_some, hread, Option.map_some]

/-- A text between quotes, if it is read back behind the opening one. -/
theorem scans_quoted {double : Bool} {column : Nat} {inner : List Char}
    (h : ∀ (tail : List Char) (i l k : Nat), tail.head? ≠ some '\'' → 0 < k →
      ReadsQuoted double (inner ++ quoteSign double :: tail).length.succ
        ⟨inner ++ quoteSign double :: tail, i, l, k⟩ cs tail) :
    Scans column (' ' :: (quoteSign double :: (inner ++ [quoteSign double]) ++ ['\n']))
      [.scalar (quotedStyle double) cs] := by
  intro tail rest n hline hn i l k count tokens ts outer hk hnext
  obtain ⟨place, hread, hrest⟩ := h ('\n' :: tail) (i + 1 + 1) l (k + 1 + 1) (by simp) (by omega)
  obtain ⟨_, i', l', k'⟩ := place
  obtain rfl : _ = '\n' :: tail := hrest
  have htoken : (inBlock ⟨quoteSign double :: (inner ++ quoteSign double :: '\n' :: tail), i + 1, l,
      k + 1⟩ tokens count column outer false).token? = some _ :=
    (token?_quote (Cursor.atMarker_of_column (by omega)) rfl).trans (quoted?_value hread)
  have hstart : StartsToken (quoteSign double :: (inner ++ quoteSign double :: '\n' :: tail)) := by
    rintro _ ⟨⟩
    cases double <;> decide
  refine .of_spaces (n := 1) hstart (by simp) (by omega) ?_ htoken ?_
    (hnext _ (.of_newline hline rfl))
  · simp [spaces]
  · simp only [inBlock, List.length_cons, List.length_append]
    omega

/-- A bar begins a literal block. -/
theorem token?_bar (hmarker : place.atMarker = false) (hrest : place.rest = '|' :: rest) :
    (inBlock place tokens count indent outer allowed).token? =
      (inBlock place tokens count indent outer allowed).block? .literal := by
  rw [token?]
  simp [inBlock, hrest, hmarker, inFlow]

/-- A literal block is a value, and a key can follow it. -/
theorem block?_value (hread : readBlock true indent (place.past 1) = some (text, place')) :
    (inBlock place tokens count indent outer allowed).block? .literal =
      some (inBlock place' (.scalar .literal text :: tokens) (count + 1) indent outer true) := by
  simp [block?, dropKey?, inBlock, push, hread]

/-- A literal block below its field is found there, with the text that it was written for. -/
theorem scans_literal {column : Nat} (hne : cs ≠ []) (hprintable : ∀ c ∈ cs, isPrintable c = true) :
    Scans column (' ' :: literalBlock (column + 2) cs) [.scalar .literal cs] := by
  intro tail rest n hline hn i l k count tokens ts outer hk hnext
  obtain ⟨⟨_, i', l', _⟩, hread, ⟨rfl, rfl⟩⟩ := @readBlock_literal cs tail rest (i + 1 + 1) l
    (k + 1 + 1) n column hline (by omega) hne hprintable
  have htoken : (inBlock ⟨'|' :: (blockSigns cs ++ '\n' :: (blockChars (column + 2) true cs ++
      tail)), i + 1, l, k + 1⟩ tokens count column outer false).token? = some _ :=
    (token?_bar (Cursor.atMarker_of_column (by omega)) rfl).trans (block?_value hread)
  have hstart : StartsToken
      ('|' :: (blockSigns cs ++ '\n' :: (blockChars (column + 2) true cs ++ tail))) := by
    rintro _ ⟨⟩
    decide
  refine .of_spaces (n := 1) hstart (by simp) (by omega) ?_ htoken ?_
    (hnext _ (.of_line hline ?_ rfl))
  · simp [spaces, literalBlock]
  · rw [hline.eq]
    simp only [inBlock, List.length_cons, List.length_append]
    omega
  · simp

/-- A bracket that opens is found where no key can be, and then a key can follow. -/
theorem openFlow?_value (t : Token) :
    (inBlock place tokens count indent outer false).openFlow? t =
      some { inBlock (place.past 1) (t :: tokens) (count + 1) indent outer true with
        outerKeys := [none] } := rfl

/-- A bracket that closes is found, and ends what was opened. -/
theorem closeFlow?_value (t : Token) :
    ({ inBlock place tokens count indent outer true with outerKeys := [none] } : Scanner).closeFlow?
        t =
      some (inBlock (place.past 1) (t :: tokens) (count + 1) indent outer false) := rfl

/-- An opening bracket and the closing one. -/
theorem scans_brackets {column : Nat} {a b : Char} {opening closing : Token}
    (ha : ∀ rest, StartsToken (a :: rest)) (hb : ∀ rest, StartsToken (b :: rest))
    (hopen : ∀ (s : Scanner) rest, s.cursor.rest = a :: rest → s.cursor.atMarker = false →
      s.token? = s.openFlow? opening)
    (hclose : ∀ (s : Scanner) rest, s.cursor.rest = b :: rest → s.cursor.atMarker = false →
      s.token? = s.closeFlow? closing) :
    Scans column [' ', a, b, '\n'] [opening, closing] := by
  intro tail rest n hline hn i l k count tokens ts outer hk hnext
  have hopened := (hopen (inBlock ⟨a :: b :: '\n' :: tail, i + 1, l, k + 1⟩ tokens count column
    outer false) _ rfl (Cursor.atMarker_of_column (by omega))).trans (openFlow?_value opening)
  have hclosed := (hclose { inBlock ⟨b :: '\n' :: tail, i + 1 + 1, l, k + 1 + 1⟩
    (opening :: tokens) (count + 1) column outer true with outerKeys := [none] } _ rfl
      (Cursor.atMarker_of_column (by omega))).trans (closeFlow?_value closing)
  refine .of_spaces (n := 1) (ha (b :: '\n' :: tail)) (by simp) (by omega) rfl hopened
    (by simp [inBlock, Cursor.past]) (.of_token (fun fuel hfuel => ?_) ?_ hclosed ?_
      (hnext _ (.of_newline hline rfl)))
  · rw [skipToToken_spaces (n := 0) (hb ('\n' :: tail)) rfl (Nat.zero_lt_of_lt hfuel)]
    rfl
  · simp [inBlock]
  · simp [inBlock, Cursor.past]

/-- An empty list on the line of its field is found in it. -/
theorem scans_squareBrackets {column : Nat} :
    Scans column [' ', '[', ']', '\n'] [.flowSequenceStart, .flowSequenceEnd] := by
  refine scans_brackets (by simp [StartsToken]; decide) (by simp [StartsToken]; decide)
    (fun s rest hrest hmarker => ?_) fun s rest hrest hmarker => ?_
  all_goals
    rw [token?, hrest]
    simp [hmarker]

/-- An empty record on the line of its field is found in it. -/
theorem scans_curlyBrackets {column : Nat} :
    Scans column [' ', '\x7b', '\x7d', '\n'] [.flowMappingStart, .flowMappingEnd] := by
  refine scans_brackets (by simp [StartsToken]; decide) (by simp [StartsToken]; decide)
    (fun s rest hrest hmarker => ?_) fun s rest hrest hmarker => ?_
  all_goals
    rw [token?, hrest]
    simp [hmarker]

/-! ### Texts -/

/-- A text that looks like nothing else is not empty. -/
theorem toList_ne_nil_of_looksOther {s : String} (h : looksOther s = false) : s.toList ≠ [] := by
  intro hnil
  simp [looksOther, hnil] at h

/-- A text is scanned as one scalar of its own. -/
theorem scans_text (column : Nat) (s : String) :
    Scans column (' ' :: textChars (column + 2) s) [.scalar (textStyle s) s.toList] := by
  have hdouble : Scans column (' ' :: (doubleQuoted s.toList ++ ['\n']))
      [.scalar .doubleQuoted s.toList] :=
    @scans_quoted s.toList true column (s.toList.flatMap escapeChar) fun _ _ _ _ htail hk =>
      readsQuoted_escaped htail hk (Nat.lt_succ_of_le (List.prefix_append _ _).length_le)
  rw [textChars, textStyle]
  cases hfeed : s.toList.contains '\n' with
  | true =>
    have hmem : '\n' ∈ s.toList := by simpa using hfeed
    cases hblock : canBeBlock s.toList with
    | true => exact scans_literal (List.ne_nil_of_mem hmem) (IsPrintable.of_canBeBlock hblock)
    | false => exact hdouble
  | false =>
    have hfeed : '\n' ∉ s.toList := by simpa using hfeed
    cases hplain : !looksOther s && canBePlain s.toList with
    | true =>
      rw [Bool.and_eq_true, Bool.not_eq_true'] at hplain
      exact scans_plain (isPlain_of_canBePlain (toList_ne_nil_of_looksOther hplain.1) hplain.2)
    | false =>
      cases hquoted : canBeQuoted s.toList with
      | true =>
        exact @scans_quoted s.toList false column _ fun _ _ _ _ htail hk =>
          readsQuoted_singleQuotedChars (show 0 < column + 2 by omega) htail
            (isQuotable_of_canBeQuoted hfeed hquoted) hk
            (Nat.lt_succ_of_le (List.prefix_append _ _).length_le)
      | false => exact hdouble

/-! ### Lines -/

/-- From the beginning of its first line on, the scanner finds these tokens in a text of whole
lines, and goes on at the beginning of the next line. -/
def ScansLines (column : Nat) (text : List Char) (found : List Token) : Prop :=
  ∀ ⦃tail rest : List Char⦄ ⦃n : Nat⦄, IsLine tail n rest → n ≤ column →
    ∃ k first, k ≤ column ∧ IsLine (text ++ tail) k first ∧
      ∀ ⦃s : Scanner⦄ ⦃tokens ts : List Token⦄ ⦃outer : List Int⦄,
        s.AtLine first k tokens column outer →
          (∀ s' : Scanner, s'.AtLine rest n (found.reverse ++ tokens) column outer →
            s'.Yields ts) → s.Yields ts

/-- In no lines nothing is found. -/
theorem scansLines_nil (column : Nat) : ScansLines column [] [] :=
  fun _ rest n hline hn => ⟨n, rest, hn, hline, fun _ _ _ _ hs hnext => hnext _ hs⟩

/-- What is found in two texts of whole lines is found in one after the other. -/
theorem scansLines_append {column : Nat} {text' : List Char} {found found' : List Token}
    (h : ScansLines column text found) (h' : ScansLines column text' found') :
    ScansLines column (text ++ text') (found ++ found') := by
  intro tail rest n hline hn
  obtain ⟨k', first', hk', hline', hscan'⟩ := h' hline hn
  obtain ⟨k, first, hk, hline, hscan⟩ := h hline' hk'
  refine ⟨k, first, hk, by rwa [List.append_assoc], fun s tokens ts outer hs hnext => ?_⟩
  refine hscan hs fun s' hs' => hscan' hs' fun s'' hs'' => hnext s'' ?_
  rwa [List.reverse_append, List.append_assoc]

/-- A minus sign in the column of the list begins its next item. -/
theorem blockEntry?_atColumn {column : Nat} :
    blockEntry? (inBlock ⟨'-' :: rest, i, l, column⟩ tokens count column outer true) =
      some (inBlock ⟨rest, i + 1, l, column + 1⟩ (.blockEntry :: tokens) (count + 1) column outer
        true) := by
  unfold blockEntry?
  simp [beginBlockHere?, beginBlock, dropKey?, inBlock, inFlow, allowKey, push, past, Cursor.past]

/-- An item of a list, behind its sign. -/
theorem scansLines_item {column : Nat} (h : IsWord cs) :
    ScansLines column (spaces column ++ '-' :: ' ' :: cs ++ ['\n'])
      [.blockEntry, .scalar .plain cs] := by
  intro tail rest n hline hn
  have hminus : ∀ c ∈ ('-' :: ' ' :: (cs ++ '\n' :: tail)).head?, isNameChar c = true := by
    rintro _ ⟨⟩
    decide
  have hitem : IsLine (spaces column ++ '-' :: ' ' :: cs ++ ['\n'] ++ tail) column
      ('-' :: ' ' :: (cs ++ '\n' :: tail)) := ⟨by simp, hminus⟩
  refine ⟨column, _, Nat.le_refl _, hitem, fun s tokens ts outer hs hnext => ?_⟩
  refine .of_line hs (by simp) (Int.le_refl _) fun i l count => ?_
  have hminus : (inBlock ⟨'-' :: ' ' :: (cs ++ '\n' :: tail), i, l, column⟩ tokens count column
      outer true).token? = some _ :=
    (token?_minus rfl rfl (by simp [inBlock, Cursor.atMarker])).trans blockEntry?_atColumn
  refine ⟨_, hminus, by simp [inBlock], ?_⟩
  -- What stands behind the sign could be a key, but the line ends behind it.
  have hread := @readPlain_line cs tail rest (i + 1 + 1) l (column + 1 + 1) n
    ((column : Int) + 1).toNat hline (by omega) h.isPlain.toGoesOn (by omega)
  have htoken : (inBlock ⟨cs ++ '\n' :: tail, i + 1 + 1, l, column + 1 + 1⟩ (.blockEntry :: tokens)
      (count + 1) column outer true).token? = some _ :=
    (token?_of_isPlain h.isPlain (Nat.succ_pos (column + 1)) _).trans (plain?_possibleKey hread)
  refine .of_spaces (n := 1) (startsToken_of_isPlain h.isPlain _) (by simp) (by omega) rfl htoken ?_
    (hnext _ (.of_line hline ?_ rfl))
  · have := List.length_pos_iff.mpr h.ne_nil
    rw [hline.eq]
    simp only [inBlock, List.length_append, List.length_cons]
    omega
  · rintro _ ⟨⟩
    simp
    omega

/-- The items of a list of words are found in their lines. -/
theorem scansLines_items {column : Nat} {words : List String}
    (h : ∀ w ∈ words, IsWord w.toList) :
    ScansLines column (itemChars column words) (itemTokens words) := by
  induction words with
  | nil => exact scansLines_nil column
  | cons w words ih =>
    obtain ⟨hw, hwords⟩ := List.forall_mem_cons.mp h
    exact scansLines_append (scansLines_item hw) (ih hwords)

/-- A field at the beginning of a line. -/
theorem Yields.of_field {name value : List Char} {tokens' found : List Token} {outer' : List Int}
    {column : Nat} (hword : IsWord name) (hshort : name.length ≤ 1024) (hgap : atGap value = true)
    (hne : value ≠ []) (hblock : Opens column tokens outer indent tokens' outer')
    (hvalue : Scans column value found) (hline : IsLine tail n rest) (hn : n ≤ column)
    (hs : s.AtLine (name ++ ':' :: (value ++ tail)) column tokens indent outer)
    (hnext : ∀ s' : Scanner, s'.AtLine rest n
      (found.reverse ++ .value :: .scalar .plain name :: .key :: tokens') column outer' →
        s'.Yields ts) : s.Yields ts :=
  .of_key hs hword hshort (by rwa [atGap_append hne]) hblock fun _ _ _ _ hk =>
    hvalue hline hn hk hnext

/-- The line of a field begins with the name of the field. -/
theorem isLine_field {name : List Char} (h : IsWord name) (column : Nat) (tail : List Char) :
    IsLine (spaces column ++ (name ++ ':' :: tail)) column (name ++ ':' :: tail) := by
  refine ⟨rfl, ?_⟩
  obtain ⟨c, more, rfl⟩ := List.exists_cons_of_ne_nil h.ne_nil
  rintro _ ⟨⟩
  exact h.nameChar c List.mem_cons_self

/-- A value is written behind a gap. -/
theorem atGap_valueChars (column : Nat) (v : Value) :
    valueChars column v ≠ [] ∧ atGap (valueChars column v) = true := by
  rcases v with w | s | (_ | ⟨w, ws⟩) | (_ | ⟨f, fs⟩) <;> simp [valueChars, atGap, isBlank, isBreak]

/-- The fields of a record, which begin a block further right. -/
theorem Yields.of_record {column : Nat} {name : String} {v : Value} {fs : List (String × Value)}
    (hword : IsWord name.toList) (hshort : name.toList.length ≤ 1024)
    (hv : Scans column (valueChars column v) (valueTokens v))
    (hfs : ScansLines column (fieldsChars column fs) (fieldsTokens fs)) (hline : IsLine tail n rest)
    (hn : n ≤ column) (hindent : indent < column)
    (hs : s.AtLine (name.toList ++ ':' :: (valueChars column v ++ (fieldsChars column fs ++ tail)))
      column tokens indent outer)
    (hnext : ∀ s' : Scanner, s'.AtLine rest n
      ((fieldsTokens ((name, v) :: fs)).reverse ++ .blockMappingStart :: tokens) column
        (indent :: outer) → s'.Yields ts) : s.Yields ts := by
  obtain ⟨k, first, hk, hfirst, hscan⟩ := hfs hline hn
  obtain ⟨hne, hgap⟩ := atGap_valueChars column v
  refine .of_field hword hshort hgap hne (.begins hindent) hv hfirst hk hs fun s' hs' =>
    hscan hs' fun s'' hs'' => hnext s'' ?_
  simpa [fieldsTokens] using hs''

mutual

/-- Every value is scanned as its tokens. -/
theorem scans_value (column : Nat) : (v : Value) → IsWritable v →
    Scans column (valueChars column v) (valueTokens v)
  | .word w, h => scans_plain h.isPlain
  | .text s, _ => scans_text column s
  | .words [], _ => scans_squareBrackets
  | .words (w :: ws), h => by
    intro tail rest n hline hn i l k count tokens ts outer hk hnext
    obtain ⟨k, first, -, hfirst, hscan⟩ := scansLines_items h hline hn
    exact hscan (.of_newline hfirst rfl) hnext
  | .record [], _ => scans_curlyBrackets
  | .record ((name, v) :: fs), h => by
    intro tail rest n hline hn i l k count tokens ts outer hk hnext
    obtain ⟨hname, hshort, hv, hfs⟩ := h
    have hbegin := isLine_field hname (column + 2)
      (valueChars (column + 2) v ++ (fieldsChars (column + 2) fs ++ tail))
    have hwritten : valueChars column (.record ((name, v) :: fs)) ++ tail =
        '\n' :: (spaces (column + 2) ++ (name.toList ++ ':' :: (valueChars (column + 2) v ++
          (fieldsChars (column + 2) fs ++ tail)))) := by simp [valueChars, fieldsChars]
    rw [hwritten]
    refine .of_record hname hshort (scans_value (column + 2) v hv)
      (scansLines_fields (column + 2) fs hfs) hline (by omega) (by omega) (.of_newline hbegin rfl)
      fun s' hs' => hnext s' ?_
    -- The block of the record ends in front of the next line.
    have hend := hs'.pop (by omega)
    simpa [valueTokens] using hend

/-- The fields of a record are scanned one by one. -/
theorem scansLines_fields (column : Nat) : (fs : List (String × Value)) → AreWritable fs →
    ScansLines column (fieldsChars column fs) (fieldsTokens fs)
  | [], _ => scansLines_nil column
  | (name, v) :: fs, ⟨hname, hshort, hv, hfs⟩ => by
    obtain ⟨hne, hgap⟩ := atGap_valueChars column v
    refine @scansLines_append _ _ _ (_ :: _ :: _ :: valueTokens v) _ ?_
      (scansLines_fields column fs hfs)
    intro tail rest n hline hn
    have hbegin := isLine_field hname column (valueChars column v ++ tail)
    refine ⟨column, name.toList ++ ':' :: (valueChars column v ++ tail), Nat.le_refl _,
      by simpa using hbegin, fun s tokens ts outer hs hnext => ?_⟩
    refine .of_field hname hshort hgap hne .within (scans_value column v hv) hline hn hs ?_
    simpa using hnext

end

end Scanner

/-- The tokens of a written record: those of its fields, in one block. -/
theorem tokens?_write {f : String × Value} {fs : List (String × Value)}
    (h : AreWritable (f :: fs)) :
    tokens? (fieldsChars 0 (f :: fs)) =
      some (.blockMappingStart :: (fieldsTokens (f :: fs) ++ [.blockEnd])) := by
  have hallowed : (fieldsChars 0 (f :: fs)).all isAllowed = true :=
    List.all_eq_true.mpr fun c hc => isAllowed_of_isPrintable (isPrintable_fieldsChars 0 _ h c hc)
  obtain ⟨name, v⟩ := f
  obtain ⟨hname, hshort, hv, hfs⟩ := h
  have hbegin := Scanner.isLine_field hname 0 (valueChars 0 v ++ (fieldsChars 0 fs ++ []))
  have hwritten : fieldsChars 0 ((name, v) :: fs) =
      name.toList ++ ':' :: (valueChars 0 v ++ (fieldsChars 0 fs ++ [])) := by
    simp [fieldsChars, spaces]
  have hstart : Scanner.AtLine { cursor := ⟨fieldsChars 0 ((name, v) :: fs), 0, 0, 0⟩ }
      (name.toList ++ ':' :: (valueChars 0 v ++ (fieldsChars 0 fs ++ []))) 0 [] (-1) [] := by
    have hcursor : ({ cursor := ⟨fieldsChars 0 ((name, v) :: fs), 0, 0, 0⟩ } : Scanner) =
        { Scanner.inBlock ⟨fieldsChars 0 ((name, v) :: fs), 0, 0, 0⟩ [] 0 (-1) [] true with
          simpleKey := none } := rfl
    rw [hwritten] at hcursor ⊢
    exact .of_line hbegin (by simp) hcursor
  have hyields := Scanner.Yields.of_record hname hshort (Scanner.scans_value 0 v hv)
    (Scanner.scansLines_fields 0 fs hfs) ⟨rfl, by simp⟩ (Nat.le_refl 0) (by decide) hstart
    fun s' hs' => Scanner.Yields.of_end hs'
  rw [tokens?, if_pos hallowed, hyields _ (Nat.lt_succ_self _)]
  simp

end InstrGraph.Yaml
