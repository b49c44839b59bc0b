import InstrGraph.Proofs.Yaml.Block
import InstrGraph.Proofs.Yaml.Plain
import InstrGraph.Proofs.Yaml.Quoted
import InstrGraph.Yaml.Token

/-!
# Steps of the scanner over a written record

A written record is scanned in a block, without brackets around it. The scanner is followed from the
beginning of one line to that of the next (`Scanner.AtLine`): what is left to do there is to end the
blocks that are further right, which one lemma does for every value (`AtLine.pop`).

A statement about the scanner is one about what it still finds (`Scanner.Yields`). So a lemma about
a step says that what it finds from here is what it finds behind the step.
-/

namespace InstrGraph.Yaml

namespace Scanner

variable {tail rest : List Char} {i l k n count : Nat} {tokens ts : List Token} {indent : Int}
  {outer : List Int} {allowed : Bool} {s s' s'' : Scanner}

/-- From here on the scanner finds these tokens in all, those included that it has already. -/
def Yields (s : Scanner) (ts : List Token) : Prop :=
  ∀ fuel, s.cursor.rest.length < fuel → tokens? fuel s = some ts

/-- A scanner in a block, without a possible key. -/
def inBlock (cursor : Cursor) (tokens : List Token) (count : Nat) (indent : Int)
    (outer : List Int) (allowed : Bool) : Scanner :=
  { cursor, tokens, count, indent, outerIndents := outer, keyAllowed := allowed }

/-- No blank, line break or comment stands at the front of a text. -/
def StartsToken (rest : List Char) : Prop :=
  ∀ c ∈ rest.head?, isBlank c = false ∧ isBreak c = false ∧ c ≠ '#' ∧ c ≠ byteOrderMark

/-- A line that does not begin with a sign of the layout begins with a token. -/
theorem startsToken_of_isLine (h : IsLine tail n rest) : StartsToken rest := fun c hc =>
  ⟨(h.noGap c hc).1, (h.noGap c hc).2, ne_of_isNameChar (h.head c hc) (by decide),
    ne_of_isNameChar (h.head c hc) (by decide)⟩

/-! ### The way to the next token -/

/-- Spaces in front of a token are skipped. -/
theorem skipToToken_spaces (h : StartsToken rest) (hcursor : s.cursor = ⟨spaces n ++ rest, i, l, k⟩)
    {fuel : Nat} (hfuel : 0 < fuel) :
    s.skipToToken fuel = { s with cursor := ⟨rest, i + n, l, k + n⟩ } := by
  obtain ⟨fuel, rfl⟩ : ∃ f, fuel = f + 1 := ⟨fuel - 1, by omega⟩
  have hmark : s.cursor.skipMark = s.cursor := by
    have hsees : s.cursor.sees byteOrderMark = false := by
      rw [Cursor.sees, hcursor, beq_eq_false_iff_ne]
      cases n with
      | zero => exact fun heq => (h _ heq).2.2.2 rfl
      | succ n => simp [spaces, List.replicate_succ, byteOrderMark]
    rw [Cursor.skipMark, hsees, Bool.and_false]
    rfl
  have hskip : (s.cursor.skip fun ch => ch == ' ' || ((s.inFlow || !s.keyAllowed) && ch == '\t')) =
      ⟨rest, i + n, l, k + n⟩ := by
    have hspan := @Cursor.span_append (spaces n) rest
      (fun ch => ch == ' ' || ((s.inFlow || !s.keyAllowed) && ch == '\t'))
      (fun c hc => by simp [(List.mem_replicate.mp hc).2]) (fun c hc => by
        have hc := (h c hc).1
        rw [isBlank, Bool.or_eq_false_iff] at hc
        rw [hc.1, hc.2, Bool.and_false]
        rfl) i l k
    rw [hcursor]
    simpa [Cursor.span, spaces] using congrArg Prod.snd hspan
  have hcomment : (⟨rest, i + n, l, k + n⟩ : Cursor).skipComment = ⟨rest, i + n, l, k + n⟩ := by
    have hsees : (⟨rest, i + n, l, k + n⟩ : Cursor).sees '#' = false := by
      rw [Cursor.sees, beq_eq_false_iff_ne]
      exact fun heq => (h _ heq).2.2.1 rfl
    rw [Cursor.skipComment, hsees]
    rfl
  rw [skipToToken]
  simp only [hmark, hskip, hcomment, Cursor.lineBreak?_eq_none fun c hc => (h c hc).2.1]

/-- A line break makes a key possible. -/
theorem skipToToken_newline (hcursor : s.cursor = ⟨'\n' :: tail, i, l, k⟩)
    (hflow : s.inFlow = false) (fuel : Nat) :
    s.skipToToken (fuel + 1) =
      skipToToken fuel { s with cursor := ⟨tail, i + 1, l + 1, 0⟩, keyAllowed := true } := by
  have hmark : s.cursor.skipMark = s.cursor := by
    simp [Cursor.skipMark, Cursor.sees, hcursor, byteOrderMark]
  have hskip : (s.cursor.skip fun ch => ch == ' ' || ((s.inFlow || !s.keyAllowed) && ch == '\t')) =
      s.cursor := by
    simp [Cursor.skip, Cursor.past, hcursor]
  have hcomment : s.cursor.skipComment = s.cursor := by
    simp [Cursor.skipComment, Cursor.sees, hcursor]
  have hbreak : s.cursor.lineBreak? = some ('\n', ⟨tail, i + 1, l + 1, 0⟩) := by
    rw [hcursor]
    exact Cursor.lineBreak?_cons (by decide) (by decide)
  rw [skipToToken, hmark, hskip, hcomment, hbreak]
  simp only [hflow, Bool.not_false, Bool.or_true]

/-- A possible key that is near is kept. -/
theorem dropStaleKeys?_of_fresh {key : SimpleKey} (hkey : s.simpleKey = some key)
    (houter : s.outerKeys = []) (hfresh : key.isStale s.cursor = false) :
    s.dropStaleKeys? = some s := by
  obtain ⟨cursor, tokens, count, indent, outer, simpleKey, outerKeys, allowed⟩ := s
  obtain rfl : simpleKey = some key := hkey
  obtain rfl : outerKeys = [] := houter
  simp only [dropStaleKeys?, List.any_cons, List.any_nil, Option.any_some, List.map_nil] at hfresh ⊢
  simp [hfresh]

/-- A possible key of another line is given up, if it need not be one. -/
theorem dropStaleKeys?_of_stale (hkey : ∀ key ∈ s.simpleKey, key.required = false ∧
      key.place.line < s.cursor.line) (houter : s.outerKeys = []) :
    s.dropStaleKeys? = some { s with simpleKey := none } := by
  obtain ⟨cursor, tokens, count, indent, outer, simpleKey, outerKeys, allowed⟩ := s
  obtain rfl : outerKeys = [] := houter
  cases simpleKey with
  | none => rfl
  | some key =>
    obtain ⟨hrequired, hline⟩ := hkey key rfl
    have hstale : key.isStale cursor = true := by simp [SimpleKey.isStale, hline]
    simp [dropStaleKeys?, hrequired, hstale]

/-! ### Blocks -/

/-- Nothing ends that is not further right. -/
theorem endBlocks_eq_self {column : Int} (h : s.indent ≤ column) : s.endBlocks column = s := by
  have hended : endedBlocks column s.indent s.outerIndents = (0, s.indent, s.outerIndents) := by
    cases s.outerIndents with
    | nil => rfl
    | cons o outer => rw [endedBlocks, if_neg (by omega)]
  rw [endBlocks, hended]
  split <;> rfl

/-- The innermost block ends, and perhaps blocks around it. -/
theorem endBlocks_of_lt {column : Int} (h : column < indent) (cursor : Cursor)
    (tokens : List Token) (count : Nat) (o : Int) (outer : List Int) (allowed : Bool) :
    (inBlock cursor tokens count indent (o :: outer) allowed).endBlocks column =
      (inBlock cursor (.blockEnd :: tokens) (count + 1) o outer allowed).endBlocks column := by
  have hended : endedBlocks column indent (o :: outer) =
      ((endedBlocks column o outer).1 + 1, (endedBlocks column o outer).2) := by
    rw [endedBlocks, if_pos h]
  simp only [endBlocks, inBlock, inFlow, hended, List.isEmpty_nil, Bool.not_true,
    Bool.false_eq_true, if_false, List.replicate_succ', List.append_assoc, List.singleton_append]
  congr 1
  omega

/-! ### Lines -/

/-- The scanner goes on at the beginning of a line, which begins with this text in this column. The
blocks further right have not ended yet. -/
def AtLine (s : Scanner) (rest : List Char) (n : Nat) (tokens : List Token) (indent : Int)
    (outer : List Int) : Prop :=
  rest.length ≤ s.cursor.rest.length ∧ ∃ i l count, ∀ fuel, s.cursor.rest.length < fuel →
    (s.skipToToken fuel).dropStaleKeys?.map (fun s => s.endBlocks s.cursor.column) =
      some ((inBlock ⟨rest, i, l, n⟩ tokens count indent outer true).endBlocks n)

namespace AtLine

/-- The scanner is at the beginning of the line already. -/
theorem of_line (hline : IsLine tail n rest) {key : Option SimpleKey}
    (hkey : ∀ k ∈ key, k.required = false ∧ k.place.line < l)
    (hs : s = { inBlock ⟨rest, i, l, n⟩ tokens count indent outer true with simpleKey := key }) :
    s.AtLine rest n tokens indent outer := by
  subst hs
  refine ⟨Nat.le_refl _, i, l, count, fun fuel hfuel => ?_⟩
  have hskip := @skipToToken_spaces rest i l n 0
    { inBlock ⟨rest, i, l, n⟩ tokens count indent outer true with simpleKey := key }
    (startsToken_of_isLine hline) rfl fuel (by omega)
  rw [hskip, dropStaleKeys?_of_stale (fun k hk => hkey k hk) rfl]
  rfl

/-- The scanner is at the end of the line before. -/
theorem of_newline (hline : IsLine tail n rest)
    (hs : s = inBlock ⟨'\n' :: tail, i, l, k⟩ tokens count indent outer allowed) :
    s.AtLine rest n tokens indent outer := by
  subst hs
  have hlength : rest.length ≤ tail.length := by
    rw [hline.eq, List.length_append]
    omega
  refine ⟨?_, i + 1 + n, l + 1, count, fun fuel hfuel => ?_⟩
  · exact Nat.le_succ_of_le hlength
  · obtain ⟨fuel, rfl⟩ : ∃ f, fuel = f + 1 := ⟨fuel - 1, by omega⟩
    have hpos : 0 < fuel := by
      have hfuel : tail.length + 1 < fuel + 1 := hfuel
      omega
    rw [skipToToken_newline rfl rfl, skipToToken_spaces (startsToken_of_isLine hline)
      (i := i + 1) (l := l + 1) (k := 0) (n := n) (by rw [← hline.eq]) hpos, Nat.zero_add]
    rfl

/-- A block further right ends before the line. -/
theorem pop {o : Int} (h : s.AtLine rest n tokens indent (o :: outer)) (hn : n < indent) :
    s.AtLine rest n (.blockEnd :: tokens) o outer := by
  obtain ⟨hlength, i, l, count, hskip⟩ := h
  refine ⟨hlength, i, l, count + 1, fun fuel hfuel => ?_⟩
  rw [hskip fuel hfuel, endBlocks_of_lt hn]

end AtLine

/-! ### What the scanner finds -/

namespace Yields

/-- The scanner goes to a token and takes it. -/
theorem of_token (hskip : ∀ fuel, s.cursor.rest.length < fuel →
      (s.skipToToken fuel).dropStaleKeys?.map (fun s => s.endBlocks s.cursor.column) = some s')
    (hrest : s'.cursor.rest ≠ []) (htoken : s'.token? = some s'')
    (hlength : s''.cursor.rest.length < s.cursor.rest.length) (h : s''.Yields ts) :
    s.Yields ts := by
  intro fuel hfuel
  obtain ⟨fuel, rfl⟩ : ∃ f, fuel = f + 1 := ⟨fuel - 1, by omega⟩
  obtain ⟨ready, hready, hended⟩ := Option.map_eq_some_iff.mp (hskip (fuel + 1) hfuel)
  have hempty : s'.cursor.rest.isEmpty = false := by simpa using hrest
  rw [tokens?, hready]
  simp only [hended, hempty, htoken, Bool.false_eq_true, if_false, Option.bind_some]
  exact h fuel (by omega)

/-- Behind some spaces a token is taken. -/
theorem of_spaces (hstart : StartsToken rest) (hne : rest ≠ []) (hk : indent ≤ k)
    (hs : s = inBlock ⟨spaces n ++ rest, i, l, k⟩ tokens count indent outer allowed)
    (htoken : (inBlock ⟨rest, i + n, l, k + n⟩ tokens count indent outer allowed).token? = some s')
    (hlength : s'.cursor.rest.length < rest.length) (h : s'.Yields ts) : s.Yields ts := by
  subst hs
  have hlength' : (spaces n ++ rest).length = n + rest.length := by simp [spaces]
  refine of_token (fun fuel hfuel => ?_) hne htoken
    (show s'.cursor.rest.length < (spaces n ++ rest).length by omega) h
  rw [skipToToken_spaces hstart rfl (Nat.zero_lt_of_lt hfuel)]
  exact congrArg some (endBlocks_eq_self (show indent ≤ ((k + n : Nat) : Int) by omega))

/-- At the beginning of a line a token is taken. -/
theorem of_line (hs : s.AtLine rest n tokens indent outer) (hne : rest ≠ []) (hn : indent ≤ n)
    (h : ∀ i l count, ∃ s',
      (inBlock ⟨rest, i, l, n⟩ tokens count indent outer true).token? = some s' ∧
        s'.cursor.rest.length < rest.length ∧ s'.Yields ts) : s.Yields ts := by
  obtain ⟨hlength, i, l, count, hskip⟩ := hs
  rw [endBlocks_eq_self (show (inBlock ⟨rest, i, l, n⟩ tokens count indent outer true).indent ≤ n
    from hn)] at hskip
  obtain ⟨s', htoken, hlength', hyields⟩ := h i l count
  exact of_token hskip hne htoken (by omega) hyields

/-- At the end of the text the outermost block ends. -/
theorem of_end (hs : s.AtLine [] 0 tokens 0 [-1]) : s.Yields (.blockEnd :: tokens).reverse := by
  obtain ⟨-, i, l, count, hskip⟩ := hs
  rw [endBlocks_eq_self (by simp [inBlock])] at hskip
  intro fuel hfuel
  obtain ⟨fuel, rfl⟩ : ∃ f, fuel = f + 1 := ⟨fuel - 1, by omega⟩
  obtain ⟨ready, hready, hended⟩ := Option.map_eq_some_iff.mp (hskip (fuel + 1) hfuel)
  have hclosed : (inBlock ⟨[], i, l, 0⟩ tokens count 0 [-1] true).endBlocks (-1) =
      inBlock ⟨[], i, l, 0⟩ (.blockEnd :: tokens) (count + 1) (-1) [] true := by
    rw [endBlocks_of_lt (by decide), endBlocks_eq_self (by simp [inBlock])]
  rw [tokens?, hready]
  simp only [hended, hclosed]
  rfl

end Yields

/-! ### Which token it is -/

/-- Whether a text begins with a sign does not depend on what follows it. -/
theorem isLeadingSign_append {c : Char} {cs : List Char} (h : isLeadingSign c cs = false)
    (tail : List Char) : isLeadingSign c (cs ++ tail) = false := by
  cases cs with
  | nil =>
    rw [isLeadingSign, Bool.or_eq_false_iff, atGap, Bool.and_true] at h
    rw [isLeadingSign, h.1, h.2]
    rfl
  | cons d cs => exact h

/-- A character without any other meaning begins a plain scalar. -/
theorem token?_plain {c : Char} (hrest : s.cursor.rest = c :: rest)
    (hmarker : s.cursor.atMarker = false) (hflow : s.inFlow = false)
    (hlead : isLeadingSign c rest = false) (hblank : isBlank c = false) :
    s.token? = s.plain? := by
  rw [isLeadingSign, Bool.or_eq_false_iff, String.contains_char_eq, decide_eq_false_iff_not]
    at hlead
  obtain ⟨hlist, hgap⟩ := hlead
  have hne {d : Char} (hd : d ∈ "#,[]\x7b\x7d&*!|>'\"%@\x60".toList) : (c == d) = false := by
    rw [beq_eq_false_iff_ne]
    rintro rfl
    exact hlist hd
  have hreserved : isReserved c = false := by
    rw [isReserved, String.contains_char_eq, decide_eq_false_iff_not]
    intro hmem
    have hall : ",[]\x7b\x7d#&*!|>'\"%@\x60".toList ⊆ "#,[]\x7b\x7d&*!|>'\"%@\x60".toList := by
      decide
    exact hlist (hall hmem)
  have hsigns : (c == '-' && atGap rest) = false ∧ (c == '?' && atGap rest) = false ∧
      (c == ':' && atGap rest) = false := by
    cases hg : atGap rest with
    | false => simp
    | true => simpa [hg, and_assoc, and_comm, and_left_comm] using hgap
  rw [token?, hrest]
  simp only [hmarker, hflow, hblank, hreserved, hsigns.1, hsigns.2.1, hsigns.2.2,
    @hne '%' (by decide), @hne '[' (by decide), @hne ']' (by decide), @hne '\x7b' (by decide),
    @hne '\x7d' (by decide), @hne ',' (by decide), @hne '*' (by decide), @hne '&' (by decide),
    @hne '!' (by decide), @hne '|' (by decide), @hne '>' (by decide), @hne '\'' (by decide),
    @hne '"' (by decide), Bool.and_false, Bool.false_and, Bool.false_or, Bool.or_self,
    Bool.false_eq_true, if_false]

end Scanner

end InstrGraph.Yaml
