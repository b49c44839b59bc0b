import InstrGraph.Proofs.Text.Words
import InstrGraph.Proofs.Yaml.Cursor

/-!
# Literal blocks are read back

A block is read line by line, each with the empty lines behind it. Its text is taken apart into the
line breaks at its front, a body that begins and ends with another character, and the line breaks at
its end; the signs of the block tell how many of the latter belong to the text, and how far the
block is indented where its first line does not show that (`readBlock_literal`).
-/

namespace InstrGraph.Yaml

variable {c : Char} {cs body breaks tail rest : List Char} {i l k n indent : Nat}

/-- A cursor is before a text, in a column. -/
structure Cursor.IsAt (place : Cursor) (rest : List Char) (column : Nat) : Prop where
  rest : place.rest = rest
  column : place.column = column

/-- The characters are line breaks that a writer leaves in a text. -/
def AreBreaks (cs : List Char) : Prop := ∀ c ∈ cs, isBreak c = true ∧ isPrintable c = true

/-! ### Writing -/

/-- The line breaks in a block, and the indentation of the line behind them. -/
theorem blockChars_breaks (hne : breaks ≠ []) (hbreaks : ∀ c ∈ breaks, isBreak c = true)
    (hcs : cs ≠ []) (hhead : ∀ c ∈ cs.head?, isBreak c = false) (afterBreak : Bool) :
    blockChars indent afterBreak (breaks ++ cs) =
      breaks ++ (spaces indent ++ blockChars indent false cs) := by
  induction breaks generalizing afterBreak with
  | nil => exact absurd rfl hne
  | cons b breaks ih =>
    obtain ⟨hb, hbreaks⟩ := List.forall_mem_cons.mp hbreaks
    rw [List.cons_append, blockChars, if_pos hb]
    cases breaks with
    | nil =>
      obtain ⟨d, cs, rfl⟩ := List.exists_cons_of_ne_nil hcs
      simp [blockChars, hhead d rfl]
    | cons b' breaks =>
      rw [ih (by simp) hbreaks]
      rfl

/-- Line breaks are written as they are in a block. -/
theorem blockChars_of_breaks (hne : breaks ≠ []) (hbreaks : ∀ c ∈ breaks, isBreak c = true)
    (afterBreak : Bool) : blockChars indent afterBreak breaks = breaks := by
  induction breaks generalizing afterBreak with
  | nil => exact absurd rfl hne
  | cons b breaks ih =>
    obtain ⟨hb, hbreaks⟩ := List.forall_mem_cons.mp hbreaks
    rw [blockChars, if_pos hb]
    cases breaks with
    | nil => rfl
    | cons b' breaks => rw [ih (by simp) hbreaks]

/-- The line breaks at the front of a block, and the indentation of its first line. -/
theorem blockChars_lead (hbreaks : ∀ c ∈ breaks, isBreak c = true) (hcs : cs ≠ [])
    (hhead : ∀ c ∈ cs.head?, isBreak c = false) :
    blockChars indent true (breaks ++ cs) =
      breaks ++ (spaces indent ++ blockChars indent false cs) := by
  cases breaks with
  | nil =>
    obtain ⟨d, cs, rfl⟩ := List.exists_cons_of_ne_nil hcs
    simp [blockChars, hhead d rfl]
  | cons b breaks => exact blockChars_breaks (by simp) hbreaks hcs hhead true

/-- The characters of a line in a block. -/
theorem blockChars_line {line : List Char} (hline : ∀ c ∈ line, isBreak c = false) :
    blockChars indent false (line ++ cs) = line ++ blockChars indent false cs := by
  induction line with
  | nil => rfl
  | cons c line ih =>
    obtain ⟨hc, hline⟩ := List.forall_mem_cons.mp hline
    rw [List.cons_append, blockChars, if_neg (by simp [hc]), ih hline]
    rfl

/-- A text does not get shorter when it is written as a block. -/
theorem length_le_blockChars (indent : Nat) (afterBreak : Bool) (cs : List Char) :
    cs.length ≤ (blockChars indent afterBreak cs).length := by
  induction cs generalizing afterBreak with
  | nil => simp
  | cons c cs ih =>
    rw [blockChars]
    split
    · simpa using ih true
    · have := ih false
      simp only [List.length_append, List.length_cons]
      omega

/-! ### Empty lines -/

/-- The way to the first character of a line that is indented less than the block. -/
theorem IsLine.readEmptyLines (h : IsLine tail n rest) (hn : n < indent) (fuel widest : Nat) :
    readEmptyLines indent (fuel + 1) widest ⟨tail, i, l, 0⟩ =
      some ([], max widest n, ⟨rest, i + n, l, n⟩) := by
  have htake : (tail.takeWhile (· == ' ')).length = n := by
    rw [h.eq, List.takeWhile_append_of_pos (by simp [spaces])]
    cases rest with
    | nil => simp [spaces]
    | cons d rest =>
      have hd : (d == ' ') = false := beq_false_of_ne (ne_of_isNameChar (h.head d rfl) (by decide))
      simp [spaces, hd]
  have hpast : (⟨tail, i, l, 0⟩ : Cursor).past n = ⟨rest, i + n, l, n⟩ := by
    have := Cursor.past_append (spaces n) rest i l 0
    simpa [h.eq, spaces] using this
  have htab : (⟨rest, i + n, l, n⟩ : Cursor).sees '\t' = false := by
    rw [Cursor.sees, beq_eq_false_iff_ne]
    intro heq
    exact absurd (h.head '\t' heq) (by decide)
  have hmin : min n (indent - 0) = n := by omega
  have hindent : indent ≠ 0 := by omega
  rw [Yaml.readEmptyLines]
  simp only [htake, hindent, if_false, hmin, hpast, htab, Bool.and_false, Bool.false_eq_true,
    Cursor.lineBreak?_eq_none fun c hc => (h.noGap c hc).2]

/-- The way to the first character of a line of the block, behind its indentation. If that is not
known yet, it has to show. -/
theorem readEmptyLines_content (hindent : 0 < indent) {wanted : Nat}
    (hwanted : wanted = indent ∨ wanted = 0 ∧ ∀ c ∈ cs.head?, c ≠ ' ')
    (hhead : ∀ c ∈ cs.head?, isBreak c = false ∧ isPrintable c = true) (fuel widest : Nat) :
    readEmptyLines wanted (fuel + 1) widest ⟨spaces indent ++ cs, i, l, 0⟩ =
      some ([], max widest indent, ⟨cs, i + indent, l, indent⟩) := by
  have htake : ((spaces indent ++ cs).takeWhile (· == ' ')).length =
      indent + (cs.takeWhile (· == ' ')).length := by
    rw [List.takeWhile_append_of_pos (by simp [spaces]), List.length_append]
    simp [spaces]
  have hskip : (if wanted = 0 then indent + (cs.takeWhile (· == ' ')).length
      else min (indent + (cs.takeWhile (· == ' ')).length) (wanted - 0)) = indent := by
    rcases hwanted with rfl | ⟨rfl, hspace⟩
    · rw [if_neg (by omega)]
      omega
    · cases cs with
      | nil => simp
      | cons d cs =>
        have hd : (d == ' ') = false := beq_false_of_ne (hspace d rfl)
        simp [hd]
  have hpast : (⟨spaces indent ++ cs, i, l, 0⟩ : Cursor).past indent =
      ⟨cs, i + indent, l, indent⟩ := by
    have := Cursor.past_append (spaces indent) cs i l 0
    simpa [spaces] using this
  have hsees : (⟨cs, i + indent, l, indent⟩ : Cursor).sees '\t' = false := by
    rw [Cursor.sees, beq_eq_false_iff_ne]
    exact fun heq => absurd (hhead '\t' heq).2 (by decide)
  rw [readEmptyLines]
  simp only [htake, hskip, hpast, hsees, Bool.and_false, Bool.false_eq_true, if_false,
    Cursor.lineBreak?_eq_none fun c hc => (hhead c hc).1]

/-- Empty lines, up to another line. -/
theorem readEmptyLines_breaks (hbreaks : AreBreaks breaks) {fuel widest : Nat} :
    readEmptyLines indent (breaks.length + fuel) widest ⟨breaks ++ rest, i, l, 0⟩ =
      (readEmptyLines indent fuel widest ⟨rest, i + breaks.length, l + breaks.length, 0⟩).map
        fun r => (breaks ++ r.1, r.2) := by
  induction breaks generalizing i l with
  | nil => simp
  | cons b breaks ih =>
    obtain ⟨⟨hb, hp⟩, hbreaks⟩ := List.forall_mem_cons.mp hbreaks
    have hspace : (b == ' ') = false := by
      rw [beq_eq_false_iff_ne]
      rintro rfl
      exact absurd hb (by decide)
    have hsees : (⟨b :: (breaks ++ rest), i, l, 0⟩ : Cursor).sees '\t' = false := by
      rw [Cursor.sees, List.head?_cons, beq_eq_false_iff_ne]
      rintro heq
      rw [Option.some.inj heq] at hb
      exact absurd hb (by decide)
    have hskip : (if indent = 0 then 0 else min 0 (indent - 0)) = 0 := by
      split <;> omega
    have hpast (c : Cursor) : c.past 0 = c := rfl
    rw [List.cons_append, List.length_cons, Nat.add_right_comm, readEmptyLines]
    simp only [List.takeWhile_cons, hspace, Bool.false_eq_true, if_false, List.length_nil, hskip,
      hpast, hsees, Bool.and_false, Cursor.lineBreak?_cons hb hp, Nat.max_zero, ih hbreaks,
      Option.map_map]
    have hplace : i + 1 + breaks.length = i + (breaks.length + 1) ∧
        l + 1 + breaks.length = l + (breaks.length + 1) := by omega
    rw [hplace.1, hplace.2]
    rfl

/-- The empty lines at the front of a block, and the indentation of its first line. If that is not
known yet, it has to show. -/
theorem readEmptyLines_lead (hindent : 0 < indent) (hbreaks : AreBreaks breaks) {wanted : Nat}
    (hwanted : wanted = indent ∨ wanted = 0 ∧ breaks = [] ∧ ∀ c ∈ cs.head?, c ≠ ' ')
    (hhead : ∀ c ∈ cs.head?, isBreak c = false ∧ isPrintable c = true)
    (fuel : Nat) (hfuel : breaks.length < fuel) :
    readEmptyLines wanted fuel 0 ⟨breaks ++ (spaces indent ++ cs), i, l, 0⟩ =
      some (breaks, indent, ⟨cs, i + breaks.length + indent, l + breaks.length, indent⟩) := by
  obtain ⟨more, rfl⟩ : ∃ more, fuel = breaks.length + (more + 1) :=
    ⟨fuel - breaks.length - 1, by omega⟩
  rcases hwanted with rfl | ⟨rfl, rfl, hspace⟩
  · rw [readEmptyLines_breaks hbreaks, readEmptyLines_content hindent (.inl rfl) hhead,
      Option.map_some, List.append_nil, Nat.zero_max]
  · rw [List.nil_append, List.length_nil, Nat.zero_add,
      readEmptyLines_content hindent (.inr ⟨rfl, hspace⟩) hhead, Nat.zero_max]
    rfl

/-! ### Lines -/

/-- The line break behind the last line of a body that line breaks follow. If there is none, the
writer adds one. -/
def lineEndOf : List Char → List Char
  | [] => ['\n']
  | b :: _ => [b]

/-- The empty lines behind the body of a block, up to a line that is indented less. -/
theorem readEmptyLines_trail (hline : IsLine tail n rest) (hn : n < indent)
    (hbreaks : AreBreaks breaks) (fuel : Nat) (hfuel : breaks.length < fuel) (widest : Nat) :
    ∃ widest' place, readEmptyLines indent fuel widest ⟨breaks ++ tail, i, l, 0⟩ =
      some (breaks, widest', place) ∧ place.IsAt rest n := by
  obtain ⟨more, rfl⟩ : ∃ more, fuel = breaks.length + (more + 1) :=
    ⟨fuel - breaks.length - 1, by omega⟩
  rw [readEmptyLines_breaks hbreaks, hline.readEmptyLines hn]
  exact ⟨_, _, by rw [Option.map_some, List.append_nil], rfl, rfl⟩

/-- A block ends where a line is indented less. -/
theorem readBlockLines_end {place : Cursor} (hplace : place.IsAt rest n) (hn : n < indent)
    (fuel : Nat) (lineEnd empty : List Char) :
    readBlockLines true indent fuel lineEnd false empty place =
      some ⟨[], lineEnd, empty, place⟩ := by
  cases fuel with
  | zero => rfl
  | succ fuel =>
    have hcolumn : (place.column != indent) = true := by
      rw [hplace.column, bne_iff_ne]
      omega
    rw [readBlockLines, hcolumn]
    rfl

/-- A literal block has its line breaks also behind lines that begin with a blank. -/
theorem readBlockLines_afterBlank (afterBlank : Bool) (indent fuel : Nat)
    (lineEnd empty : List Char) (place : Cursor) :
    readBlockLines true indent fuel lineEnd afterBlank empty place =
      readBlockLines true indent fuel lineEnd false empty place := by
  cases fuel with
  | zero => rfl
  | succ fuel => rfl

/-- One line of a block, and the empty lines behind it. -/
theorem readBlockLines_step {fuel widest : Nat} {line empty next : List Char} {lineEnd : List Char}
    {b : Char} {place : Cursor} (hline : ∀ c ∈ line, isBreak c = false)
    (hb : isBreak b = true) (hp : isPrintable b = true)
    (hnext : readEmptyLines indent (fuel + 1) 0 ⟨tail, i + line.length + 1, l + 1, 0⟩ =
      some (next, widest, place)) :
    readBlockLines true indent (fuel + 1) lineEnd false empty ⟨line ++ b :: tail, i, l, indent⟩ =
      (readBlockLines true indent fuel [b] false next place).map fun lines =>
        { lines with text := lineEnd ++ empty ++ line ++ lines.text } := by
  have hempty : (line ++ b :: tail).isEmpty = false := by simp
  have hspan := @Cursor.span_append line (b :: tail) (fun ch => !isBreak ch)
    (fun c hc => by simp [hline c hc]) (by simp [hb]) i l indent
  rw [readBlockLines]
  simp only [bne_self_eq_false, hempty, Bool.or_self, Bool.false_eq_true, if_false, Bool.not_true,
    Bool.false_and, hspan, Cursor.lineBreak?_cons hb hp, hnext, readBlockLines_afterBlank]

/-- What stands behind the last line of a body: its line breaks, or the one of the writer. -/
theorem exists_blockChars_trail (hbreaks : AreBreaks breaks) (indent : Nat) :
    ∃ b more, blockChars indent false breaks = b :: more ∧ lineEndOf breaks = [b] ∧
      breaks.drop 1 = more ∧ AreBreaks (b :: more) ∧ more.length ≤ breaks.length := by
  cases breaks with
  | nil => exact ⟨'\n', [], rfl, rfl, rfl, by simp [AreBreaks]; decide, by simp⟩
  | cons b more =>
    exact ⟨b, more, blockChars_of_breaks (by simp) (fun c hc => (hbreaks c hc).1) false, rfl, rfl,
      hbreaks, by simp⟩

/-- Lines with line breaks between them, of which the first and the last one are not empty. -/
inductive IsBody : List Char → Prop
  | line {line : List Char} (hne : line ≠ []) (hline : ∀ c ∈ line, isBreak c = false)
    (hprintable : ∀ c ∈ line, isPrintable c = true) : IsBody line
  | lines {line empty more : List Char} {b : Char} (hne : line ≠ [])
    (hline : ∀ c ∈ line, isBreak c = false) (hprintable : ∀ c ∈ line, isPrintable c = true)
    (hbreaks : AreBreaks (b :: empty)) (hmore : IsBody more) :
    IsBody (line ++ b :: (empty ++ more))

namespace IsBody

/-- A body is not empty. -/
theorem ne_nil (h : IsBody body) : body ≠ [] := by
  cases h with
  | line hne => exact hne
  | lines => simp

/-- A body begins with a character that can be printed. -/
theorem head (h : IsBody body) : ∀ c ∈ body.head?, isBreak c = false ∧ isPrintable c = true := by
  cases h with
  | line hne hline hprintable =>
    exact fun c hc => ⟨hline c (List.mem_of_head? hc), hprintable c (List.mem_of_head? hc)⟩
  | @lines line _ _ _ hne hline hprintable =>
    obtain ⟨d, line, rfl⟩ := List.exists_cons_of_ne_nil hne
    rintro _ ⟨⟩
    exact ⟨hline d List.mem_cons_self, hprintable d List.mem_cons_self⟩

/-- A body does not end in a line break. -/
theorem last (h : IsBody body) : ∀ c ∈ body.getLast?, isBreak c = false := by
  induction h with
  | line hne hline => exact fun c hc => hline c (List.mem_of_getLast? hc)
  | lines _ _ _ _ hmore ih =>
    rw [List.getLast?_append, ← List.cons_append, List.getLast?_append,
      List.getLast?_eq_some_getLast hmore.ne_nil]
    exact fun c hc => ih c (by rw [List.getLast?_eq_some_getLast hmore.ne_nil]; simpa using hc)

/-- A printable text is a body, if no line break stands at either end. -/
theorem of_isPrintable (hne : body ≠ []) (hprintable : ∀ c ∈ body, isPrintable c = true)
    (hhead : ∀ c ∈ body.head?, isBreak c = false) (hlast : ∀ c ∈ body.getLast?, isBreak c = false) :
    IsBody body := by
  -- By induction on the length, since runs are cut off at once.
  induction hm : body.length using Nat.strongRecOn generalizing body with
  | ind m ih =>
    subst hm
    obtain ⟨c, body, rfl⟩ := List.exists_cons_of_ne_nil hne
    obtain ⟨line, rest, heq, -, hlineNe, hline, hrest⟩ :=
      @exists_run c (fun c => !isBreak c) (by simpa using hhead c rfl) body
    have hline : ∀ c ∈ line, isBreak c = false := by simpa using hline
    rw [heq] at hprintable hlast ih ⊢
    have hp : ∀ c ∈ line, isPrintable c = true := fun c hc => hprintable c (by simp [hc])
    rcases rest with _ | ⟨b, rest⟩
    · rw [List.append_nil]
      exact .line hlineNe hline hp
    · have hb : isBreak b = true := by simpa using hrest b rfl
      obtain ⟨empty, more, rfl, -, hempty, hmore⟩ := exists_span isBreak rest
      have hbreaks : ∀ c ∈ b :: empty, isBreak c = true := List.forall_mem_cons.mpr ⟨hb, hempty⟩
      have hmoreNe : more ≠ [] := by
        -- The text ends with no line break.
        rintro rfl
        have hend := hlast ((b :: empty).getLast (by simp))
          (by rw [List.append_nil, List.getLast?_append, List.getLast?_eq_some_getLast]; rfl)
        rw [hbreaks _ (List.getLast_mem _)] at hend
        exact Bool.noConfusion hend
      have hlength : more.length < (line ++ b :: (empty ++ more)).length := by
        simp only [List.length_append, List.length_cons]
        omega
      have hareBreaks : AreBreaks (b :: empty) := fun c hc =>
        ⟨hbreaks c hc, hprintable c (by
          rw [← List.cons_append]
          exact List.mem_append_right _ (List.mem_append_left _ hc))⟩
      refine .lines hlineNe hline hp hareBreaks
        (ih _ (heq ▸ hlength) hmoreNe (fun c hc => hprintable c (by simp [hc])) hmore
          (fun c hc => hlast c ?_) rfl)
      rw [List.getLast?_append, ← List.cons_append, List.getLast?_append, Option.mem_def.mp hc]
      rfl

end IsBody

/-- What a body begins with in a block, behind its indentation. -/
theorem head?_blockChars_body (h : IsBody body) (breaks tail : List Char) :
    ∀ c ∈ (blockChars indent false (body ++ breaks) ++ tail).head?, c ∈ body.head? := by
  have hhead := h.head
  obtain ⟨d, body, rfl⟩ := List.exists_cons_of_ne_nil h.ne_nil
  rw [List.cons_append, blockChars, if_neg (by simp [(hhead d rfl).1])]
  simp

/-- The lines of a body, with the line breaks behind it. -/
theorem readBlockLines_body (htail : IsLine tail n rest) (hn : n < indent)
    (hbreaks : AreBreaks breaks) (h : IsBody body) (fuel : Nat)
    (hfuel : body.length + breaks.length ≤ fuel) (lineEnd empty : List Char) :
    ∃ place, readBlockLines true indent fuel lineEnd false empty
        ⟨blockChars indent false (body ++ breaks) ++ tail, i, l, indent⟩ =
      some ⟨lineEnd ++ empty ++ body, lineEndOf breaks, breaks.drop 1, place⟩ ∧
        place.IsAt rest n := by
  induction h generalizing fuel lineEnd empty i l with
  | @line line hne hline =>
    have hpos := List.length_pos_iff.mpr hne
    obtain ⟨fuel, rfl⟩ : ∃ f, fuel = f + 1 := ⟨fuel - 1, by omega⟩
    obtain ⟨b, trail, hwritten, hend, hdrop, hb, hlength⟩ := exists_blockChars_trail hbreaks indent
    obtain ⟨⟨hb, hp⟩, htrail⟩ := List.forall_mem_cons.mp hb
    obtain ⟨widest, place, hnext, hplace⟩ := readEmptyLines_trail (i := i + line.length + 1)
      (l := l + 1) htail hn htrail (fuel + 1) (by omega) 0
    refine ⟨place, ?_, hplace⟩
    rw [blockChars_line hline, List.append_assoc, hwritten, List.cons_append,
      readBlockLines_step hline hb hp hnext, readBlockLines_end hplace hn, hend, hdrop]
    simp
  | @lines line blank more b hne hline _ hb hmore ih =>
    rw [List.length_append, List.length_cons, List.length_append] at hfuel
    have hpos := List.length_pos_iff.mpr hne
    obtain ⟨fuel, rfl⟩ : ∃ f, fuel = f + 1 := ⟨fuel - 1, by omega⟩
    obtain ⟨⟨hbreak, hp⟩, hblank⟩ := List.forall_mem_cons.mp hb
    have hhead c hc := hmore.head c (@head?_blockChars_body more indent hmore breaks tail c hc)
    have hnext := readEmptyLines_lead (i := i + line.length + 1) (l := l + 1)
      (Nat.zero_lt_of_lt hn) hblank (.inl rfl) hhead (fuel + 1) (by omega)
    obtain ⟨place, hread, hplace⟩ := @ih (i + line.length + 1 + blank.length + indent)
      (l + 1 + blank.length) fuel (by omega) [b] blank
    have hwritten : blockChars indent false (line ++ b :: (blank ++ more) ++ breaks) ++ tail =
        line ++ b :: (blank ++ (spaces indent ++
          (blockChars indent false (more ++ breaks) ++ tail))) := by
      have hrest := @blockChars_breaks (more ++ breaks) (b :: blank) indent (by simp)
        (fun c hc => (hb c hc).1) (by simp [hmore.ne_nil]) (fun c hc => (hmore.head c ?_).1) false
      · have hsplit : line ++ b :: (blank ++ more) ++ breaks =
            line ++ (b :: blank ++ (more ++ breaks)) := by simp
        rw [hsplit, blockChars_line hline, hrest]
        simp
      · rwa [List.head?_append_of_ne_nil _ hmore.ne_nil] at hc
    refine ⟨place, ?_, hplace⟩
    rw [hwritten, readBlockLines_step hline hbreak hp hnext, hread]
    simp

/-! ### Signs -/

/-- The sign for the end of a block is seen from its last two characters. -/
theorem chompingSign_concat (cs : List Char) (c : Char) :
    chompingSign (cs ++ [c]) =
      if !isBreak c then ['-'] else if cs.getLast?.all isBreak then ['+'] else [] := by
  rw [chompingSign, List.reverse_append, List.reverse_singleton, List.singleton_append,
    ← List.head?_reverse]

/-- The way of chomping that a sign stands for. -/
def chompingOf : List Char → Chomping
  | ['-'] => .strip
  | ['+'] => .keep
  | _ => .clip

/-- What of the line breaks at the end of a block belongs to its text. -/
def Chomping.kept (k : Chomping) (lineEnd empty : List Char) : List Char :=
  match k with
  | .strip => []
  | .clip => lineEnd
  | .keep => lineEnd ++ empty

/-- A block of line breaks has the sign to keep them. -/
theorem chompingSign_of_breaks (hne : cs ≠ []) (hcs : ∀ c ∈ cs, isBreak c = true) :
    chompingSign cs = ['+'] := by
  obtain ⟨before, c, rfl⟩ := (List.eq_nil_or_concat cs).resolve_left hne
  have hall : before.getLast?.all isBreak = true := by
    rw [Option.all_eq_true]
    exact fun d hd => hcs d (by simp [List.mem_of_getLast? hd])
  rw [List.concat_eq_append, chompingSign_concat, hcs c (by simp), hall]
  rfl

/-- The sign of a text tells which line breaks it ends with. -/
theorem kept_chompingOf (hne : cs ≠ []) (hlast : ∀ c ∈ cs.getLast?, isBreak c = false)
    (hbreaks : ∀ c ∈ breaks, isBreak c = true) :
    (chompingOf (chompingSign (cs ++ breaks))).kept (lineEndOf breaks) (breaks.drop 1) =
      breaks := by
  rcases breaks with _ | ⟨b, _ | ⟨b', more⟩⟩
  · obtain ⟨before, c, rfl⟩ := (List.eq_nil_or_concat cs).resolve_left hne
    have hc : isBreak c = false := hlast c (by simp)
    rw [List.append_nil, List.concat_eq_append, chompingSign_concat, hc]
    rfl
  · have hall : cs.getLast?.all isBreak = false := by
      rw [List.getLast?_eq_some_getLast hne]
      exact hlast _ (List.getLast?_eq_some_getLast hne)
    rw [chompingSign_concat, hbreaks b (by simp), hall]
    rfl
  · obtain ⟨before, c, hmore⟩ := (List.eq_nil_or_concat (b' :: more)).resolve_left (by simp)
    rw [List.concat_eq_append] at hmore
    have hc : isBreak c = true := hbreaks c (by simp [hmore])
    have hall : (cs ++ b :: before).getLast?.all isBreak = true := by
      rw [List.getLast?_append, List.getLast?_eq_some_getLast (List.cons_ne_nil b before)]
      refine hbreaks _ ?_
      rw [hmore, ← List.cons_append]
      exact List.mem_append_left _ (List.getLast_mem _)
    have hsplit : cs ++ b :: b' :: more = (cs ++ b :: before) ++ [c] := by rw [hmore]; simp
    rw [hsplit, chompingSign_concat, hc, hall]
    rfl

/-- A text that a reader of a block could not tell the indentation from. -/
def hidesIndent (cs : List Char) : Bool := cs.head?.any fun c => isSpace c || isBreak c

/-- At the end of a line, the next one begins. -/
theorem endOfLine?_newline :
    (⟨'\n' :: tail, i, l, k⟩ : Cursor).endOfLine? = some ⟨tail, i + 1, l + 1, 0⟩ := by
  have hbreak := @Cursor.lineBreak?_cons '\n' tail i l k (by decide) (by decide)
  simp [Cursor.endOfLine?, Cursor.skip, Cursor.past, Cursor.skipComment, Cursor.sees, isBlank,
    hbreak]

/-- The signs of a block are read back, and its first line begins behind them. -/
theorem blockHints_blockSigns (cs : List Char) :
    ∃ place, blockHints ⟨blockSigns cs ++ '\n' :: tail, i, l, k⟩ =
      (chompingOf (chompingSign cs), if hidesIndent cs then 2 else 0, place) ∧
        place.endOfLine? = some ⟨tail, place.index + 1, place.line + 1, 0⟩ := by
  have hsign : chompingSign cs = ['-'] ∨ chompingSign cs = ['+'] ∨ chompingSign cs = [] := by
    rw [chompingSign]
    split
    · simp
    · split_ifs <;> simp
  rw [blockSigns]
  change ∃ place, blockHints ⟨(if hidesIndent cs then ['2'] else []) ++ chompingSign cs ++
    '\n' :: tail, i, l, k⟩ = _ ∧ _
  cases hidesIndent cs <;> rcases hsign with h | h | h <;> rw [h] <;>
    exact ⟨_, rfl, endOfLine?_newline⟩

/-! ### Blocks -/

/-- A block, once its empty lines and its lines are read. -/
theorem readBlock_eq {parent : Nat} {place place' : Cursor} {hints : Chomping} {digit widest : Nat}
    {empty : List Char} {lines : BlockLines} (hindent : indent = parent + 2)
    (hhints : blockHints place = (hints, digit, place'))
    (hline : place'.endOfLine? = some ⟨tail, i, l, 0⟩) (hdigit : digit = 0 ∨ digit = 2)
    {start : Cursor}
    (hempty : readEmptyLines (if digit = 0 then 0 else indent) (tail.length + 1) 0
      ⟨tail, i, l, 0⟩ = some (empty, widest, start))
    (hwidest : digit = 0 → widest = indent)
    (hlines : readBlockLines true indent start.rest.length [] false empty start = some lines) :
    readBlock true parent place =
      some (lines.text ++ hints.kept lines.lineEnd lines.empty, lines.next) := by
  rw [readBlock]
  rcases hdigit with rfl | rfl
  · obtain rfl := hwidest rfl
    have hinferred : max (max widest ((parent : Int) + 1).toNat) 1 = widest := by omega
    simp only [hhints, hline, if_true] at hempty ⊢
    simp only [hempty, hinferred, hlines, Option.map_some]
    cases hints <;> rfl
  · have hwanted : (max (parent : Int) 0).toNat + 2 = indent := by omega
    have hne : indent ≠ 0 := by omega
    have htwo : ¬ 2 = 0 := by decide
    simp only [hhints, hline, hwanted, htwo, if_false] at hempty ⊢
    simp only [hempty, hne, if_false, hlines, Option.map_some]
    cases hints <;> rfl

/-- A text is line breaks, or line breaks around a body. -/
theorem exists_body (hprintable : ∀ c ∈ cs, isPrintable c = true) :
    AreBreaks cs ∨ ∃ lead body trail, cs = lead ++ (body ++ trail) ∧ AreBreaks lead ∧
      IsBody body ∧ AreBreaks trail := by
  obtain ⟨lead, rest, rfl, -, hlead, hrest⟩ := exists_span isBreak cs
  obtain ⟨trail, htrail, hbreaks⟩ := Text.exists_eq_trimEndOf_append isBreak rest
  cases hbody : Text.trimEndOf isBreak rest with
  | nil =>
    left
    rw [hbody, List.nil_append] at htrail
    subst htrail
    exact fun c hc => ⟨(List.mem_append.mp hc).elim (hlead c) (hbreaks c), hprintable c hc⟩
  | cons d body =>
    right
    have hlast := Text.trimEndOf_getLast? isBreak rest
    rw [hbody] at htrail hlast
    subst htrail
    have hhead : ∀ c ∈ (d :: body).head?, isBreak c = false := by
      rintro _ ⟨⟩
      exact hrest d rfl
    exact ⟨lead, d :: body, trail, rfl,
      fun c hc => ⟨hlead c hc, hprintable c (by simp [hc])⟩,
      .of_isPrintable (by simp)
        (fun c hc => hprintable c (List.mem_append_right _ (List.mem_append_left _ hc))) hhead
        fun c hc => hlast c hc,
      fun c hc => ⟨hbreaks c hc, hprintable c (by simp [hc])⟩⟩

/-- Line breaks are read back from a literal block. -/
theorem readBlock_breaks {parent : Nat} (htail : IsLine tail n rest) (hn : n < parent + 2)
    (hne : cs ≠ []) (hbreaks : AreBreaks cs) :
    ∃ place, readBlock true parent
        ⟨blockSigns cs ++ '\n' :: (blockChars (parent + 2) true cs ++ tail), i, l, k⟩ =
      some (cs, place) ∧ place.IsAt rest n := by
  have hall : ∀ c ∈ cs, isBreak c = true := fun c hc => (hbreaks c hc).1
  have hhides : hidesIndent cs = true := by
    obtain ⟨c, more, rfl⟩ := List.exists_cons_of_ne_nil hne
    simp [hidesIndent, hall c (by simp)]
  rw [blockChars_of_breaks hne hall]
  obtain ⟨signs, hhints, hend⟩ := @blockHints_blockSigns (cs ++ tail) i l k cs
  rw [hhides] at hhints
  obtain ⟨widest, place, hempty, hplace⟩ := readEmptyLines_trail (i := signs.index + 1)
    (l := signs.line + 1) htail hn hbreaks ((cs ++ tail).length + 1)
    (by rw [List.length_append]; omega) 0
  refine ⟨place, ?_, hplace⟩
  rw [readBlock_eq rfl hhints hend (.inr rfl) hempty (by simp)
    (readBlockLines_end hplace hn _ _ _), chompingSign_of_breaks hne hall]
  rfl

/-- Line breaks around a body are read back from a literal block. -/
theorem readBlock_body {parent : Nat} {lead trail : List Char} (htail : IsLine tail n rest)
    (hn : n < parent + 2) (hlead : AreBreaks lead) (hbody : IsBody body)
    (htrail : AreBreaks trail) :
    ∃ place, readBlock true parent ⟨blockSigns (lead ++ (body ++ trail)) ++
          '\n' :: (blockChars (parent + 2) true (lead ++ (body ++ trail)) ++ tail), i, l, k⟩ =
      some (lead ++ (body ++ trail), place) ∧ place.IsAt rest n := by
  have hhead c hc := hbody.head c (@head?_blockChars_body body (parent + 2) hbody trail tail c hc)
  have hwritten : blockChars (parent + 2) true (lead ++ (body ++ trail)) ++ tail =
      lead ++ (spaces (parent + 2) ++ (blockChars (parent + 2) false (body ++ trail) ++ tail)) := by
    rw [blockChars_lead (fun c hc => (hlead c hc).1) (by simp [hbody.ne_nil]) fun c hc => ?_]
    · simp
    · rw [List.head?_append_of_ne_nil _ hbody.ne_nil] at hc
      exact (hbody.head c hc).1
  rw [hwritten]
  obtain ⟨signs, hhints, hend⟩ := @blockHints_blockSigns
    (lead ++ (spaces (parent + 2) ++ (blockChars (parent + 2) false (body ++ trail) ++ tail))) i l k
    (lead ++ (body ++ trail))
  generalize hdigit : (if hidesIndent (lead ++ (body ++ trail)) then 2 else 0) = digit at hhints
  have hwanted : (if digit = 0 then 0 else parent + 2) = parent + 2 ∨
      (if digit = 0 then 0 else parent + 2) = 0 ∧ lead = [] ∧
        ∀ c ∈ (blockChars (parent + 2) false (body ++ trail) ++ tail).head?, c ≠ ' ' := by
    subst hdigit
    cases hhides : hidesIndent (lead ++ (body ++ trail)) with
    | true => exact .inl rfl
    | false =>
      -- Then the text begins with its first line, and not with a space.
      rcases lead with _ | ⟨b, lead⟩
      · refine .inr ⟨rfl, rfl, ?_⟩
        rintro _ hc rfl
        have hspace := head?_blockChars_body hbody trail tail _ hc
        obtain ⟨more, rfl⟩ := List.head?_eq_some_iff.mp hspace
        exact absurd hhides (by simp [hidesIndent, isSpace])
      · exact absurd hhides (by simp [hidesIndent, hlead b])
  have hlength := length_le_blockChars (parent + 2) false (body ++ trail)
  rw [List.length_append] at hlength
  obtain ⟨place, hlines, hplace⟩ := readBlockLines_body
    (i := signs.index + 1 + lead.length + (parent + 2)) (l := signs.line + 1 + lead.length)
    htail hn htrail hbody (blockChars (parent + 2) false (body ++ trail) ++ tail).length
    (by rw [List.length_append]; omega) [] lead
  refine ⟨place, ?_, hplace⟩
  have hlast : ∀ c ∈ (lead ++ body).getLast?, isBreak c = false := by
    rw [List.getLast?_append_of_ne_nil _ hbody.ne_nil]
    exact hbody.last
  have hkept := kept_chompingOf (by simp [hbody.ne_nil]) hlast fun c hc => (htrail c hc).1
  rw [List.append_assoc] at hkept
  have hdigits : digit = 0 ∨ digit = 2 := by
    rw [← hdigit]
    split <;> simp
  rw [readBlock_eq rfl hhints hend hdigits (readEmptyLines_lead (Nat.succ_pos _) hlead hwanted hhead
    _ (Nat.lt_succ_of_le (by simp))) (fun _ => rfl) hlines, hkept]
  simp

/-- A printable text is read back from a literal block. -/
theorem readBlock_literal {parent : Nat} (htail : IsLine tail n rest) (hn : n < parent + 2)
    (hne : cs ≠ []) (hprintable : ∀ c ∈ cs, isPrintable c = true) :
    ∃ place, readBlock true parent
        ⟨blockSigns cs ++ '\n' :: (blockChars (parent + 2) true cs ++ tail), i, l, k⟩ =
      some (cs, place) ∧ place.IsAt rest n := by
  rcases exists_body hprintable with hbreaks | ⟨lead, body, trail, rfl, hlead, hbody, htrail⟩
  · exact readBlock_breaks htail hn hne hbreaks
  · exact readBlock_body htail hn hlead hbody htrail

end InstrGraph.Yaml
