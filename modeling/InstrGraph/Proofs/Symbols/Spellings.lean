import InstrGraph.Proofs.Symbols.Ranking

/-!
# Spellings of one name

Counts are looked at entry by entry: whether one is frequent and whether it gets a place is settled
before spellings of one name are taken together. So two spellings of a name have two counts, either
of which may be too small although their sum is not, and they may take two places.

Whether one more entry gets a place depends on its rank alone, and it leaves one place less to the
others (`mem_selectCommon_cons`). So two spellings of a name take none, one or two places
(`Counts.taken`) and their sum takes none or one, and the others have those that are left. Which
names are common is the same with the sum exactly if this makes no difference to any name
(`Counts.Mergeable`).
-/

namespace InstrGraph

namespace Config.Frequency

/-- The bounds with some places less. -/
def fewer (config : Config.Frequency) (j : Nat) : Config.Frequency :=
  { config with topK := config.topK.map (· - j) }

variable {config : Config.Frequency} {i j n : Nat}

/-- With none fewer, the configuration is the same. -/
@[simp] theorem fewer_zero : config.fewer 0 = config := by
  obtain ⟨constantsPath, callsPath, minCount, topK⟩ := config
  cases topK <;> rfl

/-- Fewer twice is fewer by the sum. -/
theorem fewer_fewer : (config.fewer i).fewer j = config.fewer (i + j) := by
  simp only [fewer, Option.map_map, Function.comp_def, Nat.sub_sub]

/-- With fewer entries before it, an entry may still be common. -/
theorem Admits.mono (h : config.Admits n) (hle : i ≤ n) : config.Admits i :=
  fun k hk => hle.trans_lt (h k hk)

variable {s t : List (String × Nat)} {e x : String × Nat}

/-- An entry within the bound takes a place, and the others have one less. -/
theorem mem_cut_insert (h : config.Admits s.length) :
    x ∈ config.cut (s ++ e :: t) ↔ x = e ∨ x ∈ (config.fewer 1).cut (s ++ t) := by
  simp only [cut, fewer]
  cases hk : config.topK with
  | none =>
    simp only [Option.map_none, List.mem_append, List.mem_cons]
    tauto
  | some k =>
    have hlt : s.length < k := h k hk
    obtain ⟨r, rfl⟩ : ∃ r, k = s.length + r + 1 := ⟨k - s.length - 1, by omega⟩
    simp only [Option.map_some, Nat.add_sub_cancel]
    rw [Nat.add_assoc, List.take_length_add_append, List.take_length_add_append,
      List.take_succ_cons]
    simp only [List.mem_append, List.mem_cons]
    tauto

/-- An entry behind the bound changes nothing. -/
theorem cut_insert (h : ¬ config.Admits s.length) :
    config.cut (s ++ e :: t) = config.cut (s ++ t) := by
  rw [Admits] at h
  push Not at h
  obtain ⟨k, hk, hle⟩ := h
  have hk : config.topK = some k := hk
  simp only [cut, hk]
  rw [List.take_append_of_le_length hle, List.take_append_of_le_length hle]

end Config.Frequency

section

variable {config : Config.Frequency} {normalize : String → String} {counts rest : Counts}
  {a b c v w : String} {e : String × Nat} {i j m n : Nat}

/-! ### One more entry -/

/-- A count that is large enough makes one frequent entry more. -/
theorem frequentEntries_cons (h : config.minCount ≤ e.2) :
    frequentEntries config normalize (e :: rest) =
      (normalize e.1, e.2) :: frequentEntries config normalize rest := by
  rw [frequentEntries, List.filter_cons_of_pos (by simpa using h)]
  rfl

/-- A count that is too small makes no frequent entry. -/
theorem frequentEntries_cons_of_lt (h : ¬ config.minCount ≤ e.2) :
    frequentEntries config normalize (e :: rest) = frequentEntries config normalize rest := by
  rw [frequentEntries, List.filter_cons_of_neg (by simpa using h)]
  rfl

/-- A frequent entry is ranked behind those that come strictly before it, and the others keep their
order. -/
theorem exists_ranking_cons (h : config.minCount ≤ e.2) :
    ∃ s t, ranking config normalize (e :: rest) = s ++ (normalize e.1, e.2) :: t ∧
      ranking config normalize rest = s ++ t ∧
      s.length = rest.ahead config normalize (normalize e.1, e.2) := by
  have hperm : (ranking config normalize (e :: rest)).Perm _ := ranking_perm
  rw [frequentEntries_cons h] at hperm
  obtain ⟨s, t, hsplit, hnew⟩ :=
    List.eq_append_cons_of_mem (hperm.mem_iff.mpr List.mem_cons_self)
  have hranked : Ranked (ranking config normalize (e :: rest)) := ranked_ranking
  generalize (normalize e.1, e.2) = x at *
  rw [hsplit] at hperm hranked
  have hsub : Ranked (s ++ t) := hranked.sublist (by simp)
  have heq : ranking config normalize rest = s ++ t := by
    refine ranked_ranking.eq_of_perm hsub (ranking_perm.trans ?_)
    exact ((List.perm_middle.symm.trans hperm).cons_inv).symm
  refine ⟨s, t, hsplit, heq, ?_⟩
  obtain ⟨-, htail, hcross⟩ := List.pairwise_append.mp hranked
  have hbefore : ∀ y ∈ s, decide (Outranks y x) = true := by
    intro y hy
    have hle := rankedBefore_iff.mp (hcross y hy x List.mem_cons_self)
    have hne : y ≠ x := fun hyx => hnew (hyx ▸ hy)
    exact decide_eq_true ((outranks_or_eq hle).resolve_right hne)
  have hbehind : ∀ y ∈ t, ¬ decide (Outranks y x) = true := by
    intro y hy
    simpa using rankedBefore_iff.mp ((List.pairwise_cons.mp htail).1 y hy)
  rw [← countP_ranking, heq, List.countP_append, List.countP_eq_length.mpr hbefore,
    List.countP_eq_zero.mpr hbehind, Nat.add_zero]

/-- An entry of a given name and count is frequent and gets a place among the others. -/
def Counts.Places (rest : Counts) (config : Config.Frequency) (normalize : String → String)
    (e : String × Nat) : Prop :=
  config.minCount ≤ e.2 ∧ config.Admits (rest.ahead config normalize e)

instance : Decidable (rest.Places config normalize e) := inferInstanceAs (Decidable (_ ∧ _))

/-- One more entry makes its name common if it gets a place, which the others then lack. -/
theorem mem_selectCommon_cons :
    w ∈ selectCommon config normalize (e :: rest) ↔
      if rest.Places config normalize (normalize e.1, e.2) then
        w = normalize e.1 ∨ w ∈ selectCommon (config.fewer 1) normalize rest
      else w ∈ selectCommon config normalize rest := by
  simp only [selectCommon_eq, List.mem_eraseDups, List.mem_map]
  by_cases hcount : config.minCount ≤ e.2
  · obtain ⟨s, t, hnew, hold, hlen⟩ :
        ∃ s t, ranking config normalize (e :: rest) = s ++ (normalize e.1, e.2) :: t ∧
          ranking config normalize rest = s ++ t ∧
          s.length = rest.ahead config normalize (normalize e.1, e.2) :=
      exists_ranking_cons hcount
    have hfewer : ranking (config.fewer 1) normalize rest = s ++ t := hold
    have hplaces : rest.Places config normalize (normalize e.1, e.2) ↔ config.Admits s.length := by
      rw [Counts.Places, hlen]
      exact and_iff_right hcount
    rw [hnew, hold, hfewer]
    by_cases hk : config.Admits s.length
    · rw [if_pos (hplaces.mpr hk)]
      simp only [Config.Frequency.mem_cut_insert hk, or_and_right, exists_or, exists_eq_left]
      exact or_congr_left eq_comm
    · rw [if_neg fun h => hk (hplaces.mp h), Config.Frequency.cut_insert hk]
  · rw [if_neg fun h => hcount h.1, ranking, frequentEntries_cons_of_lt hcount]
    rfl

/-! ### Two spellings -/

/-- How many places two entries of one name take, of which the first one has the larger count. -/
def Counts.taken (rest : Counts) (config : Config.Frequency) (normalize : String → String)
    (v : String) (m n : Nat) : Nat :=
  if rest.Places config normalize (v, m) then
    if rest.Places (config.fewer 1) normalize (v, n) then 2 else 1
  else 0

/-- A smaller count of the same name is no better. -/
theorem Counts.Places.mono (h : rest.Places config normalize (v, n)) (hle : n ≤ m) :
    rest.Places config normalize (v, m) := by
  refine ⟨h.1.trans hle, h.2.mono ?_⟩
  refine List.countP_mono_left fun x _ hx => ?_
  simp only [decide_eq_true_eq] at hx ⊢
  refine ⟨hx.1, ?_⟩
  rcases hx.2 with hlt | ⟨heq, hname⟩
  · exact Or.inl (hle.trans_lt hlt)
  · rcases hle.eq_or_lt with rfl | hlt
    · exact Or.inr ⟨heq, hname⟩
    · exact Or.inl (heq ▸ hlt)

/-- An entry does not come before another one of its name with a larger count. -/
theorem places_cons (hb : normalize b = v) (hle : n ≤ m) :
    Counts.Places ((b, n) :: rest) config normalize (v, m) ↔
      rest.Places config normalize (v, m) := by
  have hbehind : ¬ Outranks (v, n) (v, m) := by
    rintro (hlt | ⟨-, hname⟩)
    · exact absurd hle (Nat.not_le.mpr hlt)
    · exact String.lt_irrefl _ hname
  rw [Counts.Places, Counts.Places, Counts.ahead, Counts.ahead, List.countP_cons_of_neg]
  simp [hb, hbehind]

/-- Two entries of one name take their places, and the others have those that are left. -/
theorem mem_selectCommon_two (ha : normalize a = v) (hb : normalize b = v) (hle : n ≤ m) :
    w ∈ selectCommon config normalize ((a, m) :: (b, n) :: rest) ↔
      w = v ∧ 0 < rest.taken config normalize v m n ∨
        w ∈ selectCommon (config.fewer (rest.taken config normalize v m n)) normalize rest := by
  rw [mem_selectCommon_cons, ha, Counts.taken]
  by_cases hm : rest.Places config normalize (v, m)
  · rw [if_pos ((places_cons hb hle).mpr hm), if_pos hm, mem_selectCommon_cons, hb]
    by_cases hn : rest.Places (config.fewer 1) normalize (v, n)
    · rw [if_pos hn, if_pos hn, Config.Frequency.fewer_fewer]
      simp
    · rw [if_neg hn, if_neg hn]
      simp
  · have hn : ¬ rest.Places config normalize (v, n) := fun h => hm (h.mono hle)
    rw [if_neg fun h => hm ((places_cons hb hle).mp h), if_neg hm, mem_selectCommon_cons, hb,
      if_neg hn]
    simp

/-- How many places one entry takes. -/
def Counts.takenByOne (rest : Counts) (config : Config.Frequency) (normalize : String → String)
    (v : String) (m : Nat) : Nat :=
  if rest.Places config normalize (v, m) then 1 else 0

/-- One more spelling of a name takes at most one place from the others, and brings its name if it
gets that place. -/
theorem mem_selectCommon_one (hc : normalize c = v) :
    w ∈ selectCommon config normalize ((c, m) :: rest) ↔
      w = v ∧ 0 < rest.takenByOne config normalize v m ∨
        w ∈ selectCommon (config.fewer (rest.takenByOne config normalize v m)) normalize rest := by
  rw [mem_selectCommon_cons, hc, Counts.takenByOne]
  by_cases hm : rest.Places config normalize (v, m)
  · rw [if_pos hm, if_pos hm]
    simp
  · rw [if_neg hm, if_neg hm]
    simp

/-- With more places to have, no name is lost. -/
theorem Counts.Selects.of_fewer (h : rest.Selects (config.fewer j) normalize w) (hij : i ≤ j) :
    rest.Selects (config.fewer i) normalize w := by
  refine h.mono le_rfl fun k' hk' => ?_
  obtain ⟨k, hk, rfl⟩ := Option.map_eq_some_iff.mp hk'
  exact ⟨k - j, Option.map_eq_some_iff.mpr ⟨k, hk, rfl⟩, Nat.sub_le_sub_left hij k⟩

/-- It makes no difference whether two entries of the name `v` stand among the others or one with
the sum of their counts: if only the sum gets a place, `v` has one anyway, and a place that is taken
on one side only is of no use to a name that has none. -/
def Counts.Mergeable (rest : Counts) (config : Config.Frequency) (normalize : String → String)
    (v : String) (m n : Nat) : Prop :=
  let j := rest.taken config normalize v m n
  let j' := rest.takenByOne config normalize v (m + n)
  (j < j' → rest.Selects config normalize v) ∧
    ∀ e ∈ rest, rest.Selects (config.fewer (min j j')) normalize (normalize e.1) →
      normalize e.1 = v ∨ rest.Selects (config.fewer (max j j')) normalize (normalize e.1)

instance : Decidable (rest.Mergeable config normalize v m n) :=
  inferInstanceAs (Decidable (_ ∧ ∀ e ∈ rest, _))

/-- If an entry has a place, so has the sum of its count and another one. -/
theorem takenByOne_pos_of_taken_pos (h : 0 < rest.taken config normalize v m n) :
    0 < rest.takenByOne config normalize v (m + n) := by
  rw [Counts.taken] at h
  split at h
  · rename_i hm
    rw [Counts.takenByOne, if_pos (hm.mono (Nat.le_add_right m n))]
    exact Nat.one_pos
  · cases h

/-- One spelling takes at most one place. -/
theorem takenByOne_le_one : rest.takenByOne config normalize v m ≤ 1 := by
  rw [Counts.takenByOne]
  split <;> omega

/-- If whoever has a place with the smaller number taken, other than the name `v`, has one with the
larger number too, then it is the same with either number. -/
theorem selects_fewer_iff (h : ∀ e ∈ rest,
      rest.Selects (config.fewer (min i j)) normalize (normalize e.1) →
        normalize e.1 = v ∨ rest.Selects (config.fewer (max i j)) normalize (normalize e.1))
    (hw : w ≠ v) :
    rest.Selects (config.fewer i) normalize w ↔ rest.Selects (config.fewer j) normalize w := by
  have hmax : ∀ k, min i j ≤ k → rest.Selects (config.fewer k) normalize w →
      rest.Selects (config.fewer (max i j)) normalize w := by
    intro k hk hs
    have hleast := hs.of_fewer hk
    obtain ⟨e, he, -, rfl, -⟩ := hs
    exact (h e he hleast).resolve_left hw
  constructor
  · intro hs
    exact (hmax i (Nat.min_le_left i j) hs).of_fewer (Nat.le_max_right i j)
  · intro hs
    exact (hmax j (Nat.min_le_right i j) hs).of_fewer (Nat.le_max_left i j)

/-- Two entries may be one with the sum of their counts exactly if they are mergeable. -/
theorem selectCommon_merge_iff (h : counts.Perm ((a, m) :: (b, n) :: rest)) (hle : n ≤ m)
    (hb : normalize b = normalize a) (hc : normalize c = normalize a) :
    (∀ w, w ∈ selectCommon config normalize ((c, m + n) :: rest) ↔
      w ∈ selectCommon config normalize counts) ↔
        rest.Mergeable config normalize (normalize a) m n := by
  generalize hv : normalize a = v at hb hc ⊢
  have hpos : 0 < rest.taken config normalize v m n →
      0 < rest.takenByOne config normalize v (m + n) := takenByOne_pos_of_taken_pos
  have hone : rest.takenByOne config normalize v (m + n) ≤ 1 := takenByOne_le_one
  rw [selectCommon_eq_of_perm h]
  simp only [mem_selectCommon_two hv hb hle, mem_selectCommon_one hc, mem_selectCommon_iff,
    Counts.Mergeable]
  generalize rest.taken config normalize v m n = j at hpos ⊢
  generalize rest.takenByOne config normalize v (m + n) = j' at hpos hone ⊢
  constructor
  · intro hsame
    refine ⟨fun hlt => ?_, fun e he hs => ?_⟩
    · obtain rfl : j = 0 := by omega
      simpa using (hsame v).mp (Or.inl ⟨rfl, hlt⟩)
    · have hsame := hsame (normalize e.1)
      rcases le_total j j' with hjj | hjj
      · rw [Nat.min_eq_left hjj] at hs
        rw [Nat.max_eq_right hjj]
        exact (hsame.mpr (Or.inr hs)).imp_left And.left
      · rw [Nat.min_eq_right hjj] at hs
        rw [Nat.max_eq_left hjj]
        exact (hsame.mp (Or.inr hs)).imp_left And.left
  · rintro ⟨hv, hothers⟩ w
    by_cases hw : w = v
    · subst hw
      rcases Nat.eq_zero_or_pos j with rfl | hj
      · rcases Nat.eq_zero_or_pos j' with rfl | hj'
        · rfl
        · have hown : rest.Selects (config.fewer 0) normalize w := by simpa using hv hj'
          exact iff_of_true (Or.inl ⟨rfl, hj'⟩) (Or.inr hown)
      · exact iff_of_true (Or.inl ⟨rfl, hpos hj⟩) (Or.inl ⟨rfl, hj⟩)
    · rw [selects_fewer_iff hothers hw]
      simp [hw]

/-- Without a bound on the places it matters only whether the sum is frequent where neither count is
and no other spelling is. -/
theorem mergeable_iff_of_topK_eq_none (h : config.topK = none) :
    rest.Mergeable config normalize v m n ↔
      (config.minCount ≤ m + n → config.minCount ≤ m ∨ rest.Selects config normalize v) := by
  have hfewer : ∀ k, config.fewer k = config := by
    intro k
    obtain ⟨constantsPath, callsPath, minCount, topK⟩ := config
    obtain rfl : topK = none := h
    rfl
  have hplaces : ∀ e, rest.Places config normalize e ↔ config.minCount ≤ e.2 := by
    intro e
    rw [Counts.Places, Config.Frequency.Admits, h]
    simp
  simp only [Counts.Mergeable, Counts.taken, Counts.takenByOne, hfewer, hplaces]
  rw [and_iff_left fun e _ hs => Or.inr hs]
  by_cases hm : config.minCount ≤ m
  · have hsum : config.minCount ≤ m + n := hm.trans (Nat.le_add_right m n)
    refine iff_of_true (fun hlt => ?_) fun _ => Or.inl hm
    rw [if_pos hm, if_pos hsum] at hlt
    split at hlt <;> omega
  · by_cases hsum : config.minCount ≤ m + n
    · simp [hm, hsum]
    · simp [hm, hsum]

end

/-! ### The tables -/

namespace FrequencyTables

/-- Whether the tables stay as they are when two entries for one constant, or for one callee, become
one entry with the sum of their counts. They do exactly if the entries are mergeable among the
others. -/
theorem spellings_merge_iff {counts rest : Counts} {a b c : String} {m n : Nat}
    (h : counts.Perm ((a, m) :: (b, n) :: rest)) (hle : n ≤ m) (others : Counts)
    (config : Config.Frequency) :
    (normalizeConstant b = normalizeConstant a → normalizeConstant c = normalizeConstant a →
      ((∀ v, v ∈ (ofCounts ((c, m + n) :: rest) others config).constants ↔
          v ∈ (ofCounts counts others config).constants) ↔
        rest.Mergeable config normalizeConstant (normalizeConstant a) m n)) ∧
    (normalizeCall b = normalizeCall a → normalizeCall c = normalizeCall a →
      ((∀ v, v ∈ (ofCounts others ((c, m + n) :: rest) config).calls ↔
          v ∈ (ofCounts others counts config).calls) ↔
        rest.Mergeable config normalizeCall (normalizeCall a) m n)) :=
  ⟨fun hb hc => selectCommon_merge_iff h hle hb hc, fun hb hc => selectCommon_merge_iff h hle hb hc⟩

/-- The counts of a constant with two spellings, and of another one with a count between theirs. -/
def spelledCounts : Counts := [("7", 4), ("42", 3), ("i32 42", 5)]

/-- Only one of the spellings gets a place, and their sum takes the same one. -/
theorem spellings_merge_iff_of_spelledCounts :
    spelledCounts.Perm [("i32 42", 5), ("42", 3), ("7", 4)] ∧
      normalizeConstant "42" = normalizeConstant "i32 42" ∧
      ∀ v, v ∈ (ofCounts [("42", 8), ("7", 4)] [] twoPlaces).constants ↔
        v ∈ (ofCounts spelledCounts [] twoPlaces).constants := by
  have hperm : spelledCounts.Perm (("i32 42", 5) :: ("42", 3) :: [("7", 4)]) := by decide +kernel
  have hname : normalizeConstant "42" = normalizeConstant "i32 42" := by decide +kernel
  refine ⟨hperm, hname, ?_⟩
  have hmerge := (spellings_merge_iff hperm (c := "42") (by decide) [] twoPlaces).1 hname hname
  exact hmerge.mpr (by decide +kernel)

/-- Two spellings may keep a name from being common: neither count of the constant is large enough
although their sum is. And they may keep out another name: the two spellings of one callee take both
places. -/
theorem common_lost_of_spellings :
    normalizeConstant "i32 42" = normalizeConstant "42" ∧
      normalizeCall "printf" = normalizeCall "@printf" ∧
      (ofCounts [("i32 42", 1), ("42", 1)] [] { minCount := 2 }).isCommonConstant "42" = false ∧
      (ofCounts [("42", 2)] [] { minCount := 2 }).isCommonConstant "42" = true ∧
      (ofCounts [] [("printf", 5), ("@printf", 5), ("free", 4)] twoPlaces).isCommonCall "@free" =
        false ∧
      (ofCounts [] [("printf", 10), ("free", 4)] twoPlaces).isCommonCall "@free" = true := by
  refine ⟨by decide +kernel, by decide +kernel, ?_, ?_, ?_, ?_⟩
  · rw [Bool.eq_false_iff, ne_eq, isCommonConstant_iff]
    decide +kernel
  · rw [isCommonConstant_iff]
    decide +kernel
  · rw [Bool.eq_false_iff, ne_eq, isCommonCall_iff]
    decide +kernel
  · rw [isCommonCall_iff]
    decide +kernel

end FrequencyTables

end InstrGraph
