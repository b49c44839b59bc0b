import InstrGraph.Symbols.Frequency
import Mathlib.Data.List.Sort

/-!
# Which names are common

The entries of a table of counts are ranked by a linear order: of two different entries one comes
strictly before the other (`Outranks`). So the ranked list does not depend on the order in which the
entries are listed (`ranking_eq_of_perm`), and an entry is among the first `k` of the list exactly
if fewer than `k` entries come strictly before it (`Ranked.mem_take_iff`), however many are equal to
it.

Hence a name is common exactly if one of its entries is frequent and has few enough entries before
it (`mem_selectCommon_iff`). An entry with a smaller count never comes before one with a larger
count, so a smaller least count takes no name away.
-/

namespace InstrGraph

/-- One entry comes strictly before another in the ranking: it has the larger count, or the same
count and the smaller name. -/
def Outranks (a b : String × Nat) : Prop := b.2 < a.2 ∨ a.2 = b.2 ∧ a.1 < b.1

instance (a b : String × Nat) : Decidable (Outranks a b) :=
  inferInstanceAs (Decidable (_ ∨ _))

section

variable {a b c e : String × Nat} {l : List (String × Nat)} {k : Nat}

/-- The ranking puts an entry before those that do not outrank it. -/
theorem rankedBefore_iff : rankedBefore a b = true ↔ ¬ Outranks b a := by
  simp only [rankedBefore, Outranks, Bool.or_eq_true, Bool.and_eq_true, decide_eq_true_eq,
    Bool.not_eq_true', decide_eq_false_iff_not, beq_iff_eq]
  constructor
  · rintro (h | ⟨h, hle⟩) (h' | ⟨h', hlt⟩)
    · omega
    · omega
    · omega
    · exact hle hlt
  · intro h
    by_cases hlt : b.2 < a.2
    · exact Or.inl hlt
    · have heq : a.2 = b.2 := by
        by_contra hne
        exact h (Or.inl (by omega))
      exact Or.inr ⟨heq, fun hname => h (Or.inr ⟨heq.symm, hname⟩)⟩

/-- No entry outranks itself. -/
theorem not_outranks_self (a : String × Nat) : ¬ Outranks a a := by
  rintro (h | ⟨-, h⟩)
  · omega
  · exact String.lt_irrefl _ h

/-- What outranks an entry outranks those that the entry outranks. -/
theorem Outranks.trans (h : Outranks a b) (h' : Outranks b c) : Outranks a c := by
  rcases h with h | ⟨heq, h⟩
  · rcases h' with h' | ⟨heq', -⟩
    · exact Or.inl (by omega)
    · exact Or.inl (by omega)
  · rcases h' with h' | ⟨heq', h'⟩
    · exact Or.inl (by omega)
    · exact Or.inr ⟨heq.trans heq', String.lt_trans h h'⟩

/-- Different entries are never level. -/
theorem outranks_or_eq (h : ¬ Outranks b a) : Outranks a b ∨ a = b := by
  obtain ⟨name, n⟩ := a
  obtain ⟨name', n'⟩ := b
  simp only [Outranks, not_or, not_and] at h ⊢
  obtain ⟨hle, hname⟩ := h
  by_cases hlt : n' < n
  · exact Or.inl (Or.inl hlt)
  · obtain rfl : n = n' := by omega
    by_cases hlt' : name < name'
    · exact Or.inl (Or.inr ⟨rfl, hlt'⟩)
    · refine Or.inr ?_
      rw [String.le_antisymm (String.not_lt.mp (hname rfl)) (String.not_lt.mp hlt')]

/-- The ranking is transitive. -/
theorem rankedBefore_trans (h : rankedBefore a b = true) (h' : rankedBefore b c = true) :
    rankedBefore a c = true := by
  rw [rankedBefore_iff] at h h' ⊢
  intro hca
  rcases outranks_or_eq h with hab | rfl
  · exact h' (hca.trans hab)
  · exact h' hca

/-- The ranking compares any two entries. -/
theorem rankedBefore_total (a b : String × Nat) :
    (rankedBefore a b || rankedBefore b a) = true := by
  rw [Bool.or_eq_true, rankedBefore_iff, rankedBefore_iff]
  by_cases h : Outranks b a
  · exact Or.inr fun h' => not_outranks_self a (h'.trans h)
  · exact Or.inl h

/-- Two entries that the ranking puts before each other are the same. -/
theorem rankedBefore_antisymm (h : rankedBefore a b = true) (h' : rankedBefore b a = true) :
    a = b := by
  rw [rankedBefore_iff] at h h'
  exact (outranks_or_eq h).resolve_left h'

/-! ### Ranked lists -/

/-- No entry comes before an earlier one. -/
def Ranked (l : List (String × Nat)) : Prop := l.Pairwise fun a b => rankedBefore a b = true

/-- Sorting makes a ranked list. -/
theorem ranked_mergeSort (l : List (String × Nat)) : Ranked (l.mergeSort rankedBefore) :=
  @List.pairwise_mergeSort _ rankedBefore (fun _ _ _ h h' => rankedBefore_trans h h')
    rankedBefore_total l

/-- There is one way to rank entries. -/
theorem Ranked.eq_of_perm {l' : List (String × Nat)} (h : Ranked l) (h' : Ranked l')
    (hp : l.Perm l') : l = l' :=
  hp.eq_of_pairwise (fun _ _ _ _ => rankedBefore_antisymm) h h'

/-- No entry comes strictly before the first one. -/
theorem Ranked.countP_head (h : Ranked (a :: l)) : (a :: l).countP (Outranks · a) = 0 := by
  rw [List.countP_eq_zero]
  intro x hx
  rcases List.mem_cons.mp hx with rfl | hx
  · simpa using not_outranks_self x
  · simpa using rankedBefore_iff.mp ((List.pairwise_cons.mp h).1 x hx)

/-- An entry is among the first of a ranked list exactly if few enough come strictly before it, by
induction on the list. -/
theorem Ranked.mem_take_iff (h : Ranked l) (he : e ∈ l) :
    e ∈ l.take k ↔ l.countP (Outranks · e) < k := by
  induction l generalizing k with
  | nil => cases he
  | cons a rest ih =>
    cases k with
    | zero => simp
    | succ k =>
      rw [List.take_succ_cons, List.mem_cons]
      by_cases hea : e = a
      · subst hea
        rw [h.countP_head]
        exact iff_of_true (Or.inl rfl) k.succ_pos
      · have hrest : e ∈ rest := (List.mem_cons.mp he).resolve_left hea
        have hbefore := rankedBefore_iff.mp ((List.pairwise_cons.mp h).1 e hrest)
        have hfirst : Outranks a e := (outranks_or_eq hbefore).resolve_right (Ne.symm hea)
        rw [List.countP_cons_of_pos (by simpa using hfirst), Nat.add_lt_add_iff_right,
          ← ih h.of_cons hrest]
        exact or_iff_right hea

end

/-! ### The ranking of counts -/

namespace Config.Frequency

/-- An entry may be common with so many entries strictly before it. -/
def Admits (config : Config.Frequency) (n : Nat) : Prop := ∀ k ∈ config.topK, n < k

instance (config : Config.Frequency) (n : Nat) : Decidable (config.Admits n) :=
  inferInstanceAs (Decidable (∀ k ∈ config.topK, n < k))

/-- The part of a ranked list that is common. -/
def cut (config : Config.Frequency) (l : List (String × Nat)) : List (String × Nat) :=
  match config.topK with
  | some k => l.take k
  | none => l

/-- An entry of a ranked list is in the common part if there may be so many entries before it. -/
theorem mem_cut_iff {config : Config.Frequency} {l : List (String × Nat)} {e : String × Nat}
    (h : Ranked l) (he : e ∈ l) : e ∈ config.cut l ↔ config.Admits (l.countP (Outranks · e)) := by
  rw [cut, Admits]
  cases config.topK with
  | none => simpa using he
  | some k => simpa using h.mem_take_iff he

/-- The common part of a list is part of it. -/
theorem mem_of_mem_cut {config : Config.Frequency} {l : List (String × Nat)} {e : String × Nat}
    (h : e ∈ config.cut l) : e ∈ l := by
  rw [cut] at h
  cases hk : config.topK with
  | none => simpa [hk] using h
  | some k => exact List.mem_of_mem_take (by simpa [hk] using h)

end Config.Frequency

section

variable {config config' : Config.Frequency} {normalize : String → String} {counts counts' : Counts}
  {v : String} {n : Nat}

/-- The frequent entries by their normalized names. -/
def frequentEntries (config : Config.Frequency) (normalize : String → String) (counts : Counts) :
    List (String × Nat) :=
  (counts.filter fun e => e.2 ≥ config.minCount).map fun e => (normalize e.1, e.2)

/-- The frequent entries in the order of the ranking. -/
def ranking (config : Config.Frequency) (normalize : String → String) (counts : Counts) :
    List (String × Nat) :=
  (frequentEntries config normalize counts).mergeSort rankedBefore

/-- The common names are those in the common part of the ranking, each once. -/
theorem selectCommon_eq (config : Config.Frequency) (normalize : String → String)
    (counts : Counts) : selectCommon config normalize counts =
      ((config.cut (ranking config normalize counts)).map Prod.fst).eraseDups := rfl

/-- The ranking is ranked. -/
theorem ranked_ranking : Ranked (ranking config normalize counts) := ranked_mergeSort _

/-- The ranking has the frequent entries, in another order. -/
theorem ranking_perm :
    (ranking config normalize counts).Perm (frequentEntries config normalize counts) :=
  List.mergeSort_perm _ _

/-- The ranking does not depend on the order of the counts. -/
theorem ranking_eq_of_perm (h : counts.Perm counts') :
    ranking config normalize counts = ranking config normalize counts' := by
  refine ranked_ranking.eq_of_perm ranked_ranking ?_
  exact ranking_perm.trans (((h.filter _).map _).trans ranking_perm.symm)

/-- The common names do not depend on the order of the counts. -/
theorem selectCommon_eq_of_perm (h : counts.Perm counts') :
    selectCommon config normalize counts = selectCommon config normalize counts' := by
  rw [selectCommon_eq, selectCommon_eq, ranking_eq_of_perm h]

/-- How many frequent entries come strictly before a given one. -/
def Counts.ahead (counts : Counts) (config : Config.Frequency) (normalize : String → String)
    (e : String × Nat) : Nat :=
  counts.countP fun x => config.minCount ≤ x.2 ∧ Outranks (normalize x.1, x.2) e

/-- The entries before another one are counted in the ranking as they are in the counts. -/
theorem countP_ranking (e : String × Nat) :
    (ranking config normalize counts).countP (Outranks · e) =
      counts.ahead config normalize e := by
  rw [ranking_perm.countP_eq, frequentEntries, List.countP_map, List.countP_filter, Counts.ahead]
  refine List.countP_congr fun x _ => ?_
  simp [and_comm]

/-- Some frequent entry of the name has few enough frequent entries strictly before it. -/
def Counts.Selects (counts : Counts) (config : Config.Frequency) (normalize : String → String)
    (v : String) : Prop :=
  ∃ e ∈ counts, config.minCount ≤ e.2 ∧ normalize e.1 = v ∧
    config.Admits (counts.ahead config normalize (v, e.2))

instance : Decidable (counts.Selects config normalize v) :=
  inferInstanceAs (Decidable (∃ e ∈ counts, _))

/-- A name is common just if the counts select it. -/
theorem mem_selectCommon_iff :
    v ∈ selectCommon config normalize counts ↔ counts.Selects config normalize v := by
  rw [selectCommon_eq, List.mem_eraseDups, List.mem_map]
  constructor
  · rintro ⟨e, hcut, rfl⟩
    have hmem := Config.Frequency.mem_of_mem_cut hcut
    have hahead := (Config.Frequency.mem_cut_iff ranked_ranking hmem).mp hcut
    obtain ⟨raw, hraw, rfl⟩ := List.mem_map.mp (ranking_perm.mem_iff.mp hmem)
    obtain ⟨hcounts, hcount⟩ := List.mem_filter.mp hraw
    rw [countP_ranking] at hahead
    exact ⟨raw, hcounts, by simpa using hcount, rfl, hahead⟩
  · rintro ⟨raw, hcounts, hcount, rfl, hahead⟩
    have hmem : (normalize raw.1, raw.2) ∈ ranking config normalize counts := by
      refine ranking_perm.mem_iff.mpr (List.mem_map.mpr ⟨raw, ?_, rfl⟩)
      exact List.mem_filter.mpr ⟨hcounts, by simpa using hcount⟩
    refine ⟨_, (Config.Frequency.mem_cut_iff ranked_ranking hmem).mpr ?_, rfl⟩
    rwa [countP_ranking]

/-! ### Wider bounds -/

/-- What comes before a frequent entry is frequent, so it does not depend on the least count. -/
theorem Counts.ahead_eq (h : config.minCount ≤ n) :
    counts.ahead config normalize (v, n) =
      counts.countP fun x => Outranks (normalize x.1, x.2) (v, n) := by
  refine List.countP_congr fun x _ => ?_
  simp only [decide_eq_true_eq, and_iff_right_iff_imp]
  rintro (hlt | ⟨heq, -⟩)
  · exact h.trans (Nat.le_of_lt hlt)
  · exact h.trans heq.ge

/-- A smaller least count and a larger number of places take no name away. -/
theorem Counts.Selects.mono (h : counts.Selects config normalize v)
    (hmin : config'.minCount ≤ config.minCount)
    (htop : ∀ k' ∈ config'.topK, ∃ k ∈ config.topK, k ≤ k') :
    counts.Selects config' normalize v := by
  obtain ⟨e, he, hcount, hname, hahead⟩ := h
  refine ⟨e, he, hmin.trans hcount, hname, ?_⟩
  rw [ahead_eq (hmin.trans hcount), ← ahead_eq hcount]
  intro k' hk'
  obtain ⟨k, hk, hle⟩ := htop k' hk'
  exact (hahead k hk).trans_le hle

/-! ### Names that are ranked already -/

/-- How many of `n` ranked names are common. -/
def Config.Frequency.reach (config : Config.Frequency) (n : Nat) : Nat :=
  match config.topK with
  | some k => min k (n + 1 - config.minCount)
  | none => n + 1 - config.minCount

/-- Positions below a bound are those of the first names. -/
theorem filter_zipIdx_lt (names : List String) (j : Nat) :
    (names.zipIdx.filter fun p => p.2 < j) = (names.take j).zipIdx := by
  have hfront : ∀ p ∈ (names.take j).zipIdx, decide (p.2 < j) = true := by
    intro p hp
    have := List.snd_lt_of_mem_zipIdx hp
    rw [List.length_take] at this
    simp only [decide_eq_true_eq]
    omega
  have hback : ∀ p ∈ (names.drop j).zipIdx (names.take j).length, ¬ decide (p.2 < j) = true := by
    intro p hp
    have hle := List.le_snd_of_mem_zipIdx hp
    have hlt := List.snd_lt_add_of_mem_zipIdx hp
    rw [List.length_take] at hle hlt
    rw [List.length_drop] at hlt
    simp only [decide_eq_true_eq]
    omega
  conv_lhs => rw [← List.take_append_drop j names]
  rw [List.zipIdx_append, List.filter_append, List.filter_eq_self.mpr hfront,
    Nat.zero_add, List.filter_eq_nil_iff.mpr hback, List.append_nil]

/-- The frequent ones among ranked names are the first ones. -/
theorem frequentEntries_ofRanking (names : List String) :
    frequentEntries config normalize (.ofRanking names) =
      (names.take (names.length + 1 - config.minCount)).zipIdx.map fun p =>
        (normalize p.1, names.length - p.2) := by
  rw [frequentEntries, Counts.ofRanking, List.filter_map, List.map_map, ← filter_zipIdx_lt]
  congr 1
  refine List.filter_congr fun p hp => ?_
  have := List.snd_lt_of_mem_zipIdx hp
  simp only [Function.comp_apply, ge_iff_le, decide_eq_decide]
  omega

/-- They are ranked in their order, since each one has a smaller count than the one before. -/
theorem ranking_ofRanking (names : List String) :
    ranking config normalize (.ofRanking names) =
      frequentEntries config normalize (.ofRanking names) := by
  refine List.mergeSort_of_pairwise ?_
  rw [frequentEntries_ofRanking, List.pairwise_map]
  generalize hfirst : names.take (names.length + 1 - config.minCount) = first
  have hlen : first.length ≤ names.length := by
    rw [← hfirst]
    exact List.length_take_le' ..
  have hincreasing : first.zipIdx.Pairwise fun p q => p.2 < q.2 := by
    refine List.pairwise_map.mp ?_
    rw [List.zipIdx_map_snd]
    exact List.pairwise_lt_range'
  refine hincreasing.imp_of_mem fun {p q} hp hq hlt => ?_
  have := List.snd_lt_of_mem_zipIdx hq
  rw [rankedBefore_iff]
  rintro (h | ⟨h, -⟩)
  · omega
  · omega

/-- Of names in the order of a ranking, the common ones are the first of them. -/
theorem mem_selectCommon_ofRanking (names : List String) :
    v ∈ selectCommon config normalize (.ofRanking names) ↔
      v ∈ (names.take (config.reach names.length)).map normalize := by
  have hnames : (ranking config normalize (.ofRanking names)).map Prod.fst =
      (names.take (names.length + 1 - config.minCount)).map normalize := by
    rw [ranking_ofRanking, frequentEntries_ofRanking, List.map_map]
    conv_rhs => rw [← List.zipIdx_map_fst 0 (names.take _), List.map_map]
    rfl
  rw [selectCommon_eq, List.mem_eraseDups, Config.Frequency.cut, Config.Frequency.reach]
  cases config.topK with
  | none => simp only [hnames]
  | some k => simp only [List.map_take, hnames, List.take_take, List.map_take]

end

/-! ### The tables -/

namespace FrequencyTables

/-- A constant is common just if the counts of constants select it. -/
theorem isCommonConstant_iff {constants calls : Counts} {config : Config.Frequency} {v : String} :
    (ofCounts constants calls config).isCommonConstant v = true ↔
      constants.Selects config normalizeConstant v := by
  rw [isCommonConstant, List.contains_iff_mem, ofCounts, mem_selectCommon_iff]

/-- A callee is common just if it is an intrinsic function or the counts of callees select it. -/
theorem isCommonCall_iff {constants calls : Counts} {config : Config.Frequency} {v : String} :
    (ofCounts constants calls config).isCommonCall v = true ↔
      Token.startsWith v "@llvm." = true ∨ calls.Selects config normalizeCall v := by
  rw [isCommonCall, Bool.or_eq_true, List.contains_iff_mem, ofCounts, mem_selectCommon_iff]

/-- A constant is common exactly if it is selected by its count and its rank, and so is a callee
that is no intrinsic. So the order of the counts does not matter, wider bounds take no name away,
and of ranked names the first ones are common, as far as both bounds reach. -/
theorem common_iff_selected (constants calls : Counts) (config : Config.Frequency) :
    (∀ v, ((ofCounts constants calls config).isCommonConstant v = true ↔
        constants.Selects config normalizeConstant v) ∧
      ((ofCounts constants calls config).isCommonCall v = true ↔
        Token.startsWith v "@llvm." = true ∨ calls.Selects config normalizeCall v)) ∧
    (∀ constants' calls', constants.Perm constants' → calls.Perm calls' →
      ofCounts constants' calls' config = ofCounts constants calls config) ∧
    (∀ config' : Config.Frequency, config'.minCount ≤ config.minCount →
      (∀ k' ∈ config'.topK, ∃ k ∈ config.topK, k ≤ k') → ∀ v,
        ((ofCounts constants calls config).isCommonConstant v = true →
          (ofCounts constants calls config').isCommonConstant v = true) ∧
        ((ofCounts constants calls config).isCommonCall v = true →
          (ofCounts constants calls config').isCommonCall v = true)) ∧
    ∀ (names names' : List String) (v : String),
      ((ofCounts (.ofRanking names) (.ofRanking names') config).isCommonConstant v = true ↔
        v ∈ (names.take (config.reach names.length)).map normalizeConstant) ∧
      ((ofCounts (.ofRanking names) (.ofRanking names') config).isCommonCall v = true ↔
        Token.startsWith v "@llvm." = true ∨
          v ∈ (names'.take (config.reach names'.length)).map normalizeCall) := by
  refine ⟨fun v => ⟨isCommonConstant_iff, isCommonCall_iff⟩, ?_, ?_, ?_⟩
  · intro constants' calls' hconstants hcalls
    rw [ofCounts, ofCounts, selectCommon_eq_of_perm hconstants, selectCommon_eq_of_perm hcalls]
  · intro config' hmin htop v
    rw [isCommonConstant_iff, isCommonConstant_iff, isCommonCall_iff, isCommonCall_iff]
    exact ⟨fun h => h.mono hmin htop, fun h => h.imp_right fun h => h.mono hmin htop⟩
  · intro names names' v
    rw [isCommonConstant_iff, isCommonCall_iff, ← mem_selectCommon_iff, ← mem_selectCommon_iff,
      mem_selectCommon_ofRanking, mem_selectCommon_ofRanking]
    exact ⟨Iff.rfl, Iff.rfl⟩

/-- Counts with a tie for the first place, of which one name is written with its type. -/
def tiedCounts : Counts := [("i32 4", 50), ("16", 50), ("255", 10), ("7", 1)]

/-- The callees that are counted with them. -/
def calleeCounts : Counts := [("printf", 9), ("@malloc", 3), ("free", 1)]

/-- Names that are ranked already. -/
def rankedNames : List String := ["i64 3", "5", "7"]

/-- Two places, and no name with a count of one. -/
def twoPlaces : Config.Frequency := { minCount := 2, topK := some 2 }

/-- The tie is settled by the names, in whatever order they are listed, and a third place takes
none of them away. Of three ranked names the second one is the last to have a count of two. -/
theorem common_iff_selected_of_tiedCounts :
    (ofCounts tiedCounts calleeCounts twoPlaces).isCommonConstant "4" = true ∧
      (ofCounts tiedCounts calleeCounts twoPlaces).isCommonConstant "255" = false ∧
      ofCounts tiedCounts.reverse calleeCounts.reverse twoPlaces =
        ofCounts tiedCounts calleeCounts twoPlaces ∧
      (ofCounts tiedCounts calleeCounts { minCount := 1, topK := some 3 }).isCommonCall "@malloc" =
        true ∧
      (ofCounts (.ofRanking rankedNames) (.ofRanking []) twoPlaces).isCommonConstant "5" = true ∧
      (ofCounts (.ofRanking rankedNames) (.ofRanking []) twoPlaces).isCommonConstant "7" =
        false := by
  obtain ⟨hselected, hperm, hwider, hranked⟩ :=
    common_iff_selected tiedCounts calleeCounts twoPlaces
  have hfirst := (hranked rankedNames [] "5").1.mpr (by decide +kernel)
  refine ⟨(hselected "4").1.mpr (by decide +kernel), ?_, ?_, ?_, hfirst, ?_⟩
  · rw [Bool.eq_false_iff, ne_eq, (hselected "255").1]
    decide +kernel
  · exact hperm _ _ (List.reverse_perm _).symm (List.reverse_perm _).symm
  · have hcall := (hselected "@malloc").2.mpr (by decide +kernel)
    refine (hwider { minCount := 1, topK := some 3 } (by decide) ?_ "@malloc").2 hcall
    intro k' hk'
    obtain rfl : 3 = k' := by simpa using hk'
    exact ⟨2, rfl, by decide⟩
  · rw [Bool.eq_false_iff, ne_eq, (hranked rankedNames [] "7").1]
    decide +kernel

end FrequencyTables

end InstrGraph
