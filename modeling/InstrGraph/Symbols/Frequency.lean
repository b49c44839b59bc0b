import InstrGraph.Config.Sections
import InstrGraph.Token

/-!
# Common constants and callees

Counts over a corpus say which constants and callees are common. Entries with too small a count
are left out; the others are ranked by count, the largest first, and by name among equals, and the
first of them are common. A constant counts by its last word (`i32 42` is `42`), a callee by its
name with the sigil. Intrinsics are always common.
-/

namespace InstrGraph

/-- How often something occurs, by name. -/
abbrev Counts := List (String × Nat)

/-- The name under which a constant is common. -/
def normalizeConstant (raw : String) : String := Token.last raw

/-- The name under which a callee is common. -/
def normalizeCall (raw : String) : String :=
  let name := Token.trim raw
  if Token.isGlobal name then name else "@" ++ name

/-- The order of the ranking: larger counts first, then smaller names. -/
def rankedBefore (a b : String × Nat) : Bool :=
  a.2 > b.2 || (a.2 == b.2 && !(b.1 < a.1))

/-- The common names among the counted ones. -/
def selectCommon (config : Config.Frequency) (normalize : String → String) (counts : Counts) :
    List String :=
  let frequent := counts.filter fun e => e.2 ≥ config.minCount
  let ranked := (frequent.map fun e => (normalize e.1, e.2)).mergeSort rankedBefore
  let chosen := match config.topK with
    | some k => ranked.take k
    | none => ranked
  (chosen.map Prod.fst).eraseDups

/-- Which constants and callees are common. -/
structure FrequencyTables where
  constants : List String := []
  calls : List String := []
  deriving DecidableEq, Repr

namespace FrequencyTables

/-- The tables that counts give. -/
def ofCounts (constants calls : Counts) (config : Config.Frequency) : FrequencyTables where
  constants := selectCommon config normalizeConstant constants
  calls := selectCommon config normalizeCall calls

/-- The constant is common. -/
def isCommonConstant (t : FrequencyTables) (value : String) : Bool := t.constants.contains value

/-- The callee is common: it is counted as such, or an intrinsic. -/
def isCommonCall (t : FrequencyTables) (name : String) : Bool :=
  Token.startsWith name "@llvm." || t.calls.contains name

end FrequencyTables

/-- Counts for a list that is ranked already: the first of `n` names counts `n`, the last one. -/
def Counts.ofRanking (names : List String) : Counts :=
  names.zipIdx.map fun (name, i) => (name, names.length - i)

end InstrGraph
