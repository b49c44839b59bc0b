import InstrGraph.Text.Hex

/-!
# The BLAKE3 hash

The hash of a sequence of octets, in its plain mode (no key, 32 octets). The input is cut into
chunks of 1024 octets, each of which is compressed block by block; the chunks are the leaves of a
binary tree, whose inner nodes compress the values of their two children. Neighbours are paired
level by level, and what is left over at the end of a level moves up as it is: that is the tree in
which every left subtree is complete.
-/

namespace InstrGraph.Blake3

/-- Eight words, the value of a node of the tree. -/
structure Value where
  a : UInt32
  b : UInt32
  c : UInt32
  d : UInt32
  e : UInt32
  f : UInt32
  g : UInt32
  h : UInt32
  deriving DecidableEq, Repr

/-- The words of a value. -/
def Value.words (v : Value) : List UInt32 := [v.a, v.b, v.c, v.d, v.e, v.f, v.g, v.h]

/-- The value that every chunk begins with. -/
def start : Value :=
  ⟨0x6A09E667, 0xBB67AE85, 0x3C6EF372, 0xA54FF53A, 0x510E527F, 0x9B05688C, 0x1F83D9AB, 0x5BE0CD19⟩

/-! ## Compression -/

/-- A column of the state. -/
structure Column where
  a : UInt32
  b : UInt32
  c : UInt32
  d : UInt32
  deriving DecidableEq, Repr

/-- The four columns of the state. -/
structure State where
  p : Column
  q : Column
  r : Column
  s : Column
  deriving DecidableEq, Repr

/-- The word with its bits moved to the right, around its end. -/
def rotate (w : UInt32) (n : UInt32) : UInt32 := (w >>> n) ||| (w <<< (32 - n))

/-- Mix two words of a block into a column. -/
def mix (x y : UInt32) (v : Column) : Column :=
  let a := v.a + v.b + x
  let d := rotate (v.d ^^^ a) 16
  let c := v.c + d
  let b := rotate (v.b ^^^ c) 12
  let a := a + b + y
  let d := rotate (d ^^^ a) 8
  let c := c + d
  let b := rotate (b ^^^ c) 7
  ⟨a, b, c, d⟩

/-- The state whose columns are the diagonals of a state. -/
def State.skew (t : State) : State :=
  ⟨⟨t.p.a, t.q.b, t.r.c, t.s.d⟩, ⟨t.q.a, t.r.b, t.s.c, t.p.d⟩,
    ⟨t.r.a, t.s.b, t.p.c, t.q.d⟩, ⟨t.s.a, t.p.b, t.q.c, t.r.d⟩⟩

/-- The state whose diagonals are the columns of a state. -/
def State.unskew (t : State) : State :=
  ⟨⟨t.p.a, t.s.b, t.r.c, t.q.d⟩, ⟨t.q.a, t.p.b, t.s.c, t.r.d⟩,
    ⟨t.r.a, t.q.b, t.p.c, t.s.d⟩, ⟨t.s.a, t.r.b, t.q.c, t.p.d⟩⟩

/-- A block of sixteen words. -/
structure Block where
  first : Value
  second : Value
  deriving DecidableEq, Repr

/-- Mix the eight words of a value into the columns. -/
def State.mixColumns (t : State) (m : Value) : State :=
  ⟨mix m.a m.b t.p, mix m.c m.d t.q, mix m.e m.f t.r, mix m.g m.h t.s⟩

/-- Mix a block into the columns and then into the diagonals. -/
def State.round (t : State) (m : Block) : State :=
  ((t.mixColumns m.first).skew.mixColumns m.second).unskew

/-- The block with its words in another order, for the next round. -/
def Block.permute (m : Block) : Block :=
  let x := m.first
  let y := m.second
  ⟨⟨x.c, x.g, x.d, y.c, x.h, x.a, x.e, y.f⟩, ⟨x.b, y.d, y.e, x.f, y.b, y.g, y.h, y.a⟩⟩

/-- Several rounds. -/
def State.rounds : (count : Nat) → State → Block → State
  | 0, t, _ => t
  | count + 1, t, m => State.rounds count (t.round m) m.permute

/-- What a node of the tree is made of: its value is the compression of a block. -/
structure Node where
  before : Value
  block : Block
  counter : UInt64
  /-- How many octets of the block count. -/
  size : UInt32
  flags : UInt32
  deriving DecidableEq, Repr

/-- The value of a node, with further flags. -/
def Node.compress (n : Node) (flags : UInt32) : Value :=
  let v := n.before
  let t : State :=
    ⟨⟨v.a, v.e, start.a, n.counter.toUInt32⟩, ⟨v.b, v.f, start.b, (n.counter >>> 32).toUInt32⟩,
      ⟨v.c, v.g, start.c, n.size⟩, ⟨v.d, v.h, start.d, n.flags ||| flags⟩⟩
  let t := t.rounds 7 n.block
  ⟨t.p.a ^^^ t.p.c, t.q.a ^^^ t.q.c, t.r.a ^^^ t.r.c, t.s.a ^^^ t.s.c,
    t.p.b ^^^ t.p.d, t.q.b ^^^ t.q.d, t.r.b ^^^ t.r.d, t.s.b ^^^ t.s.d⟩

/-! ## Blocks and chunks -/

/-- A list in pieces of length `n`, the last of which may be shorter. The empty list is one empty
piece. -/
def pieces {α : Type} (n : Nat) : (fuel : Nat) → List α → List (List α)
  | 0, xs => [xs]
  | fuel + 1, xs => if xs.length ≤ n then [xs] else xs.take n :: pieces n fuel (xs.drop n)

/-- The octet at a place, zero behind the end. -/
def octet (bytes : List UInt8) (i : Nat) : UInt32 := (bytes.getD i 0).toUInt32

/-- The word of four octets, the lowest one first. -/
def word (bytes : List UInt8) (i : Nat) : UInt32 :=
  octet bytes (4 * i) ||| (octet bytes (4 * i + 1) <<< 8) ||| (octet bytes (4 * i + 2) <<< 16) |||
    (octet bytes (4 * i + 3) <<< 24)

/-- Eight words from a place on. -/
def value (bytes : List UInt8) (i : Nat) : Value :=
  ⟨word bytes i, word bytes (i + 1), word bytes (i + 2), word bytes (i + 3), word bytes (i + 4),
    word bytes (i + 5), word bytes (i + 6), word bytes (i + 7)⟩

/-- The block of at most 64 octets, filled up with zeros. -/
def block (bytes : List UInt8) : Block := ⟨value bytes 0, value bytes 8⟩

/-- The flag of the first block of a chunk. -/
def chunkStart : UInt32 := 1

/-- The flag of the last block of a chunk. -/
def chunkEnd : UInt32 := 2

/-- The flag of an inner node. -/
def parentFlag : UInt32 := 4

/-- The flag of the root of the tree. -/
def rootFlag : UInt32 := 8

/-- The node of a chunk, given the blocks of it that are left. -/
def chunkFrom (counter : UInt64) (before : Value) (flags : UInt32) : List (List UInt8) → Node
  | [] => ⟨before, block [], counter, 0, flags ||| chunkEnd⟩
  | [b] => ⟨before, block b, counter, UInt32.ofNat b.length, flags ||| chunkEnd⟩
  | b :: rest =>
    let n : Node := ⟨before, block b, counter, UInt32.ofNat b.length, flags⟩
    chunkFrom counter (n.compress 0) 0 rest

/-- The node of the chunk with a number. -/
def chunk (bytes : List UInt8) (number : Nat) : Node :=
  chunkFrom (UInt64.ofNat number) start chunkStart (pieces 64 bytes.length bytes)

/-! ## The tree -/

/-- The node above two nodes. -/
def parent (l r : Node) : Node := ⟨start, ⟨l.compress 0, r.compress 0⟩, 0, 64, parentFlag⟩

/-- The next level of the tree. -/
def pairUp : List Node → List Node
  | l :: r :: rest => parent l r :: pairUp rest
  | rest => rest

/-- The root of the tree over some nodes. A level has at most half as many nodes as the one below
it, and one more, so the number of leaves bounds the number of levels. -/
def root : (fuel : Nat) → List Node → Option Node
  | _, [n] => some n
  | 0, _ => none
  | fuel + 1, ns => root fuel (pairUp ns)

/-- The hash of a sequence of octets, as eight words. -/
def hash (bytes : List UInt8) : Value :=
  let chunks := (pieces 1024 bytes.length bytes).zipIdx.map fun (c, i) => chunk c i
  match root chunks.length chunks with
  | some n => n.compress rootFlag
  | none => start

/-- The octets of a word, the lowest one first. -/
def octets (w : UInt32) : List UInt8 :=
  [w.toUInt8, (w >>> 8).toUInt8, (w >>> 16).toUInt8, (w >>> 24).toUInt8]

/-- The hash of a text in UTF-8, in hexadecimal digits. -/
def hexHash (s : String) : List Char :=
  ((hash s.toUTF8.toList).words.flatMap octets).flatMap fun o => Text.hexDigits 2 o.toNat

end InstrGraph.Blake3
