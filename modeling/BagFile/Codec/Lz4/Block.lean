/-
  The blocks of LZ4: sequences of literal bytes and matches.

  * A `Sequence` is some literals and then a match, a stretch of what has been read before;
    a block ends with literals alone;
  * `Block.encode` writes a block, `Block.decode` reads one behind what has been read before;
  * `Block.split` cuts a text into sequences.  Where to look for a match is a suggestion that
    is checked, so the result stands for the text whatever is suggested.
-/
import BagFile.Dense

namespace BagFile.Lz4

/-- The shortest match. -/
def minMatch : Nat := 4

/-- The farthest a match can reach back. -/
def maxOffset : Nat := 65535

/-- Literals, then a match: `length` bytes that stand `offset` bytes before. -/
structure Sequence where
  literals : Dense
  offset : Nat
  length : Nat
  deriving DecidableEq

/-- A text as sequences and the literals at its end. -/
structure Block where
  sequences : List Sequence
  last : Dense
  deriving DecidableEq

namespace Block

/-! ## Writing -/

/-- The bytes behind a token for the part of a length that the token cannot hold. -/
def encodeExtra (n : Nat) : Dense := (Dense.replicate (n / 255) 255).push (UInt8.ofNat (n % 255))

/-- The half of a token for a length, and the bytes for the rest of it. -/
def encodeLength (n : Nat) : Nat × Dense :=
  if n < 15 then (n, .empty) else (15, encodeExtra (n - 15))

/-- The written form of a sequence. -/
def encodeSequence (s : Sequence) : Dense :=
  let (high, literalLength) := encodeLength s.literals.size
  let (low, matchLength) := encodeLength (s.length - minMatch)
  .join [.ofNat 1 (16 * high + low), literalLength, s.literals, .ofNat 2 s.offset, matchLength]

/-- The written form of a block. -/
def encode (b : Block) : Dense :=
  let (high, literalLength) := encodeLength b.last.size
  .join (b.sequences.map encodeSequence ++ [.ofNat 1 (16 * high), literalLength, b.last])

/-! ## Reading -/

/-- Adds up the bytes of a long length from a position on; gives the position behind them. -/
def readExtra (d : Dense) (n pos : Nat) : Option (Nat × Nat) :=
  if h : pos < d.size then
    if d[pos] = 255 then readExtra d (n + 255) (pos + 1) else some (n + d[pos].toNat, pos + 1)
  else none
termination_by d.size - pos

/-- The length that half a token and the bytes from a position on stand for, and the position
    behind them. -/
def readLength (d : Dense) (half pos : Nat) : Option (Nat × Nat) :=
  if half < 15 then some (half, pos) else readExtra d 15 pos

/-- Adds `n` bytes, each a copy of that `offset` places before.  As many as there are between
    are copied at once; the others stand twice as far behind their copies. -/
def copyBack (offset : Nat) (out : Dense) (n : Nat) : Dense :=
  if n = 0 ∨ offset = 0 then out
  else
    let count := min offset n
    copyBack (2 * offset) (out ++ out.slice (out.size - offset) count) (n - count)
termination_by n

/-- Reads at most so many sequences of a block from a position on, behind `out`.  Matches may
    reach back to the position `floor`, and the result may not be longer than `limit`. -/
def decodeFrom (floor limit : Nat) (block out : Dense) (pos : Nat) : Nat → Option Dense
  | 0 => none
  | count + 1 =>
    if h : pos < block.size then do
      let token := block[pos].toNat
      let (n, pos) ← readLength block (token / 16) (pos + 1)
      let stop := pos + n
      let out := out ++ block.slice pos n
      if block.size < stop ∨ limit < out.size then none
      else if block.size = stop then some out
      else if block.size = stop + 1 then none
      else
        let offset := block.natAt stop 2
        let (m, pos) ← readLength block (token % 16) (stop + 2)
        if offset = 0 ∨ out.size < floor + offset ∨ limit < out.size + (m + minMatch) then none
        else decodeFrom floor limit block (copyBack offset out (m + minMatch)) pos count
    else none

/-- Reads a block behind `out`.  It cannot have more sequences than bytes. -/
def decode (floor limit : Nat) (out block : Dense) : Option Dense :=
  decodeFrom floor limit block out 0 block.size

/-! ## Finding matches -/

/-- The place in the table of suggestions for the four bytes from a position on. -/
def place (text : Dense) (pos : Nat) : Nat :=
  let word := UInt32.ofNat (text.natAt pos 4)
  ((word * 0x9E3779B1) >>> 19).toNat

/-- How many bytes from `i` and from `j` on agree, at most `n`; `k` do so before. -/
def agreement (text : Dense) (i j k : Nat) : Nat → Nat
  | 0 => k
  | n + 1 =>
    if text.byteAt i = text.byteAt j then agreement text (i + 1) (j + 1) (k + 1) n else k

/-- How long the match at a position is with what stands at an earlier one, if that can be
    reached.  The last bytes of a block are left as literals. -/
def matchLength (text : Dense) (source pos : Nat) : Nat :=
  if source < pos ∧ pos ≤ source + maxOffset then
    agreement text source pos 0 (text.size - 5 - pos)
  else 0

/-- Cuts a text into sequences from a position on.  The table suggests where the four bytes at
    a position were seen last, `done` is in reverse, `start` is the end of the last match, and
    `left` bounds the number of steps. -/
def splitFrom (text : Dense) (table : Array Nat) (done : List Sequence) (start pos : Nat) :
    Nat → Block
  | 0 => ⟨done.reverse, text.extract start text.size⟩
  | left + 1 =>
    if text.size < pos + 12 then ⟨done.reverse, text.extract start text.size⟩
    else
      let i := place text pos
      let source := table.getD i 0
      let table := table.setIfInBounds i pos
      let length := matchLength text source pos
      if minMatch ≤ length then
        let found := ⟨text.extract start pos, pos - source, length⟩
        splitFrom text table (found :: done) (pos + length) (pos + length) left
      else splitFrom text table done start (pos + 1) left

/-- A text as a block. -/
def split (text : Dense) : Block := splitFrom text (Array.replicate 8192 0) [] 0 0 text.size

end Block

end BagFile.Lz4
