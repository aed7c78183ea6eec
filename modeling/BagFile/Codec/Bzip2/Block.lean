/-
  A block of a bzip2 file, without the mark in front of it.

  * A block holds a checksum, the row of the text among its sorted rotations, the set of bytes
    that occur, up to six prefix codes, a selector for every fifty symbols, and the symbols;
  * `Block.read` gives the text and its checksum, and refuses whatever is out of range;
  * `Block.encode` writes a text with one flat code.
-/
import BagFile.Codec.Bits
import BagFile.Codec.Crc32
import BagFile.Codec.Bzip2.Mask
import BagFile.Codec.Bzip2.MoveToFront
import BagFile.Codec.Bzip2.PrefixCode
import BagFile.Codec.Bzip2.Rotation
import BagFile.Codec.Bzip2.RunLength
import BagFile.Codec.Bzip2.ZeroRun

namespace BagFile.Bzip2.Block

/-- How many symbols one selector stands for. -/
def groupSize : Nat := 50

/-- How many selectors count; more may be there. -/
def maxSelectors : Nat := 18002

/-! ## The parts of a block -/

/-- The sixteen bytes with the same upper four bits. -/
def range (i : Nat) : Bytes := (List.range' (16 * i) 16).map UInt8.ofNat

/-- Whether any of some bytes is in a range. -/
def meets (used : Bytes) (i : Nat) : Bool := used.any fun b => b.toNat / 16 = i

/-- The bytes that occur, in order. -/
def occurring (bs : Bytes) : Bytes := bs.eraseDups.mergeSort fun a b => a ≤ b

/-- The set of bytes that occur: which ranges have any, then the bits of those ranges. -/
def encodeUsed (used : Bytes) : List Bool :=
  let present := (List.range 16).filter (meets used)
  (List.range 16).map (meets used) ++ present.flatMap fun i => (range i).map used.contains

/-- Reads which bytes of one range occur, if any do. -/
def readRange (i : Nat) (present : Bool) : BitReader Bytes := do
  if present then
    let bits ← BitReader.repeated 16 BitReader.bit
    return ((range i).zip bits).filterMap fun (b, bit) => if bit then some b else none
  else return []

/-- Reads the set of bytes that occur, in order. -/
def readUsed : BitReader Bytes := do
  let present ← BitReader.repeated 16 BitReader.bit
  let ranges ← present.zipIdx.mapM fun (p, i) => readRange i p
  return ranges.flatten

/-- Reads a number below `limit`, written as so many ones and a zero. -/
def readUnary : Nat → BitReader Nat
  | 0 => failure
  | limit + 1 => do
    if ← BitReader.bit then return (← readUnary limit) + 1
    else return 0

/-- Reads the selectors, as numbers of codes. -/
def readSelectors (codes count : Nat) : BitReader (List Nat) := do
  let ranks ← BitReader.repeated count (readUnary codes)
  match MoveToFront.decode (List.range codes) (ranks.take maxSelectors) with
  | some selectors => pure selectors
  | none => failure

/-- Reads the length of a word from the one before it: at most so many steps up or down, each
    announced by a one, and a zero.  No length on the way may be out of range. -/
def readLengthFrom (length : Nat) : Nat → BitReader Nat
  | 0 => failure
  | steps + 1 => do
    BitReader.guard (1 ≤ length && length ≤ maxWord)
    if ← BitReader.bit then
      let down ← BitReader.bit
      readLengthFrom (if down then length - 1 else length + 1) steps
    else return length

/-- Reads the length of a word from the one before it.  There cannot be more steps than bits. -/
def readLength (length : Nat) : BitReader Nat := do
  readLengthFrom length (8 * (← read).size + 1)

/-- Reads so many lengths, each from the one before it; `done` is in reverse. -/
def readLengthsFrom (done : List Nat) (length : Nat) : Nat → BitReader (List Nat)
  | 0 => pure done.reverse
  | count + 1 => do
    let next ← readLength length
    readLengthsFrom (next :: done) next count

/-- Reads the code of an alphabet. -/
def readCode (alphabet : Nat) : BitReader PrefixCode := do
  let first ← BitReader.number 5
  let lengths ← readLengthsFrom [] first alphabet
  return PrefixCode.ofLengths lengths

/-- Reads up to `count` symbols behind `done`, which is in reverse; stops after the symbol
    `stop`, and says whether it was met. -/
def readGroup (code : PrefixCode) (stop : Nat) (done : List Nat) : Nat → BitReader (Bool × List Nat)
  | 0 => pure (false, done)
  | count + 1 => do
    let s ← code.read
    if s = stop then pure (true, done) else readGroup code stop (s :: done) count

/-- Reads the symbols up to `stop`, with a code selected for each group. -/
def readSymbols (codes : Array PrefixCode) (stop : Nat) (done : List Nat) :
    List Nat → BitReader (List Nat)
  | [] => failure
  | selector :: selectors => do
    let code := codes.getD selector (PrefixCode.ofLengths [])
    let (met, done) ← readGroup code stop done groupSize
    if met then pure done.reverse else readSymbols codes stop done selectors

/-! ## Reading -/

/-- The text of symbols, or failure. -/
def textOf (limit : Nat) (used : Bytes) (row : Nat) (masked : Bool) (symbols : List Nat) :
    Option Dense := do
  let runs ← ZeroRun.decode limit symbols
  let column ← MoveToFront.decodeRuns used runs
  let rotated ← Rotation.decode column row
  RunLength.decode (if masked then Mask.apply rotated else rotated)

/-- Reads a block of at most `limit` bytes before the outer run-length code: the checksum,
    which must be that of the text, and the text. -/
def read (limit : Nat) : BitReader (UInt32 × Dense) := do
  let checksum := UInt32.ofNat (← BitReader.number 32)
  let masked ← BitReader.bit
  let row ← BitReader.number 24
  BitReader.guard (row ≤ limit + 10)
  let used ← readUsed
  BitReader.guard (!used.isEmpty)
  let codeCount ← BitReader.number 3
  BitReader.guard (2 ≤ codeCount && codeCount ≤ 6)
  let selectorCount ← BitReader.number 15
  BitReader.guard (1 ≤ selectorCount)
  let selectors ← readSelectors codeCount selectorCount
  let codes ← BitReader.repeated codeCount (readCode (used.length + 2))
  let symbols ← readSymbols codes.toArray (used.length + 1) [] selectors
  match textOf limit used row masked symbols with
  | some text =>
    BitReader.guard (Crc32.ofDense text = checksum)
    return (checksum, text)
  | none => failure

/-! ## Writing -/

/-- The block of a text that is not empty.  There must be two codes at least; both are the
    flat one, and the first is always selected. -/
def encode (text : Dense) : List Bool :=
  let (column, row) := Rotation.encode (RunLength.encode text)
  let used := occurring column
  let symbols := ZeroRun.encode (MoveToFront.encode used column) ++ [used.length + 1]
  let width := PrefixCode.flatLength (used.length + 2)
  let selectorCount := (symbols.length + groupSize - 1) / groupSize
  let code := Bits.ofNat 5 width ++ List.replicate (used.length + 2) false
  Bits.ofNat 32 (Crc32.ofDense text).toNat ++ [false] ++ Bits.ofNat 24 row ++ encodeUsed used ++
    Bits.ofNat 3 2 ++ Bits.ofNat 15 selectorCount ++ List.replicate selectorCount false ++
    code ++ code ++ symbols.flatMap (Bits.ofNat width)

end BagFile.Bzip2.Block
