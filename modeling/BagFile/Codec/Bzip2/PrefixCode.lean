/-
  Canonical prefix codes: a code is given by the lengths of its words alone.  Words of one
  length are consecutive numbers, shorter words come first, and among words of one length the
  symbols are in order.

  * `PrefixCode.ofLengths` makes the tables, for words of up to twenty bits;
  * `PrefixCode.read` reads a symbol bit by bit;
  * `PrefixCode.flatLength` is the length of words where all symbols have words of one length.
-/
import BagFile.Codec.Bits

namespace BagFile.Bzip2

/-- The length of the longest word. -/
def maxWord : Nat := 20

/-- A canonical prefix code. -/
structure PrefixCode where
  /-- how many words there are of length 1, 2, … -/
  counts : List Nat
  /-- the symbols in the order of their words -/
  symbols : Array Nat

namespace PrefixCode

/-- The symbols whose words have a length. -/
def symbolsOf (lengths : List Nat) (length : Nat) : List Nat :=
  (lengths.zipIdx.filter (·.1 = length)).map Prod.snd

/-- The code in which symbol `i` has a word of the `i`-th length. -/
def ofLengths (lengths : List Nat) : PrefixCode :=
  let groups := (List.range' 1 maxWord).map (symbolsOf lengths)
  ⟨groups.map List.length, groups.flatten.toArray⟩

/-- The position of the word at the start of the bits.  `offset` is how far the bits read so
    far are past the first word of their length, and `before` counts the shorter words. -/
def walk : List Nat → Nat → Nat → BitReader Nat
  | [], _, _ => failure
  | count :: counts, offset, before => do
    let offset := 2 * offset + (← BitReader.bit).toNat
    if offset < count then pure (before + offset)
    else walk counts (offset - count) (before + count)

/-- Reads a symbol. -/
def read (c : PrefixCode) : BitReader Nat := do
  match c.symbols[← walk c.counts 0 0]? with
  | some s => pure s
  | none => failure

/-- The length of words that lets `n` symbols have words of one length. -/
def flatLength (n : Nat) : Nat := (n - 1).log2 + 1

end PrefixCode

end BagFile.Bzip2
