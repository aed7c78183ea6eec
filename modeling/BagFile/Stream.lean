/-
  Reading from a source that can be positioned freely.

  * A `Stream` is a position in the contents of a source, such as an open file.  It may be moved
    past the end, where no bytes are found, but not beyond the source's `reach`;
  * reads of a fixed width report that nothing was available when they meet the end, reads of
    a length-prefixed block how much of its body there was.
-/
import BagFile.Contents
import BagFile.Word

namespace BagFile

/-- A position in the contents of a source. -/
structure Stream where
  contents : Contents
  pos : Nat
  /-- positions from here on cannot be moved to -/
  reach : Nat
  deriving DecidableEq

namespace Stream

/-- An operation on a stream. -/
abbrev Op (α : Type) := EStateM Error Stream α

/-- A stream over bytes in memory: every 64-bit position can be moved to. -/
def ofDense (d : Dense) : Stream := ⟨.ofDense d, 0, 2 ^ 64⟩

/-- A stream over the contents of a file, whose positions are signed 64-bit numbers. -/
def ofFile (c : Contents) : Stream := ⟨c, 0, 2 ^ 63⟩

/-- The next bytes, at most `n`. -/
def ahead (s : Stream) (n : Nat) : Dense := s.contents.slice s.pos n

/-- Moves to an offset from the start. -/
def seek (pos : Nat) : Op Unit := fun s =>
  if s.reach ≤ pos then .error .io s else .ok () { s with pos := pos }

/-- The offset from the start. -/
def position : Op Nat := return (← get).pos

/-- Reads a word. -/
def readWord {α : Type} [Word α] : Op α := fun s =>
  match Word.decode (s.ahead (Word.width α)) with
  | .ok (a : α) => .ok a { s with pos := s.pos + Word.width α }
  | .error _ => .error (.truncated (Word.width α) 0) s

/-- Reads exactly `n` bytes of a body whose length has been read. -/
def readBody (n : Nat) : Op Dense := fun s =>
  let body := s.ahead n
  if body.size < n then .error (.truncated n body.size) { s with pos := s.pos + body.size }
  else .ok body { s with pos := s.pos + n }

/-- Reads a length, then so many bytes. -/
def readSized : Op Dense := do
  let len : UInt32 ← readWord
  readBody len.toNat

/-- Moves past a length and so many bytes, which need not be there; gives the length. -/
def skipSized : Op UInt32 := do
  let len : UInt32 ← readWord
  seek ((← position) + len.toNat)
  return len

/-- Reads up to and including the first byte `stop`, but no more than `limit` bytes. -/
def readThrough (stop : UInt8) (limit : Nat) : Op Dense := fun s =>
  let window := s.ahead limit
  let line := window.slice 0 (((window.find? stop 0 window.size).map (· + 1)).getD window.size)
  .ok line { s with pos := s.pos + line.size }

end Stream

end BagFile
