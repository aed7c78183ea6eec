/-
  Reading from a stretch of memory.

  * A `Cursor` is a position in a stretch of bytes.  Its operations (`Cursor.Op`) move it and
    give a value, or fail; a failed operation says where it left the cursor.
  * `skip` is the basic step: past so many bytes, or nowhere.  `take` gives them as well, and
    the other reads are made of it.
-/
import BagFile.Dense
import BagFile.Time

namespace BagFile

/-- A position in a stretch of bytes. -/
structure Cursor where
  data : Dense
  pos : Nat
  deriving DecidableEq

namespace Cursor

/-- An operation on a cursor: it may fail, and leaves the cursor somewhere either way. -/
abbrev Op (α : Type) := EStateM Error Cursor α

/-- A cursor at the start. -/
def start (d : Dense) : Cursor := ⟨d, 0⟩

/-- How many bytes are left. -/
def remaining (c : Cursor) : Nat := c.data.size - c.pos

/-- Moves to an offset from the start, at most the end. -/
def seek (pos : Nat) : Op Unit := fun c =>
  if c.data.size < pos then .error (.truncated pos c.data.size) c
  else .ok () { c with pos := pos }

/-- Moves past the next `n` bytes; if there are not so many, it stays. -/
def skip (n : Nat) : Op Unit := fun c =>
  if c.remaining < n then .error (.truncated n c.remaining) c
  else .ok () { c with pos := c.pos + n }

/-- Reads the next `n` bytes; if there are not so many, nothing is read. -/
def take (n : Nat) : Op Dense := do
  let c ← get
  skip n
  return c.data.slice c.pos n

/-- Reads a word. -/
def readWord {α : Type} [Word α] : Op α := do
  MonadExcept.ofExcept (Word.decode (← take (Word.width α)))

/-- Reads a point in time. -/
def readTime : Op Time := do
  MonadExcept.ofExcept (Time.decode (← take 8))

/-- Reads a length, then so many bytes. -/
def readSized : Op Dense := do
  let len : UInt32 ← readWord
  take len.toNat

/-- Moves past a length and so many bytes. -/
def skipSized : Op Unit := do
  let len : UInt32 ← readWord
  skip len.toNat

end Cursor

end BagFile
