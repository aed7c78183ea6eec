/-
  Writing to a medium that can be positioned freely, and lengths that are filled in later.

  * A `Tape` has growing contents and a position.  Writing overwrites what is there and
    extends the end; a gap between the end and the position is filled with zeros by the next
    write, moving alone changes nothing.
  * A tape keeps a journal of its writes, so that one can ask what a reader would have found
    after any of them; `Tape.after` plays writes back.
  * A `Slot` is a place kept for a length that is not yet known: `Slot.reserve` writes zeros,
    `Slot.commit` measures what has been written since and fills the length in.
-/
import BagFile.Contents
import BagFile.Word

namespace BagFile

/-- One write: the bytes put at a position. -/
structure Write where
  pos : Nat
  data : Dense
  deriving DecidableEq

/-- Growing contents with a position, and the writes that were made, latest first. -/
structure Tape where
  contents : Contents
  pos : Nat
  journal : List Write
  deriving DecidableEq

namespace Tape

/-- An operation on a tape: it may fail, and leaves the tape somewhere either way. -/
abbrev Op (α : Type) := EStateM Error Tape α

/-- A tape with nothing on it. -/
def empty : Tape := ⟨.empty, 0, []⟩

/-- What is on the tape. -/
def data (t : Tape) : Dense := t.contents.all

/-- How many bytes are on the tape. -/
def size (t : Tape) : Nat := t.contents.size

/-- The contents after some writes, in order. -/
def after (c : Contents) (writes : List Write) : Contents :=
  writes.foldl (fun c w => c.overwrite w.pos w.data) c

/-- Writes bytes at the position, and moves past them. -/
def write (d : Dense) : Op Unit := fun t =>
  .ok () ⟨t.contents.overwrite t.pos d, t.pos + d.size, ⟨t.pos, d⟩ :: t.journal⟩

/-- Moves to an offset from the start. -/
def seek (pos : Nat) : Op Unit := fun t => .ok () { t with pos := pos }

/-- The offset from the start. -/
def position : Op Nat := fun t => .ok t.pos t

/-- Moves to the end, and gives its offset. -/
def toEnd : Op Nat := fun t => .ok t.size { t with pos := t.size }

/-- Writes a word. -/
def writeWord {α : Type} [Word α] (a : α) : Op Unit := write (Word.encode a)

end Tape

/-! ## Lengths filled in later -/

/-- A place of four bytes kept for the length of what follows it. -/
structure Slot where
  pos : Nat
  deriving DecidableEq

namespace Slot

/-- Where the measured contents start. -/
def contentStart (s : Slot) : Nat := s.pos + 4

/-- Keeps a place for a length at the tape's position. -/
def reserve : Tape.Op Slot := do
  let pos ← Tape.position
  Tape.writeWord (0 : UInt32)
  return ⟨pos⟩

/-- Fills in the number of bytes from the start of the contents to the tape's position, and
    gives it; the position stays.  A tape that stands before the contents, or a length that
    four bytes cannot hold, is refused, and nothing is written. -/
def commit (s : Slot) : Tape.Op UInt32 := do
  let stop ← Tape.position
  if stop < s.contentStart then throw (.writer (.behindSlot s.pos))
  let length := stop - s.contentStart
  if 2 ^ 32 ≤ length then throw (.writer (.blockTooLong length))
  Tape.seek s.pos
  Tape.writeWord (UInt32.ofNat length)
  Tape.seek stop
  return UInt32.ofNat length

end Slot

end BagFile
