/-
  Compressed formats, as a library offers them.

  * a `Format` has writers, which take bytes piece by piece, and readers, which give them back
    piece by piece;
  * `Format.pack` hands a writer all of some bytes, and `Format.unpack` reads until nothing
    comes;
  * a writer into memory always takes something and can always be ended, so that there is a
    stored form of all bytes (`Format.exists_pack`).
-/
import BagFile.Dense

namespace BagFile.Codec

/-- A compressed format of a library. -/
structure Format where
  Writer : Type
  Reader : Type
  /-- a writer that has taken nothing -/
  writer : Writer
  /-- how many bytes a writer takes, from the first on, or nothing if it fails -/
  write : Writer → Dense → Option (Nat × Writer)
  /-- the stored form of what a writer has taken, or nothing if it fails -/
  finish : Writer → Option Dense
  /-- a reader at the start of a stored form -/
  reader : Dense → Reader
  /-- the next bytes, at most so many, and none at the end; or nothing if the reader fails -/
  read : Reader → Nat → Option (Dense × Reader)
  /-- a bound on how often something can still be read -/
  rest : Reader → Nat
  /-- a writer goes into memory, where there is always room for some more -/
  write_takes : ∀ w d, 0 < d.size → ∃ n w', write w d = some (n + 1, w')
  /-- and what was taken can always be ended -/
  finish_gives : ∀ w, ∃ d, finish w = some d
  /-- a stored form stands for finitely many bytes -/
  rest_lt : ∀ {r n d r'}, read r n = some (d, r') → 0 < d.size → rest r' < rest r

namespace Format

variable (f : Format)

/-- The writer behind all of some bytes.  To take none of them is a failure. -/
def writeAll (w : f.Writer) (d : Dense) : Option f.Writer :=
  if d.size = 0 then some w
  else
    match f.write w d with
    | none | some (0, _) => none
    | some (n + 1, w) => writeAll w (d.extract (n + 1) d.size)
termination_by d.size
decreasing_by
  rw [ByteArray.size_extract]
  omega

/-- All bytes in a reader, behind what is there already; so many are asked for at a time as
    `room` says for what is there. -/
def readToEnd (room : Nat → Nat) (r : f.Reader) (out : Dense) : Option Dense :=
  match _h : f.read r (room out.size) with
  | none => none
  | some (d, r') => if 0 < d.size then readToEnd room r' (out ++ d) else some out
termination_by f.rest r
decreasing_by exact f.rest_lt ‹_› ‹_›

/-- How much is asked for when so much is there, with `hint` set aside at first: what is left
    of that, and then as much again. -/
def room (hint got : Nat) : Nat := if got < hint then hint - got else max 32 got

/-- The stored form of some bytes. -/
def pack (d : Dense) : Option Dense := do f.finish (← f.writeAll f.writer d)

/-- The bytes of a stored form, with room for `hint` of them set aside. -/
def unpack (stored : Dense) (hint : Nat) : Option Dense :=
  f.readToEnd (room hint) (f.reader stored) .empty

theorem room_pos (hint got : Nat) : 0 < room hint got := by
  unfold room
  split <;> omega

theorem exists_writeAll (w : f.Writer) (d : Dense) : ∃ w', f.writeAll w d = some w' := by
  fun_induction writeAll f w d with
  | case1 w d hd => exact ⟨w, rfl⟩
  | case2 w d hd hnone =>
    obtain ⟨n, w', h⟩ := f.write_takes w d (by omega)
    simp [h] at hnone
  | case3 w d hd w' hzero =>
    obtain ⟨n, w'', h⟩ := f.write_takes w d (by omega)
    simp [h] at hzero
  | case4 w d hd n w' h ih => exact ih

theorem exists_pack (d : Dense) : ∃ stored, f.pack d = some stored := by
  obtain ⟨w, hw⟩ := f.exists_writeAll f.writer d
  obtain ⟨stored, hs⟩ := f.finish_gives w
  exact ⟨stored, by simp [pack, hw, hs]⟩

end Format

end BagFile.Codec
