/-
  Bytes that are reached by position: the contents of files and of chunks.

  * `Contents` are stretches of bytes and holes one behind the other; a hole reads as zeros
    and takes no room, so contents may be much longer than what was written to them;
  * `Contents.bytes` are the bytes as a list;
  * `Contents.slice` gives at most so many bytes from a position on (`bytes_slice`);
  * `Contents.overwrite` puts bytes at a position, over what is there and beyond the end; a
    gap between the end and the position becomes a hole (`bytes_overwrite`).
-/
import BagFile.Dense

namespace BagFile

/-- Bytes that are reached by position. -/
inductive Contents where
  | empty
  /-- with bytes at the end -/
  | data (front : Contents) (d : Dense)
  /-- with so many zeros at the end -/
  | hole (front : Contents) (length : Nat)
  deriving DecidableEq

namespace Contents

/-- How many bytes there are. -/
def size : Contents → Nat
  | empty => 0
  | data c d => c.size + d.size
  | hole c n => c.size + n

/-- The bytes as a list. -/
def bytes : Contents → Bytes
  | empty => []
  | data c d => c.bytes ++ d.bytes
  | hole c n => c.bytes ++ Bytes.zeros n

/-- The contents that are one stretch of bytes. -/
def ofDense (d : Dense) : Contents := data empty d

theorem length_bytes (c : Contents) : c.bytes.length = c.size := by
  induction c with
  | empty => rfl
  | data c d ih => simp [bytes, size, ih, Dense.length_bytes]
  | hole c n ih => simp [bytes, size, ih, Bytes.zeros]

theorem bytes_ofDense (d : Dense) : (ofDense d).bytes = d.bytes := rfl

/-! ## Reading -/

/-- The bytes from one position to another. -/
def between (start stop : Nat) : Contents → Dense
  | empty => .empty
  | data c d =>
    let part := d.extract (start - c.size) (stop - c.size)
    if start < c.size then between start stop c ++ part else part
  | hole c n =>
    let part := Dense.zeros (min n (stop - c.size) - (start - c.size))
    if start < c.size then between start stop c ++ part else part

/-- All bytes in one stretch. -/
def all (c : Contents) : Dense := c.between 0 c.size

/-- The bytes from a position on, at most `n`. -/
def slice (c : Contents) (pos n : Nat) : Dense := c.between pos (pos + n)

/-! ## Cutting and joining -/

/-- The contents with a stretch of bytes added, if it has any. -/
def addData (c : Contents) (d : Dense) : Contents := if d.size = 0 then c else data c d

/-- The contents with so many zeros added. -/
def addHole (c : Contents) (n : Nat) : Contents := if n = 0 then c else hole c n

/-- The contents before a position. -/
def take (pos : Nat) : Contents → Contents
  | empty => empty
  | data c d => if pos ≤ c.size then take pos c else data c (d.extract 0 (pos - c.size))
  | hole c n => if pos ≤ c.size then take pos c else hole c (min n (pos - c.size))

/-- The contents from a position on. -/
def drop (pos : Nat) : Contents → Contents
  | empty => empty
  | data c d =>
    if c.size ≤ pos then empty.addData (d.extract (pos - c.size) d.size) else data (drop pos c) d
  | hole c n => if c.size ≤ pos then empty.addHole (n - (pos - c.size)) else hole (drop pos c) n

/-- The contents with others behind them. -/
def append (c : Contents) : Contents → Contents
  | empty => c
  | data e d => data (append c e) d
  | hole e n => hole (append c e) n

/-- The contents cut to a length, or filled up with zeros. -/
def resize (c : Contents) (length : Nat) : Contents := (c.take length).addHole (length - c.size)

/-! ## Writing -/

/-- Puts bytes between what is before them and what is behind them. -/
def splice (c : Contents) (pos : Nat) (d : Dense) : Contents :=
  (((c.take pos).addHole (pos - c.size)).addData d).append (c.drop (pos + d.size))

/-- The contents after bytes are written at a position.  In the stretch at the end, or right
    behind it, they are put in place. -/
def overwrite (c : Contents) (pos : Nat) (d : Dense) : Contents :=
  match c with
  | data c e =>
    if c.size ≤ pos ∧ pos ≤ c.size + e.size then data c (e.place (pos - c.size) d)
    else splice (data c e) pos d
  | c => splice c pos d

/-! ## What this means for the bytes -/

theorem bytes_between (c : Contents) (start stop : Nat) :
    (c.between start stop).bytes = (c.bytes.drop start).take (stop - start) := by
  have skip {c : Contents} (h : ¬start < c.size) :
      (c.bytes.drop start).take (stop - start) = [] := by
    rw [List.drop_eq_nil_of_le (by rw [length_bytes]; omega), List.take_nil]
  have rest (c : Contents) :
      stop - c.size - (start - c.size) = stop - start - (c.size - start) := by
    omega
  induction c with
  | empty => simp [between, bytes, Dense.bytes]
  | data c d ih =>
    have hd : Dense.bytes (d.extract (start - c.size) (stop - c.size)) =
        (d.bytes.drop (start - c.size)).take (stop - start - (c.size - start)) := by
      rw [Dense.bytes_extract, rest]
    rw [between, bytes, List.drop_append, List.take_append, List.length_drop, length_bytes, ← hd]
    split
    · next h => rw [Dense.bytes_append, ih]
    · next h => rw [skip h, List.nil_append]
  | hole c n ih =>
    have hz : Dense.bytes (.zeros (min n (stop - c.size) - (start - c.size))) =
        ((Bytes.zeros n).drop (start - c.size)).take (stop - start - (c.size - start)) := by
      simp only [Dense.bytes_zeros, Bytes.zeros, List.drop_replicate, List.take_replicate]
      congr 1
      omega
    rw [between, bytes, List.drop_append, List.take_append, List.length_drop, length_bytes, ← hz]
    split
    · next h => rw [Dense.bytes_append, ih]
    · next h => rw [skip h, List.nil_append]

theorem bytes_all (c : Contents) : c.all.bytes = c.bytes := by
  rw [all, bytes_between, List.drop_zero, Nat.sub_zero, ← length_bytes, List.take_length]

theorem bytes_slice (c : Contents) (pos n : Nat) :
    (c.slice pos n).bytes = (c.bytes.drop pos).take n := by
  rw [slice, bytes_between, Nat.add_sub_cancel_left]

theorem bytes_addData (c : Contents) (d : Dense) : (c.addData d).bytes = c.bytes ++ d.bytes := by
  unfold addData
  split
  · next h =>
    have : d.bytes = [] := List.length_eq_zero_iff.mp (by rw [Dense.length_bytes, h])
    simp [this]
  · rfl

theorem bytes_addHole (c : Contents) (n : Nat) :
    (c.addHole n).bytes = c.bytes ++ Bytes.zeros n := by
  unfold addHole
  split
  · next h => simp [h, Bytes.zeros]
  · rfl

theorem bytes_take (c : Contents) (pos : Nat) : (c.take pos).bytes = c.bytes.take pos := by
  induction c with
  | empty => simp [take, bytes]
  | data c d ih =>
    rw [take, bytes, List.take_append, length_bytes]
    split
    · next h => rw [ih, Nat.sub_eq_zero_of_le h, List.take_zero, List.append_nil]
    · next h =>
      have hc : c.bytes.take pos = c.bytes := List.take_of_length_le (by rw [length_bytes]; omega)
      rw [bytes, Dense.bytes_extract, List.drop_zero, Nat.sub_zero, hc]
  | hole c n ih =>
    rw [take, bytes, List.take_append, length_bytes]
    split
    · next h => rw [ih, Nat.sub_eq_zero_of_le h, List.take_zero, List.append_nil]
    · next h =>
      have hc : c.bytes.take pos = c.bytes := List.take_of_length_le (by rw [length_bytes]; omega)
      rw [bytes, hc, Bytes.zeros, Bytes.zeros, List.take_replicate, Nat.min_comm]

theorem bytes_drop (c : Contents) (pos : Nat) : (c.drop pos).bytes = c.bytes.drop pos := by
  have past {c : Contents} (h : c.size ≤ pos) : c.bytes.drop pos = [] :=
    List.drop_eq_nil_of_le (by rwa [length_bytes])
  induction c with
  | empty => simp [drop, bytes]
  | data c d ih =>
    rw [drop, bytes, List.drop_append, length_bytes]
    split
    · next h =>
      have hl : (d.bytes.drop (pos - c.size)).length = d.size - (pos - c.size) := by
        rw [List.length_drop, Dense.length_bytes]
      rw [past h, bytes_addData, Dense.bytes_extract, List.take_of_length_le (Nat.le_of_eq hl),
        bytes]
    · next h => rw [bytes, ih, Nat.sub_eq_zero_of_le (by omega), List.drop_zero]
  | hole c n ih =>
    rw [drop, bytes, List.drop_append, length_bytes]
    split
    · next h =>
      rw [past h, bytes_addHole, Bytes.zeros, Bytes.zeros, List.drop_replicate, bytes]
    · next h => rw [bytes, ih, Nat.sub_eq_zero_of_le (by omega), List.drop_zero]

theorem bytes_append (c e : Contents) : (c.append e).bytes = c.bytes ++ e.bytes := by
  induction e with
  | empty => simp [append, bytes]
  | data e d ih => simp [append, bytes, ih]
  | hole e n ih => simp [append, bytes, ih]

theorem bytes_splice (c : Contents) (pos : Nat) (d : Dense) :
    (c.splice pos d).bytes =
      c.bytes.take pos ++ Bytes.zeros (pos - c.size) ++ d.bytes ++ c.bytes.drop (pos + d.size) := by
  rw [splice, bytes_append, bytes_addData, bytes_addHole, bytes_take, bytes_drop]

theorem bytes_overwrite (c : Contents) (pos : Nat) (d : Dense) :
    (c.overwrite pos d).bytes =
      c.bytes.take pos ++ Bytes.zeros (pos - c.size) ++ d.bytes ++ c.bytes.drop (pos + d.size) := by
  unfold overwrite
  split
  · next c e =>
    split
    · next h =>
      have hc : c.bytes.take pos = c.bytes := List.take_of_length_le (by rw [length_bytes]; omega)
      have hn : c.bytes.drop (pos + d.size) = [] :=
        List.drop_eq_nil_of_le (by rw [length_bytes]; omega)
      have hz : Bytes.zeros (pos - (c.size + e.size)) = [] := by
        rw [Nat.sub_eq_zero_of_le h.2]
        rfl
      have hs : pos + d.size - c.size = pos - c.size + d.size := by omega
      rw [bytes, Dense.bytes_place, bytes, size, List.take_append, List.drop_append,
        length_bytes, hc, hn, hz, hs]
      simp
    · exact bytes_splice _ pos d
  · exact bytes_splice _ pos d

end Contents

end BagFile
