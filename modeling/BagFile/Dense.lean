/-
  Bytes in one stretch of memory: payloads, the values of fields, the contents of chunks.

  * `Dense.bytes` are the bytes as a list, and `Dense.ofBytes` goes the other way
    (`bytes_ofBytes`, `ofBytes_bytes`);
  * `Dense.slice` gives at most so many bytes from a position on, `Dense.pieces` all bytes in
    slices of one size, `Dense.find?` the first position of a byte;
  * `Dense.ofNat` are the little-endian bytes of a number, `Dense.natAt` reads a number at a
    position (`bytes_ofNat`, `natAt_eq`);
  * `Dense.place` puts bytes at a position, over what is there and beyond the end.
-/
import BagFile.Bytes

namespace BagFile

/-- Bytes in one stretch of memory. -/
abbrev Dense := ByteArray

namespace Dense

/-- The bytes as a list. -/
def bytes (d : Dense) : Bytes := d.data.toList

/-- Some bytes in one stretch. -/
def ofBytes (bs : Bytes) : Dense := bs.toByteArray

/-- So many copies of a byte: those of half as many, twice. -/
def replicate (n : Nat) (b : UInt8) : Dense :=
  if n = 0 then .empty
  else
    let half := replicate (n / 2) b
    let even := half ++ half
    if n % 2 = 0 then even else even.push b
termination_by n

/-- So many zeros. -/
def zeros (n : Nat) : Dense := replicate n 0

/-- Stretches one behind the other. -/
def join (ds : List Dense) : Dense := ds.foldl (· ++ ·) .empty

theorem length_bytes (d : Dense) : d.bytes.length = d.size := by
  rw [bytes, Array.length_toList, ByteArray.size_data]

theorem bytes_ofBytes (bs : Bytes) : (ofBytes bs).bytes = bs := by
  simp [bytes, ofBytes, List.data_toByteArray]

theorem ofBytes_bytes (d : Dense) : ofBytes d.bytes = d := by
  apply ByteArray.ext
  simp [bytes, ofBytes, List.data_toByteArray]

theorem bytes_append (d e : Dense) : bytes (d ++ e) = d.bytes ++ e.bytes :=
  ByteArray.toList_data_append

theorem bytes_push (d : Dense) (b : UInt8) : bytes (d.push b) = d.bytes ++ [b] := by
  simp [bytes, ByteArray.data_push]

theorem bytes_replicate (n : Nat) (b : UInt8) : (replicate n b).bytes = List.replicate n b := by
  fun_induction replicate n b with
  | case1 => rfl
  | case2 n h half even he ih =>
    rw [bytes_append, ih, List.replicate_append_replicate]
    congr 1
    omega
  | case3 n h half even ho ih =>
    rw [bytes_push, bytes_append, ih, List.replicate_append_replicate, ← List.replicate_succ']
    congr 1
    omega

theorem bytes_zeros (n : Nat) : (zeros n).bytes = Bytes.zeros n := bytes_replicate n 0

theorem bytes_extract (d : Dense) (start stop : Nat) :
    bytes (d.extract start stop) = (d.bytes.drop start).take (stop - start) := by
  simp [bytes, ByteArray.data_extract, List.extract_eq_take_drop]

theorem size_join (ds : List Dense) : (join ds).size = (ds.map ByteArray.size).sum := by
  suffices h : ∀ d : Dense, (ds.foldl (· ++ ·) d).size = d.size + (ds.map ByteArray.size).sum by
    rw [join, h, ByteArray.size_empty, Nat.zero_add]
  induction ds with
  | nil => simp
  | cons e es ih =>
    intro d
    rw [List.foldl_cons, ih, ByteArray.size_append, List.map_cons, List.sum_cons, Nat.add_assoc]

theorem bytes_join (ds : List Dense) : (join ds).bytes = ds.flatMap bytes := by
  suffices h : ∀ d : Dense, Dense.bytes (ds.foldl (· ++ ·) d) = d.bytes ++ ds.flatMap bytes from
    h .empty
  induction ds with
  | nil => simp
  | cons e es ih =>
    intro d
    rw [List.foldl_cons, ih, bytes_append, List.flatMap_cons, List.append_assoc]

/-! ## Numbers -/

/-- Adds the `w` bytes of a number, least significant first. -/
def addNat (d : Dense) : Nat → Nat → Dense
  | 0, _ => d
  | w + 1, n => addNat (d.push (UInt8.ofNat (n % 256))) w (n / 256)

/-- The `w` bytes of a number, least significant first. -/
def ofNat (w n : Nat) : Dense := addNat .empty w n

/-- The number whose little-endian bytes are the `w` from a position on. -/
def natAt (d : Dense) (pos : Nat) : Nat → Nat
  | 0 => 0
  | w + 1 => if h : pos < d.size then d[pos].toNat + 256 * natAt d (pos + 1) w else 0

theorem bytes_ofNat (w n : Nat) : (ofNat w n).bytes = Bytes.ofNat w n := by
  suffices h : ∀ d : Dense, (d.addNat w n).bytes = d.bytes ++ Bytes.ofNat w n from h .empty
  induction w generalizing n with
  | zero => simp [addNat, Bytes.ofNat]
  | succ w ih => simp [addNat, Bytes.ofNat, ih, bytes_push]

theorem size_ofNat (w n : Nat) : (ofNat w n).size = w := by
  rw [← length_bytes, bytes_ofNat, Bytes.length_ofNat]

theorem natAt_eq (d : Dense) (pos w : Nat) :
    d.natAt pos w = Bytes.toNat ((d.bytes.drop pos).take w) := by
  induction w generalizing pos with
  | zero => simp [natAt, Bytes.toNat]
  | succ w ih =>
    rw [natAt]
    split
    · next h =>
      have hd : d.bytes.drop pos = d[pos] :: d.bytes.drop (pos + 1) :=
        List.drop_eq_getElem_cons (by rwa [length_bytes])
      rw [hd, List.take_succ_cons, Bytes.toNat, ih]
    · next h => rw [List.drop_eq_nil_of_le (by rw [length_bytes]; omega), List.take_nil]; rfl

/-! ## Reading -/

/-- The bytes from a position on, at most `n`. -/
def slice (d : Dense) (pos n : Nat) : Dense := d.extract pos (pos + n)

theorem bytes_slice (d : Dense) (pos n : Nat) :
    (d.slice pos n).bytes = (d.bytes.drop pos).take n := by
  rw [slice, bytes_extract, Nat.add_sub_cancel_left]

/-- All bytes, in slices of `n` bytes and perhaps a shorter one. -/
def pieces (n : Nat) (d : Dense) : List Dense :=
  (List.range ((d.size + (n - 1)) / n)).map fun i => d.slice (n * i) n

/-- The byte at a position, or zero beyond the end. -/
@[inline] def byteAt (d : Dense) (pos : Nat) : UInt8 := if h : pos < d.size then d[pos] else 0

/-- The first of `n` positions from `pos` on at which a byte stands. -/
def findFrom (d : Dense) (b : UInt8) (pos : Nat) : Nat → Option Nat
  | 0 => none
  | n + 1 =>
    if h : pos < d.size then
      if d[pos] = b then some pos else findFrom d b (pos + 1) n
    else none

/-- The first position of a byte between two positions. -/
def find? (d : Dense) (b : UInt8) (start stop : Nat) : Option Nat :=
  findFrom d b start (stop - start)

/-! ## Writing -/

/-- Puts bytes over those from a position on, which is not beyond the end. -/
def place (d : Dense) (pos : Nat) (e : Dense) : Dense := e.copySlice 0 d pos e.size false

theorem bytes_place (d : Dense) (pos : Nat) (e : Dense) :
    (d.place pos e).bytes = d.bytes.take pos ++ e.bytes ++ d.bytes.drop (pos + e.size) := by
  have he : e.bytes.take e.size = e.bytes :=
    List.take_of_length_le (Nat.le_of_eq (length_bytes e))
  have hd : (d.bytes.drop (pos + e.size)).length = d.size - (pos + e.size) := by
    rw [List.length_drop, length_bytes]
  rw [place, ByteArray.copySlice_eq_append, ByteArray.size_data, ByteArray.size_data,
    Nat.sub_zero, Nat.min_self, bytes_append, bytes_append, bytes_extract, bytes_extract,
    bytes_extract, Nat.zero_add, Nat.sub_zero, Nat.sub_zero, List.drop_zero, List.drop_zero, he,
    List.take_of_length_le (Nat.le_of_eq hd)]

end Dense

end BagFile
