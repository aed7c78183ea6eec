/-
  Fixed-width little-endian values.

  * `Word α` says that `α` is written in a fixed number of bytes;
  * `Word.encode` and `Word.decode` go between a value and its bytes; the latter reads the
    start of some bytes and reports how many it needed;
  * `LawfulWord` is the class of words that survive the trip (`decode_encode_append`).

  A floating-point number travels as its bit pattern, that is, as an unsigned word.
-/
import BagFile.Dense
import BagFile.Error

namespace BagFile

/-- A type of values written in `width` bytes, as the little-endian form of a number. -/
class Word (α : Type) where
  width : Nat
  toNat : α → Nat
  ofNat : Nat → α

namespace Word

variable {α : Type} [Word α]

/-- The bytes of a value. -/
def encode (a : α) : Dense := .ofNat (width α) (toNat a)

/-- The value whose bytes stand at a position. -/
def decodeAt (d : Dense) (pos : Nat) : Except Error α :=
  if d.size - pos < width α then .error (.truncated (width α) (d.size - pos))
  else .ok (ofNat (d.natAt pos (width α)))

/-- The value whose bytes stand at the start of `d`. -/
def decode (d : Dense) : Except Error α := decodeAt d 0

@[simp] theorem size_encode (a : α) : (encode a).size = width α := Dense.size_ofNat _ _

/-! ## The integer types -/

instance : Word UInt8 := ⟨1, UInt8.toNat, UInt8.ofNat⟩
instance : Word UInt16 := ⟨2, UInt16.toNat, UInt16.ofNat⟩
instance : Word UInt32 := ⟨4, UInt32.toNat, UInt32.ofNat⟩
instance : Word UInt64 := ⟨8, UInt64.toNat, UInt64.ofNat⟩
instance : Word Int8 := ⟨1, fun i => i.toUInt8.toNat, fun n => (UInt8.ofNat n).toInt8⟩
instance : Word Int16 := ⟨2, fun i => i.toUInt16.toNat, fun n => (UInt16.ofNat n).toInt16⟩
instance : Word Int32 := ⟨4, fun i => i.toUInt32.toNat, fun n => (UInt32.ofNat n).toInt32⟩
instance : Word Int64 := ⟨8, fun i => i.toUInt64.toNat, fun n => (UInt64.ofNat n).toInt64⟩

/-- A truth value is one byte; any byte but zero is read as true. -/
instance : Word Bool := ⟨1, Bool.toNat, (· != 0)⟩

end Word

/-- Words that are read back as they were written. -/
class LawfulWord (α : Type) [Word α] : Prop where
  toNat_lt (a : α) : Word.toNat a < 256 ^ Word.width α
  ofNat_toNat (a : α) : Word.ofNat (Word.toNat a) = a

namespace Word

instance : LawfulWord UInt8 := ⟨UInt8.toNat_lt, fun _ => UInt8.ofNat_toNat⟩
instance : LawfulWord UInt16 := ⟨UInt16.toNat_lt, fun _ => UInt16.ofNat_toNat⟩
instance : LawfulWord UInt32 := ⟨UInt32.toNat_lt, fun _ => UInt32.ofNat_toNat⟩
instance : LawfulWord UInt64 := ⟨UInt64.toNat_lt, fun _ => UInt64.ofNat_toNat⟩

theorem decode_encode_append {α : Type} [Word α] [LawfulWord α] (a : α) (rest : Dense) :
    decode (encode a ++ rest) = .ok a := by
  have hs : ¬(encode a ++ rest).size - 0 < width α := by
    rw [ByteArray.size_append, size_encode]
    omega
  have hb : ((encode a ++ rest).bytes.drop 0).take (width α) = Bytes.ofNat (width α) (toNat a) := by
    rw [List.drop_zero, Dense.bytes_append, encode, Dense.bytes_ofNat, List.take_left']
    exact Bytes.length_ofNat _ _
  rw [decode, decodeAt, if_neg hs, Dense.natAt_eq, hb,
    Bytes.toNat_ofNat_of_lt (LawfulWord.toNat_lt a), LawfulWord.ofNat_toNat]

end Word

end BagFile
