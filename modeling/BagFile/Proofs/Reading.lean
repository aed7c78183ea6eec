/-
  What an operation reads where certain bytes stand.

  * A `Source` has bytes ahead and can be moved along them: a stream over a file, a cursor over
    contents in memory;
  * `Reads s op bs a`: where the bytes `bs` are ahead of `s`, the operation `op` gives `a` and
    moves past them.  `Reads.bind`, `Reads.check` and `Reads.guard` follow the ways in which
    reading operations are made of others;
  * words and length-prefixed blocks are read as they were written, from both kinds of source.
-/
import BagFile.Bag
import BagFile.Fetcher
import BagFile.Proofs.Image
import BagFile.Proofs.Stretches

namespace BagFile

/-! ## Sources -/

/-- A type of sources with bytes ahead, which may be moved past them. -/
class Source (σ : Type) where
  rest : σ → Bytes
  move : σ → Nat → σ
  move_zero (s : σ) : move s 0 = s
  move_move (s : σ) (m n : Nat) : move (move s m) n = move s (m + n)
  rest_move (s : σ) (n : Nat) : rest (move s n) = (rest s).drop n

instance : Source Stream where
  rest s := s.contents.bytes.drop s.pos
  move s n := { s with pos := s.pos + n }
  move_zero _ := rfl
  move_move s m n := by simp only [Nat.add_assoc]
  rest_move s n := by simp only [List.drop_drop]

instance : Source Cursor where
  rest c := c.data.bytes.drop c.pos
  move c n := { c with pos := c.pos + n }
  move_zero _ := rfl
  move_move c m n := by simp only [Nat.add_assoc]
  rest_move c n := by simp only [List.drop_drop]

open Source

variable {σ : Type} [Source σ] {α β : Type}

/-- Behind the first of the bytes that are ahead, the others are ahead. -/
theorem Source.prefix_rest_move {s : σ} {bs bs' : Bytes} (h : bs ++ bs' <+: rest s) :
    bs' <+: rest (move s bs.length) := by
  obtain ⟨after, hafter⟩ := h
  exact ⟨after, by rw [rest_move, ← hafter, List.append_assoc, List.drop_left]⟩

/-- What an operation does where certain bytes are ahead. -/
def Reads (s : σ) (op : EStateM Error σ α) (bs : Bytes) (a : α) : Prop :=
  bs <+: rest s → op.run s = .ok a (move s bs.length)

namespace Reads

variable {s : σ} {op : EStateM Error σ α} {bs bs' : Bytes} {a : α} {b : β}

theorem pure (s : σ) (a : α) : Reads s (Pure.pure a) [] a := by
  intro _
  rw [List.length_nil, move_zero]
  rfl

theorem bind {k : α → EStateM Error σ β} (h : Reads s op bs a)
    (hk : Reads (move s bs.length) (k a) bs' b) : Reads s (op >>= k) (bs ++ bs') b := by
  intro hp
  rw [EStateM.run_bind, h ((List.prefix_append _ _).trans hp)]
  simp only [hk (prefix_rest_move hp), move_move, List.length_append]

/-- What has been read is looked at. -/
theorem check {x : Except Error β} {k : β → EStateM Error σ α} (hx : x = .ok b)
    (h : Reads s (k b) bs a) : Reads s (MonadExcept.ofExcept x >>= k) bs a := by
  subst hx
  exact h

/-- What would be refused is not there. -/
theorem guard {e : Error} {refused : Prop} [Decidable refused] {k : PUnit → EStateM Error σ α}
    (hn : ¬refused) (h : Reads s (k ⟨⟩) bs a) :
    Reads s (if refused then throw e >>= k else k ⟨⟩) bs a := by
  rwa [if_neg hn]

theorem ofExcept {x : Except Error α} (s : σ) (hx : x = .ok a) :
    Reads s (MonadExcept.ofExcept x : EStateM Error σ α) [] a := by
  subst hx
  exact Reads.pure s a

end Reads

/-! ## Words and blocks -/

theorem Word.decodeAt_of_ahead [Word α] [LawfulWord α] {a : α} {d : Dense} {pos : Nat}
    (h : (Word.encode a).bytes <+: d.bytes.drop pos) : Word.decodeAt d pos = .ok a := by
  have hl := Word.length_encode a
  have hsize : ¬d.size - pos < Word.width α := by
    rw [← hl, ← Dense.length_bytes, ← List.length_drop]
    exact Nat.not_lt_of_le h.length_le
  have hnat : d.natAt pos (Word.width α) = Word.toNat a := by
    rw [Dense.natAt_eq, ← hl, ← List.prefix_iff_eq_take.1 h, Word.encode, Dense.bytes_ofNat,
      Bytes.toNat_ofNat_of_lt (LawfulWord.toNat_lt a)]
  rw [decodeAt, if_neg hsize, hnat, LawfulWord.ofNat_toNat]

theorem Word.decode_of_ahead [Word α] [LawfulWord α] {a : α} {d : Dense}
    (h : (Word.encode a).bytes <+: d.bytes) : Word.decode d = .ok a :=
  Word.decodeAt_of_ahead h

theorem Word.decode_encode [Word α] [LawfulWord α] (a : α) : Word.decode (Word.encode a) = .ok a :=
  Word.decode_of_ahead (List.prefix_refl _)

/-- The bytes that a length was read from, whatever follows them. -/
theorem Word.take_of_decode {d : Dense} {len : UInt32} (h : Word.decode d = .ok len) :
    d.bytes.take 4 = Bytes.ofNat 4 len.toNat := by
  have hwidth : Word.width UInt32 = 4 := rfl
  rw [decode, decodeAt, hwidth] at h
  split at h
  · cases h
  · next hsize =>
    have hlength : (d.bytes.take 4).length = 4 := by
      rw [List.length_take, Dense.length_bytes]
      omega
    have hnat : d.natAt 0 4 = Bytes.toNat (d.bytes.take 4) := by
      rw [Dense.natAt_eq, List.drop_zero]
    have hlt : Bytes.toNat (d.bytes.take 4) < 2 ^ 32 := by
      have hlt := Bytes.toNat_lt (d.bytes.take 4)
      rwa [hlength] at hlt
    have hlen : len.toNat = Bytes.toNat (d.bytes.take 4) := by
      rw [← Except.ok.inj h, hnat]
      exact UInt32.toNat_ofNat_of_lt' hlt
    have hback := Bytes.ofNat_toNat (d.bytes.take 4)
    rw [hlength] at hback
    rw [hlen, hback]

theorem Word.bytes_of_decode {d : Dense} {len : UInt32} (hd : d.size = 4)
    (h : Word.decode d = .ok len) : d.bytes = Bytes.ofNat 4 len.toNat := by
  have hlength : d.bytes.length = 4 := by rw [Dense.length_bytes, hd]
  rw [← take_of_decode h, List.take_of_length_le (Nat.le_of_eq hlength)]

theorem Word.decode_of_short [Word α] {d : Dense} (h : d.size < Word.width α) :
    (Word.decode d : Except Error α) = .error (.truncated (Word.width α) d.size) :=
  if_pos h

namespace Stream

theorem bytes_ahead (s : Stream) (n : Nat) : (s.ahead n).bytes = (rest s).take n := by
  rw [ahead, Contents.bytes_slice]
  rfl

theorem size_ahead (s : Stream) (n : Nat) :
    (s.ahead n).size = min n (s.contents.size - s.pos) := by
  rw [← Dense.length_bytes, bytes_ahead, List.length_take, ← Contents.length_bytes]
  exact congrArg (min n) List.length_drop

theorem reads_word [Word α] [LawfulWord α] (s : Stream) (a : α) :
    Reads s readWord (Word.encode a).bytes a := by
  intro hp
  have hl := Word.length_encode a
  have hd : Word.decode (s.ahead (Word.width α)) = .ok a := by
    have hahead : (Word.encode a).bytes = (s.ahead (Word.width α)).bytes := by
      rw [bytes_ahead, ← hl, ← List.prefix_iff_eq_take.1 hp]
    exact Word.decode_of_ahead (hahead ▸ List.prefix_refl _)
  rw [EStateM.run, readWord, hd, hl]
  rfl

theorem reads_body (s : Stream) (d : Dense) : Reads s (readBody d.size) d.bytes d := by
  intro hp
  have hd : s.ahead d.size = d := by
    apply Dense.ext_bytes
    rw [bytes_ahead, ← Dense.length_bytes, ← List.prefix_iff_eq_take.1 hp]
  rw [EStateM.run, readBody, hd]
  simp only [Nat.lt_irrefl, if_false, Dense.length_bytes]
  rfl

/-- A block is read as it was written. -/
theorem reads_sized (s : Stream) {d : Dense} (h : d.size < 2 ^ 32) :
    Reads s readSized (Bytes.sized d.bytes) d := by
  have hlen : (UInt32.ofNat d.size).toNat = d.size := UInt32.toNat_ofNat_of_lt' h
  rw [Bytes.sized, Dense.length_bytes, ← Slot.bytes_encode_length]
  refine (reads_word s (UInt32.ofNat d.size)).bind (k := fun len => readBody len.toNat) ?_
  rw [hlen]
  exact reads_body _ d

theorem reads_seek (s : Stream) {d : Bytes} (hr : s.pos + d.length < s.reach) :
    Reads s (seek (s.pos + d.length)) d ⟨⟩ := by
  intro _
  rw [EStateM.run, seek, if_neg (Nat.not_le_of_lt hr)]
  rfl

/-- A block is passed over, if that does not lead out of reach. -/
theorem reads_skipSized (s : Stream) {d : Bytes} (h : d.length < 2 ^ 32)
    (hr : s.pos + (4 + d.length) < s.reach) :
    Reads s skipSized (Bytes.sized d) (UInt32.ofNat d.length) := by
  have hlen : (UInt32.ofNat d.length).toNat = d.length := UInt32.toNat_ofNat_of_lt' h
  have hword : (Word.encode (UInt32.ofNat d.length)).bytes.length = 4 := Word.length_encode _
  rw [Bytes.sized, ← Slot.bytes_encode_length]
  refine (reads_word s (UInt32.ofNat d.length)).bind (k := fun len =>
    position >>= fun p => seek (p + len.toNat) >>= fun _ => pure len) ?_
  have hseek := (reads_seek (move s 4) (d := d) (by rwa [← Nat.add_assoc] at hr)).bind
    (k := fun _ => pure (UInt32.ofNat d.length)) (Reads.pure _ _)
  rw [List.append_nil] at hseek
  rw [hword, hlen]
  exact hseek

end Stream

namespace Cursor

theorem reads_skip (c : Cursor) (d : Bytes) : Reads c (skip d.length) d ⟨⟩ := by
  intro hp
  have hl := hp.length_le
  have hrest : (rest c).length = c.remaining := by
    show (c.data.bytes.drop c.pos).length = _
    rw [List.length_drop, Dense.length_bytes]
    rfl
  rw [EStateM.run, skip, if_neg (by omega)]
  rfl

theorem reads_take (c : Cursor) (d : Dense) : Reads c (take d.size) d.bytes d := by
  intro hp
  have hd : c.data.slice c.pos d.size = d := by
    apply Dense.ext_bytes
    rw [Dense.bytes_slice, ← Dense.length_bytes]
    exact (List.prefix_iff_eq_take.1 hp).symm
  have hskip := reads_skip c d.bytes hp
  rw [Dense.length_bytes] at hskip ⊢
  rw [take, run_get_bind, EStateM.run_bind, hskip, hd]
  rfl

theorem reads_word [Word α] [LawfulWord α] (c : Cursor) (a : α) :
    Reads c readWord (Word.encode a).bytes a := by
  have h := (reads_take c (Word.encode a)).bind (k := fun d => MonadExcept.ofExcept (Word.decode d))
    (Reads.ofExcept _ (Word.decode_encode a))
  rwa [Word.size_encode, List.append_nil] at h

/-- A block is read as it was written. -/
theorem reads_sized (c : Cursor) {d : Dense} (h : d.size < 2 ^ 32) :
    Reads c readSized (Bytes.sized d.bytes) d := by
  have hlen : (UInt32.ofNat d.size).toNat = d.size := UInt32.toNat_ofNat_of_lt' h
  rw [Bytes.sized, Dense.length_bytes, ← Slot.bytes_encode_length]
  refine (reads_word c (UInt32.ofNat d.size)).bind (k := fun len => take len.toNat) ?_
  rw [hlen]
  exact reads_take _ d

end Cursor

end BagFile
