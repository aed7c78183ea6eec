/-
  Matches stand for the text they were found in.

  * `Lz4.Block.Spans` says what sequences stand for in a text: literals as they are, and matches
    that agree with bytes in reach;
  * `Lz4.Block.split_isOf`: the sequences of a split text stand for it, whatever the table of
    suggestions holds;
  * `Lz4.Block.bytes_copyBack`: copying a match back gives the bytes that agree, so that
    `Lz4.Block.HasRead` goes along a text.
-/
import BagFile.Codec.Lz4.Block
import BagFile.Proofs.Stretches

namespace BagFile.Lz4

/-- A sequence stands for the bytes of a text from `start` on; its match is at `pos`. -/
structure Sequence.Spans (s : Sequence) (text : Dense) (start pos : Nat) : Prop where
  start_le : start ≤ pos
  literals : s.literals = text.extract start pos
  offset_pos : 0 < s.offset
  offset_le : s.offset ≤ maxOffset
  length_ge : minMatch ≤ s.length
  stop_le : pos + s.length ≤ text.size
  agrees : ∀ i < s.length, s.offset ≤ pos + i ∧
    text.bytes[pos + i - s.offset]? = text.bytes[pos + i]?

theorem Sequence.Spans.size_literals {s : Sequence} {text : Dense} {start pos : Nat}
    (h : s.Spans text start pos) : start + s.literals.size = pos := by
  have hstart := h.start_le
  have hstop := h.stop_le
  rw [h.literals, ByteArray.size_extract]
  omega

namespace Block

/-- Sequences stand for the bytes of a text between two positions. -/
inductive Spans (text : Dense) : List Sequence → Nat → Nat → Prop
  | nil (start : Nat) : Spans text [] start start
  | cons {s : Sequence} {ss : List Sequence} {start pos stop : Nat} (head : s.Spans text start pos)
      (tail : Spans text ss (pos + s.length) stop) : Spans text (s :: ss) start stop

/-! ## Finding matches -/

section Finding

variable {text : Dense}

theorem agreement_spec (text : Dense) (i j k n : Nat) : ∃ m ≤ n, agreement text i j k n = k + m ∧
    ∀ r < m, text.byteAt (i + r) = text.byteAt (j + r) := by
  induction n generalizing i j k with
  | zero => exact ⟨0, Nat.le_refl _, rfl, fun r hr => absurd hr (Nat.not_lt_zero r)⟩
  | succ n ih =>
    rw [agreement]
    split
    · next heq =>
      obtain ⟨m, hm, hk, hagree⟩ := ih (i + 1) (j + 1) (k + 1)
      refine ⟨m + 1, Nat.succ_le_succ hm, by omega, ?_⟩
      intro r hr
      cases r with
      | zero => exact heq
      | succ r =>
        rw [Nat.add_comm r, ← Nat.add_assoc, ← Nat.add_assoc]
        exact hagree r (Nat.lt_of_succ_lt_succ hr)
    · exact ⟨0, Nat.zero_le _, rfl, fun r hr => absurd hr (Nat.not_lt_zero r)⟩

/-- A suggestion that was checked. -/
theorem spans_of_le {source start pos : Nat} (hstart : start ≤ pos)
    (h : minMatch ≤ matchLength text source pos) :
    Sequence.Spans ⟨text.extract start pos, pos - source, matchLength text source pos⟩ text
      start pos := by
  have hmin : minMatch = 4 := rfl
  have hreach : source < pos ∧ pos ≤ source + maxOffset := by
    by_contra hreach
    rw [matchLength, if_neg hreach] at h
    omega
  obtain ⟨m, hm, hk, hagree⟩ := agreement_spec text source pos 0 (text.size - 5 - pos)
  have hlength : matchLength text source pos = m := by
    rw [matchLength, if_pos hreach, hk, Nat.zero_add]
  rw [hlength] at h ⊢
  have hat : ∀ i < text.size, text.bytes[i]? = some (text.byteAt i) := by
    intro i hi
    have hbyte := List.getElem?_eq_getElem (l := text.bytes) (by rwa [Dense.length_bytes])
    rw [Dense.byteAt_eq hbyte, hbyte]
  refine ⟨hstart, rfl, by dsimp only; omega, by dsimp only; omega, h, by dsimp only; omega, ?_⟩
  intro i hi
  have hsource : pos + i - (pos - source) = source + i := by omega
  refine ⟨by dsimp only; omega, ?_⟩
  dsimp only at hi ⊢
  rw [hsource, hat _ (by omega), hat _ (by omega), hagree i hi]

theorem Spans.snoc {ss : List Sequence} {s : Sequence} {start pos stop : Nat}
    (h : Spans text ss start stop) (hs : s.Spans text stop pos) :
    Spans text (ss ++ [s]) start (pos + s.length) := by
  induction h with
  | nil start => exact .cons hs (.nil _)
  | cons head _ ih => exact .cons head (ih hs)

/-- A block stands for a text. -/
def IsOf (b : Block) (text : Dense) : Prop :=
  ∃ stop, Spans text b.sequences 0 stop ∧ b.last = text.extract stop text.size

theorem splitFrom_isOf (table : Array Nat) {done : List Sequence} {start pos : Nat} (left : Nat)
    (hdone : Spans text done.reverse 0 start) (hstart : start ≤ pos) :
    (splitFrom text table done start pos left).IsOf text := by
  induction left generalizing table done start pos with
  | zero => exact ⟨start, hdone, rfl⟩
  | succ left ih =>
    rw [splitFrom]
    split
    · exact ⟨start, hdone, rfl⟩
    · dsimp only
      split
      · next hmatch =>
        refine ih _ ?_ (Nat.le_refl _)
        rw [List.reverse_cons]
        exact hdone.snoc (spans_of_le hstart hmatch)
      · exact ih _ hdone (Nat.le_succ_of_le hstart)

/-- **A split text** stands for the text. -/
theorem split_isOf (text : Dense) : (split text).IsOf text :=
  splitFrom_isOf _ _ (.nil 0) (Nat.le_refl _)

end Finding

/-! ## Copying matches -/

section Copying

variable {t : Bytes} {offset n : Nat} {out : Dense}

/-- The bytes that are copied at once. -/
theorem bytes_append_slice (hout : out.bytes = t.take out.size) (hn : n ≤ offset)
    (hagrees : ∀ i < n, offset ≤ out.size + i ∧ t[out.size + i - offset]? = t[out.size + i]?) :
    Dense.bytes (out ++ out.slice (out.size - offset) n) = t.take (out.size + n) := by
  rw [Dense.bytes_append, Dense.bytes_slice, List.take_add, ← hout]
  congr 1
  apply List.ext_getElem?
  intro i
  by_cases hi : i < n
  · obtain ⟨hreach, hagree⟩ := hagrees i hi
    obtain ⟨hreach', -⟩ := hagrees 0 (Nat.zero_lt_of_lt hi)
    have hpos : out.size - offset + i = out.size + i - offset := by omega
    rw [List.getElem?_take_of_lt hi, List.getElem?_take_of_lt hi, List.getElem?_drop,
      List.getElem?_drop, hpos, hout, List.getElem?_take_of_lt (by omega), hagree]
  · rw [List.getElem?_take_eq_none (Nat.le_of_not_lt hi),
      List.getElem?_take_eq_none (Nat.le_of_not_lt hi)]

/-- **A match** is copied back. -/
theorem bytes_copyBack (hoffset : 0 < offset) (hout : out.bytes = t.take out.size)
    (hsize : out.size + n ≤ t.length)
    (hagrees : ∀ i < n, offset ≤ out.size + i ∧ t[out.size + i - offset]? = t[out.size + i]?) :
    (copyBack offset out n).bytes = t.take (out.size + n) := by
  fun_induction copyBack offset out n with
  | case1 offset out n h =>
    have hn : n = 0 := by omega
    rw [hn, Nat.add_zero, hout]
  | case2 offset out n h count ih =>
    have hcount : count ≤ n := Nat.min_le_right offset n
    have hbytes := bytes_append_slice hout (Nat.min_le_left offset n)
      fun i hi => hagrees i (Nat.lt_of_lt_of_le hi hcount)
    have hsum : (out ++ out.slice (out.size - offset) count).size = out.size + count := by
      rw [← Dense.length_bytes, hbytes, List.length_take]
      omega
    rw [hsum] at ih
    have hrest := ih (by omega) hbytes (by omega) ?_
    · rw [hrest]
      congr 1
      omega
    · -- twice the offset, as two steps of one offset each
      intro i hi
      have hoffset' : count = offset := by omega
      obtain ⟨hreach, hfar⟩ := hagrees i (by omega)
      obtain ⟨-, hnear⟩ := hagrees (count + i) (by omega)
      have hpos : out.size + (count + i) - offset = out.size + i := by omega
      have hpos' : out.size + count + i - 2 * offset = out.size + i - offset := by omega
      refine ⟨by omega, ?_⟩
      rw [hpos', hfar, ← hpos, hnear, Nat.add_assoc]

end Copying

/-! ## What has been read -/

/-- The first `n` bytes of a text have been read, behind what was there before. -/
structure HasRead (before text : Dense) (n : Nat) (out : Dense) : Prop where
  bytes_eq : out.bytes = before.bytes ++ text.bytes.take n
  le : n ≤ text.size

namespace HasRead

variable {before text out : Dense} {n : Nat}

theorem zero (before text : Dense) : HasRead before text 0 before :=
  ⟨(List.append_nil _).symm, Nat.zero_le _⟩

theorem size_eq (h : HasRead before text n out) : out.size = before.size + n := by
  rw [← Dense.length_bytes, h.bytes_eq, List.length_append, List.length_take, Dense.length_bytes,
    Dense.length_bytes, Nat.min_eq_left h.le]

theorem append {stop : Nat} (h : HasRead before text n out) (hn : n ≤ stop)
    (hstop : stop ≤ text.size) : HasRead before text stop (out ++ text.extract n stop) := by
  refine ⟨?_, hstop⟩
  rw [Dense.bytes_append, h.bytes_eq, List.append_assoc, text.take_append_extract hn]

theorem all (h : HasRead before text text.size out) : out = before ++ text := by
  apply Dense.ext_bytes
  rw [h.bytes_eq, text.take_size, Dense.bytes_append]

theorem copyBack {s : Sequence} {start : Nat} (h : HasRead before text n out)
    (hs : s.Spans text start n) :
    HasRead before text (n + s.length) (copyBack s.offset out s.length) := by
  refine ⟨?_, hs.stop_le⟩
  have htake : ∀ k, before.bytes ++ text.bytes.take k =
      (before.bytes ++ text.bytes).take (before.size + k) := by
    intro k
    rw [← Dense.length_bytes, List.take_length_add_append]
  have hget : ∀ k, (before.bytes ++ text.bytes)[before.size + k]? = text.bytes[k]? := by
    intro k
    rw [← Dense.length_bytes, List.getElem?_append_right (Nat.le_add_right _ _),
      Nat.add_sub_cancel_left]
  rw [htake, ← Nat.add_assoc, ← h.size_eq]
  refine bytes_copyBack hs.offset_pos ?_ ?_ ?_
  · rw [h.bytes_eq, htake, h.size_eq]
  · have hle := hs.stop_le
    rw [h.size_eq, List.length_append, Dense.length_bytes, Dense.length_bytes]
    omega
  · intro i hi
    obtain ⟨hreach, hagree⟩ := hs.agrees i hi
    rw [h.size_eq, Nat.add_assoc]
    refine ⟨Nat.le_trans hreach (Nat.le_add_left _ _), ?_⟩
    rw [Nat.add_sub_assoc hreach, hget, hget, hagree]

end HasRead

end Block

end BagFile.Lz4
