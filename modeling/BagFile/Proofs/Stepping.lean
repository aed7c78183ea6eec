/-
  Where the operations of a cursor leave it.

  * `Cursor.Move` are the operations of a cursor and `Move.op` what they do; `Cursor.after` is
    where a run of them leaves it, whether they fail or not;
  * `Cursor.Strides`: going past so many bytes, or staying where there are not so many.  `skip` and
    `take` do that, and so does reading a word or a point in time, as the bytes are there before
    anything is made of them (`strides_read`);
  * `Cursor.run_block_torn`: not so a block whose length is there and whose bytes are not
    (`Cursor.Torn`), since the length has been read by then.  `Cursor.failed_stays_iff` says that
    this is the only case in which a failure moves the cursor;
  * `Cursor.within_after`: no operations take a cursor past the end.
-/
import BagFile.Proofs.Pointing

namespace BagFile.Cursor

open Source

/-! ## Operations -/

/-- An operation on a cursor. -/
inductive Move where
  | seek (pos : Nat)
  | take (n : Nat)
  | readU32
  | readU64
  | readTime
  | readSized
  | skipSized
  deriving DecidableEq

namespace Move

/-- What an operation gives. -/
def Result : Move → Type
  | seek _ | skipSized => Unit
  | take _ | readSized => Dense
  | readU32 => UInt32
  | readU64 => UInt64
  | readTime => Time

/-- What an operation does. -/
def op : (m : Move) → Op m.Result
  | seek pos => Cursor.seek pos
  | take n => Cursor.take n
  | readU32 => (readWord : Op UInt32)
  | readU64 => (readWord : Op UInt64)
  | readTime => Cursor.readTime
  | readSized => Cursor.readSized
  | skipSized => Cursor.skipSized

/-- The operations that read a length first. -/
def IsBlock (m : Move) : Prop := m = readSized ∨ m = skipSized

instance (m : Move) : Decidable m.IsBlock := inferInstanceAs (Decidable (_ ∨ _))

/-- Where an operation leaves a cursor. -/
def leaves (m : Move) (c : Cursor) : Cursor :=
  match m.op.run c with
  | .ok _ c' => c'
  | .error _ c' => c'

end Move

/-- Where operations leave a cursor, whichever of them fail. -/
def after (ms : List Move) (c : Cursor) : Cursor := ms.foldl (fun c m => m.leaves c) c

/-- The length of a block is ahead, but not all of its bytes. -/
def Torn (c : Cursor) : Prop := 4 ≤ c.remaining ∧ c.remaining < 4 + c.data.natAt c.pos 4

instance (c : Cursor) : Decidable c.Torn := inferInstanceAs (Decidable (_ ∧ _))

variable {α : Type} {c c' : Cursor} {n : Nat} {k : Nat → Op α}

/-! ## Strides -/

/-- An operation that goes past the next `n` bytes, or nowhere if there are not so many. -/
structure Strides (n : Nat) (op : Op α) : Prop where
  past (c : Cursor) : n ≤ c.remaining → ∃ a, op.run c = .ok a (move c n)
  stays (c : Cursor) : c.remaining < n → op.run c = .error (.truncated n c.remaining) c

theorem strides_skip (n : Nat) : Strides n (skip n) where
  past _ hn := ⟨⟨⟩, if_neg (Nat.not_lt.2 hn)⟩
  stays _ hn := if_pos hn

theorem strides_take (n : Nat) : Strides n (take n) where
  past c hn := by
    obtain ⟨u, hskip⟩ := (strides_skip n).past c hn
    refine ⟨c.data.slice c.pos n, ?_⟩
    rw [take, run_get_bind, EStateM.run_bind, hskip]
    rfl
  stays c hn := by
    rw [take, run_get_bind, EStateM.run_bind, (strides_skip n).stays c hn]

theorem seek_error {pos : Nat} {e : Error} (h : (seek pos).run c = .error e c') : c' = c := by
  rw [EStateM.run, seek] at h
  split at h
  · cases h
    rfl
  · cases h

/-- What can be made of any `n` bytes is read as they are. -/
theorem strides_read {f : Dense → Except Error α} (h : ∀ d : Dense, d.size = n → ∃ a, f d = .ok a) :
    Strides n (take n >>= fun d => MonadExcept.ofExcept (f d)) where
  past c hn := by
    obtain ⟨d, htake⟩ := (strides_take n).past c hn
    obtain ⟨a, ha⟩ := h d (of_take htake).1
    refine ⟨a, ?_⟩
    rw [EStateM.run_bind, htake]
    simp only [ha]
    rfl
  stays c hn := by
    rw [EStateM.run_bind, (strides_take n).stays c hn]

theorem decodeAt_of_le (α : Type) [Word α] {d : Dense} {pos : Nat}
    (h : pos + Word.width α ≤ d.size) : ∃ a : α, Word.decodeAt d pos = .ok a :=
  ⟨_, if_neg (by omega)⟩

theorem strides_readWord (α : Type) [Word α] : Strides (Word.width α) (readWord : Op α) :=
  strides_read fun d hd => decodeAt_of_le α (by omega)

theorem strides_readTime : Strides 8 readTime := by
  refine strides_read fun d hd => ?_
  have hfirst : 0 + Word.width UInt32 ≤ d.size := by rw [hd]; decide
  have hsecond : 4 + Word.width UInt32 ≤ d.size := by rw [hd]; decide
  obtain ⟨secs, hsecs⟩ := decodeAt_of_le UInt32 hfirst
  obtain ⟨nsecs, hnsecs⟩ := decodeAt_of_le UInt32 hsecond
  refine ⟨⟨secs, nsecs⟩, ?_⟩
  simp only [Time.decode, Word.decode, hsecs, hnsecs]
  rfl

/-- A stride fails for want of bytes, and then has not been made. -/
theorem Strides.of_error {op : Op α} {e : Error} (h : Strides n op)
    (hrun : op.run c = .error e c') : e = .truncated n c.remaining ∧ c' = c := by
  by_cases hn : c.remaining < n
  · rw [h.stays c hn] at hrun
    cases hrun
    exact ⟨rfl, rfl⟩
  · obtain ⟨a, hok⟩ := h.past c (Nat.not_lt.1 hn)
    rw [hok] at hrun
    cases hrun

/-! ## Blocks -/

theorem remaining_move (c : Cursor) (n : Nat) : (move c n).remaining = c.remaining - n := by
  show c.data.size - (c.pos + n) = c.data.size - c.pos - n
  omega

/-- A length is read where it is. -/
theorem run_readLength (h : 4 ≤ c.remaining) : ∃ len : UInt32,
    readWord.run c = .ok len (move c 4) ∧ len.toNat = c.data.natAt c.pos 4 := by
  obtain ⟨len, hlen⟩ := (strides_readWord UInt32).past c h
  have hbytes : (c.data.bytes.drop c.pos).take 4 = Bytes.ofNat 4 len.toNat := (of_readLength hlen).2
  refine ⟨len, hlen, ?_⟩
  rw [Dense.natAt_eq, hbytes, Bytes.toNat_ofNat_of_lt (by simpa using len.toNat_lt)]

/-- **A torn block** is not read, but its length is. -/
theorem run_block_torn (hk : ∀ n, Strides n (k n)) (h : c.Torn) :
    (readWord >>= fun len : UInt32 => k len.toNat).run c =
      .error (.truncated (c.data.natAt c.pos 4) (c.remaining - 4)) (move c 4) := by
  obtain ⟨hlength, htorn⟩ := h
  obtain ⟨len, hrun, hlen⟩ := run_readLength hlength
  have hshort : (move c 4).remaining < len.toNat := by
    rw [remaining_move]
    omega
  rw [EStateM.run_bind, hrun]
  simp only [(hk _).stays _ hshort]
  rw [remaining_move, hlen]

/-- Reading any other fails before its length is read, or not at all. -/
theorem eq_of_block_error {e : Error} (hk : ∀ n, Strides n (k n)) (h : ¬c.Torn)
    (hrun : (readWord >>= fun len : UInt32 => k len.toNat).run c = .error e c') : c' = c := by
  by_cases hlength : 4 ≤ c.remaining
  · obtain ⟨len, hlen, hnat⟩ := run_readLength hlength
    have hbody : len.toNat ≤ (move c 4).remaining := by
      have hwhole : 4 + c.data.natAt c.pos 4 ≤ c.remaining := by
        by_contra hshort
        exact h ⟨hlength, Nat.not_le.1 hshort⟩
      rw [remaining_move]
      omega
    obtain ⟨a, hok⟩ := (hk _).past _ hbody
    rw [EStateM.run_bind, hlen] at hrun
    simp only [hok] at hrun
    cases hrun
  · rw [EStateM.run_bind, (strides_readWord UInt32).stays c (Nat.not_le.1 hlength)] at hrun
    cases hrun
    rfl

theorem run_torn {m : Move} (hm : m.IsBlock) (h : c.Torn) : m.op.run c =
    .error (.truncated (c.data.natAt c.pos 4) (c.remaining - 4)) { c with pos := c.pos + 4 } := by
  rcases hm with rfl | rfl
  · exact run_block_torn strides_take h
  · exact run_block_torn strides_skip h

theorem eq_of_error {m : Move} {e : Error} (h : ¬(m.IsBlock ∧ c.Torn))
    (hrun : m.op.run c = .error e c') : c' = c := by
  cases m with
  | seek pos => exact seek_error hrun
  | take n => exact ((strides_take n).of_error hrun).2
  | readU32 => exact ((strides_readWord UInt32).of_error hrun).2
  | readU64 => exact ((strides_readWord UInt64).of_error hrun).2
  | readTime => exact (strides_readTime.of_error hrun).2
  | readSized => exact eq_of_block_error strides_take (fun ht => h ⟨.inl rfl, ht⟩) hrun
  | skipSized => exact eq_of_block_error strides_skip (fun ht => h ⟨.inr rfl, ht⟩) hrun

/-- **A failed operation leaves the cursor where it was, unless a block is torn.**  Wherever the
    cursor stands, it is there after a failure, except if a block is to be read or passed over
    whose length is ahead without all of its bytes: then it is behind the length. -/
theorem failed_stays_iff (m : Move) (c : Cursor) :
    ((∀ e c', m.op.run c = .error e c' → c'.pos = c.pos) ↔ ¬(m.IsBlock ∧ c.Torn)) ∧
    (m.IsBlock → c.Torn → m.op.run c = .error
      (.truncated (c.data.natAt c.pos 4) (c.remaining - 4)) { c with pos := c.pos + 4 }) := by
  refine ⟨⟨?_, ?_⟩, run_torn⟩
  · rintro hstays ⟨hm, ht⟩
    have hpos : c.pos + 4 = c.pos := hstays _ _ (run_torn hm ht)
    omega
  · intro h e c' hrun
    rw [eq_of_error h hrun]

/-- Five bytes are to follow, and one does. -/
theorem failed_read_moves : ¬∀ (d : Dense) (ms : List Move) (m : Move) (e : Error) (c : Cursor),
    m.op.run (after ms (start d)) = .error e c → c.pos = (after ms (start d)).pos := by
  intro h
  have hrun := run_torn (m := .readSized) (c := start (.ofBytes [5, 0, 0, 0, 7])) (.inl rfl)
    (by decide)
  exact absurd (h _ [] _ _ _ hrun) (by decide)

/-! ## The end -/

/-- A cursor over `d` that is not past its end. -/
def Within (d : Dense) (c : Cursor) : Prop := c.data = d ∧ c.pos ≤ d.size

variable {d : Dense}

theorem within_start (d : Dense) : Within d (start d) := ⟨rfl, Nat.zero_le _⟩

theorem within_skip (n : Nat) : Upholds (Within d) (fun _ => True) (skip n) := by
  refine ⟨fun c u c' hrun hc => ⟨trivial, ?_⟩, fun c e c' hrun hc => ?_⟩
  · obtain ⟨hn, rfl⟩ := of_skip hrun
    obtain ⟨rfl, hpos⟩ := hc
    have hleft : c.remaining = c.data.size - c.pos := rfl
    rw [length_rest] at hn
    refine ⟨rfl, ?_⟩
    show c.pos + n ≤ c.data.size
    omega
  · rwa [((strides_skip n).of_error hrun).2]

theorem within_take (n : Nat) : Upholds (Within d) (fun _ => True) (take n) :=
  Upholds.onGet.bind fun _ _ => (within_skip n).bind fun _ _ => .pure trivial

theorem within_readWord (α : Type) [Word α] :
    Upholds (Within d) (fun _ => True) (readWord : Op α) :=
  (within_take _).bind fun _ _ => .ofExcept _

theorem within_seek (pos : Nat) : Upholds (Within d) (fun _ => True) (seek pos) := by
  refine ⟨fun c u c' hrun hc => ⟨trivial, ?_⟩, fun c e c' hrun hc => ?_⟩
  · rw [EStateM.run, seek] at hrun
    obtain ⟨rfl, -⟩ := hc
    split at hrun
    · cases hrun
    · next hpos =>
      cases hrun
      exact ⟨rfl, Nat.not_lt.1 hpos⟩
  · rwa [seek_error hrun]

theorem within_op (m : Move) : Upholds (Within d) (fun _ => True) m.op := by
  cases m with
  | seek pos => exact within_seek pos
  | take n => exact within_take n
  | readU32 => exact within_readWord UInt32
  | readU64 => exact within_readWord UInt64
  | readTime => exact (within_take 8).bind fun _ _ => .ofExcept _
  | readSized => exact (within_readWord UInt32).bind fun _ _ => within_take _
  | skipSized => exact (within_readWord UInt32).bind fun _ _ => within_skip _

/-- One operation leaves a cursor within its bytes, whether it fails or not. -/
theorem Within.leaves (h : Within d c) (m : Move) : Within d (m.leaves c) := by
  rw [Move.leaves]
  split
  · next a c' hrun => exact ((within_op m).gives c a c' hrun h).2
  · next e c' hrun => exact (within_op m).spares c e c' hrun h

/-- **No operations take a cursor past the end.** -/
theorem Within.after (h : Within d c) (ms : List Move) : Within d (after ms c) := by
  induction ms generalizing c with
  | nil => exact h
  | cons m ms ih => exact ih (h.leaves m)

end BagFile.Cursor
