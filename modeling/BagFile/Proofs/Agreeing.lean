/-
  The readers of blocks agree.

  * `Sized.Leads` says when a block is ahead; then `Sized.decode`, a cursor and a stream all read
    it (`Sized.decode_of_leads`, `Stream.readSized_eq_ok_iff` and their like for cursors), and they
    read nothing else.  If they fail, it is for want of input (`Error.IsTruncated`);
  * `Block.Found` and `Block.Missing` put together what the three do at one position of some bytes;
  * `Outcome.Alike` compares what the readers of fields come to;
  * `Block.readers_agree`: at every position of any bytes, either of the two holds.
-/
import BagFile.Proofs.Sharing
import BagFile.Proofs.Stepping

namespace BagFile

open Source

/-- Input is missing. -/
def Error.IsTruncated (e : Error) : Prop := ∃ needed available, e = .truncated needed available

/-- Errors that are the same, or both for want of input. -/
def Error.Alike (e e' : Error) : Prop := e = e' ∨ e.IsTruncated ∧ e'.IsTruncated

/-! ## From some bytes -/

theorem Word.decodeAt_errsIn {α : Type} [Word α] (d : Dense) (pos : Nat) :
    ErrsIn Error.IsTruncated (decodeAt d pos : Except Error α) :=
  ErrsIn.check ⟨_, _, rfl⟩ (.ok _)

namespace Sized

variable {d body : Dense} {n : Nat} {after : Bytes}

/-- A block at the start of some bytes is decoded. -/
theorem decode_of_leads (h : Leads body d.bytes after) : decode d = .ok (body, 4 + body.size) := by
  have hlen : (UInt32.ofNat body.size).toNat = body.size := UInt32.toNat_ofNat_of_lt' h.1
  have hfront : (Word.encode (UInt32.ofNat body.size)).bytes <+: d.bytes := by
    rw [Slot.bytes_encode_length, h.2, Bytes.sized, Dense.length_bytes, List.append_assoc]
    exact List.prefix_append _ _
  have hsize : ¬d.size < 4 + body.size := by
    rw [← Dense.length_bytes, h.length_eq]
    omega
  have hbody : d.extract 4 (4 + body.size) = body := by
    apply Dense.ext_bytes
    rw [Dense.bytes_extract, h.2, Bytes.sized, List.append_assoc,
      List.drop_left' (Bytes.length_ofNat 4 _), Nat.add_sub_cancel_left, ← Dense.length_bytes,
      List.take_left]
  rw [decode, Word.decode_of_ahead hfront]
  show (if d.size < 4 + (UInt32.ofNat body.size).toNat then _ else _) = _
  rw [hlen, if_neg hsize, hbody]

/-- What is decoded is a block at the start. -/
theorem leads_of_decode (h : decode d = .ok (body, n)) :
    ∃ after, Leads body d.bytes after := by
  obtain ⟨len, hlen, hrest⟩ := bind_eq_ok h
  have hfront := Word.take_of_decode hlen
  dsimp only at hrest
  split at hrest
  · cases hrest
  · next hsize =>
    cases hrest
    have hbytes : Dense.bytes (d.extract 4 (4 + len.toNat)) =
        (d.bytes.drop 4).take len.toNat := by
      rw [Dense.bytes_extract, Nat.add_sub_cancel_left]
    refine ⟨_, leads_of_take hfront hbytes ?_⟩
    rw [← Dense.length_bytes, hbytes, List.length_take, List.length_drop, Dense.length_bytes]
    omega

theorem decode_errsIn (d : Dense) : ErrsIn Error.IsTruncated (decode d) :=
  (Word.decodeAt_errsIn d 0).bind fun _ => ErrsIn.check ⟨_, _, rfl⟩ (.ok _)

/-- The written form of a block is its part of the bytes. -/
theorem encode_of_leads {p : Nat} (h : Leads body (d.bytes.drop p) after) :
    encode body = d.extract p (p + 4 + body.size) := by
  have hlength : (Bytes.sized body.bytes).length = 4 + body.size := by
    rw [Bytes.length_sized, Dense.length_bytes]
  apply Dense.ext_bytes
  rw [Dense.bytes_extract, h.2, Nat.add_assoc, Nat.add_sub_cancel_left, List.take_left' hlength,
    encode, Dense.bytes_append, Slot.bytes_encode_length, Bytes.sized, Dense.length_bytes]

end Sized

/-! ## From a cursor -/

namespace Cursor

theorem Strides.failsWith {α : Type} {n : Nat} {op : Op α} (h : Strides n op) :
    FailsWith Error.IsTruncated op := by
  intro c e c' hrun
  exact ⟨n, c.remaining, (h.of_error hrun).1⟩

theorem readSized_failsWith : FailsWith Error.IsTruncated readSized :=
  (strides_readWord UInt32).failsWith.bind fun _ => (strides_take _).failsWith

end Cursor

/-! ## From a stream -/

namespace Stream

variable {s s' : Stream} {d : Dense} {after : Bytes}

/-- **Reading a block** gives the one that is ahead, and goes behind it. -/
theorem readSized_eq_ok_iff : readSized.run s = .ok d s' ↔
    Sized.Leads d (rest s) (rest s') ∧ s' = move s (4 + d.size) := by
  have hlength : (Bytes.sized d.bytes).length = 4 + d.size := by
    rw [Bytes.length_sized, Dense.length_bytes]
  constructor
  · intro h
    obtain ⟨hlt, hprefix⟩ := of_readSized h
    rw [reads_sized s hlt hprefix, hlength] at h
    obtain ⟨after, hafter⟩ := hprefix
    have hleads : Sized.Leads d (rest s) after := ⟨hlt, hafter.symm⟩
    cases h
    exact ⟨hleads.rest_move.symm ▸ hleads, rfl⟩
  · rintro ⟨⟨hlt, hrest⟩, rfl⟩
    rw [reads_sized s hlt (hrest ▸ List.prefix_append _ _), hlength]

/-- A block that is ahead is passed over, if that does not lead out of reach. -/
theorem run_skipSized (h : Sized.Leads d (rest s) after) (hreach : s.pos + (4 + d.size) < s.reach) :
    skipSized.run s = .ok (UInt32.ofNat d.size) (move s (4 + d.size)) := by
  rw [← Dense.length_bytes] at hreach ⊢
  rw [reads_skipSized s (by rw [Dense.length_bytes]; exact h.1) hreach
    (h.2 ▸ List.prefix_append _ _), Bytes.length_sized]

theorem readSized_failsWith : FailsWith Error.IsTruncated readSized := by
  refine FailsWith.bind (fun s e s' h => ?_) fun len s e s' h => ?_
  · rw [EStateM.run, readWord] at h
    split at h
    · cases h
    · cases h
      exact ⟨_, _, rfl⟩
  · rw [EStateM.run, readBody] at h
    split at h
    · cases h
      exact ⟨_, _, rfl⟩
    · cases h

end Stream

/-! ## Outcomes -/

/-- A reading operation on a cursor and one on a stream come to the same: to one value and one
    position, or to errors of one kind. -/
inductive Outcome.Alike {α : Type} :
    EStateM.Result Error Cursor α → EStateM.Result Error Stream α → Prop
  | ok {a : α} {c : Cursor} {s : Stream} : c.pos = s.pos → Alike (.ok a c) (.ok a s)
  | error {e e' : Error} {c : Cursor} {s : Stream} : e.Alike e' → Alike (.error e c) (.error e' s)

/-- What has been read alike is looked at alike. -/
theorem Outcome.Alike.check {α β : Type} {op : Cursor.Op α} {op' : Stream.Op α} {c : Cursor}
    {s : Stream} (h : Alike (op.run c) (op'.run s)) (f : α → Except Error β) :
    Alike ((op >>= fun a => MonadExcept.ofExcept (f a)).run c)
      ((op' >>= fun a => MonadExcept.ofExcept (f a)).run s) := by
  rw [EStateM.run_bind, EStateM.run_bind]
  generalize op.run c = x at h ⊢
  generalize op'.run s = y at h ⊢
  cases h with
  | @ok a c' s' hpos =>
    rcases hf : f a with e | b
    · simp only [hf]
      exact .error (.inl rfl)
    · simp only [hf]
      exact .ok hpos
  | error he => exact .error he

namespace Block

/-- At a position of `d`, and of a stream over the same bytes, a block is ahead, and all readers
    find it. -/
structure Found (d : Dense) (s : Stream) (body : Dense) : Prop where
  ahead : ∃ after, Sized.Leads body (d.bytes.drop s.pos) after
  decoded : Sized.decode (d.extract s.pos d.size) = .ok (body, 4 + body.size)
  encoded : Sized.encode body = d.extract s.pos (s.pos + 4 + body.size)
  cursor : Cursor.readSized.run ⟨d, s.pos⟩ = .ok body ⟨d, s.pos + 4 + body.size⟩
  stream : Stream.readSized.run s = .ok body { s with pos := s.pos + 4 + body.size }
  skipCursor : Cursor.skipSized.run ⟨d, s.pos⟩ = .ok ⟨⟩ ⟨d, s.pos + 4 + body.size⟩
  skipStream : d.size < s.reach → Stream.skipSized.run s =
    .ok (UInt32.ofNat body.size) { s with pos := s.pos + 4 + body.size }

/-- No block is ahead, and none of them finds one, for want of input. -/
structure Missing (d : Dense) (s : Stream) : Prop where
  none : ¬∃ body after, Sized.Leads body (d.bytes.drop s.pos) after
  decoded : ∃ e, Sized.decode (d.extract s.pos d.size) = .error e ∧ e.IsTruncated
  cursor : ∃ e c, Cursor.readSized.run ⟨d, s.pos⟩ = .error e c ∧ e.IsTruncated
  stream : ∃ e s', Stream.readSized.run s = .error e s' ∧ e.IsTruncated

variable {d body : Dense} {s : Stream} {after : Bytes}

theorem bytes_from (d : Dense) (p : Nat) : Dense.bytes (d.extract p d.size) = d.bytes.drop p := by
  have hlength : (d.bytes.drop p).length = d.size - p := by
    rw [List.length_drop, Dense.length_bytes]
  rw [Dense.bytes_extract, List.take_of_length_le (Nat.le_of_eq hlength)]

/-- A block that is ahead is found. -/
theorem found_of_leads (hbytes : s.contents.bytes = d.bytes)
    (h : Sized.Leads body (d.bytes.drop s.pos) after) : Found d s body := by
  have hcursor : Sized.Leads body (rest (⟨d, s.pos⟩ : Cursor)) after := h
  have hstream : Sized.Leads body (rest s) after := by
    show Sized.Leads body (s.contents.bytes.drop s.pos) after
    rwa [hbytes]
  have hsize : s.pos + (4 + body.size) ≤ d.size := by
    have hlength := h.length_eq
    rw [List.length_drop, Dense.length_bytes] at hlength
    omega
  have hmove := Nat.add_assoc s.pos 4 body.size
  refine ⟨⟨after, h⟩, ?_, Sized.encode_of_leads h, ?_, ?_, ?_, ?_⟩
  · exact Sized.decode_of_leads (by rwa [bytes_from])
  · rw [hmove]
    exact Cursor.readSized_eq_ok_iff.2 ⟨hcursor.rest_move.symm ▸ hcursor, rfl⟩
  · rw [hmove]
    exact Stream.readSized_eq_ok_iff.2 ⟨hstream.rest_move.symm ▸ hstream, rfl⟩
  · rw [hmove]
    exact Cursor.skipSized_eq_ok_iff.2 ⟨body, hcursor.rest_move.symm ▸ hcursor, rfl⟩
  · intro hreach
    rw [hmove]
    exact Stream.run_skipSized hstream (Nat.lt_of_le_of_lt hsize hreach)

/-- If none is ahead, none is found. -/
theorem missing_of_not_leads (hbytes : s.contents.bytes = d.bytes)
    (h : ¬∃ body after, Sized.Leads body (d.bytes.drop s.pos) after) : Missing d s := by
  refine ⟨h, ?_, ?_, ?_⟩
  · rcases hrun : Sized.decode (d.extract s.pos d.size) with e | ⟨body, n⟩
    · exact ⟨e, rfl, Sized.decode_errsIn _ e hrun⟩
    · obtain ⟨after, hleads⟩ := Sized.leads_of_decode hrun
      rw [bytes_from] at hleads
      exact absurd ⟨body, after, hleads⟩ h
  · rcases hrun : Cursor.readSized.run ⟨d, s.pos⟩ with ⟨body, c⟩ | ⟨e, c⟩
    · exact absurd ⟨body, _, (Cursor.readSized_eq_ok_iff.1 hrun).1⟩ h
    · exact ⟨e, c, rfl, Cursor.readSized_failsWith _ e c hrun⟩
  · rcases hrun : Stream.readSized.run s with ⟨body, s'⟩ | ⟨e, s'⟩
    · have hleads : Sized.Leads body (s.contents.bytes.drop s.pos) (rest s') :=
        (Stream.readSized_eq_ok_iff.1 hrun).1
      rw [hbytes] at hleads
      exact absurd ⟨body, _, hleads⟩ h
    · exact ⟨e, s', rfl, Stream.readSized_failsWith _ e s' hrun⟩

theorem found_or_missing (hbytes : s.contents.bytes = d.bytes) :
    (∃ body, Found d s body) ∨ Missing d s := by
  by_cases h : ∃ body after, Sized.Leads body (d.bytes.drop s.pos) after
  · obtain ⟨body, after, hleads⟩ := h
    exact .inl ⟨body, found_of_leads hbytes hleads⟩
  · exact .inr (missing_of_not_leads hbytes h)

theorem readSized_alike (hbytes : s.contents.bytes = d.bytes) :
    Outcome.Alike (Cursor.readSized.run ⟨d, s.pos⟩) (Stream.readSized.run s) := by
  rcases found_or_missing hbytes with ⟨body, hfound⟩ | hmissing
  · rw [hfound.cursor, hfound.stream]
    exact .ok rfl
  · obtain ⟨e, c, hcursor, he⟩ := hmissing.cursor
    obtain ⟨e', s', hstream, he'⟩ := hmissing.stream
    rw [hcursor, hstream]
    exact .error (.inr ⟨he, he'⟩)

/-- **The readers of blocks agree.**  Let a stream stand at some position of some bytes.  Decoding
    the bytes from there, and reading from there by a cursor or by the stream, all give the block
    that is ahead, whose written form is what they take, and end behind it; or no block is ahead,
    and all miss input.  If there is one, both ways to pass over a block go behind it as well, the
    stream's if it can be moved to every position of the bytes.  Reading fields from the cursor and
    from the stream comes to the same.  Whatever has been done to a cursor over the bytes, and
    whatever of it has failed, its position and what it says is left make up all of them. -/
theorem readers_agree (hbytes : s.contents.bytes = d.bytes) :
    ((∃ body, Found d s body) ∨ Missing d s) ∧
    Outcome.Alike (Fields.readCursor.run ⟨d, s.pos⟩) (Fields.read.run s) ∧
    ∀ ms, (Cursor.after ms (.start d)).data = d ∧ (Cursor.after ms (.start d)).pos ≤ d.size ∧
      (Cursor.after ms (.start d)).pos + (Cursor.after ms (.start d)).remaining = d.size := by
  refine ⟨found_or_missing hbytes, (readSized_alike hbytes).check Fields.decode, fun ms => ?_⟩
  obtain ⟨hdata, hpos⟩ := (Cursor.within_start d).after ms
  refine ⟨hdata, hpos, ?_⟩
  rw [Cursor.remaining, hdata]
  exact Nat.add_sub_cancel' hpos

/-- A block of two bytes, with one byte before it and one behind. -/
def sample : Dense := .ofBytes [9, 2, 0, 0, 0, 7, 8, 1]

/-- A stream in front of the block. -/
def sampleStream : Stream := { Stream.ofDense sample with pos := 1 }

/-- It is found where it stands. -/
theorem readers_agree_sample :
    sampleStream.contents.bytes = sample.bytes ∧ Found sample sampleStream (.ofBytes [7, 8]) := by
  have hbytes : sampleStream.contents.bytes = sample.bytes := Contents.bytes_ofDense sample
  have hread : Cursor.readSized.run ⟨sample, sampleStream.pos⟩ =
      .ok (.ofBytes [7, 8]) ⟨sample, 7⟩ := by rfl
  refine ⟨hbytes, ?_⟩
  rcases (readers_agree hbytes).1 with ⟨body, hfound⟩ | hmissing
  · have hbody := hfound.cursor
    rw [hread] at hbody
    injection hbody with hbody
    exact hbody ▸ hfound
  · obtain ⟨e, c, herror, -⟩ := hmissing.cursor
    rw [hread] at herror
    cases herror

end Block

end BagFile
