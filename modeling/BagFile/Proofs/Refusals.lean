/-
  Requests that are refused.

  * An error of a recorder is a refusal, raised by a check before anything is done
    (`Error.IsRefusal`), or a fault, met while something is written (`Error.IsFault`);
  * `Recorder.Settles op`: a refusal of `op` leaves the recorder as it was, a fault gives it up;
  * every operation settles but `write`, which is made of several and may be refused between two
    of them: `Recorder.write_refused` says what that leaves behind.
-/
import BagFile.Codec.InMemory
import BagFile.Proofs.Outcomes
import BagFile.Proofs.Serialisation

namespace BagFile

/-! ## Faults -/

/-- The errors met while something is written: a length is too large, or something is not where
    it should be. -/
def Error.IsFault (e : Error) : Prop := e.IsLimit ∨ e.IsMisplaced

theorem Error.IsFault.not_refusal {e : Error} (h : e.IsFault) : ¬e.IsRefusal := by
  intro he
  rcases h with h | h
  · unfold IsLimit at h
    split at h
    · exact he
    · exact he
    · exact he
    · exact h
  · exact he.not_misplaced h

variable {α β : Type}

namespace Slot

theorem reserve_faults : FailsWith Error.IsFault reserve :=
  FailsWith.total fun t => ⟨_, _, run_reserve t⟩

theorem commit_faults (s : Slot) : FailsWith Error.IsFault s.commit := by
  intro t e t' h
  rw [run_commit] at h
  split at h
  · cases h
    exact .inr trivial
  · split at h
    · cases h
      exact .inl trivial
    · cases h

/-- The same for a place in front of what is written. -/
theorem around_faults {body : Tape.Op PUnit} {k : Slot → UInt32 → Tape.Op α}
    (h : FailsWith Error.IsFault body) (hk : ∀ slot len, FailsWith Error.IsFault (k slot len)) :
    FailsWith Error.IsFault
      (reserve >>= fun slot => body >>= fun _ => slot.commit >>= k slot) := by
  refine reserve_faults.bind fun slot => ?_
  refine h.bind fun _ => ?_
  exact (commit_faults slot).bind (hk slot)

end Slot

namespace Tape

theorem write_faults (d : Dense) : FailsWith Error.IsFault (write d) :=
  FailsWith.total fun _ => ⟨_, _, rfl⟩

theorem seek_faults (pos : Nat) : FailsWith Error.IsFault (seek pos) :=
  FailsWith.total fun _ => ⟨_, _, rfl⟩

theorem position_faults : FailsWith Error.IsFault position :=
  FailsWith.total fun _ => ⟨_, _, rfl⟩

theorem toEnd_faults : FailsWith Error.IsFault toEnd :=
  FailsWith.total fun _ => ⟨_, _, rfl⟩

end Tape

theorem Fields.write_faults (f : Fields) : FailsWith Error.IsFault f.write := by
  refine Slot.reserve_faults.bind fun slot => ?_
  refine (FailsWith.forM (fun e => ?_) f.entries).bind fun _ => slot.commit_faults
  refine (Tape.write_faults _).bind fun _ => ?_
  refine (Tape.write_faults _).bind fun _ => ?_
  exact (Tape.write_faults _).bind fun _ => Tape.write_faults _

theorem Header.write_faults [Header α] (h : α) : FailsWith Error.IsFault (Header.write h) :=
  Fields.write_faults _

theorem Connection.write_faults (c : Connection) : FailsWith Error.IsFault c.write := by
  refine (Header.write_faults _).bind fun _ => ?_
  exact (Fields.write_faults _).bind fun _ => FailsWith.pure _

namespace Recorder

theorem writeTable_faults (parts : List Dense) : FailsWith Error.IsFault (writeTable parts) := by
  exact Slot.around_faults (FailsWith.forM Tape.write_faults parts) fun _ _ => FailsWith.pure _

theorem writeHeader_faults (h : FileHeader) : FailsWith Error.IsFault (writeHeader h) := by
  refine (Tape.seek_faults _).bind fun _ => ?_
  refine (Header.write_faults h).bind fun _ => ?_
  refine Tape.position_faults.bind fun pos => ?_
  refine FailsWith.refuse (.inr trivial) ?_
  exact Slot.around_faults (Tape.write_faults _) fun _ _ => FailsWith.pure _

theorem writeMessage_faults (size : Nat) (announce : Option Connection) (conn : UInt32)
    (time : Time) (data : Dense) :
    FailsWith Error.IsFault (writeMessage size announce conn time data) := by
  have hrest : FailsWith Error.IsFault (writeMessage size none conn time data) := by
    refine Tape.position_faults.bind fun pos => ?_
    refine FailsWith.refuse (.inl trivial) ?_
    refine (Header.write_faults _).bind fun _ => ?_
    exact Slot.around_faults (Tape.write_faults _) fun _ _ => FailsWith.pure _
  cases announce with
  | none => exact hrest
  | some c => exact c.write_faults.bind fun _ => hrest

theorem writeChunk_faults [Codec.Formats] (chunk : OpenChunk) :
    FailsWith Error.IsFault (writeChunk chunk) := by
  simp only [writeChunk, ofExcept_store, pure_bind]
  refine FailsWith.refuse (.inl trivial) ?_
  refine Slot.around_faults (Tape.write_faults _) fun slot _ => ?_
  refine Tape.position_faults.bind fun stop => ?_
  refine (Tape.seek_faults _).bind fun _ => ?_
  refine (Header.write_faults _).bind fun _ => ?_
  refine Tape.position_faults.bind fun pos => ?_
  refine FailsWith.refuse (.inr trivial) ?_
  refine (Tape.seek_faults _).bind fun _ => ?_
  refine FailsWith.forM (fun x => ?_) _
  exact (Header.write_faults _).bind fun _ => writeTable_faults _

theorem writeTables_faults (connections : List Connection) (chunks : List ClosedChunk) :
    FailsWith Error.IsFault (writeTables connections chunks) := by
  refine Tape.toEnd_faults.bind fun pos => ?_
  refine (FailsWith.forM Connection.write_faults connections).bind fun _ => ?_
  refine (FailsWith.forM (fun chunk => ?_) chunks).bind fun _ => ?_
  · exact (Header.write_faults _).bind fun _ => writeTable_faults _
  · exact (writeHeader_faults _).bind fun _ => FailsWith.pure _

/-! ## Checks, then effects -/

variable {r r' : Recorder} {e : Error}

/-- An operation that changes nothing, and may refuse to go on. -/
def Checks (op : Op α) : Prop :=
  ∀ r, (∃ a, op.run r = .ok a r) ∨ ∃ e, op.run r = .error e r ∧ e.IsRefusal

/-- What may come of an error: nothing has changed, or the recorder is given up. -/
def Settled (r : Recorder) (e : Error) (r' : Recorder) : Prop :=
  (e.IsRefusal ∧ r' = r) ∨ (e.IsFault ∧ r'.phase = .failed)

/-- An operation that checks first, and is given up if anything else goes wrong. -/
def Settles (op : Op α) : Prop := ∀ r e r', op.run r = .error e r' → Settled r e r'

theorem checks_get : Checks (get : Op Recorder) := by
  intro r
  exact .inl ⟨r, rfl⟩

theorem checks_throw {e : Error} (he : e.IsRefusal) : Checks (throw e : Op α) := by
  intro r
  exact .inr ⟨e, rfl, he⟩

theorem checks_checkWritable : Checks checkWritable := by
  intro r
  rw [checkWritable, run_get_bind]
  split
  · exact .inr ⟨_, rfl, trivial⟩
  · exact .inr ⟨_, rfl, trivial⟩
  · exact .inl ⟨_, rfl⟩

theorem checks_ofCompression (z : Compression) :
    Checks (MonadExcept.ofExcept (Codec.ofCompression z) : Op Codec) := by
  intro r
  rcases Codec.ofCompression_cases z with ⟨codec, h⟩ | ⟨e, h, he⟩
  · rw [h]
    exact .inl ⟨codec, rfl⟩
  · rw [h]
    exact .inr ⟨e, rfl, he⟩

theorem Checks.settles {op : Op α} (h : Checks op) : Settles op := by
  intro r e r' he
  rcases h r with ⟨a, hok⟩ | ⟨e', herror, hrefusal⟩
  · rw [hok] at he
    cases he
  · rw [herror] at he
    cases he
    exact .inl ⟨hrefusal, rfl⟩

theorem faults_guarded {step : Op α} (h : FailsWith Error.IsFault step)
    (he : (guarded step).run r = .error e r') : e.IsFault ∧ r'.phase = .failed := by
  rw [run_guarded] at he
  rcases hstep : step.run r with ⟨a, r₁⟩ | ⟨e₁, r₁⟩
  · rw [hstep] at he
    cases he
  · rw [hstep] at he
    cases he
    exact ⟨h _ _ _ hstep, rfl⟩

theorem settles_guarded {step : Op α} (h : FailsWith Error.IsFault step) :
    Settles (guarded step) := by
  intro r e r' he
  exact .inr (faults_guarded h he)

theorem Checks.bind {op : Op α} {k : α → Op β} (h : Checks op) (hk : ∀ a, Settles (k a)) :
    Settles (op >>= k) := by
  intro r e r' he
  rw [EStateM.run_bind] at he
  rcases h r with ⟨a, hok⟩ | ⟨e₁, herror, hrefusal⟩
  · rw [hok] at he
    exact hk a r e r' he
  · rw [herror] at he
    cases he
    exact .inl ⟨hrefusal, rfl⟩

/-- Behind an operation that may have had effects, nothing is refused any more. -/
theorem Settles.bind_guarded {op : Op α} {step : α → Op β} (h : Settles op)
    (hstep : ∀ a, FailsWith Error.IsFault (step a)) :
    Settles (op >>= fun a => guarded (step a)) := by
  intro r e r' he
  rw [EStateM.run_bind] at he
  rcases hop : op.run r with ⟨a, r₁⟩ | ⟨e₁, r₁⟩
  · rw [hop] at he
    exact .inr (faults_guarded (hstep a) he)
  · rw [hop] at he
    cases he
    exact h r e r' hop

/-! ## The operations -/

theorem onTape_faults {op : Tape.Op α} (h : FailsWith Error.IsFault op) :
    FailsWith Error.IsFault (onTape op) := by
  intro r e r' he
  rw [run_onTape] at he
  rcases hop : op.run r.tape with ⟨a, t⟩ | ⟨e₁, t⟩
  · rw [hop] at he
    cases he
  · rw [hop] at he
    cases he
    exact h _ _ _ hop

theorem reserveChunk_faults (z : Compression) (codec : Codec) :
    FailsWith Error.IsFault (reserveChunk z codec) := by
  refine (onTape_faults Tape.toEnd_faults).bind fun pos => ?_
  refine (onTape_faults (Header.write_faults _)).bind fun _ => ?_
  exact FailsWith.onModify _

theorem appendTo_faults (chunk : OpenChunk) (c : Connection) (conn : UInt32) (time : Time)
    (data : Dense) : FailsWith Error.IsFault (appendTo chunk c conn time data) := by
  intro r e r' he
  rw [appendTo, run_get_bind] at he
  simp only at he
  split at he
  · next e₁ t hwrite =>
    cases he
    exact writeMessage_faults _ _ _ _ _ _ _ _ hwrite
  · cases he

/-- What closing a chunk comes to, once it is known that one is open. -/
def closeChunk [Codec.Formats] (chunk : OpenChunk) : Op Unit := do
  onTape (writeChunk chunk)
  modify fun r => { r with
    phase := .chunkClosed
    chunks := r.chunks ++ [closed chunk] }

theorem closeChunk_faults [Codec.Formats] (chunk : OpenChunk) :
    FailsWith Error.IsFault (closeChunk chunk) :=
  (onTape_faults (writeChunk_faults chunk)).bind fun _ => FailsWith.onModify _

theorem settles_addConnection (c : Connection) : Settles (addConnection c) := by
  refine checks_checkWritable.bind fun _ => ?_
  refine checks_get.bind fun r => ?_
  intro r e r' he
  cases he

theorem settles_beginChunk (z : Compression) : Settles (beginChunk z) := by
  refine checks_checkWritable.bind fun _ => ?_
  refine checks_get.bind fun r => ?_
  split
  · exact (checks_throw (by trivial)).bind fun _ => (checks_ofCompression z).bind fun codec =>
      settles_guarded (reserveChunk_faults z codec)
  · exact (checks_ofCompression z).bind fun codec => settles_guarded (reserveChunk_faults z codec)

theorem settles_append (conn : UInt32) (time : Time) (data : Dense) :
    Settles (append conn time data) := by
  refine checks_checkWritable.bind fun _ => ?_
  refine checks_get.bind fun r => ?_
  split
  · exact (checks_throw (by trivial)).settles
  · split
    · exact (checks_throw (by trivial)).settles
    · exact settles_guarded (appendTo_faults _ _ _ _ _)

theorem settles_endChunk [Codec.Formats] : Settles endChunk := by
  refine checks_checkWritable.bind fun _ => ?_
  refine checks_get.bind fun r => ?_
  split
  · exact (checks_throw (by trivial)).settles
  · next chunk hchunk => exact settles_guarded (closeChunk_faults chunk)

theorem settles_finalize [Codec.Formats] : Settles finalize := by
  have htables : FailsWith Error.IsFault (do
      let r ← get
      let header ← onTape (writeTables r.connections r.chunks)
      modify fun r => { r with phase := .finalized }
      return header : Op FileHeader) := by
    refine FailsWith.onGet.bind fun r => ?_
    refine (onTape_faults (writeTables_faults _ _)).bind fun header => ?_
    exact (FailsWith.onModify _).bind fun _ => FailsWith.pure _
  refine checks_checkWritable.bind fun _ => ?_
  refine checks_get.bind fun r => ?_
  split
  · -- the chunk may be closed by then, but writing the tables refuses nothing
    exact settles_endChunk.bind_guarded fun _ => htables
  · exact settles_guarded htables

/-! ## Messages written with chunks opened as need be -/

variable {chunk : OpenChunk} {conn : UInt32} {time : Time} {data : Dense}

theorem Checks.of_ok {op : Op α} (h : Checks op) {a : α} (hrun : op.run r = .ok a r') : r' = r := by
  rcases h r with ⟨a', hok⟩ | ⟨e, herror, -⟩
  · rw [hok] at hrun
    cases hrun
    rfl
  · rw [herror] at hrun
    cases hrun

theorem of_guarded_ok {step : Op α} {a : α} (h : (guarded step).run r = .ok a r') :
    step.run r = .ok a r' := by
  rw [run_guarded] at h
  split at h
  · next a₁ r₁ hstep =>
    cases h
    exact hstep
  · cases h

theorem of_onTape_ok {op : Tape.Op α} {a : α} (h : (onTape op).run r = .ok a r') :
    ∃ t, r' = { r with tape := t } := by
  rw [run_onTape] at h
  split at h
  · next a₁ t hop =>
    cases h
    exact ⟨t, rfl⟩
  · cases h

/-- A chunk that was opened: nothing but the tape and the phase has changed. -/
theorem of_beginChunk_ok {z : Compression} (h : (beginChunk z).run r = .ok ⟨⟩ r') :
    ∃ t chunk, r' = { r with tape := t, phase := .chunkOpen chunk } := by
  obtain ⟨_, r₁, hcheck, hrun⟩ := run_bind_eq_ok h
  obtain rfl := checks_checkWritable.of_ok hcheck
  rw [run_get_bind] at hrun
  split at hrun
  · cases hrun
  · obtain ⟨codec, r₂, hcodec, hreserve⟩ := run_bind_eq_ok hrun
    obtain rfl := (checks_ofCompression z).of_ok hcodec
    obtain ⟨pos, r₃, hend, hrest⟩ := run_bind_eq_ok (of_guarded_ok hreserve)
    obtain ⟨t₃, rfl⟩ := of_onTape_ok hend
    obtain ⟨_, r₄, hheader, hphase⟩ := run_bind_eq_ok hrest
    obtain ⟨t₄, rfl⟩ := of_onTape_ok hheader
    cases hphase
    exact ⟨t₄, _, rfl⟩

/-- Opening a chunk asks for no connection. -/
theorem beginChunk_errors (z : Compression) (conn : UInt32) :
    FailsWith (· ≠ .unknownConnection conn) (beginChunk z) := by
  have hrest : FailsWith (· ≠ .unknownConnection conn)
      (MonadExcept.ofExcept (Codec.ofCompression z) >>= fun codec =>
        guarded (reserveChunk z codec)) := by
    refine (FailsWith.ofExcept ?_).bind fun codec => ?_
    · intro e he
      cases z with
      | other name =>
        cases he
        simp
      | _ => cases he
    · rintro r e r' he rfl
      exact (faults_guarded (reserveChunk_faults z codec) he).1.not_refusal trivial
  refine FailsWith.bind ?_ fun _ => ?_
  · intro r e r' he
    rw [checkWritable, run_get_bind] at he
    split at he
    · cases he
      simp
    · cases he
      simp
    · cases he
  · refine FailsWith.onGet.bind fun r => ?_
    exact FailsWith.refuse (by simp) hrest

/-- What a write does at last. -/
def closeIfFull [Codec.Formats] : Op Unit := do
  let r ← get
  match r.phase.chunk? with
  | some chunk => if r.settings.chunkThreshold.toNat ≤ chunk.size then endChunk
  | none => return ()

theorem checkWritable_of_open (h : r.phase.chunk? = some chunk) :
    checkWritable.run r = .ok ⟨⟩ r := by
  rw [checkWritable, run_get_bind]
  split
  · next hphase =>
    rw [hphase] at h
    cases h
  · next hphase =>
    rw [hphase] at h
    cases h
  · rfl

theorem run_append_of_open (h : r.phase.chunk? = some chunk) :
    (append conn time data).run r = match r.connections[conn.toNat]? with
      | none => .error (.unknownConnection conn) r
      | some c => (guarded (appendTo chunk c conn time data)).run r := by
  rw [append, EStateM.run_bind, checkWritable_of_open h]
  simp only [run_get_bind]
  rcases hc : r.connections[conn.toNat]? with - | c
  · rfl
  · simp only [h]

section
variable [Codec.Formats]

theorem run_endChunk_of_open (h : r.phase.chunk? = some chunk) :
    endChunk.run r = (guarded (closeChunk chunk)).run r := by
  rw [endChunk, EStateM.run_bind, checkWritable_of_open h]
  simp only [run_get_bind, h]
  rfl

theorem closeIfFull_faults : FailsWith Error.IsFault closeIfFull := by
  intro r e r' he
  rw [closeIfFull, run_get_bind] at he
  split at he
  · next chunk hchunk =>
    split at he
    · rw [run_endChunk_of_open hchunk] at he
      exact (faults_guarded (closeChunk_faults chunk) he).1
    · cases he
  · cases he

/-- With a chunk open, only an unknown connection is refused, before anything is done. -/
theorem refused_add (hopen : r.phase.chunk? = some chunk)
    (h : (append conn time data >>= fun _ => closeIfFull).run r = .error e r')
    (he : e.IsRefusal) : e = .unknownConnection conn ∧ r' = r := by
  rw [EStateM.run_bind, run_append_of_open hopen] at h
  rcases hc : r.connections[conn.toNat]? with - | c
  · simp only [hc] at h
    cases h
    exact ⟨rfl, rfl⟩
  · simp only [hc] at h
    split at h
    · next u r₁ happend => exact absurd he (closeIfFull_faults _ _ _ h).not_refusal
    · next e₁ r₁ happend =>
      cases h
      exact absurd he (faults_guarded (appendTo_faults _ _ _ _ _) happend).1.not_refusal

/-- What may come of a write that is refused. -/
theorem write_refused_cases (h : (write conn time data).run r = .error e r')
    (he : e.IsRefusal) :
    (r' = r ∧ ¬(r.phase.chunk? = none ∧ e = .unknownConnection conn)) ∨
      (r.phase.chunk? = none ∧ e = .unknownConnection conn ∧
        (beginChunk r.settings.compression).run r = .ok ⟨⟩ r') := by
  rw [write, run_get_bind] at h
  rcases hchunk : r.phase.chunk? with - | chunk
  · rw [hchunk, if_pos Option.isNone_none, EStateM.run_bind] at h
    split at h
    · -- the chunk is open by now, and nothing takes that back
      next u r₁ hbegin =>
      obtain ⟨t, chunk, rfl⟩ := of_beginChunk_ok hbegin
      obtain ⟨hunknown, rfl⟩ := refused_add rfl h he
      exact .inr ⟨rfl, hunknown, hbegin⟩
    · next e₁ r₁ hbegin =>
      cases h
      rcases settles_beginChunk _ _ _ _ hbegin with ⟨-, rfl⟩ | ⟨hfault, -⟩
      · exact .inl ⟨rfl, fun hn => beginChunk_errors _ _ _ _ _ hbegin hn.2⟩
      · exact absurd he hfault.not_refusal
  · rw [hchunk, if_neg (by simp)] at h
    obtain ⟨-, rfl⟩ := refused_add hchunk h he
    exact .inl ⟨rfl, fun hn => by cases hn.1⟩

/-- An unknown connection is refused after a chunk was opened for it. -/
theorem Follows.run_write_unknown {a : Account} (h : r.Follows a) (hidle : a.current = none)
    {codec : Codec} (hz : Codec.ofCompression a.settings.compression = .ok codec) (conn : UInt32)
    (hconn : a.connections[conn.toNat]? = none) (time : Time) (data : Dense) :
    ∃ r', (write conn time data).run r = .error (.unknownConnection conn) r' ∧
      r.phase.chunk? = none ∧ r'.phase.chunk?.isSome := by
  have hopen : a.open? r.settings.compression = some (a.opened r.settings.compression codec) := by
    simp [Account.open?, hidle, h.settings, hz]
  have hnone : r.connections[conn.toNat]? = none := by
    rw [h.connections]
    exact hconn
  have hends := h.run_beginChunk r.settings.compression
  rcases hbegin : (beginChunk r.settings.compression).run r with ⟨u, r₁⟩ | ⟨e, r₁⟩
  · obtain ⟨t, chunk, rfl⟩ := of_beginChunk_ok hbegin
    refine ⟨{ r with tape := t, phase := .chunkOpen chunk }, ?_, h.idle hidle, rfl⟩
    rw [write, run_get_bind, h.idle hidle, if_pos Option.isNone_none, EStateM.run_bind, hbegin]
    simp only
    rw [EStateM.run_bind, run_append_of_open rfl]
    simp only [hnone]
  · rw [hbegin] at hends
    rcases hends with ⟨-, hrest, -⟩ | ⟨-, hlimit, -⟩
    · rw [hopen] at hrest
      cases hrest
    · exact absurd trivial hlimit

/-- **A refused write** leaves the recorder as it was if a chunk is open, or if no chunk could be
    opened.  Else the connection is unknown, and the chunk that was opened for the message stays
    open; connections, closed chunks and messages are still the same. -/
theorem write_refused (h : (write conn time data).run r = .error e r') (he : e.IsRefusal) :
    (r' = r ↔ ¬(r.phase.chunk? = none ∧ e = .unknownConnection conn)) ∧
      (r' ≠ r → (beginChunk r.settings.compression).run r = .ok ⟨⟩ r') ∧
      r'.connections = r.connections ∧ r'.announced = r.announced ∧ r'.chunks = r.chunks ∧
      r'.messageCount = r.messageCount := by
  rcases write_refused_cases h he with ⟨rfl, hn⟩ | ⟨hidle, hunknown, hbegin⟩
  · exact ⟨iff_of_true rfl hn, fun hne => absurd rfl hne, rfl, rfl, rfl, rfl⟩
  · obtain ⟨t, chunk, rfl⟩ := of_beginChunk_ok hbegin
    refine ⟨iff_of_false ?_ (fun hn => hn ⟨hidle, hunknown⟩), fun _ => hbegin, rfl, rfl, rfl, rfl⟩
    intro hsame
    have hphase := congrArg (fun r => r.phase.chunk?) hsame
    simp only [hidle] at hphase
    cases hphase

end

theorem write_refused_first : ∃ r₀ r', create .default = .ok r₀ ∧
    (write 0 ⟨5, 0⟩ (.ofBytes [7])).run r₀ = .error (.unknownConnection 0) r' ∧
      (beginChunk .none).run r₀ = .ok ⟨⟩ r' := by
  obtain ⟨r₀, hcreate, hf⟩ := create_follows (show Settings.default.chunkThreshold ≠ 0 by decide)
  obtain ⟨r', hrun, hidle, hopen⟩ := hf.run_write_unknown rfl rfl 0 rfl ⟨5, 0⟩ (.ofBytes [7])
  have hne : r' ≠ r₀ := by
    rintro rfl
    rw [hidle] at hopen
    cases hopen
  have hsettings := hf.settings
  have := (write_refused hrun trivial).2.1 hne
  rw [hsettings] at this
  exact ⟨r₀, r', hcreate, hrun, this⟩

/-- A write that is refused may leave a chunk behind that was not there. -/
theorem refused_write_opens_chunk : ∃ r₀ r', create .default = .ok r₀ ∧
    (write 0 ⟨5, 0⟩ (.ofBytes [7])).run r₀ = .error (.unknownConnection 0) r' ∧
      r₀.phase.chunk? = none ∧ r'.phase.chunk?.isSome := by
  obtain ⟨r₀, hcreate, hf⟩ := create_follows (show Settings.default.chunkThreshold ≠ 0 by decide)
  obtain ⟨r', hrun, hphases⟩ := hf.run_write_unknown rfl rfl 0 rfl ⟨5, 0⟩ (.ofBytes [7])
  exact ⟨r₀, r', hcreate, hrun, hphases⟩

end Recorder

end BagFile
