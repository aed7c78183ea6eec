/-
  A recorder follows the account of its calls.

  * `Recorder.Follows r a` is the invariant of a recording: the tape holds the blocks that the
    account describes so far, ends where it stands, and the recorder knows of each chunk what
    the account has of it;
  * `Recorder.Ends` says how a call may end: as the account says, refused, or, if a length was
    too large, with the recorder given up;
  * `Follows.call` is the step lemma, one case for each kind of call, and `Follows.after` goes
    along a whole recording.
-/
import BagFile.Proofs.Account

namespace BagFile

/-- The errors for calls at the wrong time, or with names that are not known. -/
def Error.IsRefusal : Error → Prop
  | .writer .chunkOpen | .writer .noChunkOpen | .writer .finalized | .writer .abandoned => True
  | .unknownConnection _ | .unsupportedCompression _ => True
  | _ => False

theorem Codec.ofCompression_cases (z : Compression) :
    (∃ codec, ofCompression z = .ok codec) ∨
      ∃ e, ofCompression z = .error e ∧ e.IsRefusal := by
  cases z with
  | other name => exact .inr ⟨_, rfl, trivial⟩
  | _ => exact .inl ⟨_, rfl⟩

/-- The names of the compressions that are understood are short. -/
theorem Codec.header_fits {z : Compression} {codec : Codec} (h : ofCompression z = .ok codec)
    (n : UInt32) : Header.Fits (⟨z, n⟩ : ChunkHeader) := by
  rw [Header.Fits, ChunkHeader.bodyLength_toFields]
  show 37 + (Text.encode z.name).size < 2 ^ 32
  cases z with
  | other name => cases h
  | _ => decide

/-! ## The invariant -/

/-- An open chunk at a position has the messages of a batch. -/
structure Batch.Describes (b : Batch) (pos : Nat) (chunk : OpenChunk) : Prop where
  recordPos : chunk.recordPos = pos
  compression : chunk.compression = b.compression
  codec : chunk.codec = b.codec
  understood : Codec.ofCompression b.compression = .ok b.codec
  contents : chunk.contents.bytes = b.contents
  rows : chunk.rows = b.rows

namespace Batch.Describes

variable {b : Batch} {pos : Nat} {chunk : OpenChunk}

theorem size (h : b.Describes pos chunk) : chunk.size = b.contents.length := by
  rw [← chunk.size_contents, ← h.contents, Dense.length_bytes]

theorem stored [Codec.Formats] (h : b.Describes pos chunk) : Recorder.stored chunk = b.stored := by
  have hc : chunk.contents = .ofBytes b.contents := by
    rw [← h.contents, Dense.ofBytes_bytes]
  rw [Recorder.stored, Batch.stored, h.compression, h.codec, h.rows, h.size, hc]

theorem closed [Codec.Formats] (h : b.Describes pos chunk) :
    Recorder.closed chunk = Recorder.closedAt (pos, b.stored) := by
  rw [← h.stored, ← h.recordPos]
  rfl

theorem header (h : b.Describes pos chunk) (n : UInt32) :
    Header.Fits (⟨b.compression, n⟩ : ChunkHeader) := Codec.header_fits h.understood n

/-- A message that is put into the open chunk. -/
theorem add {n : Note} {piece : Tape} (h : b.Describes pos chunk)
    (hp : Tape.empty.Puts n.blocks piece) :
    (b.add n).Describes pos (chunk.push piece.data n.message.conn n.message.time
      (UInt32.ofNat (chunk.size + 0 + n.lead))) where
  recordPos := h.recordPos
  compression := h.compression
  codec := h.codec
  understood := h.understood
  contents := by
    have hpiece : piece.data.bytes = n.bytes := by
      rw [Tape.data, Contents.bytes_all]
      exact hp.bytes_eq.trans (Bytes.place_length [] _)
    have hcontents := h.contents
    rw [OpenChunk.contents, Dense.bytes_join] at hcontents ⊢
    rw [OpenChunk.push, List.reverse_cons, List.flatMap_append, hcontents, List.flatMap_singleton,
      hpiece, b.contents_add]
  rows := by
    have hrows := h.rows
    rw [OpenChunk.rows] at hrows ⊢
    rw [OpenChunk.push, List.reverse_cons, hrows, h.size, b.rows_add]
    rfl

end Batch.Describes

namespace Recorder

theorem run_onTape {α : Type} (op : Tape.Op α) (r : Recorder) : (onTape op).run r =
    match op.run r.tape with
    | .ok a t => .ok a { r with tape := t }
    | .error e t => .error e { r with tape := t } := rfl

theorem run_guarded {α : Type} (step : Op α) (r : Recorder) : (guarded step).run r =
    match step.run r with
    | .ok a r => .ok a r
    | .error e r => .error e { r with phase := .failed } := rfl

variable [Codec.Formats]

/-- A recorder is where an account says. -/
structure Follows (r : Recorder) (a : Account) : Prop where
  settings : r.settings = a.settings
  connections : r.connections = a.connections
  announced : ∀ conn, conn ∈ r.announced ↔ conn ∈ a.mentioned
  chunks : r.chunks = (Image.placed Layout.dataStart (a.chunks.map Batch.stored)).map closedAt
  messageCount : r.messageCount = a.messages.length
  holds : r.tape.Holds a.blocks
  atEnd : r.tape.pos = r.tape.size
  unfinished : r.phase ≠ .finalized
  sound : r.phase ≠ .failed
  idle : a.current = none → r.phase.chunk? = none
  busy : ∀ b, a.current = some b →
    ∃ chunk, r.phase.chunk? = some chunk ∧ b.Describes a.image.indexPos chunk
  fits : ∀ b ∈ a.chunks, b.stored.Fits

/-- How a call may end: with the recorder at `next` if all lengths fit; refused, with the
    recorder at `rest`; or given up, if not all lengths fit. -/
def Ends {α : Type} (next : Option Account) (rest : Account) (fits : Prop) :
    EStateM.Result Error Recorder α → Prop
  | .ok _ r => fits ∧ ∃ a, next = some a ∧ r.Follows a
  | .error e r => (e.IsRefusal ∧ next = none ∧ r.Follows rest) ∨
      (e.IsLimit ∧ ¬fits ∧ r.phase = .failed)

variable {r : Recorder} {a rest : Account} {next : Option Account} {fits : Prop} {e : Error}
  {α : Type}

theorem Ends.refused (he : e.IsRefusal) (hn : next = none) (h : r.Follows rest) :
    Ends next rest fits (.error e r : EStateM.Result Error Recorder α) := .inl ⟨he, hn, h⟩

theorem Ends.tooLarge (he : e.IsLimit) (hf : ¬fits) :
    Ends next rest fits (.error e { r with phase := .failed } : EStateM.Result Error Recorder α) :=
  .inr ⟨he, hf, rfl⟩

theorem Ends.done {x : α} (hf : fits) (hn : next = some a) (h : r.Follows a) :
    Ends next rest fits (.ok x r) := ⟨hf, a, hn, h⟩

theorem Ends.congr {next' : Option Account} {rest' : Account} {fits' : Prop}
    {result : EStateM.Result Error Recorder α} (h : Ends next rest fits result)
    (hn : next = next') (hr : next = none → rest = rest') (hf : fits ↔ fits') :
    Ends next' rest' fits' result := by
  subst hn
  match result with
  | .ok x r => exact ⟨hf.1 h.1, h.2⟩
  | .error e r =>
    rcases h with ⟨he, hnone, hrest⟩ | ⟨he, hn, hp⟩
    · exact .inl ⟨he, hnone, hr hnone ▸ hrest⟩
    · exact .inr ⟨he, fun h => hn (hf.2 h), hp⟩

/-- One operation after another. -/
theorem Ends.bind {β : Type} {op : Op α} {k : α → Op β} {N : Account → Option Account}
    {F : Account → Prop} (h : Ends next rest fits (op.run r))
    (hk : ∀ x a r', next = some a → r'.Follows a → Ends (N a) rest (F a) ((k x).run r')) :
    Ends (next.bind N) rest (fits ∧ ∀ a, next = some a → F a) ((op >>= k).run r) := by
  rw [EStateM.run_bind]
  match op.run r, h with
  | .ok x r', ⟨hf, a, ha, hr⟩ =>
    subst ha
    exact (hk x a r' rfl hr).congr rfl (fun _ => rfl)
      ⟨fun h => ⟨hf, fun a' he => by cases he; exact h⟩, fun h => h.2 a rfl⟩
  | .error e r', h =>
    rcases h with ⟨he, hn, hr⟩ | ⟨he, hf, hp⟩
    · subst hn
      exact .inl ⟨he, rfl, hr⟩
    · exact .inr ⟨he, fun hn => hf hn.1, hp⟩

/-! ## The guards -/

theorem Follows.run_checkWritable (h : r.Follows a) : checkWritable.run r = .ok ⟨⟩ r := by
  have hn := h.unfinished
  have hf := h.sound
  rw [checkWritable, EStateM.run_bind]
  simp only [EStateM.run_get]
  rfl

theorem Follows.run_checkWritable_bind (h : r.Follows a) (k : Unit → Op α) :
    (checkWritable >>= k).run r = (k ⟨⟩).run r := by
  rw [EStateM.run_bind, h.run_checkWritable]

/-! ## Connections -/

theorem Follows.run_addConnection (h : r.Follows a) (c : Connection) :
    ∃ r', (addConnection c).run r = .ok (UInt32.ofNat a.connections.length) r' ∧
      r'.Follows (a.addConnection c) := by
  rw [← h.connections]
  refine ⟨_, h.run_checkWritable_bind _, ?_⟩
  exact {
    settings := h.settings
    connections := by rw [Account.addConnection, h.connections]
    announced := h.announced
    chunks := h.chunks
    messageCount := h.messageCount
    holds := h.holds
    atEnd := h.atEnd
    unfinished := h.unfinished
    sound := h.sound
    idle := h.idle
    busy := h.busy
    fits := h.fits }

/-! ## Opening a chunk -/

theorem Follows.run_toEnd_bind (h : r.Follows a) (k : Nat → Op α) :
    (onTape Tape.toEnd >>= k).run r = (k r.tape.size).run r := by
  have hrun : Tape.toEnd.run r.tape = .ok r.tape.size r.tape := by
    show EStateM.Result.ok r.tape.size { r.tape with pos := r.tape.size } = _
    rw [← h.atEnd]
  rw [EStateM.run_bind, run_onTape, hrun]

theorem Follows.run_reserveChunk {z : Compression} {codec : Codec} (h : r.Follows a)
    (hcurrent : a.current = none) (hcodec : Codec.ofCompression z = .ok codec) :
    ∃ r', (reserveChunk z codec).run r = .ok ⟨⟩ r' ∧ r'.Follows (a.opened z codec) := by
  rcases Header.writes _ (⟨z, 0⟩ : ChunkHeader) r.tape rfl (Nat.le_of_eq h.atEnd) with
    ⟨-, t, hrun, hputs⟩ | ⟨hn, -⟩
  · obtain ⟨hholds, hend⟩ := h.holds.extend h.atEnd hputs
    have hblocks : a.blocks = a.front := by simp [Account.blocks, hcurrent]
    have hsize : r.tape.size = a.image.indexPos := by
      rw [h.holds.size_eq, hblocks, a.length_front]
    have hmessages := Account.messages_opened hcurrent z codec
    refine ⟨{ r with tape := t, phase := .chunkOpen (.start r.tape.size z codec) }, ?_, ?_⟩
    · rw [reserveChunk, h.run_toEnd_bind, EStateM.run_bind, run_onTape, hrun]
      rfl
    · exact {
        settings := h.settings
        connections := h.connections
        announced := by
          rw [Account.mentioned, hmessages]
          exact h.announced
        chunks := h.chunks
        messageCount := by rw [hmessages, ← h.messageCount]
        holds := by
          rw [hblocks] at hholds
          exact hholds
        atEnd := hend
        unfinished := by rintro ⟨⟩
        sound := by rintro ⟨⟩
        idle := by rintro ⟨⟩
        busy := by
          rintro b hb
          cases hb
          exact ⟨_, rfl, hsize, rfl, rfl, hcodec, rfl, rfl⟩
        fits := h.fits }
  · exact absurd (Codec.header_fits hcodec 0) hn

theorem Follows.run_beginChunk (h : r.Follows a) (z : Compression) :
    Ends (a.open? z) a True ((beginChunk z).run r) := by
  rw [beginChunk, h.run_checkWritable_bind, run_get_bind]
  cases hcurrent : a.current with
  | some b =>
    obtain ⟨chunk, hchunk, -⟩ := h.busy b hcurrent
    have he : Error.IsRefusal (.writer .chunkOpen) := trivial
    rw [hchunk, if_pos Option.isSome_some, run_throw_bind]
    exact Ends.refused he (by simp [Account.open?, hcurrent]) h
  | none =>
    rw [h.idle hcurrent, if_neg (by simp)]
    rcases Codec.ofCompression_cases z with ⟨codec, hcodec⟩ | ⟨e, hcodec, he⟩
    · obtain ⟨r', hrun, hf⟩ := h.run_reserveChunk hcurrent hcodec
      rw [run_ofExcept_ok_bind hcodec, run_guarded, hrun]
      exact Ends.done trivial (by simp [Account.open?, hcurrent, hcodec]) hf
    · rw [run_ofExcept_error_bind hcodec]
      exact Ends.refused he (by simp [Account.open?, hcurrent, hcodec]) h

/-! ## Messages -/

theorem Follows.announce (h : r.Follows a) (c : Connection) (m : RawMessage) :
    (if r.announced.contains m.conn then none else some c) = (a.note c m).preface := by
  have := h.announced m.conn
  by_cases hm : m.conn ∈ a.mentioned
  · rw [Account.note, if_pos hm, if_pos (List.contains_iff_mem.2 (this.2 hm))]
  · rw [Account.note, if_neg hm, if_neg fun hc => hm (this.1 (List.contains_iff_mem.1 hc))]

/-- The connections announced after a message are those mentioned. -/
theorem Follows.announced_add (h : r.Follows a) (c : Connection) (m : RawMessage) (conn : UInt32) :
    conn ∈ (if (a.note c m).preface.isSome then r.announced ++ [m.conn] else r.announced) ↔
      conn ∈ a.mentioned ++ [m.conn] := by
  have hc := h.announced conn
  rw [List.mem_append, List.mem_singleton, ← hc]
  by_cases hm : m.conn ∈ a.mentioned
  · rw [Account.note, if_pos hm, if_neg (by simp)]
    refine ⟨.inl, fun hor => hor.elim id fun he => ?_⟩
    rw [hc, he]
    exact hm
  · rw [Account.note, if_neg hm, if_pos Option.isSome_some, List.mem_append, List.mem_singleton]

theorem Follows.run_appendTo {c : Connection} {b : Batch} {chunk : OpenChunk} {m : RawMessage}
    (h : r.Follows a) (hb : a.current = some b) (hd : b.Describes a.image.indexPos chunk)
    (hc : a.connections[m.conn.toNat]? = some c) :
    Ends (a.add? m) a (a.NoteFits m) ((guarded (appendTo chunk c m.conn m.time m.data)).run r) := by
  have hadd : a.add? m = some { a with current := some (b.add (a.note c m)) } := by
    simp [Account.add?, hb, hc]
  have hfits : a.NoteFits m ↔ (a.note c m).Fits (chunk.size + 0) := by
    rw [Nat.add_zero, hd.size]
    refine ⟨fun hf => hf c hc b hb, fun hf c' hc' b' hb' => ?_⟩
    cases hc.symm.trans hc'
    cases hb.symm.trans hb'
    exact hf
  have hmessages := Account.messages_add? hadd
  rw [run_guarded, appendTo, run_get_bind]
  simp only [h.announce c m]
  rcases writes_message 0 chunk.size (a.note c m) Tape.empty rfl (Nat.le_refl 0) with
    ⟨hf, piece, hrun, hputs⟩ | ⟨hf, e, t, hrun, he⟩
  · have hrun' : (writeMessage chunk.size (a.note c m).preface m.conn m.time m.data).run .empty =
      .ok (UInt32.ofNat (chunk.size + 0 + (a.note c m).lead)) piece := hrun
    simp only [hrun']
    refine Ends.done (hfits.2 hf) hadd ?_
    exact {
      settings := h.settings
      connections := h.connections
      announced := by
        rw [Account.mentioned, hmessages, List.map_append]
        exact h.announced_add c m
      chunks := h.chunks
      messageCount := by
        rw [hmessages, List.length_append, ← h.messageCount]
        rfl
      holds := by
        have hblocks : ({ a with current := some (b.add (a.note c m)) } : Account).blocks =
            a.blocks := by simp [Account.blocks, Account.front, hb, Batch.add]
        rw [hblocks]
        exact h.holds
      atEnd := h.atEnd
      unfinished := by rintro ⟨⟩
      sound := by rintro ⟨⟩
      idle := by rintro ⟨⟩
      busy := by
        rintro b' hb'
        cases hb'
        exact ⟨_, rfl, hd.add hputs⟩
      fits := h.fits }
  · have hrun' : (writeMessage chunk.size (a.note c m).preface m.conn m.time m.data).run .empty =
      .error e t := hrun
    simp only [hrun']
    exact Ends.tooLarge he fun hn => hf (hfits.1 hn)

theorem Follows.run_append (h : r.Follows a) (m : RawMessage) :
    Ends (a.add? m) a (a.NoteFits m) ((append m.conn m.time m.data).run r) := by
  rw [append, h.run_checkWritable_bind, run_get_bind, h.connections]
  rcases hc : a.connections[m.conn.toNat]? with - | c
  · have he : Error.IsRefusal (.unknownConnection m.conn) := trivial
    exact Ends.refused he (by simp [Account.add?, hc]) h
  · rcases hb : a.current with - | b
    · have he : Error.IsRefusal (.writer .noChunkOpen) := trivial
      simp only [h.idle hb]
      exact Ends.refused he (by simp [Account.add?, hb]) h
    · obtain ⟨chunk, hchunk, hd⟩ := h.busy b hb
      simp only [hchunk]
      exact h.run_appendTo hb hd hc

/-! ## Closing a chunk -/

theorem Follows.run_endChunk (h : r.Follows a) :
    Ends (a.current.map fun _ => a.close) a (∀ b ∈ a.current, b.stored.Fits) (endChunk.run r) := by
  rw [endChunk, h.run_checkWritable_bind, run_get_bind]
  rcases hb : a.current with - | b
  · have he : Error.IsRefusal (.writer .noChunkOpen) := trivial
    simp only [h.idle hb]
    exact Ends.refused he rfl h
  · obtain ⟨chunk, hchunk, hd⟩ := h.busy b hb
    have hblocks : a.blocks = a.front ++ [openHeader chunk.compression] := by
      simp [Account.blocks, hb, hd.compression]
    have hpos : chunk.recordPos = a.front.flatten.length := hd.recordPos.trans a.length_front.symm
    have hholds : r.tape.Holds (a.front ++ [openHeader chunk.compression]) := hblocks ▸ h.holds
    have hheader : Header.Fits (stored chunk).header := by
      rw [hd.stored]
      exact hd.header _
    simp only [hchunk]
    rw [run_guarded, EStateM.run_bind, run_onTape]
    rcases run_writeChunk hholds h.atEnd hpos hheader with
      ⟨hf, t, hrun, hholds', hend⟩ | ⟨hf, e, t, hrun, he⟩
    · rw [hrun]
      rw [hd.stored] at hf hholds'
      refine Ends.done (by simpa using hf) rfl ?_
      exact {
        settings := h.settings
        connections := h.connections
        announced := by
          rw [Account.mentioned, a.messages_close]
          exact h.announced
        chunks := by rw [h.chunks, hd.closed, Account.placed_close hb, List.map_append]; rfl
        messageCount := by rw [a.messages_close, ← h.messageCount]
        holds := by rwa [Account.blocks_close hb]
        atEnd := hend
        unfinished := by rintro ⟨⟩
        sound := by rintro ⟨⟩
        idle := fun _ => rfl
        busy := by rintro b ⟨⟩
        fits := by
          rintro b' hb'
          rw [Account.close, hb] at hb'
          rcases List.mem_append.1 hb' with hb' | hb'
          · exact h.fits b' hb'
          · exact List.mem_singleton.1 hb' ▸ hf }
    · rw [hrun]
      refine Ends.tooLarge he fun hn => hf ?_
      rw [hd.stored]
      exact hn b rfl

/-! ## Chunks opened and closed as need be -/

theorem Follows.run_roll (h : r.Follows a) : Ends (some a.roll) rest
    (∀ b ∈ a.roll.chunks, b.stored.Fits) ((do
      let r ← get
      match r.phase.chunk? with
      | some chunk => if r.settings.chunkThreshold.toNat ≤ chunk.size then endChunk
      | none => return () : Op Unit).run r) := by
  rw [run_get_bind, h.settings]
  rcases hb : a.current with - | b
  · have hroll : a.roll = a := by simp [Account.roll, hb]
    simp only [h.idle hb, hroll]
    exact Ends.done h.fits rfl h
  · obtain ⟨chunk, hchunk, hd⟩ := h.busy b hb
    simp only [hchunk, hd.size]
    by_cases ht : a.settings.chunkThreshold.toNat ≤ b.contents.length
    · have hroll : a.roll = a.close := by simp [Account.roll, hb, ht]
      rw [if_pos ht, hroll]
      have hfits : (∀ b ∈ a.current, b.stored.Fits) ↔ ∀ b ∈ a.close.chunks, b.stored.Fits := by
        have := h.fits
        simp only [Account.close, hb]
        simp only [Option.mem_def, Option.toList_some, List.mem_append, List.mem_singleton]
        grind
      exact h.run_endChunk.congr (by simp [hb]) (by simp [hb]) hfits
    · have hroll : a.roll = a := by simp [Account.roll, hb, ht]
      rw [if_neg ht, hroll]
      exact Ends.done h.fits rfl h

theorem Follows.run_add (h : r.Follows a) (m : RawMessage) :
    Ends ((a.add? m).map Account.roll) a (a.AddFits m) ((do
      append m.conn m.time m.data
      let r ← get
      match r.phase.chunk? with
      | some chunk => if r.settings.chunkThreshold.toNat ≤ chunk.size then endChunk
      | none => return () : Op Unit).run r) :=
  ((h.run_append m).bind (N := fun a => some a.roll) fun _ _ _ _ h => h.run_roll).congr
    (by rw [Option.map_eq_bind]; rfl) (fun _ => rfl) Iff.rfl

theorem Follows.run_write (h : r.Follows a) (m : RawMessage) :
    Ends ((a.ready.add? m).map Account.roll) a.ready (a.ready.AddFits m)
      ((write m.conn m.time m.data).run r) := by
  rw [write, run_get_bind, h.settings]
  rcases hb : a.current with - | b
  · -- no chunk is open, so one is begun first
    rw [h.idle hb, if_pos Option.isNone_none]
    have hready {a'} (ho : a.open? a.settings.compression = some a') : a.ready = a' := by
      simp [Account.ready, hb, ho]
    have hopen : Ends (a.open? a.settings.compression) a.ready True
        ((beginChunk a.settings.compression).run r) :=
      (h.run_beginChunk _).congr rfl (fun ho => by simp [Account.ready, ho]) Iff.rfl
    refine (hopen.bind (N := fun a' => (a'.add? m).map Account.roll)
      (F := fun a' => a'.AddFits m) fun _ a' r' ho h' => hready ho ▸ h'.run_add m).congr
        ?_ (fun _ => rfl) ?_
    · rw [Account.add?_ready hb, Option.map_bind]
      rfl
    · rcases ho : a.open? a.settings.compression with - | a'
      · have hidle : a.ready = a := by simp [Account.ready, ho]
        rw [hidle]
        have hnone : ∀ a', (none : Option Account) = some a' → a'.AddFits m := by
          rintro a' ⟨⟩
        exact iff_of_true ⟨trivial, hnone⟩ (Account.addFits_of_idle hb m)
      · rw [hready ho]
        simp
  · obtain ⟨chunk, hchunk, -⟩ := h.busy b hb
    rw [hchunk, if_neg (by simp), Account.ready_of_current hb]
    exact h.run_add m

/-! ## Whole recordings -/

/-- **What a call does** to a recorder that follows an account. -/
theorem Follows.call (h : r.Follows a) (c : Call) :
    Ends (a.accept? c) (a.refuse c) (a.Fits c) (c.run.run r) := by
  cases c with
  | addConnection c =>
    obtain ⟨r', hrun, hr⟩ := h.run_addConnection c
    rw [Call.run, EStateM.run_bind, hrun]
    exact Ends.done trivial rfl hr
  | beginChunk z => exact h.run_beginChunk z
  | append m => exact h.run_append m
  | endChunk => exact h.run_endChunk
  | write m => exact h.run_write m

/-- A recorder that was given up refuses everything, and stays so. -/
theorem run_failed (hr : r.phase = .failed) (c : Call) :
    c.run.run r = .error (.writer .abandoned) r := by
  have hcheck {α : Type} (k : Unit → Op α) :
      (checkWritable >>= k).run r = .error (.writer .abandoned) r := by
    rw [EStateM.run_bind, checkWritable, run_get_bind, hr]
    rfl
  cases c with
  | addConnection c => rw [Call.run, EStateM.run_bind, addConnection, hcheck]
  | beginChunk z => exact hcheck _
  | append m => exact hcheck _
  | endChunk => exact hcheck _
  | write m =>
    have hnone : r.phase.chunk? = none := by
      rw [hr]
      rfl
    rw [Call.run, write, run_get_bind, hnone, if_pos Option.isNone_none, EStateM.run_bind,
      beginChunk, hcheck]

theorem after_failed (hr : r.phase = .failed) (calls : List Call) : r.after calls = r := by
  induction calls with
  | nil => rfl
  | cons c cs ih =>
    have hc : c.after r = r := by
      unfold Call.after
      rw [run_failed hr c]
    rw [after, List.foldl_cons, hc]
    exact ih

/-- A call that leaves the recorder sound has done what the account says. -/
theorem Follows.after_call (h : r.Follows a) {c : Call} (hs : (c.after r).phase ≠ .failed) :
    (c.after r).Follows (a.step c) ∧ (a.step c).messages = a.messages ++ c.accepted r := by
  have hc := h.call c
  rw [Call.after] at hs ⊢
  rw [Call.accepted]
  match c.run.run r, hc, hs with
  | .ok _ r', ⟨_, a', ha, hr⟩, _ =>
    rw [Account.step, ha]
    exact ⟨hr, Account.messages_accept? ha⟩
  | .error e r', .inl ⟨_, ha, hr⟩, _ =>
    rw [Account.step, ha]
    exact ⟨hr, (a.messages_refuse c).trans (List.append_nil _).symm⟩
  | .error e r', .inr ⟨_, _, hp⟩, hs => exact absurd hp hs

/-- **A recording follows its account** as long as it is not given up, and the account has the
    messages that were accepted, in order. -/
theorem Follows.after (calls : List Call) (h : r.Follows a)
    (hs : (r.after calls).phase ≠ .failed) :
    (r.after calls).Follows (a.after calls) ∧
      (a.after calls).messages = a.messages ++ r.accepted calls := by
  induction calls generalizing r a with
  | nil => exact ⟨h, (List.append_nil _).symm⟩
  | cons c cs ih =>
    obtain ⟨hf, hm⟩ := h.after_call fun hfailed => hs <| by
      rw [after, List.foldl_cons]
      exact (congrArg phase (after_failed hfailed cs)).trans hfailed
    obtain ⟨hf', hm'⟩ := ih hf hs
    refine ⟨hf', hm'.trans ?_⟩
    rw [hm, List.append_assoc]
    rfl

/-! ## The beginning and the end -/

/-- A new recording follows the account with nothing in it. -/
theorem create_follows {settings : Settings} (hs : settings.chunkThreshold ≠ 0) :
    ∃ r, create settings = .ok r ∧ r.Follows (.start settings) := by
  have hempty : Tape.empty.Holds [] := ⟨rfl, by rintro w ⟨⟩⟩
  obtain ⟨hline, hpos⟩ := hempty.extend rfl (Tape.puts_written (Nat.le_refl 0) Layout.versionLine)
  have hplace : Layout.headerPos = (Tape.empty.written Layout.versionLine).pos := by
    decide
  obtain ⟨t, hrun, hputs⟩ := run_writeHeader FileHeader.placeholder
    (t := Tape.empty.written Layout.versionLine) (by rw [hplace]; exact Nat.le_of_eq hpos)
  rw [hplace] at hputs
  obtain ⟨hholds, hend⟩ := hline.extend hpos hputs
  have hpreamble : writePreamble.run Tape.empty = .ok ⟨⟩ t := by
    have hwrite : (Tape.write Layout.versionLine).run Tape.empty =
      .ok ⟨⟩ (Tape.empty.written Layout.versionLine) := rfl
    rw [writePreamble, EStateM.run_bind, hwrite]
    exact hrun
  refine ⟨⟨t, settings, .headerReserved, [], [], [], 0⟩, ?_, ?_⟩
  · have hcheck : settings.check = .ok ⟨⟩ := if_neg hs
    rw [create, hcheck]
    simp only [hpreamble]
    rfl
  · exact {
      settings := rfl
      connections := rfl
      announced := fun _ => Iff.rfl
      chunks := rfl
      messageCount := rfl
      holds := by
        have hblocks : (Account.start settings).blocks =
            Image.preamble FileHeader.placeholder ++ [] ++ [] := rfl
        rw [hblocks, List.append_nil, List.append_nil, Image.preamble]
        exact hholds
      atEnd := hend
      unfinished := by rintro ⟨⟩
      sound := by rintro ⟨⟩
      idle := fun _ => rfl
      busy := by rintro b ⟨⟩
      fits := by rintro b ⟨⟩ }

end Recorder

end BagFile
