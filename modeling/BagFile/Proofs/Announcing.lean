/-
  Which records the chunks of a recording have, and where the connections are announced.

  * `Note.ofMessages`: messages as they are put into chunks, the first of each connection with the
    record of that connection in front.  `Account.Announced` says that the messages of an account
    are so put, and every call keeps that (`Announced.step`);
  * `ChunkRecord.Announces`: a connection has one record, in front of its messages;
  * `Recorder.chunks_indexed`: the chunks of a finalized recording are such records with nothing
    left over, and their index has one entry for each message.
-/
import BagFile.Proofs.Scanning

namespace BagFile

/-! ## Announced connections -/

namespace Note

/-- Messages as they are put into chunks, when some connections were announced before. -/
def ofMessages (connections : List Connection) : List UInt32 → List RawMessage → List Note
  | _, [] => []
  | announced, m :: ms =>
    ⟨if m.conn ∈ announced then none else connections[m.conn.toNat]?, m⟩ ::
      ofMessages connections (announced ++ [m.conn]) ms

variable {connections : List Connection}

theorem ofMessages_concat (announced : List UInt32) (ms : List RawMessage) (m : RawMessage) :
    ofMessages connections announced (ms ++ [m]) = ofMessages connections announced ms ++
      [⟨if m.conn ∈ announced ++ ms.map RawMessage.conn then none
        else connections[m.conn.toNat]?, m⟩] := by
  induction ms generalizing announced with
  | nil => simp [ofMessages]
  | cons n ms ih =>
    rw [List.cons_append, ofMessages, ih, ofMessages, List.cons_append, List.append_assoc]
    rfl

/-- Connections that are added later are not announced by messages that were there. -/
theorem ofMessages_append {announced : List UInt32} {ms : List RawMessage}
    (h : ∀ m ∈ ms, m.conn.toNat < connections.length) (more : List Connection) :
    ofMessages (connections ++ more) announced ms = ofMessages connections announced ms := by
  induction ms generalizing announced with
  | nil => rfl
  | cons m ms ih =>
    obtain ⟨hm, hms⟩ := List.forall_mem_cons.1 h
    rw [ofMessages, ofMessages, ih hms, List.getElem?_append_left hm]

/-- Only connections of the table are announced, and none of those that were before. -/
theorem mem_preface_ofMessages {announced : List UInt32} {ms : List RawMessage} {n : Note}
    (h : n ∈ ofMessages connections announced ms) {c : Connection} (hc : c ∈ n.preface) :
    connections[n.message.conn.toNat]? = some c ∧ n.message.conn ∉ announced := by
  induction ms generalizing announced with
  | nil => cases h
  | cons m ms ih =>
    rcases List.mem_cons.1 h with rfl | h
    · rw [Option.mem_def, Option.ite_none_left_eq_some] at hc
      exact ⟨hc.2, hc.1⟩
    · obtain ⟨hget, hnot⟩ := ih h
      exact ⟨hget, fun hmem => hnot (List.mem_append_left _ hmem)⟩

theorem map_message_ofMessages (connections : List Connection) (announced : List UInt32)
    (ms : List RawMessage) :
    (ofMessages connections announced ms).map message = ms := by
  induction ms generalizing announced with
  | nil => rfl
  | cons m ms ih => rw [ofMessages, List.map_cons, ih]

end Note

namespace Account

/-- The messages of an account are put into its chunks as their order says. -/
def Announced (a : Account) : Prop := a.notes = Note.ofMessages a.connections [] a.messages

variable {a a' : Account} {P : Compression → Prop} {m : RawMessage}

namespace Announced

theorem congr (h : a.Announced) (hnotes : a'.notes = a.notes)
    (hconnections : a'.connections = a.connections) : a'.Announced := by
  rw [Announced, hnotes, hconnections, messages_congr hnotes]
  exact h

theorem addConnection (h : a.Announced) (hv : a.Valid P) (c : Connection) :
    (a.addConnection c).Announced :=
  h.trans (Note.ofMessages_append hv.known _).symm

theorem add? (h : a.Announced) (hv : a.Valid P) (ha : a.add? m = some a') : a'.Announced := by
  obtain ⟨c, hc, hnotes⟩ := notes_add? ha
  obtain ⟨-, -, hconnections⟩ := hv.add? ha
  rw [Announced, hnotes, hconnections, messages_add? ha, Note.ofMessages_concat, ← h, note,
    List.nil_append, Option.mem_def.1 hc]
  rfl

theorem open? (h : a.Announced) (hv : a.Valid P) {z : Compression} (hz : P z)
    (ha : a.open? z = some a') : a'.Announced :=
  h.congr (notes_open? ha) (hv.open? hz ha).2.2

theorem ready (h : a.Announced) (hv : a.Valid P) (hP : P a.settings.compression) :
    a.ready.Announced := h.congr a.notes_ready (hv.ready hP).2.2

theorem roll (h : a.Announced) (hv : a.Valid P) : a.roll.Announced :=
  h.congr a.notes_roll hv.roll.2.2

theorem close (h : a.Announced) : a.close.Announced := h.congr a.notes_close rfl

theorem accept? {c : Call} (h : a.Announced) (hv : a.Valid P) (hP : P a.settings.compression)
    (hc : ∀ z, c = .beginChunk z → P z) (ha : a.accept? c = some a') : a'.Announced := by
  cases c with
  | addConnection x =>
    cases ha
    exact h.addConnection hv x
  | beginChunk z => exact h.open? hv (hc z rfl) ha
  | append m => exact h.add? hv ha
  | endChunk =>
    rw [Account.accept?, Option.map_eq_some_iff] at ha
    obtain ⟨-, -, rfl⟩ := ha
    exact h.close
  | write m =>
    rw [Account.accept?, Option.map_eq_some_iff] at ha
    obtain ⟨b, hb, rfl⟩ := ha
    have hready := (hv.ready hP).1
    exact ((h.ready hv hP).add? hready hb).roll (hready.add? hb).1

/-- **Every call puts its message into the chunks as its place in the order says.** -/
theorem step {c : Call} (h : a.Announced) (hv : a.Valid P) (hP : P a.settings.compression)
    (hc : ∀ z, c = .beginChunk z → P z) : (a.step c).Announced := by
  unfold Account.step
  cases ha : a.accept? c with
  | some a' => exact h.accept? hv hP hc ha
  | none =>
    cases c with
    | write m => exact h.ready hv hP
    | _ => exact h

theorem after {calls : List Call} (h : a.Announced) (hv : a.Valid P)
    (hP : P a.settings.compression) (hc : ∀ z, .beginChunk z ∈ calls → P z) :
    (a.after calls).Announced := by
  induction calls generalizing a with
  | nil => exact h
  | cons c cs ih =>
    have hstep : ∀ z, c = .beginChunk z → P z := fun z hz => hc z (hz ▸ List.mem_cons_self)
    obtain ⟨hv', hsettings, -⟩ := hv.step hP hstep
    exact ih (h.step hv hP hstep) hv' (hsettings ▸ hP) fun z hz => hc z (List.mem_cons_of_mem _ hz)

end Announced

/-- The messages of every recording are put into its chunks as their order says. -/
theorem announced_after (settings : Settings) (calls : List Call) :
    ((start settings).after calls).Announced :=
  Announced.after (P := Call.Uses settings calls) rfl (Valid.start settings) (.inl rfl)
    fun _ hz => .inr hz

end Account

/-! ## The records of announced connections -/

namespace ChunkRecord

/-- The records of some chunks, one chunk behind the other. -/
def inOrder (found : List (Chunk × List (Nat × ChunkRecord))) : List ChunkRecord :=
  found.flatMap fun x => x.2.map Prod.snd

/-- The message of a record that is one. -/
def message? : ChunkRecord → Option RawMessage
  | connection _ => none
  | message m => some m

/-- A connection has one record, in front of which there is no record of it at all. -/
def Announces (records : List ChunkRecord) (c : Connection) : Prop :=
  ∃ front after, records = front ++ connection c :: after ∧ (∀ x ∈ front, x.conn ≠ c.id) ∧
    ∀ d, connection d ∈ after → d.id ≠ c.id

/-- Records of others may be put in front. -/
theorem Announces.append_left {records : List ChunkRecord} {c : Connection}
    (h : Announces records c) {front : List ChunkRecord} (hfront : ∀ x ∈ front, x.conn ≠ c.id) :
    Announces (front ++ records) c := by
  obtain ⟨between, after, rfl, hbetween, hafter⟩ := h
  refine ⟨front ++ between, after, (List.append_assoc _ _ _).symm, ?_, hafter⟩
  exact List.forall_mem_append.2 ⟨hfront, hbetween⟩

end ChunkRecord

namespace Note

variable {connections : List Connection}

theorem filterMap_message?_records (ns : List Note) :
    (ns.flatMap records).filterMap ChunkRecord.message? = ns.map message := by
  induction ns with
  | nil => rfl
  | cons n ns ih =>
    have hone : n.records.filterMap ChunkRecord.message? = [n.message] := by
      rw [records]
      rcases n.preface with - | c <;> rfl
    rw [List.flatMap_cons, List.filterMap_append, hone, ih]
    rfl

variable (hids : ∀ i c, connections[i]? = some c → c.id = UInt32.ofNat i)
include hids

theorem id_of_preface {announced : List UInt32} {ms : List RawMessage} {n : Note}
    (h : n ∈ ofMessages connections announced ms) {c : Connection} (hc : c ∈ n.preface) :
    c.id = n.message.conn := by
  rw [hids _ _ (mem_preface_ofMessages h hc).1]
  exact UInt32.ofNat_toNat

/-- The records of a message are of its connection. -/
theorem conn_of_mem_records {announced : List UInt32} {ms : List RawMessage} {n : Note}
    (h : n ∈ ofMessages connections announced ms) : ∀ x ∈ n.records, x.conn = n.message.conn := by
  intro x hx
  rcases List.mem_append.1 hx with hx | hx
  · obtain ⟨c, hc, rfl⟩ := List.mem_map.1 hx
    exact id_of_preface hids h (Option.mem_toList.1 hc)
  · obtain rfl := List.mem_singleton.1 hx
    rfl

/-- Every record is of the connection of a message. -/
theorem exists_message_of_record {announced : List UInt32} {ms : List RawMessage} {x : ChunkRecord}
    (h : x ∈ (ofMessages connections announced ms).flatMap records) :
    ∃ m ∈ ms, x.conn = m.conn := by
  obtain ⟨n, hn, hx⟩ := List.mem_flatMap.1 h
  refine ⟨n.message, ?_, conn_of_mem_records hids hn x hx⟩
  rw [← map_message_ofMessages connections announced ms]
  exact List.mem_map_of_mem hn

/-- The record of a connection is of one in the table that was not announced before. -/
theorem of_connection_record {announced : List UInt32} {ms : List RawMessage} {c : Connection}
    (h : .connection c ∈ (ofMessages connections announced ms).flatMap records) :
    c ∈ connections ∧ c.id ∉ announced := by
  obtain ⟨n, hn, hx⟩ := List.mem_flatMap.1 h
  have hc : c ∈ n.preface := by simpa [records] using hx
  obtain ⟨hget, hnot⟩ := mem_preface_ofMessages hn hc
  exact ⟨List.mem_of_getElem? hget, id_of_preface hids hn hc ▸ hnot⟩

/-- **A connection is announced by its first message**, and by no other. -/
theorem announces_ofMessages {c : Connection} (hc : connections[c.id.toNat]? = some c)
    {announced : List UInt32} (hnew : c.id ∉ announced) {ms : List RawMessage}
    (hm : c.id ∈ ms.map RawMessage.conn) :
    ChunkRecord.Announces ((ofMessages connections announced ms).flatMap records) c := by
  induction ms generalizing announced with
  | nil => cases hm
  | cons m ms ih =>
    by_cases he : m.conn = c.id
    · -- the first message has the record in front, and announces the connection for the others
      have hfirst : ofMessages connections announced (m :: ms) =
          ⟨some c, m⟩ :: ofMessages connections (announced ++ [m.conn]) ms := by
        rw [ofMessages, he, if_neg hnew, hc]
      refine ⟨[], .message m :: (ofMessages connections (announced ++ [m.conn]) ms).flatMap records,
        by rw [hfirst]; rfl, by simp, fun d hd => ?_⟩
      have hd := (of_connection_record hids (by simpa using hd)).2
      exact fun hid => hd (List.mem_append_right _ (by simp [hid, he]))
    · -- the first message has records of another connection only
      have hnew' : c.id ∉ announced ++ [m.conn] := by simpa [Ne.symm he] using hnew
      have hfirst : ⟨if m.conn ∈ announced then none else connections[m.conn.toNat]?, m⟩ ∈
        ofMessages connections announced (m :: ms) := List.mem_cons_self
      refine (ih hnew' (by simpa [Ne.symm he] using hm)).append_left fun x hx => ?_
      rw [conn_of_mem_records hids hfirst x hx]
      exact he

end Note

/-! ## Chunks of a file -/

namespace IndexRecord

/-- What the entries of an index record say: an offset, a connection and a time each. -/
def triples (x : IndexRecord) : List (Nat × UInt32 × Time) :=
  x.rows.map fun row => (row.2.toNat, x.header.conn, row.1)

theorem flatMap_triples (pos : UInt64) (xs : List IndexRecord) : xs.flatMap triples =
    (xs.flatMap (entries pos)).map fun row => (row.2.offset.toNat, row.1, row.2.time) := by
  rw [List.map_flatMap]
  refine List.flatMap_congr fun x _ => ?_
  rw [entries, List.map_map]
  rfl

end IndexRecord

namespace Chunk

variable [Codec.Formats] {contents : Contents} {chunk : Chunk} {d : Dense}

/-- What is stored for a chunk is made of contents, and both are as long as the bag says. -/
def Packs (contents : Contents) (chunk : Chunk) (d : Dense) : Prop :=
  d.size = chunk.sizeUncompressed.toNat ∧ ∃ codec s,
    Codec.ofCompression chunk.compression = .ok codec ∧
    (codec.compress d).size = chunk.sizeCompressed.toNat ∧ (do
      Stream.seek chunk.dataPos.toNat
      Stream.readSized : Stream.Op Dense).run (Stream.ofFile contents) = .ok (codec.compress d) s

/-- Contents are read back if the codec gives back what it stored. -/
theorem Packs.load (h : chunk.Packs contents d) (hcodec : ∀ codec,
    Codec.ofCompression chunk.compression = .ok codec → codec.Lossless) :
    Fetcher.load (Stream.ofFile contents) chunk = .ok d := by
  obtain ⟨hsize, codec, s, hof, -, hrun⟩ := h
  have hlt : d.size < 2 ^ 32 := hsize ▸ chunk.sizeUncompressed.toNat_lt
  exact Fetcher.load_eq hof hrun (hcodec codec hof d _ hlt) hsize

/-- A chunk of a file is made of records, and its index says of each message where it is. -/
structure Holds (contents : Contents) (chunk : Chunk) (items : List (Nat × ChunkRecord)) :
    Prop where
  /-- the contents are the records, with nothing left over -/
  parsed : ∃ d, chunk.Packs contents d ∧ ChunkRecord.Parses d 0 items
  /-- the entries behind the chunk are those of the messages, each inside the contents -/
  indexed : ∃ xs, chunk.Lists contents xs ∧
    (xs.flatMap IndexRecord.triples).Perm (items.filterMap ChunkRecord.row?) ∧
      ∀ t ∈ xs.flatMap IndexRecord.triples, t.1 < chunk.sizeUncompressed.toNat

end Chunk

namespace Account

variable [Codec.Formats] {a : Account} {contents : Contents}

theorem length_places (a : Account) : a.image.places.length = a.chunks.length := by
  rw [Image.places, Image.length_placed, image, List.length_map]

/-- The chunks of a recording as they are opened, with the records in them. -/
def inventory (a : Account) : List (Chunk × List (Nat × ChunkRecord)) :=
  (a.image.places.zip a.chunks).map fun x => (StoredChunk.toChunk x.1, x.2.items)

theorem map_fst_inventory (a : Account) (path : String) (settings : Settings) :
    a.inventory.map Prod.fst = (a.image.bag path settings).chunks := by
  have hplaces := List.map_fst_zip (Nat.le_of_eq a.length_places)
  rw [inventory, List.map_map, Image.bag]
  conv_rhs => rw [← hplaces, List.map_map]
  rfl

theorem records_inventory (h : a.current = none) :
    ChunkRecord.inOrder a.inventory = a.notes.flatMap Note.records := by
  have hchunks := List.map_snd_zip (Nat.le_of_eq a.length_places.symm)
  have hrecords : ∀ b : Batch, b.items.map Prod.snd = b.notes.flatMap Note.records := fun b =>
    ChunkRecord.map_snd_placed 0 b.records
  rw [notes, h, Option.toList_none, List.append_nil, ← hchunks, List.flatMap_assoc,
    List.flatMap_map, ChunkRecord.inOrder, inventory, List.flatMap_map]
  exact List.flatMap_congr fun x _ => hrecords x.2

theorem mem_zip_places {x : (Nat × StoredChunk) × Batch}
    (h : x ∈ a.image.places.zip a.chunks) : x.1 ∈ a.image.places ∧ x.2 ∈ a.chunks ∧
      x.1.2 = x.2.stored := by
  obtain ⟨hplace, hchunk⟩ := List.of_mem_zip h
  refine ⟨hplace, hchunk, ?_⟩
  obtain ⟨i, hi, rfl⟩ := List.mem_iff_getElem.1 h
  have hstored : a.image.places.map Prod.snd = a.chunks.map Batch.stored :=
    Image.map_snd_placed Layout.dataStart a.image.chunks
  rw [List.length_zip, Nat.lt_min] at hi
  have hget := List.getElem_of_eq hstored (by rw [List.length_map]; exact hi.1)
  rw [List.getElem_map, List.getElem_map] at hget
  rw [List.getElem_zip]
  exact hget

namespace Finished

/-- What is put in front of messages can be written. -/
theorem preface_fits (h : a.Finished) (hann : a.Announced) {n : Note} (hn : n ∈ a.notes)
    {c : Connection} (hc : c ∈ n.preface) : c.Fits := by
  rw [hann] at hn
  exact h.tables.connections c
    (List.mem_of_getElem? (Note.mem_preface_ofMessages hn hc).1)

theorem mem_notes (h : a.Finished) {b : Batch} (hb : b ∈ a.chunks) {n : Note} (hn : n ∈ b.notes) :
    n ∈ a.notes := by
  rw [notes, h.idle, Option.toList_none, List.append_nil]
  exact List.mem_flatMap.2 ⟨b, hb, hn⟩

/-- What is stored for a chunk is made of its contents. -/
theorem packs (h : a.Finished) (hc : contents.bytes = a.image.bytes) {y : Nat × StoredChunk}
    {b : Batch} (hy : y ∈ a.image.places) (hb : b ∈ a.chunks) (hstored : y.2 = b.stored) :
    (StoredChunk.toChunk y).Packs contents (.ofBytes b.contents) := by
  have hfits := h.fits b hb
  obtain ⟨s, hrun⟩ := Image.run_stored h.loadable (Image.chunksIn_of_bytes hc) hy
  refine ⟨?_, b.codec, s, ?_, ?_, ?_⟩
  · show _ = (UInt32.ofNat y.2.size).toNat
    rw [hstored, Dense.size_ofBytes]
    exact (UInt32.toNat_ofNat_of_lt' hfits.size).symm
  · show Codec.ofCompression y.2.compression = _
    rw [hstored]
    exact h.codecs b hb
  · show _ = (UInt32.ofNat y.2.stored.size).toNat
    rw [hstored]
    exact (UInt32.toNat_ofNat_of_lt' hfits.stored).symm
  · rw [hrun, hstored]
    rfl

/-- **A chunk of a finished recording is made of its records, and listed.** -/
theorem holds (h : a.Finished) (hann : a.Announced) (hc : contents.bytes = a.image.bytes)
    {y : Nat × StoredChunk} {b : Batch} (hy : y ∈ a.image.places) (hb : b ∈ a.chunks)
    (hstored : y.2 = b.stored) : (StoredChunk.toChunk y).Holds contents b.items := by
  have hsize : b.contents.length < 2 ^ 32 := (h.fits b hb).size
  have hpacks := h.packs hc hy hb hstored
  have hparses := b.parses hsize fun n hn c hpreface =>
    h.preface_fits hann (h.mem_notes hb hn) hpreface
  obtain ⟨s, hs, hindex⟩ := Bag.run_chunkIndex h.loadable.toReadable
    (Image.chunksIn_of_bytes hc) hy (s := Stream.ofFile contents) ⟨rfl, rfl⟩
  obtain ⟨-, xs, hlists, -, hrows⟩ := Bag.of_readChunkIndex ⟨rfl, rfl⟩ hindex
  -- what the records behind the chunk say is what the rows of the chunk say
  have htriples : xs.flatMap IndexRecord.triples =
      (b.stored.index.flatMap fun x => x.2.map fun row => (x.1, row)).map
        fun row => (row.2.2.toNat, row.1, row.2.1) := by
    rw [IndexRecord.flatMap_triples, ← hrows, StoredChunk.rows, hstored, List.map_flatMap,
      List.map_flatMap]
    simp only [List.map_map]
    rfl
  have hperm : (xs.flatMap IndexRecord.triples).Perm (b.items.filterMap ChunkRecord.row?) := by
    rw [htriples, b.filterMap_items hsize]
    exact b.index_perm.map _
  refine ⟨⟨_, hpacks, hparses⟩, xs, hlists, hperm, fun t ht => ?_⟩
  obtain ⟨x, hx, hrow⟩ := List.mem_filterMap.1 (hperm.mem_iff.1 ht)
  rw [ChunkRecord.fst_of_row? hrow, ← hpacks.1]
  exact hparses.offset_lt x hx

end Finished

end Account

/-! ## Whole recordings -/

namespace Recorder

variable {settings : Settings} {calls : List Call} {r₀ r : Recorder} {header : FileHeader}

/-- **The chunks of a finalized recording and their index say the same.**  The contents of each
    chunk are records of connections and messages with nothing left over, and the index behind
    it has an entry for each message and no other, at an offset inside the contents.  In the order
    of the chunks the messages are those that were accepted.  A connection that has messages has one
    record in the chunks, in front of them and the same as in the table at the end; one without
    has none. -/
theorem chunks_indexed [Codec.Formats] (hcreate : create settings = .ok r₀)
    (hrun : finalize.run (r₀.after calls) = .ok header r)
    (hconnections : r.connections.length < 2 ^ 32) (hchunks : r.chunks.length < 2 ^ 32)
    (hsize : r.tape.size < 2 ^ 63) (path : String) (reading : Settings) :
    ∃ (b : Bag) (found : List (Chunk × List (Nat × ChunkRecord))),
      Bag.load path reading r.tape.contents = .ok b ∧
      found.map Prod.fst = b.chunks ∧ (b.chunks.Pairwise fun c d => c.recordPos < d.recordPos) ∧
      (∀ x ∈ found, x.1.Holds r.tape.contents x.2) ∧
      (ChunkRecord.inOrder found).filterMap ChunkRecord.message? = r₀.accepted calls ∧
      (∀ c, .connection c ∈ ChunkRecord.inOrder found → c ∈ b.connections) ∧
      (∀ c ∈ b.connections, if c.id ∈ (r₀.accepted calls).map RawMessage.conn
        then ChunkRecord.Announces (ChunkRecord.inOrder found) c
        else ∀ x ∈ ChunkRecord.inOrder found, x.conn ≠ c.id) ∧
      (b.connections.flatMap fun c => c.blocks.flatten) <+:
        r.tape.contents.bytes.drop b.header.indexPos.toNat := by
  obtain ⟨hfinished, hbytes, hmessages, -⟩ :=
    finished_of_finalize hcreate hrun hconnections hchunks hsize
  have hann := (Account.announced_after settings calls).close
  refine ⟨_, Account.inventory _, Bag.load_image path reading hfinished.loadable hbytes,
    Account.map_fst_inventory _ path reading, Image.chunks_ascending hfinished.loadable, ?_, ?_⟩
  · intro x hx
    obtain ⟨z, hz, rfl⟩ := List.mem_map.1 hx
    obtain ⟨hplace, hchunk, hstored⟩ := Account.mem_zip_places hz
    exact hfinished.holds hann hbytes hplace hchunk hstored
  have hnotes := hann
  rw [Account.Announced, hmessages] at hnotes
  rw [Account.records_inventory hfinished.idle, hnotes]
  refine ⟨?_, fun c hc => (Note.of_connection_record hfinished.ids hc).1, fun c hc => ?_, ?_⟩
  · rw [Note.filterMap_message?_records, Note.map_message_ofMessages]
  · split
    · next hmem =>
      exact Note.announces_ofMessages hfinished.ids (hfinished.getElem?_of_id hc)
        List.not_mem_nil hmem
    · next hnot =>
      intro x hx he
      obtain ⟨m, hm, hconn⟩ := Note.exists_message_of_record hfinished.ids hx
      exact hnot (List.mem_map.2 ⟨m, hm, hconn.symm.trans he⟩)
  · show _ <+: r.tape.contents.bytes.drop (Image.header _).indexPos.toNat
    rw [hbytes, Bag.toNat_indexPos hfinished.loadable.toReadable, Image.drop_indexPos, Image.tableBlocks,
      List.flatten_append, flatten_flatMap]
    exact List.prefix_append _ _

theorem chunks_indexed_sample : ∃ (r₀ : Recorder) (header : FileHeader) (r : Recorder) (b : Bag)
    (found : List (Chunk × List (Nat × ChunkRecord))), create .default = .ok r₀ ∧
      finalize.run (r₀.after sampleCalls) = .ok header r ∧
      Bag.load "" .default r.tape.contents = .ok b ∧ found.map Prod.fst = b.chunks ∧
      (∀ x ∈ found, x.1.Holds r.tape.contents x.2) ∧
      (ChunkRecord.inOrder found).filterMap ChunkRecord.message? = r₀.accepted sampleCalls ∧
      ∀ c ∈ b.connections, if c.id ∈ (r₀.accepted sampleCalls).map RawMessage.conn
        then ChunkRecord.Announces (ChunkRecord.inOrder found) c
        else ∀ x ∈ ChunkRecord.inOrder found, x.conn ≠ c.id := by
  obtain ⟨r₀, header, r, hcreate, hrun, hconnections, hchunks, hsize⟩ := sample_finalized
  obtain ⟨b, found, hload, hfound, -, hholds, hmessages, -, hannounced, -⟩ :=
    chunks_indexed hcreate hrun (by omega) (by omega) (by omega) "" .default
  exact ⟨r₀, header, r, b, found, hcreate, hrun, hload, hfound, hholds, hmessages, hannounced⟩

end Recorder

end BagFile
