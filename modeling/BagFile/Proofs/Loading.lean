/-
  A bag that was written from front to back is opened, and says what was written.

  * `Image.Loadable`: what it takes for an image to be read back, that is, lengths, counts and
    positions that their fields can hold, and an index that names known connections only;
  * `Image.bag` is the bag that it should be opened as: its chunks in order, each where it
    stands, and the index of the rows of all chunks;
  * `Image.Arranged`: an image stands in some contents, but perhaps for the order of the summaries
    of chunks.  `Bag.load_arranged`: it is opened as that bag, by way of what is in front of the
    chunks (`Bag.reads_front`), the tables (`Bag.run_tables`) and the index of each chunk
    (`Bag.run_chunkIndex`).  `Bag.load_image` is the case of the image itself.
-/
import BagFile.Proofs.Indexing
import BagFile.Proofs.Outcomes
import BagFile.Proofs.RecordReading
import BagFile.Proofs.StableSort
import Mathlib.Data.List.Nodup

namespace BagFile

/-! ## What a bag should say -/

namespace StoredChunk

/-- What a bag knows about a chunk at a position. -/
def toChunk (x : Nat × StoredChunk) : Chunk where
  recordPos := UInt64.ofNat x.1
  dataPos := UInt64.ofNat (x.1 + (Header.bytes x.2.header).length)
  startTime := x.2.startTime
  endTime := x.2.endTime
  connections := x.2.counts
  compression := x.2.compression
  sizeUncompressed := UInt32.ofNat x.2.size
  sizeCompressed := UInt32.ofNat x.2.stored.size

/-- The rows of the index of a chunk, with its position. -/
def rows (x : Nat × StoredChunk) : List (UInt32 × Entry) :=
  x.2.index.flatMap fun y => y.2.map fun r => (y.1, ⟨r.1, UInt64.ofNat x.1, r.2⟩)

end StoredChunk

namespace Image

/-- The chunks of a bag, each with its position. -/
def places (x : Image) : List (Nat × StoredChunk) := placed Layout.dataStart x.chunks

/-- The rows of the index of the bag, in the order in which they stand in it. -/
def rows (x : Image) : List (UInt32 × Entry) := x.places.flatMap StoredChunk.rows

/-- The bag that the image is opened as. -/
def bag (x : Image) (path : String) (settings : Settings) : Bag where
  path := path
  settings := settings
  header := x.header
  connections := x.connections
  chunks := x.places.map StoredChunk.toChunk
  index := Index.ofRows x.rows

/-- An image of which every record can be read back. -/
structure Readable (x : Image) : Prop where
  tables : x.TablesFit
  chunks : ∀ c ∈ x.chunks, c.Fits
  known : ∀ c ∈ x.chunks, Compression.ofName c.compression.name = c.compression
  conns : ∀ c ∈ x.chunks, ∀ y ∈ c.index, y.1 ∈ x.connections.map Connection.id
  length_lt : x.bytes.length < 2 ^ 63

/-- An image that can be read back: its header can say how many records there are, too. -/
structure Loadable (x : Image) : Prop extends x.Readable where
  connections_lt : x.connections.length < 2 ^ 32
  chunks_lt : x.chunks.length < 2 ^ 32

/-- Contents with an image in them, whatever is in the place of its header. -/
def StandsIn (x : Image) (contents : Contents) : Prop :=
  contents.bytes.drop Layout.dataStart = x.bytes.drop Layout.dataStart

theorem standsIn_of_bytes {x : Image} {contents : Contents} (h : contents.bytes = x.bytes) :
    x.StandsIn contents := congrArg (List.drop Layout.dataStart) h

/-- The written form of the tables, with the summaries of chunks in some order. -/
def tablesOf (x : Image) (ys : List (Nat × StoredChunk)) : Bytes :=
  (x.connections.flatMap fun c => c.blocks.flatten) ++
    ys.flatMap fun y => (StoredChunk.summaryBlocks y).flatten

theorem flatten_tableBlocks (x : Image) : x.tableBlocks.flatten = x.tablesOf x.places := by
  rw [tableBlocks, List.flatten_append, flatten_flatMap, flatten_flatMap]
  rfl

/-- The tables have one length in every order. -/
theorem length_tablesOf {x : Image} {ys : List (Nat × StoredChunk)} (h : ys.Perm x.places) :
    (x.tablesOf ys).length = (x.tablesOf x.places).length := by
  rw [tablesOf, tablesOf, List.length_append, List.length_append, (h.flatMap_right _).length_eq]

/-- Contents in which every chunk of an image is at its place, and that are no longer. -/
structure ChunksIn (x : Image) (contents : Contents) : Prop where
  chunk : ∀ y ∈ x.places, y.2.blocks.flatten <+: contents.bytes.drop y.1
  length_le : contents.bytes.length ≤ x.bytes.length

/-- Contents with the chunks of an image and with its tables, in which the summaries are in some
    order. -/
structure Arranged (x : Image) (ys : List (Nat × StoredChunk)) (contents : Contents) : Prop where
  perm : ys.Perm x.places
  chunks : x.ChunksIn contents
  tables : contents.bytes.drop x.indexPos = x.tablesOf ys

/-! ## Where things stand -/

/-- A chunk has its place behind the chunks in front of it. -/
theorem exists_split_of_mem_placed {p : Nat} {cs : List StoredChunk} {y : Nat × StoredChunk}
    (h : y ∈ placed p cs) : ∃ front after, cs = front ++ y.2 :: after ∧
      y.1 = p + (chunkBlocks front).flatten.length := by
  induction cs generalizing p with
  | nil => cases h
  | cons c cs ih =>
    rw [placed, List.mem_cons] at h
    rcases h with rfl | h
    · exact ⟨[], cs, rfl, rfl⟩
    · obtain ⟨front, after, rfl, hpos⟩ := ih h
      refine ⟨c :: front, after, rfl, ?_⟩
      rw [hpos, chunkBlocks, chunkBlocks, List.flatMap_cons, List.flatten_append,
        List.length_append, StoredChunk.length, Nat.add_assoc]

theorem mem_placed {p : Nat} {cs : List StoredChunk} {y : Nat × StoredChunk}
    (h : y ∈ placed p cs) : y.2 ∈ cs ∧ ∃ front after,
      (chunkBlocks cs).flatten = front ++ y.2.blocks.flatten ++ after ∧ y.1 = p + front.length := by
  obtain ⟨front, after, rfl, hpos⟩ := exists_split_of_mem_placed h
  refine ⟨List.mem_append_right _ List.mem_cons_self, (chunkBlocks front).flatten,
    (chunkBlocks after).flatten, ?_, hpos⟩
  rw [chunkBlocks, List.flatMap_append, List.flatMap_cons, List.flatten_append,
    List.flatten_append, ← List.append_assoc]
  rfl

/-- A chunk stands at its place in the file. -/
theorem prefix_drop {x : Image} {y : Nat × StoredChunk} (h : y ∈ x.places) :
    y.2.blocks.flatten <+: x.bytes.drop y.1 := by
  obtain ⟨-, front, after, hblocks, hpos⟩ := mem_placed h
  have hl : ((preamble x.header).flatten ++ front).length = y.1 := by
    rw [List.length_append, length_preamble, hpos]
  rw [bytes, blocks, List.flatten_append, List.flatten_append, hblocks]
  simp only [List.append_assoc]
  rw [← List.append_assoc (preamble x.header).flatten, List.drop_left' hl]
  exact List.prefix_append _ _

theorem le_indexPos {x : Image} {y : Nat × StoredChunk} (h : y ∈ x.places) :
    y.1 + y.2.blocks.flatten.length ≤ x.indexPos := by
  obtain ⟨-, front, after, hblocks, hpos⟩ := mem_placed h
  rw [indexPos, hblocks, hpos]
  simp only [List.length_append]
  omega

theorem indexPos_le (x : Image) : x.indexPos ≤ x.bytes.length := by
  rw [length_bytes]
  exact Nat.le_add_right _ _

theorem dataStart_le_indexPos (x : Image) : Layout.dataStart ≤ x.indexPos := by
  rw [indexPos]
  exact Nat.le_add_right _ _

theorem dataStart_le_place {x : Image} {y : Nat × StoredChunk} (h : y ∈ x.places) :
    Layout.dataStart ≤ y.1 := by
  obtain ⟨-, front, -, -, hpos⟩ := mem_placed h
  rw [hpos]
  exact Nat.le_add_right _ _

namespace StandsIn

variable {x : Image} {contents : Contents}

/-- Behind the header, the contents are those of the image. -/
theorem drop (h : x.StandsIn contents) {pos : Nat} (hpos : Layout.dataStart ≤ pos) :
    contents.bytes.drop pos = x.bytes.drop pos := by
  obtain ⟨n, rfl⟩ := Nat.exists_eq_add_of_le hpos
  rw [← List.drop_drop, h, List.drop_drop]

theorem chunksIn (h : x.StandsIn contents) : x.ChunksIn contents where
  chunk y hy := by
    rw [h.drop (dataStart_le_place hy)]
    exact prefix_drop hy
  length_le := by
    have hlength := congrArg List.length h
    have hstart := x.dataStart_le_indexPos
    have hindex := x.indexPos_le
    rw [List.length_drop, List.length_drop] at hlength
    omega

theorem arranged (h : x.StandsIn contents) : x.Arranged x.places contents where
  perm := .refl _
  chunks := h.chunksIn
  tables := by rw [h.drop x.dataStart_le_indexPos, drop_indexPos, flatten_tableBlocks]

end StandsIn

theorem chunksIn_of_bytes {x : Image} {contents : Contents} (h : contents.bytes = x.bytes) :
    x.ChunksIn contents := (standsIn_of_bytes h).chunksIn

/-- The positions of chunks ascend. -/
theorem placed_ascending (p : Nat) (cs : List StoredChunk) :
    (placed p cs).Pairwise fun y z => y.1 < z.1 := by
  induction cs generalizing p with
  | nil => exact List.Pairwise.nil
  | cons c cs ih =>
    refine List.pairwise_cons.2 ⟨fun z hz => ?_, ih _⟩
    obtain ⟨-, front, -, -, hpos⟩ := mem_placed hz
    have hc : 0 < c.length := by
      rw [StoredChunk.length, StoredChunk.blocks, List.flatten_cons, List.length_append,
        Header.length_bytes]
      omega
    show p < z.1
    omega

/-- No two chunks have one place. -/
theorem eq_of_place {x : Image} {y z : Nat × StoredChunk} (hy : y ∈ x.places) (hz : z ∈ x.places)
    (h : y.1 = z.1) : y = z := by
  refine List.inj_on_of_nodup_map (f := Prod.fst) ?_ hy hz h
  exact List.pairwise_map.2 ((placed_ascending _ _).imp Nat.ne_of_lt)

end Image

/-! ## Streams over the file -/

/-- A stream over a file with certain contents. -/
def Stream.Over (s : Stream) (contents : Contents) : Prop :=
  s.contents = contents ∧ s.reach = 2 ^ 63

theorem Stream.Over.ext {s s' : Stream} {contents : Contents} (h : s.Over contents)
    (h' : s'.Over contents) (hp : s.pos = s'.pos) : s = s' := by
  obtain ⟨c, p, n⟩ := s
  obtain ⟨c', p', n'⟩ := s'
  obtain ⟨rfl, rfl⟩ := h
  obtain ⟨rfl, rfl⟩ := h'
  cases hp
  rfl

open Source

theorem Stream.Over.move {s : Stream} {contents : Contents} (h : s.Over contents) (n : Nat) :
    (Source.move s n).Over contents := h

/-- A line is read with the byte that ends it. -/
theorem Stream.reads_through (s : Stream) {d : Dense} {front : Bytes} {stop : UInt8} {limit : Nat}
    (hd : d.bytes = front ++ [stop]) (hstop : stop ∉ front) (hl : d.size ≤ limit) :
    Reads s (readThrough stop limit) d.bytes d := by
  rintro ⟨after, hafter⟩
  have hwindow : (s.ahead limit).bytes = front ++ stop :: after.take (limit - d.size) := by
    rw [bytes_ahead, ← hafter, List.take_append, Dense.length_bytes,
      List.take_of_length_le (by rwa [Dense.length_bytes]), hd, List.append_assoc,
      List.singleton_append]
  have hsize : d.size = front.length + 1 := by
    rw [← Dense.length_bytes, hd, List.length_append, List.length_singleton]
  have hfind : (s.ahead limit).find? stop 0 (s.ahead limit).size = some (0 + front.length) := by
    refine Dense.findFrom_eq_some hwindow hstop ?_
    rw [← Dense.length_bytes, hwindow, List.length_append, List.length_cons]
    omega
  have hline : (s.ahead limit).slice 0 (0 + front.length + 1) = d := by
    apply Dense.ext_bytes
    rw [Dense.bytes_slice, List.drop_zero, hwindow, hd, Nat.zero_add, List.take_append,
      Nat.add_sub_cancel_left, List.take_of_length_le (Nat.le_succ _)]
    rfl
  rw [EStateM.run, readThrough]
  simp only [hfind, Option.map_some, Option.getD_some, hline, Dense.length_bytes]
  rfl

theorem Stream.reads_position (s : Stream) : Reads s position [] s.pos := fun _ => rfl

/-- What is ahead of a stream is in its file. -/
theorem Stream.pos_le {s : Stream} {bs : Bytes} (h : bs <+: rest s) (hne : 0 < bs.length) :
    s.pos + bs.length ≤ s.contents.bytes.length := by
  have hl := h.length_le
  have hrest : (rest s).length = s.contents.bytes.length - s.pos := List.length_drop
  omega

theorem Stream.run_position_bind {α : Type} (k : Nat → Op α) (s : Stream) :
    (position >>= k).run s = (k s.pos).run s := rfl

theorem Stream.run_seek_bind {α : Type} {pos : Nat} {s : Stream} (h : pos < s.reach)
    (k : Unit → Op α) : (seek pos >>= k).run s = (k ⟨⟩).run { s with pos := pos } := by
  rw [EStateM.run_bind]
  have hseek : (seek pos).run s = .ok ⟨⟩ { s with pos := pos } :=
    if_neg (Nat.not_le_of_lt h)
  rw [hseek]

namespace Bag

variable {contents : Contents} {s : Stream}

/-- Values that are read one after the other. -/
theorem reads_readMany {α β : Type} {op : Stream.Op α} {f : β → α} {g : β → Bytes} {xs : List β}
    (hs : s.Over contents)
    (hop : ∀ s : Stream, s.Over contents → ∀ x ∈ xs, Reads s op (g x) (f x)) :
    Reads s (readMany op xs.length) (xs.flatMap g) (xs.map f) := by
  induction xs generalizing s with
  | nil => exact Reads.pure s []
  | cons x xs ih =>
    have hops : ∀ s : Stream, s.Over contents → ∀ y ∈ xs, Reads s op (g y) (f y) :=
      fun s hs y hy => hop s hs y (List.mem_cons_of_mem _ hy)
    have hrest := (ih (hs.move (g x).length) hops).bind
      (k := fun rest => pure (f x :: rest)) (Reads.pure _ _)
    rw [List.append_nil] at hrest
    exact (hop s hs x List.mem_cons_self).bind (k := fun a => readMany op xs.length >>= fun rest =>
      pure (a :: rest)) hrest

/-- The version line is read and accepted. -/
theorem reads_version (s : Stream) : Reads s readVersion Layout.versionLine.bytes ⟨⟩ := by
  have hline : Reads s (Stream.readThrough Layout.lineFeed Layout.versionLimit)
      Layout.versionLine.bytes Layout.versionLine :=
    s.reads_through (Dense.bytes_push _ _) (by decide) (by decide)
  have htext : Text.trimEnd (Text.decodeLossy Layout.versionLine) = Layout.versionText := by
    decide +kernel
  refine List.append_nil Layout.versionLine.bytes ▸ hline.bind (k := fun line => _) ?_
  have hok : ¬(Text.trimEnd (Text.decodeLossy Layout.versionLine) ≠ Layout.versionText ∨
      Layout.versionLine.size ≠ Layout.headerPos) := by
    rw [htext]
    decide
  rw [if_neg hok]
  exact Reads.pure _ _

/-! ## The steps of a reading -/

/-- Reads what is in front of the chunks. -/
def readFront : Stream.Op FileHeader := do
  readVersion
  let header ← Header.read
  let _ ← Stream.skipSized
  return header

/-- Reads so many index records of one chunk. -/
def readIndexRecords (conns : List UInt32) (chunkPos : UInt64) (n : Nat) :
    Stream.Op (List (UInt32 × Entry)) := do
  let records ← readMany (readIndexRecord conns chunkPos) n
  return records.flatten

/-- Reads so many connections and so many summaries of chunks. -/
def readTables (connCount chunkCount : Nat) : Stream.Op (List Connection × List Chunk) := do
  let connections ← readMany Connection.read connCount
  let chunks ← readMany readChunk chunkCount
  return (connections, chunks)

/-- Reads what is not in front of the chunks: the tables, then the index of each chunk. -/
def readBehind (path : String) (settings : Settings) (header : FileHeader) : Stream.Op Bag := do
  if header.indexPos.toNat < Layout.dataStart then throw (.unindexed header.indexPos)
  Stream.seek header.indexPos.toNat
  let (connections, chunks) ← readTables header.connCount.toNat header.chunkCount.toNat
  let rows ← (sortChunks chunks).mapM (readChunkIndex (connections.map Connection.id))
  return {
    path := path
    settings := settings
    header := header
    connections := connections
    chunks := sortChunks chunks
    index := Index.build (connections.map Connection.id) rows.flatten }

theorem read_eq (path : String) (settings : Settings) :
    read path settings = readFront >>= readBehind path settings := by
  simp only [read, readFront, readBehind, readTables, bind_assoc, pure_bind]

theorem load_of_run {path : String} {settings : Settings} {e : Error} {s : Stream}
    (h : (read path settings).run (Stream.ofFile contents) = .error e s) :
    load path settings contents = .error e := by
  unfold load
  rw [h]

/-- What went well if a bag was opened. -/
theorem of_load {path : String} {settings : Settings} {b : Bag}
    (h : load path settings contents = .ok b) :
    ∃ chunks rows s₁ s₂ s₃ s₄, readFront.run (Stream.ofFile contents) = .ok b.header s₁ ∧
      (Stream.seek b.header.indexPos.toNat).run s₁ = .ok ⟨⟩ s₂ ∧
      (readTables b.header.connCount.toNat b.header.chunkCount.toNat).run s₂ =
        .ok (b.connections, chunks) s₃ ∧
      b.chunks = sortChunks chunks ∧
      (b.chunks.mapM (readChunkIndex (b.connections.map Connection.id))).run s₃ = .ok rows s₄ ∧
      b.index = Index.build (b.connections.map Connection.id) rows.flatten := by
  unfold load at h
  split at h
  · next bag s' hrun =>
    cases h
    rw [read_eq] at hrun
    obtain ⟨header, s₁, hfront, h₁⟩ := run_bind_eq_ok hrun
    rw [readBehind] at h₁
    obtain ⟨-, h₂⟩ := run_refuse_eq_ok h₁
    obtain ⟨u, s₂, hseek, h₃⟩ := run_bind_eq_ok h₂
    obtain ⟨⟨connections, chunks⟩, s₃, htables, h₄⟩ := run_bind_eq_ok h₃
    obtain ⟨rows, s₄, hrows, h₅⟩ := run_bind_eq_ok h₄
    cases h₅
    exact ⟨chunks, rows, s₁, s₂, s₃, _, hfront, hseek, htables, rfl, hrows, rfl⟩
  · cases h

theorem path_of_load {path : String} {settings : Settings} {b : Bag}
    (h : load path settings contents = .ok b) : b.path = path := by
  unfold load at h
  split at h
  · next bag s' hrun =>
    cases h
    rw [read_eq] at hrun
    obtain ⟨header, s₁, -, h₁⟩ := run_bind_eq_ok hrun
    rw [readBehind] at h₁
    obtain ⟨u, s₂, -, h₂⟩ := run_bind_eq_ok (run_refuse_eq_ok h₁).2
    obtain ⟨tables, s₃, -, h₃⟩ := run_bind_eq_ok h₂
    obtain ⟨rows, s₄, -, h₄⟩ := run_bind_eq_ok h₃
    cases h₄
    rfl
  · cases h

/-! ## The records behind a chunk -/

theorem reads_indexRecord {ids : List UInt32} {y : UInt32 × List (Time × UInt32)} (pos : UInt64)
    (hid : y.1 ∈ ids) (hfits : Table.Fits Table.indexRow y.2) (s : Stream) :
    Reads s (readIndexRecord ids pos) (StoredChunk.indexBlocks y).flatten
      (y.2.map fun r => (y.1, ⟨r.1, pos, r.2⟩)) := by
  obtain ⟨d, hbytes, hlt, hsize, hblock⟩ :=
    Table.exists_block (by decide) Table.length_indexRow hfits
  have hblocks : (StoredChunk.indexBlocks y).flatten =
      Header.bytes (StoredChunk.indexHeader y) ++ (Bytes.sized d.bytes ++ []) := by
    rw [StoredChunk.indexBlocks, hblock, List.flatten_cons, List.flatten_singleton, List.append_nil]
  have hknown : ¬(!ids.contains (StoredChunk.indexHeader y).conn) = true := by
    have hmem : ids.contains (StoredChunk.indexHeader y).conn = true :=
      List.contains_iff_mem.2 hid
    rw [hmem]
    simp
  rw [hblocks, ← Table.indexRows_eq hbytes]
  refine (Header.reads s (IndexHeader.readable rfl)).bind (k := fun header => _)
    (Reads.guard hknown ((Stream.reads_sized _ hlt).bind (k := fun data => _)
      (Reads.guard ?_ (Reads.pure _ _))))
  exact fun hn => hn hsize

variable {x : Image} {y : Nat × StoredChunk}

theorem place_lt (hx : x.Readable) (hy : y ∈ x.places) :
    y.1 + y.2.blocks.flatten.length < 2 ^ 63 :=
  Nat.lt_of_le_of_lt ((Image.le_indexPos hy).trans x.indexPos_le) hx.length_lt

theorem toNat_place (hx : x.Readable) (hy : y ∈ x.places) : (UInt64.ofNat y.1).toNat = y.1 := by
  have := place_lt hx hy
  have hlt : y.1 < 2 ^ 64 := by omega
  exact UInt64.toNat_ofNat_of_lt' hlt

theorem place_lt_reach (hx : x.Readable) (hy : y ∈ x.places) (hs : s.Over contents) :
    y.1 + y.2.blocks.flatten.length < s.reach := by
  rw [hs.2]
  exact place_lt hx hy

/-- From its place on, a stream reads a chunk. -/
theorem ahead_place (hc : x.ChunksIn contents) (hy : y ∈ x.places) (hs : s.Over contents) :
    y.2.blocks.flatten <+: rest ({ s with pos := y.1 } : Stream) := by
  show _ <+: s.contents.bytes.drop y.1
  rw [hs.1]
  exact hc.chunk y hy

/-- The header of a stored chunk, and the length of its data, stand at its place. -/
theorem run_chunkRecord {α : Type} (hx : x.Readable) (hc : x.ChunksIn contents)
    (hy : y ∈ x.places) (hs : s.Over contents) (k : ChunkHeader → Nat → UInt32 → Stream.Op α) :
    ∃ s', s'.Over contents ∧ (do
      Stream.seek (UInt64.ofNat y.1).toNat
      let chunk : ChunkHeader ← Header.read
      let dataPos ← Stream.position
      let sizeCompressed : UInt32 ← Stream.readWord
      k chunk dataPos sizeCompressed : Stream.Op α).run s =
      (k y.2.header (y.1 + (Header.bytes y.2.header).length)
        (UInt32.ofNat y.2.stored.size)).run s' := by
  have hmem := (Image.mem_placed hy).1
  have hreadable := ChunkHeader.readable (hx.chunks _ hmem).header (hx.known _ hmem)
  have hlt : y.1 < s.reach := Nat.lt_of_le_of_lt (Nat.le_add_right _ _) (place_lt_reach hx hy hs)
  have hp := ahead_place hc hy hs
  have hword : (Word.encode (UInt32.ofNat y.2.stored.size)).bytes ++ y.2.stored.bytes =
      Bytes.sized y.2.stored.bytes := by
    rw [Slot.bytes_encode_length, Bytes.sized, Dense.length_bytes]
  rw [StoredChunk.blocks, List.flatten_cons, List.flatten_cons, ← hword] at hp
  have hread := (Header.reads ({ s with pos := y.1 } : Stream) hreadable).bind
    (k := fun chunk => Stream.position >>= fun dataPos => Stream.readWord >>= fun n : UInt32 =>
      pure (chunk, dataPos, n)) ((Stream.reads_position _).bind (k := fun dataPos => _)
        ((Stream.reads_word _ (UInt32.ofNat y.2.stored.size)).bind (k := fun n => _)
          (Reads.pure _ _)))
  rw [List.append_nil, List.nil_append] at hread
  have hrun := hread (((List.prefix_append_right_inj _).2
    ((List.prefix_append _ _).trans (List.prefix_append _ _))).trans hp)
  have hassoc : (Header.read >>= fun chunk => Stream.position >>= fun dataPos =>
      Stream.readWord >>= fun n : UInt32 => k chunk dataPos n) =
        (Header.read >>= fun chunk => Stream.position >>= fun dataPos =>
          Stream.readWord >>= fun n : UInt32 => pure (chunk, dataPos, n)) >>=
            fun t => k t.1 t.2.1 t.2.2 := by
    simp only [bind_assoc, pure_bind]
  refine ⟨move { s with pos := y.1 } (Header.bytes y.2.header ++
    (Word.encode (UInt32.ofNat y.2.stored.size)).bytes).length, hs, ?_⟩
  rw [toNat_place hx hy, Stream.run_seek_bind hlt, hassoc, EStateM.run_bind, hrun]
  rfl

/-- The summary of a chunk is read, with what its own record says. -/
theorem reads_chunk (hx : x.Readable) (hc : x.ChunksIn contents) (hy : y ∈ x.places)
    (hs : s.Over contents) :
    Reads s readChunk (StoredChunk.summaryBlocks y).flatten (StoredChunk.toChunk y) := by
  have hmem := (Image.mem_placed hy).1
  obtain ⟨d, hbytes, hlt, hsize, hblock⟩ :=
    Table.exists_block (by decide) Table.length_countRow (hx.tables.counts _ hmem)
  have hblocks : (StoredChunk.summaryBlocks y).flatten =
      Header.bytes (StoredChunk.infoHeader y) ++ (Bytes.sized d.bytes ++ []) := by
    rw [StoredChunk.summaryBlocks, hblock, List.flatten_cons, List.flatten_singleton,
      List.append_nil]
  rw [hblocks]
  intro hp
  have hresume := Stream.pos_le hp (by rw [List.length_append, Header.length_bytes]; omega)
  rw [List.append_nil, List.length_append, hs.1] at hresume
  refine (Header.reads s (ChunkInfoHeader.readable rfl)).bind (k := fun info => _)
    ((Stream.reads_sized _ hlt).bind (k := fun data => _)
      (Reads.guard (fun hn => hn hsize) ?_)) hp
  -- the reading goes to the chunk itself, and back to where the summary ended
  intro _
  have hover : (move (move s (Header.bytes (StoredChunk.infoHeader y)).length)
    (Bytes.sized d.bytes).length).Over contents := hs
  rw [Stream.run_position_bind]
  obtain ⟨s', hs', hrun⟩ := run_chunkRecord hx hc hy hover fun chunk dataPos n => do
    Stream.seek (move (move s (Header.bytes (StoredChunk.infoHeader y)).length)
      (Bytes.sized d.bytes).length).pos
    return ({
      recordPos := UInt64.ofNat y.1
      dataPos := UInt64.ofNat dataPos
      startTime := y.2.startTime
      endTime := y.2.endTime
      connections := Table.countRows d
      compression := chunk.compression
      sizeUncompressed := chunk.size
      sizeCompressed := n } : Chunk)
  have hback : (move (move s (Header.bytes (StoredChunk.infoHeader y)).length)
      (Bytes.sized d.bytes).length).pos < s'.reach := by
    have hlt := hx.length_lt
    have hle := hc.length_le
    show s.pos + _ + _ < _
    rw [hs'.2]
    omega
  refine hrun.trans ?_
  rw [Stream.run_seek_bind hback, Table.countRows_eq hbytes]
  refine congrArg (EStateM.Result.ok _) (Stream.Over.ext ?_ hover rfl)
  exact hs'

theorem reads_indexRecords (hx : x.Readable) (hy : y ∈ x.places) (hs : s.Over contents) :
    Reads s (readIndexRecords (x.connections.map Connection.id) (UInt64.ofNat y.1)
        y.2.index.length)
      (y.2.index.flatMap fun z => (StoredChunk.indexBlocks z).flatten) (StoredChunk.rows y) := by
  have hmem := (Image.mem_placed hy).1
  have hrecords := (reads_readMany hs fun s _ z hz => reads_indexRecord (UInt64.ofNat y.1)
    (hx.conns _ hmem z hz) ((hx.chunks _ hmem).index z hz) s).bind
      (k := fun records => pure records.flatten) (Reads.pure _ _)
  rw [List.append_nil] at hrecords
  exact hrecords

/-- The index of a chunk is read behind its data. -/
theorem run_chunkIndex (hx : x.Readable) (hc : x.ChunksIn contents) (hy : y ∈ x.places)
    (hs : s.Over contents) :
    ∃ s', s'.Over contents ∧ (readChunkIndex (x.connections.map Connection.id)
      (StoredChunk.toChunk y)).run s = .ok (StoredChunk.rows y) s' := by
  have hfits := hx.chunks _ (Image.mem_placed hy).1
  have hreach := place_lt_reach hx hy hs
  have hlt : (UInt64.ofNat y.1).toNat < s.reach := by
    rw [toNat_place hx hy]
    exact Nat.lt_of_le_of_lt (Nat.le_add_right _ _) hreach
  have hblocks : y.2.blocks.flatten = Header.bytes y.2.header ++ (Bytes.sized y.2.stored.bytes ++
      (y.2.index.flatMap fun z => (StoredChunk.indexBlocks z).flatten)) := by
    rw [StoredChunk.blocks, List.flatten_cons, List.flatten_cons, flatten_flatMap]
  have hheader := Fields.length_body (Header.toFields y.2.header)
  have hstored := Dense.length_bytes y.2.stored
  have hlen : y.2.blocks.flatten.length = 4 + (Header.toFields y.2.header).body.length +
      (4 + y.2.stored.bytes.length + (y.2.index.flatMap fun z =>
        (StoredChunk.indexBlocks z).flatten).length) := by
    rw [hblocks, List.length_append, List.length_append, Bytes.length_sized, Header.bytes,
      Fields.bytes, Bytes.length_sized]
  have hread : Reads ({ s with pos := y.1 } : Stream) (Stream.skipSized >>= fun _ =>
      Stream.skipSized >>= fun _ => readIndexRecords (x.connections.map Connection.id)
        (UInt64.ofNat y.1) y.2.index.length) y.2.blocks.flatten (StoredChunk.rows y) := by
    rw [hblocks]
    refine (Stream.reads_skipSized _ ?_ ?_).bind (k := fun _ => _)
      ((Stream.reads_skipSized _ ?_ ?_).bind (k := fun _ => _)
        (reads_indexRecords hx hy (show Stream.Over _ contents from hs)))
    · rw [hheader]
      exact hfits.header
    · show y.1 + _ < s.reach
      omega
    · rw [hstored]
      exact hfits.stored
    · show y.1 + _ + _ < s.reach
      rw [Bytes.length_sized]
      omega
  have hcount : (StoredChunk.toChunk y).connections.length = y.2.index.length := List.length_map _
  refine ⟨move { s with pos := y.1 } y.2.blocks.flatten.length, hs, ?_⟩
  rw [readChunkIndex, hcount]
  refine (Stream.run_seek_bind hlt _).trans ?_
  rw [toNat_place hx hy]
  exact hread (ahead_place hc hy hs)

theorem run_indexes (hx : x.Readable) (hc : x.ChunksIn contents)
    {ys : List (Nat × StoredChunk)} (hys : ∀ y ∈ ys, y ∈ x.places) (hs : s.Over contents) :
    ∃ s', s'.Over contents ∧ ((ys.map StoredChunk.toChunk).mapM
      (readChunkIndex (x.connections.map Connection.id))).run s =
        .ok (ys.map StoredChunk.rows) s' := by
  induction ys generalizing s with
  | nil => exact ⟨s, hs, rfl⟩
  | cons y ys ih =>
    obtain ⟨s₁, hs₁, hrun₁⟩ := run_chunkIndex hx hc (hys y List.mem_cons_self) hs
    obtain ⟨s₂, hs₂, hrun₂⟩ := ih (fun z hz => hys z (List.mem_cons_of_mem _ hz)) hs₁
    refine ⟨s₂, hs₂, ?_⟩
    rw [List.map_cons, List.mapM_cons, EStateM.run_bind, hrun₁]
    simp only [EStateM.run_bind, hrun₂]
    rfl

/-- So many connections and chunks of an image are read, if they stand one behind the other. -/
theorem reads_some (hx : x.Readable) (hc : x.ChunksIn contents) (hs : s.Over contents)
    {cs : List Connection} {ys : List (Nat × StoredChunk)} (hcs : ∀ c ∈ cs, c ∈ x.connections)
    (hys : ∀ y ∈ ys, y ∈ x.places) :
    Reads s (readTables cs.length ys.length)
      ((cs.flatMap fun c => c.blocks.flatten) ++
        ys.flatMap fun y => (StoredChunk.summaryBlocks y).flatten)
      (cs, ys.map StoredChunk.toChunk) := by
  have hconnections := reads_readMany (f := id) hs fun s _ c hc =>
    Connection.reads s (hx.tables.connections c (hcs c hc))
  have hmove := hs.move (cs.flatMap fun c => c.blocks.flatten).length
  have hchunks := (reads_readMany hmove fun s hs y hy => reads_chunk hx hc (hys y hy) hs).bind
    (k := fun chunks => pure (cs, chunks)) (Reads.pure _ _)
  rw [List.map_id] at hconnections
  rw [List.append_nil] at hchunks
  exact hconnections.bind (k := fun connections => _) hchunks

theorem recordPos_toChunk (hx : x.Readable) (hy : y ∈ x.places) :
    (StoredChunk.toChunk y).recordPos.toNat = y.1 := toNat_place hx hy

/-- The chunks of the table are in order already, however many of them are read. -/
theorem sortChunks_places (hx : x.Readable) {ys : List (Nat × StoredChunk)}
    (hys : ys.Sublist x.places) :
    sortChunks (ys.map StoredChunk.toChunk) = ys.map StoredChunk.toChunk := by
  refine List.mergeSort_of_pairwise (List.pairwise_map.2 ?_)
  have hascending := (Image.placed_ascending Layout.dataStart x.chunks).sublist hys
  refine hascending.imp_of_mem fun {y z} hy hz hlt => ?_
  rw [decide_eq_true_eq, UInt64.le_iff_toNat_le, recordPos_toChunk hx (hys.subset hy),
    recordPos_toChunk hx (hys.subset hz)]
  exact Nat.le_of_lt hlt

/-- **In whatever order they are read**, the chunks are put in that of their positions. -/
theorem sortChunks_perm (hx : x.Readable) {ys : List (Nat × StoredChunk)}
    (hys : ys.Perm x.places) :
    sortChunks (ys.map StoredChunk.toChunk) = x.places.map StoredChunk.toChunk := by
  have hkey : ByKey (fun a b : Chunk => decide (a.recordPos ≤ b.recordPos))
      fun chunk => chunk.recordPos.toNat := by
    intro a b
    rw [decide_eq_true_eq, UInt64.le_iff_toNat_le]
  have hsorted := hkey.pairwise_mergeSort (x.places.map StoredChunk.toChunk)
  have hplaces := sortChunks_places hx (List.Sublist.refl x.places)
  rw [sortChunks] at hplaces
  rw [hplaces] at hsorted
  refine List.Perm.eq_of_pairwise (fun a b ha hb hab hba => ?_)
    (hkey.pairwise_mergeSort (ys.map StoredChunk.toChunk)) hsorted
    ((List.mergeSort_perm _ _).trans (hys.map _))
  -- no two chunks are at one position
  obtain ⟨z, hz, rfl⟩ := List.mem_map.1 hb
  obtain ⟨y, hy, rfl⟩ := List.mem_map.1 ((List.mergeSort_perm _ _).mem_iff.1 ha)
  have hpos := le_antisymm hab hba
  rw [recordPos_toChunk hx (hys.mem_iff.1 hy), recordPos_toChunk hx hz] at hpos
  rw [Image.eq_of_place (hys.mem_iff.1 hy) hz hpos]

/-- What is in front of the chunks is read, and accepted, whatever the header is padded with. -/
theorem reads_padded (h : FileHeader) {padding : Bytes} (hpadding : padding.length < 2 ^ 32)
    (hs : s.Over contents) (hpos : s.pos = 0) :
    Reads s readFront (Layout.versionLine.bytes ++ (Header.bytes h ++ Bytes.sized padding)) h := by
  have hline : Layout.versionLine.bytes.length = 13 := by
    rw [Dense.length_bytes]
    decide
  have hheader := FileHeader.length_bytes h
  rw [← List.append_nil (Bytes.sized padding)]
  refine (reads_version s).bind (k := fun _ => _) ((Header.reads _ h.readable).bind
    (k := fun header => _) ((Stream.reads_skipSized _ hpadding ?_).bind (k := fun _ => _)
      (Reads.pure _ _)))
  show s.pos + Layout.versionLine.bytes.length + (Header.bytes h).length +
    (4 + padding.length) < s.reach
  rw [hpos, hline, hheader, hs.2]
  omega

theorem reads_front (h : FileHeader) (hs : s.Over contents) (hpos : s.pos = 0) :
    Reads s readFront (Image.preamble h).flatten h := by
  have hpadding : Layout.headerLength - ((Header.bytes h).length + 4) < 2 ^ 32 := by
    rw [FileHeader.length_bytes h]
    decide
  have hblocks : (Image.preamble h).flatten = Layout.versionLine.bytes ++ (Header.bytes h ++
      Bytes.sized (List.replicate (Layout.headerLength - ((Header.bytes h).length + 4))
        Layout.padding)) := by
    rw [Image.preamble, Image.headerBlocks, List.flatten_cons, List.flatten_cons,
      List.flatten_singleton]
  rw [hblocks]
  exact reads_padded h (by rwa [List.length_replicate]) hs hpos

/-- The header says how much there is, and where. -/
theorem countable (hx : x.Loadable) : x.Countable where
  indexPos := by
    have hle := x.indexPos_le
    have hlt := hx.length_lt
    omega
  connections := hx.connections_lt
  chunks := hx.chunks_lt

theorem toNat_indexPos (hx : x.Readable) : x.header.indexPos.toNat = x.indexPos := by
  have hle := x.indexPos_le
  have hlt := hx.length_lt
  exact UInt64.toNat_ofNat_of_lt' (show x.indexPos < 2 ^ 64 by omega)

theorem indexPos_lt_reach (hx : x.Readable) (hs : s.Over contents) : x.indexPos < s.reach := by
  have hle := x.indexPos_le
  have hlt := hx.length_lt
  rw [hs.2]
  omega

theorem not_lt_dataStart (hx : x.Readable) : ¬x.header.indexPos.toNat < Layout.dataStart := by
  rw [toNat_indexPos hx, Image.indexPos]
  omega

variable {ys : List (Nat × StoredChunk)}

/-- The tables are read where the header says, up to the end of the file. -/
theorem run_tables (hx : x.Loadable) (hc : x.Arranged ys contents) (hs : s.Over contents) :
    (readTables x.header.connCount.toNat x.header.chunkCount.toNat).run
        { s with pos := x.indexPos } =
      .ok (x.connections, ys.map StoredChunk.toChunk) { s with pos := x.bytes.length } := by
  obtain ⟨-, hconns, hchunks⟩ := (countable hx).header
  have hcount : ys.length = x.chunks.length :=
    hc.perm.length_eq.trans (Image.length_placed _ _)
  have hover : ({ s with pos := x.indexPos } : Stream).Over contents := hs
  have hrest : rest ({ s with pos := x.indexPos } : Stream) = x.tablesOf ys := by
    show s.contents.bytes.drop x.indexPos = _
    rw [hs.1, hc.tables]
  have hread := reads_some hx.toReadable hc.chunks hover (fun c hc => hc)
    (fun y hy => hc.perm.mem_iff.1 hy) (hrest ▸ List.prefix_refl _)
  rw [hconns, hchunks, ← hcount, hread, Image.length_bytes, Image.flatten_tableBlocks,
    ← Image.length_tablesOf hc.perm]
  rfl

/-- What follows is read where the header says. -/
theorem run_behind (path : String) (settings : Settings) (hx : x.Loadable)
    (hc : x.Arranged ys contents) (hs : s.Over contents) :
    ∃ s', (readBehind path settings x.header).run s = .ok (x.bag path settings) s' := by
  have hover : ({ s with pos := x.bytes.length } : Stream).Over contents := hs
  obtain ⟨s', -, hrows⟩ := run_indexes hx.toReadable hc.chunks (fun y hy => hy) hover
  refine ⟨s', ?_⟩
  rw [readBehind, if_neg (not_lt_dataStart hx.toReadable), toNat_indexPos hx.toReadable,
    Stream.run_seek_bind (indexPos_lt_reach hx.toReadable hs), EStateM.run_bind,
    run_tables hx hc hs]
  simp only [sortChunks_perm hx.toReadable hc.perm, EStateM.run_bind, hrows, Index.build_eq]
  rfl

/-- **A bag is opened in whatever order its summaries are**, and says what was written. -/
theorem load_arranged (path : String) (settings : Settings) (hx : x.Loadable)
    (hc : x.Arranged ys contents) (hfront : (Image.preamble x.header).flatten <+: contents.bytes) :
    load path settings contents = .ok (x.bag path settings) := by
  have hover : (Stream.ofFile contents).Over contents := ⟨rfl, rfl⟩
  have hread := reads_front x.header hover rfl hfront
  obtain ⟨s', hrun⟩ := run_behind path settings hx hc
    (hover.move (Image.preamble x.header).flatten.length)
  have hall : (read path settings).run (Stream.ofFile contents) =
      .ok (x.bag path settings) s' := by
    rw [read_eq, EStateM.run_bind, hread]
    exact hrun
  unfold load
  simp only [hall]

/-- A bag that was written from front to back is opened, and says what was written. -/
theorem load_image (path : String) (settings : Settings) (hx : x.Loadable)
    (hc : contents.bytes = x.bytes) :
    load path settings contents = .ok (x.bag path settings) := by
  refine load_arranged path settings hx (Image.standsIn_of_bytes hc).arranged ?_
  rw [hc, Image.bytes, Image.blocks, List.flatten_append, List.flatten_append, List.append_assoc]
  exact List.prefix_append _ _

end Bag

/-! ## A bag that no recorder makes -/

namespace Image

/-- A file with a bag in it. -/
def file (x : Image) : Contents := .ofDense (.ofBytes x.bytes)

theorem bytes_file (x : Image) : x.file.bytes = x.bytes := by
  rw [file, Contents.bytes_ofDense, Dense.bytes_ofBytes]

/-- The only message of the sample, which belongs to the second connection.  In front of it
    stands the record of the first. -/
def sampleNote : Note := ⟨some (.sample 0 "/a"), ⟨1, ⟨5, 0⟩, .ofBytes [7]⟩⟩

/-- The only chunk of the sample, whose index lists the message under the first connection. -/
def sampleChunk : StoredChunk where
  compression := .none
  size := sampleNote.bytes.length
  stored := .ofBytes sampleNote.bytes
  startTime := ⟨5, 0⟩
  endTime := ⟨5, 0⟩
  index := [(0, [(⟨5, 0⟩, UInt32.ofNat sampleNote.lead)])]

/-- A bag in which the index and a message do not agree on the connection. -/
def misfiled : Image := ⟨[.sample 0 "/a", .sample 1 "/b"], [sampleChunk]⟩

/-- The sample is opened all the same. -/
theorem misfiled_loadable : misfiled.Loadable where
  tables := by decide +kernel
  chunks := by decide +kernel
  known := by decide +kernel
  conns := by decide +kernel
  connections_lt := by decide
  chunks_lt := by decide
  length_lt := by
    rw [length_bytes]
    decide +kernel

end Image

end BagFile
