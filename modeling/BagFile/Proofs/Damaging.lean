/-
  Bags with damage inside a chunk.

  * `Chunk.Damages c contents contents'`: two files that differ at most in what is stored for a
    chunk;
  * `Image.around`: a bag seen from one of its chunks.  What is stored there is no part of what a
    bag is opened as (`Image.bag_around`), so the damaged file is the image of a bag, too;
  * `Bag.cacheAfter`: what a bag keeps after some queries.  It agrees with the bag's own file,
    damaged or not (`Bag.agrees_cacheAfter`), and so it never carries damage over;
  * `Recorder.damage_contained`: a finalized recording with a damaged chunk is opened as before, and
    its messages in other chunks are as they were.
-/
import BagFile.Proofs.RoundTrip

namespace BagFile

/-! ## Damage -/

/-- A position is in what is stored for a chunk, behind the length. -/
def Chunk.Stores (c : Chunk) (i : Nat) : Prop :=
  c.dataPos.toNat + 4 ≤ i ∧ i < c.dataPos.toNat + 4 + c.sizeCompressed.toNat

/-- Two files that differ at most in what is stored for a chunk. -/
structure Chunk.Damages (c : Chunk) (contents contents' : Contents) : Prop where
  size : contents'.size = contents.size
  outside : ∀ i, ¬c.Stores i → contents'.bytes[i]? = contents.bytes[i]?

/-- Writing over what is stored for a chunk is such damage. -/
theorem Chunk.damages_overwrite {c : Chunk} {contents : Contents} {d : Dense}
    (hd : d.size ≤ c.sizeCompressed.toNat) (hfits : c.dataPos.toNat + 4 + d.size ≤ contents.size) :
    c.Damages contents (contents.overwrite (c.dataPos.toNat + 4) d) := by
  have hlength := contents.length_bytes
  have hd' := d.length_bytes
  have hgap : Bytes.zeros (c.dataPos.toNat + 4 - contents.size) = [] := by
    rw [Nat.sub_eq_zero_of_le (by omega)]
    rfl
  have hbytes := contents.bytes_overwrite (c.dataPos.toNat + 4) d
  rw [hgap, List.append_nil] at hbytes
  have hfront : (contents.bytes.take (c.dataPos.toNat + 4)).length = c.dataPos.toNat + 4 := by
    rw [List.length_take, hlength]
    omega
  constructor
  · rw [← Contents.length_bytes, hbytes, List.length_append, List.length_append, hfront, hd',
      List.length_drop, hlength]
    omega
  · intro i hi
    rw [Chunk.Stores] at hi
    rw [hbytes]
    by_cases hlt : i < c.dataPos.toNat + 4
    · rw [List.append_assoc, List.getElem?_append_left (by omega), List.getElem?_take, if_pos hlt]
    · have hle : (contents.bytes.take (c.dataPos.toNat + 4) ++ d.bytes).length ≤ i := by
        rw [List.length_append]
        omega
      rw [List.getElem?_append_right hle, List.getElem?_drop, List.length_append, hfront, hd']
      congr 1
      rw [List.length_append] at hle
      omega

/-- A list that is another outside of a stretch. -/
theorem eq_splice {α : Type} {l l' : List α} {p n : Nat}
    (h : ∀ i, ¬(p ≤ i ∧ i < p + n) → l'[i]? = l[i]?) :
    l' = l.take p ++ (l'.drop p).take n ++ l.drop (p + n) := by
  have hfront : l.take p = l'.take p := by
    refine List.ext_getElem? fun i => ?_
    simp only [List.getElem?_take]
    split
    · exact (h i (by omega)).symm
    · rfl
  have hbehind : l.drop (p + n) = l'.drop (p + n) := by
    refine List.ext_getElem? fun i => ?_
    rw [List.getElem?_drop, List.getElem?_drop, h _ (by omega)]
  rw [hfront, hbehind, List.append_assoc, ← List.drop_drop, List.take_append_drop,
    List.take_append_drop]

/-! ## Other bytes in a chunk -/

namespace StoredChunk

variable {c : StoredChunk} {d : Dense}

/-- The chunk with other bytes stored. -/
def withStored (c : StoredChunk) (d : Dense) : StoredChunk := { c with stored := d }

theorem length_withStored (h : d.size = c.stored.size) : (c.withStored d).length = c.length := by
  have hsized : (Bytes.sized d.bytes).length = (Bytes.sized c.stored.bytes).length := by
    rw [Bytes.length_sized, Bytes.length_sized, Dense.length_bytes, Dense.length_bytes, h]
  show (Header.bytes c.header :: Bytes.sized d.bytes :: c.index.flatMap indexBlocks).flatten.length
    = c.blocks.flatten.length
  rw [blocks, List.flatten_cons, List.flatten_cons, List.flatten_cons, List.flatten_cons,
    List.length_append, List.length_append, hsized, List.length_append, List.length_append]

theorem toChunk_withStored (h : d.size = c.stored.size) (pos : Nat) :
    toChunk (pos, c.withStored d) = toChunk (pos, c) := by
  unfold toChunk
  simp only [withStored, h]
  rfl

theorem Fits.withStored (hc : c.Fits) (h : d.size = c.stored.size) : (c.withStored d).Fits where
  header := hc.header
  size := hc.size
  stored := h ▸ hc.stored
  index := hc.index

end StoredChunk

namespace Image

/-- A bag seen from one of its chunks. -/
def around (connections : List Connection) (front after : List StoredChunk) (c : StoredChunk) :
    Image :=
  ⟨connections, front ++ c :: after⟩

variable {connections : List Connection} {front after : List StoredChunk} {c : StoredChunk}
  {d : Dense}

/-- Where that chunk is. -/
def placeAfter (front : List StoredChunk) : Nat :=
  Layout.dataStart + (chunkBlocks front).flatten.length

theorem places_around (connections : List Connection) (front after : List StoredChunk)
    (c : StoredChunk) : (around connections front after c).places =
      placed Layout.dataStart front ++
        (placeAfter front, c) :: placed (placeAfter front + c.length) after :=
  placed_append _ _ _

/-- Every chunk of a bag is one to see the bag from. -/
theorem exists_around {x : Image} {y : Nat × StoredChunk} (hy : y ∈ x.places) :
    ∃ front after, x = around x.connections front after y.2 ∧ y.1 = placeAfter front := by
  obtain ⟨front, after, hchunks, hpos⟩ := exists_split_of_mem_placed hy
  exact ⟨front, after, by rw [around, ← hchunks], hpos⟩

/-- What holds of all chunks still does if it does of the one that changes. -/
theorem forall_around {P : StoredChunk → Prop} (hP : P c → P (c.withStored d))
    (h : ∀ y ∈ (around connections front after c).chunks, P y) :
    ∀ y ∈ (around connections front after (c.withStored d)).chunks, P y := by
  rw [around, List.forall_mem_append, List.forall_mem_cons] at h ⊢
  exact ⟨h.1, hP h.2.1, h.2.2⟩

section SameSize

variable (h : d.size = c.stored.size)
include h

theorem length_chunkBlocks_around :
    (chunkBlocks (around connections front after (c.withStored d)).chunks).flatten.length =
      (chunkBlocks (around connections front after c).chunks).flatten.length := by
  have hlength := StoredChunk.length_withStored h
  rw [StoredChunk.length, StoredChunk.length] at hlength
  simp only [around, chunkBlocks, List.flatMap_append, List.flatMap_cons, List.flatten_append,
    List.length_append, hlength]

theorem header_around : (around connections front after (c.withStored d)).header =
    (around connections front after c).header := by
  rw [header, header, indexPos, indexPos, length_chunkBlocks_around h]
  simp only [around, List.length_append, List.length_cons]

theorem tableBlocks_around : (around connections front after (c.withStored d)).tableBlocks =
    (around connections front after c).tableBlocks := by
  have hplaces := places_around connections front after c
  have hplaces' := places_around connections front after (c.withStored d)
  rw [places] at hplaces hplaces'
  rw [tableBlocks, tableBlocks, hplaces, hplaces', StoredChunk.length_withStored h]
  simp only [List.flatMap_append, List.flatMap_cons]
  rfl

/-- What is stored in a chunk is no part of what a bag is opened as. -/
theorem bag_around (path : String) (settings : Settings) :
    (around connections front after (c.withStored d)).bag path settings =
      (around connections front after c).bag path settings := by
  have hchunks : (around connections front after (c.withStored d)).places.map StoredChunk.toChunk =
      (around connections front after c).places.map StoredChunk.toChunk := by
    rw [places_around, places_around, StoredChunk.length_withStored h]
    simp only [List.map_append, List.map_cons, StoredChunk.toChunk_withStored h]
  have hrows : (around connections front after (c.withStored d)).rows =
      (around connections front after c).rows := by
    rw [rows, rows, places_around, places_around, StoredChunk.length_withStored h]
    simp only [List.flatMap_append, List.flatMap_cons]
    rfl
  unfold bag
  rw [header_around h, hchunks, hrows]
  rfl

theorem length_bytes_around :
    (around connections front after (c.withStored d)).bytes.length =
      (around connections front after c).bytes.length := by
  rw [length_bytes, length_bytes, tableBlocks_around h, indexPos, indexPos,
    length_chunkBlocks_around h]

theorem Loadable.around_withStored (hx : (around connections front after c).Loadable) :
    (around connections front after (c.withStored d)).Loadable where
  tables := ⟨hx.tables.connections, forall_around id hx.tables.counts⟩
  chunks := forall_around (fun hc => hc.withStored h) hx.chunks
  known := forall_around id hx.known
  conns := forall_around (P := fun y => ∀ z ∈ y.index, z.1 ∈ connections.map Connection.id) id
    hx.conns
  connections_lt := hx.connections_lt
  chunks_lt := by
    have hlt := hx.chunks_lt
    simpa [around] using hlt
  length_lt := by
    rw [length_bytes_around h]
    exact hx.length_lt

end SameSize

/-- What is stored in a chunk has other bytes in front and behind, which do not depend on it. -/
theorem exists_bytes_around (connections : List Connection) (front after : List StoredChunk)
    (c : StoredChunk) : ∃ before behind : Bytes,
      before.length = placeAfter front + (Header.bytes c.header).length + 4 ∧
      ∀ d : Dense, d.size = c.stored.size →
        (around connections front after (c.withStored d)).bytes = before ++ d.bytes ++ behind := by
  refine ⟨(preamble (around connections front after c).header).flatten ++
      (chunkBlocks front).flatten ++ Header.bytes c.header ++ Bytes.ofNat 4 c.stored.size,
    (c.index.flatMap StoredChunk.indexBlocks).flatten ++ (chunkBlocks after).flatten ++
      (around connections front after c).tableBlocks.flatten, ?_, fun d h => ?_⟩
  · simp only [List.length_append, length_preamble, Bytes.length_ofNat, placeAfter]
  · have hchunks : (chunkBlocks (around connections front after (c.withStored d)).chunks).flatten =
        (chunkBlocks front).flatten ++ (Header.bytes c.header ++ (Bytes.sized d.bytes ++
          ((c.index.flatMap StoredChunk.indexBlocks).flatten ++
            (chunkBlocks after).flatten))) := by
      simp only [around, chunkBlocks, List.flatMap_append, List.flatMap_cons, List.flatten_append,
        StoredChunk.blocks, StoredChunk.withStored, List.flatten_cons, List.append_assoc]
      rfl
    rw [bytes, blocks, List.flatten_append, List.flatten_append, hchunks, header_around h,
      tableBlocks_around h, Bytes.sized, Dense.length_bytes, h]
    simp only [List.append_assoc]

variable {x : Image} {y : Nat × StoredChunk} {contents contents' : Contents}

/-- A damaged bag is the image of a bag, too. -/
theorem exists_withStored (hx : x.Loadable) (hy : y ∈ x.places) (hc : contents.bytes = x.bytes)
    (hdamage : (StoredChunk.toChunk y).Damages contents contents') :
    ∃ front after d, x = around x.connections front after y.2 ∧ y.1 = placeAfter front ∧
      d.size = y.2.stored.size ∧
      contents'.bytes = (around x.connections front after (y.2.withStored d)).bytes := by
  obtain ⟨front, after, haround, hplace⟩ := exists_around hy
  obtain ⟨before, behind, hlength, hbytes⟩ := exists_bytes_around x.connections front after y.2
  have hfits := (hx.chunks _ (mem_placed hy).1).stored
  have hstored : (StoredChunk.toChunk y).sizeCompressed.toNat = y.2.stored.size :=
    UInt32.toNat_ofNat_of_lt' hfits
  have hpos : (StoredChunk.toChunk y).dataPos.toNat + 4 = before.length := by
    rw [toNat_dataPos hx hy, hlength, hplace]
  have hwhole : contents.bytes = before ++ y.2.stored.bytes ++ behind := by
    rw [hc, ← hbytes y.2.stored rfl]
    exact congrArg bytes haround
  have hsplice : contents'.bytes = contents.bytes.take before.length ++
      (contents'.bytes.drop before.length).take y.2.stored.size ++
        contents.bytes.drop (before.length + y.2.stored.size) :=
    eq_splice fun i hi => hdamage.outside i (by rwa [Chunk.Stores, hpos, hstored])
  have hfront : contents.bytes.take before.length = before := by
    rw [hwhole, List.append_assoc, List.take_left]
  have hbehind : contents.bytes.drop (before.length + y.2.stored.size) = behind := by
    rw [hwhole, ← Dense.length_bytes, ← List.length_append, List.drop_left]
  have hd : (Dense.ofBytes ((contents'.bytes.drop before.length).take y.2.stored.size)).size =
      y.2.stored.size := by
    have hsize := hdamage.size
    rw [← Contents.length_bytes, ← Contents.length_bytes, hwhole, List.length_append,
      List.length_append, Dense.length_bytes] at hsize
    rw [Dense.size_ofBytes, List.length_take, List.length_drop]
    omega
  refine ⟨front, after, _, haround, hplace, hd, ?_⟩
  rw [hbytes _ hd, Dense.bytes_ofBytes]
  rw [hfront, hbehind] at hsplice
  exact hsplice

/-- What is stored for a chunk is in the file. -/
theorem stored_le (hx : x.Loadable) (hy : y ∈ x.places) :
    (StoredChunk.toChunk y).dataPos.toNat + 4 + y.2.stored.size ≤ x.bytes.length := by
  have hle := (le_indexPos hy).trans x.indexPos_le
  rw [StoredChunk.blocks, List.flatten_cons, List.flatten_cons, List.length_append,
    List.length_append, Bytes.length_sized, Dense.length_bytes] at hle
  rw [toNat_dataPos hx hy]
  omega

end Image

/-! ## Contents of the other chunks -/

/-- The contents of a chunk hang on what is stored for it. -/
theorem Fetcher.load_congr [Codec.Formats] {source source' s s' : Stream} {chunk : Chunk}
    {d : Dense}
    (h : (do
      Stream.seek chunk.dataPos.toNat
      Stream.readSized : Stream.Op Dense).run source = .ok d s)
    (h' : (do
      Stream.seek chunk.dataPos.toNat
      Stream.readSized : Stream.Op Dense).run source' = .ok d s') :
    load source' chunk = load source chunk := by
  unfold load
  simp only [h, h']

/-- The contents at a position hang on those of the chunks that are there. -/
theorem Fetcher.contentsAt_congr [Codec.Formats] {source source' : Stream} {chunks : List Chunk}
    {pos : UInt64}
    (h : ∀ chunk ∈ chunks, chunk.recordPos = pos → load source' chunk = load source chunk) :
    contentsAt source' chunks pos = contentsAt source chunks pos := by
  rw [contentsAt, contentsAt]
  rcases hfind : Chunk.find chunks pos with e | chunk
  · rfl
  · obtain ⟨hmem, hpos⟩ := Chunk.of_find hfind
    exact h chunk hmem hpos

namespace Image

/-- The message of an entry hangs on the contents of its chunk. -/
theorem messageAt_congr [Codec.Formats] {x : Image} {source source' : Stream} {path path' : String}
    {settings settings' : Settings} {e : Entry}
    (h : Fetcher.contentsAt source' (x.bag path settings).chunks e.chunkPos =
      Fetcher.contentsAt source (x.bag path settings).chunks e.chunkPos) :
    (x.bag path' settings').messageAt source' e = (x.bag path settings).messageAt source e := by
  have hraw : Fetcher.rawAt source' (x.bag path settings).chunks e =
      Fetcher.rawAt source (x.bag path settings).chunks e := by
    rw [Fetcher.rawAt, Fetcher.rawAt, h]
  exact congrArg (· >>= (x.bag path settings).named) hraw

variable {connections : List Connection} {front after : List StoredChunk} {c : StoredChunk}
  {d : Dense} {contents contents' : Contents}

/-- The contents of the other chunks are the same. -/
theorem contentsAt_around [Codec.Formats] (h : d.size = c.stored.size)
    (hx : (around connections front after c).Loadable)
    (hc : contents.bytes = (around connections front after c).bytes)
    (hc' : contents'.bytes = (around connections front after (c.withStored d)).bytes)
    (path : String) (settings : Settings) {pos : UInt64}
    (hpos : pos ≠ UInt64.ofNat (placeAfter front)) :
    Fetcher.contentsAt (Stream.ofFile contents')
        ((around connections front after c).bag path settings).chunks pos =
      Fetcher.contentsAt (Stream.ofFile contents)
        ((around connections front after c).bag path settings).chunks pos := by
  refine Fetcher.contentsAt_congr fun chunk hchunk hplace => ?_
  obtain ⟨z, hz, rfl⟩ := List.mem_map.1 hchunk
  have hz' : z ∈ (around connections front after (c.withStored d)).places := by
    rw [places_around, StoredChunk.length_withStored h]
    rw [places_around] at hz
    rcases List.mem_append.1 hz with hz | hz
    · exact List.mem_append_left _ hz
    · rcases List.mem_cons.1 hz with rfl | hz
      · exact absurd hplace.symm hpos
      · exact List.mem_append_right _ (List.mem_cons_of_mem _ hz)
  obtain ⟨s, hrun⟩ := run_stored hx (chunksIn_of_bytes hc) hz
  obtain ⟨s', hrun'⟩ := run_stored (Loadable.around_withStored h hx) (chunksIn_of_bytes hc') hz'
  exact Fetcher.load_congr hrun hrun'

variable {x : Image} {y : Nat × StoredChunk}

/-- **A damaged bag is opened as the whole one.** -/
theorem load_damaged (hx : x.Loadable) (hy : y ∈ x.places) (hc : contents.bytes = x.bytes)
    (hdamage : (StoredChunk.toChunk y).Damages contents contents') (path : String)
    (settings : Settings) : Bag.load path settings contents' = .ok (x.bag path settings) := by
  obtain ⟨front, after, d, haround, -, hd, hc'⟩ := exists_withStored hx hy hc hdamage
  have hx' := Loadable.around_withStored hd (haround ▸ hx)
  rw [Bag.load_image path settings hx' hc', bag_around hd, ← haround]

/-- The messages of the other chunks are the same. -/
theorem messageAt_damaged [Codec.Formats] (hx : x.Loadable) (hy : y ∈ x.places)
    (hc : contents.bytes = x.bytes) (hdamage : (StoredChunk.toChunk y).Damages contents contents')
    (path path' : String) (settings settings' : Settings) {e : Entry} (he : e.chunkPos ≠ UInt64.ofNat y.1) :
    (x.bag path' settings').messageAt (Stream.ofFile contents') e =
      (x.bag path settings).messageAt (Stream.ofFile contents) e := by
  obtain ⟨front, after, d, haround, hplace, hd, hc'⟩ := exists_withStored hx hy hc hdamage
  rw [hplace] at he
  have hcontents := contentsAt_around hd (haround ▸ hx) (haround ▸ hc) hc' path settings he
  rw [← haround] at hcontents
  exact messageAt_congr hcontents

end Image

/-! ## Queries with a cache -/

namespace Bag

variable [Codec.Formats]

/-- What a bag keeps after some queries, the last of them first: each was asked for so many
    messages, and found what those before it had kept. -/
def cacheAfter (b : Bag) (source : Stream) : List (Query × Nat) → Cache
  | [] => Cache.empty
  | (q, k) :: earlier =>
    let cache := cacheAfter b source earlier
    (Messages.take b source k (Messages.start b q cache)).2.fetcher.cache.getD cache

/-- At most `k` items of a query that comes after others. -/
def itemsAfter (b : Bag) (source : Stream) (earlier : List (Query × Nat)) (q : Query) (k : Nat) :
    List (Except Error Message) :=
  (Messages.take b source k (Messages.start b q (b.cacheAfter source earlier))).1

/-- Whatever was asked for, a bag keeps what is in its file. -/
theorem agrees_cacheAfter (b : Bag) (source : Stream) (earlier : List (Query × Nat)) :
    (b.cacheAfter source earlier).Agrees source b.chunks := by
  induction earlier with
  | nil => exact Cache.agrees_empty _ _
  | cons x earlier ih =>
    have htake := (Messages.take_eq (Messages.agrees_sharedCache ih) (b.entries x.1) x.2).2
    rw [cacheAfter]
    rcases hcache : (Messages.take b source x.2 (Messages.start b x.1
      (b.cacheAfter source earlier))).2.fetcher.cache with - | cache
    · exact ih
    · exact htake.cache cache hcache

theorem itemsAfter_eq {b : Bag} {path : String} {settings : Settings} {contents : Contents}
    (h : load path settings contents = .ok b) (source : Stream) (earlier : List (Query × Nat))
    (q : Query) (k : Nat) :
    b.itemsAfter source earlier q k = ((b.entries q).toList.take k).map (b.messageAt source) := by
  obtain ⟨htoList, htake⟩ := entries_eq_reference h q
  rw [itemsAfter, Messages.take_start (b.agrees_cacheAfter source earlier), htake, htoList]

end Bag

/-! ## Whole recordings -/

namespace Recorder

variable {settings : Settings} {calls : List Call} {r₀ r : Recorder} {header : FileHeader}

/-- **Damage stays in its chunk.**  Whatever happens to what is stored for a chunk of a finalized
    recording, the file is opened with the same header, tables and index.  A query has as many
    items as before, one for each of its entries; where the entry is in another chunk, the item is
    the one that the whole file gives.  That holds with a cache or without one, whatever was asked
    for before.  The counts of the tables are 32-bit numbers in the file, and its positions are
    signed 64-bit numbers. -/
theorem damage_contained [Codec.Formats] (hcreate : create settings = .ok r₀)
    (hrun : finalize.run (r₀.after calls) = .ok header r)
    (hconnections : r.connections.length < 2 ^ 32) (hchunks : r.chunks.length < 2 ^ 32)
    (hsize : r.tape.size < 2 ^ 63) (path : String) (reading : Settings) :
    ∃ b, Bag.load path reading r.tape.contents = .ok b ∧
      ∀ chunk ∈ b.chunks, ∀ contents', chunk.Damages r.tape.contents contents' →
      ∀ path' reading', ∃ b', Bag.load path' reading' contents' = .ok b' ∧
        b'.header = b.header ∧ b'.connections = b.connections ∧ b'.chunks = b.chunks ∧
        b'.index = b.index ∧
        ∀ (q : Query) (k : Nat) (earlier earlier' : List (Query × Nat)),
          let items := b.itemsAfter (Stream.ofFile r.tape.contents) earlier q k
          let items' := b'.itemsAfter (Stream.ofFile contents') earlier' q k
          items.length = min k (b.entries q).toList.length ∧ items'.length = items.length ∧
          ∀ (i : Nat) (e : Entry), (b.entries q).toList[i]? = some e →
            e.chunkPos ≠ chunk.recordPos → items'[i]? = items[i]? := by
  obtain ⟨hfinished, hbytes, -, -⟩ := finished_of_finalize hcreate hrun hconnections hchunks hsize
  have hx := hfinished.loadable
  generalize ((Account.start settings).after calls).close.image = x at hx hbytes
  have hload := Bag.load_image path reading hx hbytes
  refine ⟨_, hload, fun chunk hchunk contents' hdamage path' reading' => ?_⟩
  obtain ⟨y, hy, rfl⟩ := List.mem_map.1 hchunk
  have hload' := Image.load_damaged hx hy hbytes hdamage path' reading'
  refine ⟨_, hload', rfl, rfl, rfl, rfl, fun q k earlier earlier' => ?_⟩
  simp only [Bag.itemsAfter_eq hload, Bag.itemsAfter_eq hload', List.length_map, List.length_take]
  refine ⟨trivial, rfl, fun i e he hpos => ?_⟩
  have hmessage := Image.messageAt_damaged hx hy hbytes hdamage path path' reading reading' hpos
  have hentries : (x.bag path' reading').entries q = (x.bag path reading).entries q := rfl
  rw [hentries, List.getElem?_map, List.getElem?_map, List.getElem?_take]
  split
  · rw [he, Option.map_some, Option.map_some, hmessage]
  · rfl

/-- The sample with one byte changed in its first chunk. -/
theorem damage_contained_sample : ∃ (r₀ : Recorder) (header : FileHeader) (r : Recorder)
    (b b' : Bag) (chunk : Chunk) (contents' : Contents), create .default = .ok r₀ ∧
      finalize.run (r₀.after sampleCalls) = .ok header r ∧
      Bag.load "" .default r.tape.contents = .ok b ∧ chunk ∈ b.chunks ∧
      contents' = r.tape.contents.overwrite (chunk.dataPos.toNat + 4) (.ofBytes [255]) ∧
      Bag.load "" .default contents' = .ok b' ∧ b'.index = b.index ∧
      ∀ (i : Nat) (e : Entry), (b.entries .all).toList[i]? = some e →
        e.chunkPos ≠ chunk.recordPos →
          (b'.itemsAfter (Stream.ofFile contents') [] .all 2)[i]? =
            (b.itemsAfter (Stream.ofFile r.tape.contents) [(.all, 1)] .all 2)[i]? := by
  obtain ⟨r₀, header, r, hcreate, hrun, hconnections, hchunks, hsize⟩ := sample_finalized
  obtain ⟨b, hload, hcontained⟩ := damage_contained hcreate hrun (by omega) (by omega) (by omega)
    "" .default
  obtain ⟨hfinished, hbytes, -, -⟩ := finished_of_finalize hcreate hrun (by omega) (by omega)
    (by omega)
  have hx := hfinished.loadable
  have hsome : ∃ y ∈ ((Account.start .default).after sampleCalls).close.image.places,
      0 < y.2.stored.size := by
    decide +kernel
  generalize ((Account.start .default).after sampleCalls).close.image = x at hx hbytes hsome
  cases hload.symm.trans (Bag.load_image "" .default hx hbytes)
  obtain ⟨y, hy, hstored⟩ := hsome
  have hcount : (StoredChunk.toChunk y).sizeCompressed.toNat = y.2.stored.size :=
    UInt32.toNat_ofNat_of_lt' (hx.chunks _ (Image.mem_placed hy).1).stored
  have hle := Image.stored_le hx hy
  rw [← hbytes, Contents.length_bytes] at hle
  have hone : (Dense.ofBytes [255]).size = 1 := rfl
  have hdamage : (StoredChunk.toChunk y).Damages r.tape.contents (r.tape.contents.overwrite
      ((StoredChunk.toChunk y).dataPos.toNat + 4) (.ofBytes [255])) :=
    Chunk.damages_overwrite (by omega) (by omega)
  have hchunk := List.mem_map_of_mem (f := StoredChunk.toChunk) hy
  obtain ⟨b', hload', -, -, -, hindex, hitems⟩ := hcontained _ hchunk _ hdamage "" .default
  exact ⟨r₀, header, r, _, b', _, _, hcreate, hrun, hload, hchunk, rfl, hload', hindex,
    (hitems .all 2 [(.all, 1)] []).2.2⟩

end Recorder

end BagFile
