/-
  Bags whose chunks are summarised in another order.

  * `Chunk.summary` is the record that summarises a chunk, from what a bag knows about it;
  * `Image.front` is a bag up to its tables.  With its connections and the summaries of its chunks
    behind, in any order, there stands the same bag (`Image.exists_arranged`);
  * `Image.messageAt_arranged`: the messages of two files are the same if the chunks are;
  * `Recorder.summaries_unordered`: whatever the order of the summaries in a finalized recording is,
    it is opened as before and gives the same messages.
-/
import BagFile.Proofs.Damaging
import Mathlib.Data.List.Perm.Basic

namespace BagFile

/-- The record that summarises a chunk. -/
def Chunk.summary (c : Chunk) : Bytes :=
  Header.bytes (⟨recordVersion, c.recordPos, c.startTime, c.endTime,
    UInt32.ofNat c.connections.length⟩ : ChunkInfoHeader) ++
      Table.bytes Table.countRow c.connections

theorem StoredChunk.summary_toChunk (y : Nat × StoredChunk) :
    (toChunk y).summary = (summaryBlocks y).flatten := by
  rw [summaryBlocks, List.flatten_cons, List.flatten_singleton]
  rfl

namespace Image

variable {x : Image} {ys : List (Nat × StoredChunk)} {contents contents' : Contents}

/-! ## The tables in another order -/

/-- A bag up to its tables. -/
def front (x : Image) : Bytes := (preamble x.header ++ chunkBlocks x.chunks).flatten

theorem length_front (x : Image) : x.front.length = x.indexPos := by
  rw [front, List.flatten_append, List.length_append, length_preamble, indexPos]

theorem bytes_eq (x : Image) : x.bytes = x.front ++ x.tablesOf x.places := by
  rw [bytes, blocks, List.flatten_append, flatten_tableBlocks, front]

theorem preamble_prefix (x : Image) : (preamble x.header).flatten <+: x.front := by
  rw [front, List.flatten_append]
  exact List.prefix_append _ _

/-- The chunks stand in front of the tables. -/
theorem prefix_drop_front {y : Nat × StoredChunk} (hy : y ∈ x.places) :
    y.2.blocks.flatten <+: x.front.drop y.1 := by
  have hle := le_indexPos hy
  have hstart : y.1 ≤ x.front.length := by
    rw [length_front]
    omega
  have hfront : x.front.drop y.1 <+: x.bytes.drop y.1 := by
    rw [bytes_eq, List.drop_append_of_le_length hstart]
    exact List.prefix_append _ _
  refine List.prefix_of_prefix_length_le (prefix_drop hy) hfront ?_
  rw [List.length_drop, length_front]
  omega

/-- With its tables behind, in any order, a bag is arranged in that. -/
theorem arranged_of_bytes (hys : ys.Perm x.places)
    (hc : contents.bytes = x.front ++ x.tablesOf ys) : x.Arranged ys contents where
  perm := hys
  chunks := by
    constructor
    · intro y hy
      have hstart : y.1 ≤ x.front.length := by
        have hle := le_indexPos hy
        rw [length_front]
        omega
      rw [hc, List.drop_append_of_le_length hstart]
      exact (prefix_drop_front hy).trans (List.prefix_append _ _)
    · rw [hc, bytes_eq, List.length_append, List.length_append, length_tablesOf hys]
  tables := by rw [hc, List.drop_left' (length_front x)]

/-- Summaries in some order are those of the chunks in some order. -/
theorem exists_places {summaries : List Bytes}
    (h : summaries.Perm ((x.places.map StoredChunk.toChunk).map Chunk.summary)) :
    ∃ ys : List (Nat × StoredChunk), ys.Perm x.places ∧
      summaries = (ys.map StoredChunk.toChunk).map Chunk.summary := by
  have hall : List.Forall₂ (fun (a : Bytes) (y : Nat × StoredChunk) =>
      a = (StoredChunk.toChunk y).summary)
      ((x.places.map StoredChunk.toChunk).map Chunk.summary) x.places := by
    rw [List.map_map, List.forall₂_map_left_iff]
    exact List.forall₂_same.2 fun _ _ => rfl
  obtain ⟨ys, hys, hperm⟩ := List.perm_comp_forall₂ h hall
  refine ⟨ys, hperm, ?_⟩
  rw [List.map_map, ← List.forall₂_eq_eq_eq, List.forall₂_map_right_iff]
  exact hys

/-- The tables of a bag, as it knows them. -/
theorem tablesOf_eq (x : Image) (ys : List (Nat × StoredChunk)) :
    x.tablesOf ys = (x.connections.flatMap fun c => c.blocks.flatten) ++
      ((ys.map StoredChunk.toChunk).map Chunk.summary).flatten := by
  have hsummaries : ys.map (Chunk.summary ∘ StoredChunk.toChunk) =
      ys.map fun y => (StoredChunk.summaryBlocks y).flatten :=
    List.map_congr_left fun y _ => StoredChunk.summary_toChunk y
  rw [tablesOf, List.map_map, hsummaries, ← List.flatMap_def]

/-! ## The same messages -/

/-- If the chunks are at their places, the messages are the same. -/
theorem messageAt_arranged [Codec.Formats] (hx : x.Loadable) (hc : x.ChunksIn contents)
    (hc' : x.ChunksIn contents') (path path' : String) (settings settings' : Settings) (e : Entry) :
    (x.bag path' settings').messageAt (Stream.ofFile contents') e =
      (x.bag path settings).messageAt (Stream.ofFile contents) e := by
  refine messageAt_congr (Fetcher.contentsAt_congr fun chunk hchunk _ => ?_)
  obtain ⟨y, hy, rfl⟩ := List.mem_map.1 hchunk
  obtain ⟨s, hrun⟩ := run_stored hx hc hy
  obtain ⟨s', hrun'⟩ := run_stored hx hc' hy
  exact Fetcher.load_congr hrun hrun'

end Image

/-! ## Whole recordings -/

namespace Recorder

variable {settings : Settings} {calls : List Call} {r₀ r : Recorder} {header : FileHeader}

/-- **The order of the summaries does not matter.**  A finalized recording ends with a record for
    each connection, where its header says, and a summary for each chunk.  With the summaries in
    any order it is opened with the same header, tables and index, the chunks in the same order.
    A query selects the same entries in the same order and has the same items, ties included,
    whatever was asked for before.  The counts of the tables are 32-bit numbers in the file, and
    its positions are signed 64-bit numbers. -/
theorem summaries_unordered [Codec.Formats] (hcreate : create settings = .ok r₀)
    (hrun : finalize.run (r₀.after calls) = .ok header r)
    (hconnections : r.connections.length < 2 ^ 32) (hchunks : r.chunks.length < 2 ^ 32)
    (hsize : r.tape.size < 2 ^ 63) (path : String) (reading : Settings) :
    ∃ b front, Bag.load path reading r.tape.contents = .ok b ∧
      front.length = b.header.indexPos.toNat ∧
      r.tape.contents.bytes = front ++ ((b.connections.flatMap fun c => c.blocks.flatten) ++
        (b.chunks.map Chunk.summary).flatten) ∧
      ∀ (summaries : List Bytes) (contents' : Contents),
      summaries.Perm (b.chunks.map Chunk.summary) →
      contents'.bytes = front ++ ((b.connections.flatMap fun c => c.blocks.flatten) ++
        summaries.flatten) →
      ∀ path' reading', ∃ b', Bag.load path' reading' contents' = .ok b' ∧
        b'.header = b.header ∧ b'.connections = b.connections ∧ b'.chunks = b.chunks ∧
        b'.index = b.index ∧
        ∀ (q : Query) (k : Nat) (earlier earlier' : List (Query × Nat)),
          (b'.entries q).toList = (b.entries q).toList ∧
          b'.itemsAfter (Stream.ofFile contents') earlier' q k =
            b.itemsAfter (Stream.ofFile r.tape.contents) earlier q k := by
  obtain ⟨hfinished, hbytes, -, -⟩ := finished_of_finalize hcreate hrun hconnections hchunks hsize
  have hx := hfinished.loadable
  generalize ((Account.start settings).after calls).close.image = x at hx hbytes
  have hload := Bag.load_image path reading hx hbytes
  have hchunksIn := Image.chunksIn_of_bytes hbytes
  have htables := (hbytes.trans x.bytes_eq).trans (congrArg _ (x.tablesOf_eq x.places))
  refine ⟨x.bag path reading, x.front, hload, ?_, htables,
    fun summaries contents' hsummaries hc path' reading' => ?_⟩
  · rw [x.length_front]
    exact (Bag.toNat_indexPos hx.toReadable).symm
  · obtain ⟨ys, hys, rfl⟩ := Image.exists_places hsummaries
    have harranged : x.Arranged ys contents' := by
      refine Image.arranged_of_bytes hys (hc.trans ?_)
      rw [x.tablesOf_eq]
      rfl
    have hfront : (Image.preamble x.header).flatten <+: contents'.bytes := by
      rw [hc]
      exact x.preamble_prefix.trans (List.prefix_append _ _)
    have hload' := Bag.load_arranged path' reading' hx harranged hfront
    refine ⟨_, hload', rfl, rfl, rfl, rfl, fun q k earlier earlier' => ⟨rfl, ?_⟩⟩
    have hentries : (x.bag path' reading').entries q = (x.bag path reading).entries q := rfl
    rw [Bag.itemsAfter_eq hload, Bag.itemsAfter_eq hload', hentries]
    refine List.map_congr_left fun e _ => ?_
    exact Image.messageAt_arranged hx hchunksIn harranged.chunks path path' reading reading' e

/-- The sample with its two summaries the other way round. -/
theorem summaries_unordered_sample : ∃ (r₀ : Recorder) (header : FileHeader) (r : Recorder)
    (b b' : Bag) (contents' : Contents), create .default = .ok r₀ ∧
      finalize.run (r₀.after sampleCalls) = .ok header r ∧
      Bag.load "" .default r.tape.contents = .ok b ∧
      contents'.bytes ≠ r.tape.contents.bytes ∧ Bag.load "" .default contents' = .ok b' ∧
      b'.chunks = b.chunks ∧ b'.index = b.index ∧
      b'.itemsAfter (Stream.ofFile contents') [] .all 2 =
        b.itemsAfter (Stream.ofFile r.tape.contents) [(.all, 1)] .all 2 := by
  obtain ⟨r₀, header, r, hcreate, hrun, hconnections, hchunks, hsize⟩ := sample_finalized
  obtain ⟨b, front, hload, -, hbytes, hall⟩ := summaries_unordered hcreate hrun (by omega)
    (by omega) (by omega) "" .default
  obtain ⟨hfinished, himage, -, -⟩ := finished_of_finalize hcreate hrun (by omega) (by omega)
    (by omega)
  have hx := hfinished.loadable
  have hdiffer : ((((Account.start .default).after sampleCalls).close.image.places.map
      StoredChunk.toChunk).map Chunk.summary).reverse.flatten ≠
      ((((Account.start .default).after sampleCalls).close.image.places.map
        StoredChunk.toChunk).map Chunk.summary).flatten := by
    decide +kernel
  generalize ((Account.start .default).after sampleCalls).close.image = x at hx himage hdiffer
  cases hload.symm.trans (Bag.load_image "" .default hx himage)
  obtain ⟨b', hload', -, -, hchunks', hindex, hitems⟩ := hall _
    (.ofDense (.ofBytes _)) (List.reverse_perm _) (Dense.bytes_ofBytes _) "" .default
  refine ⟨r₀, header, r, _, b', _, hcreate, hrun, hload, ?_, hload', hchunks', hindex,
    (hitems .all 2 [(.all, 1)] []).2⟩
  rw [hbytes, Contents.bytes_ofDense, Dense.bytes_ofBytes]
  intro hsame
  exact hdiffer (List.append_cancel_left (List.append_cancel_left hsame))

end Recorder

end BagFile
