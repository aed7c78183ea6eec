/-
  The contents of chunks in a bag that was written from front to back.

  * `Image.contentsAt_bag`: at the place of a chunk stands what was compressed, if decompressing
    gives that back;
  * `Image.rawAt_bag`: an entry gives the message whose record stands at its offset.
-/
import BagFile.Proofs.Fetching
import BagFile.Proofs.Loading

namespace BagFile

open Source

/-- The contents of a chunk are what its data decompresses to, if that is as long as it should
    be. -/
theorem Fetcher.load_eq [Codec.Formats] {source s : Stream} {chunk : Chunk} {codec : Codec}
    {stored d : Dense} (hcodec : Codec.ofCompression chunk.compression = .ok codec)
    (hrun : (do
      Stream.seek chunk.dataPos.toNat
      Stream.readSized : Stream.Op Dense).run source = .ok stored s)
    (hd : codec.decompress stored (min chunk.sizeUncompressed.toNat maxRoom) = .ok d)
    (hsize : d.size = chunk.sizeUncompressed.toNat) : load source chunk = .ok d := by
  have hwhole : d.extract 0 chunk.sizeUncompressed.toNat = d := by
    rw [← hsize]
    exact ByteArray.extract_zero_size
  unfold load
  simp only [hcodec, hrun]
  simp only [bind, Except.bind, hd, hsize, Nat.lt_irrefl, if_false, hwhole]

namespace Image

variable {x : Image} {contents : Contents} {y : Nat × StoredChunk} {codec : Codec} {d : Dense}

theorem dataPos_lt (hx : x.Loadable) (hy : y ∈ x.places) :
    y.1 + (Header.bytes y.2.header).length < 2 ^ 63 := by
  have hplace := Bag.place_lt hx.toReadable hy
  rw [StoredChunk.blocks, List.flatten_cons, List.length_append] at hplace
  omega

theorem toNat_dataPos (hx : x.Loadable) (hy : y ∈ x.places) :
    (StoredChunk.toChunk y).dataPos.toNat = y.1 + (Header.bytes y.2.header).length := by
  have hlt := dataPos_lt hx hy
  have hfits : y.1 + (Header.bytes y.2.header).length < 2 ^ 64 := by omega
  exact UInt64.toNat_ofNat_of_lt' hfits

/-- The data of all chunks is behind the header of the file. -/
theorem dataStart_le (hx : x.Loadable) (hy : y ∈ x.places) :
    Layout.dataStart ≤ (StoredChunk.toChunk y).dataPos.toNat := by
  obtain ⟨-, front, -, -, hpos⟩ := mem_placed hy
  rw [toNat_dataPos hx hy, hpos]
  omega

/-- The stored form of a chunk stands behind its header. -/
theorem run_stored (hx : x.Loadable) (hc : x.ChunksIn contents) (hy : y ∈ x.places) :
    ∃ s', (do
      Stream.seek (StoredChunk.toChunk y).dataPos.toNat
      Stream.readSized : Stream.Op Dense).run (Stream.ofFile contents) = .ok y.2.stored s' := by
  have hfits := hx.chunks _ (mem_placed hy).1
  have hblock : Bytes.sized y.2.stored.bytes <+: contents.bytes.drop
      (y.1 + (Header.bytes y.2.header).length) := by
    obtain ⟨after, hafter⟩ := hc.chunk y hy
    rw [StoredChunk.blocks, List.flatten_cons, List.flatten_cons, List.append_assoc] at hafter
    rw [← List.drop_drop, ← hafter, List.drop_left, List.append_assoc]
    exact List.prefix_append _ _
  have hread := Stream.reads_sized
    { Stream.ofFile contents with pos := y.1 + (Header.bytes y.2.header).length }
    hfits.stored hblock
  rw [toNat_dataPos hx hy, Stream.run_seek_bind (dataPos_lt hx hy)]
  exact ⟨_, hread⟩

/-- The contents of a chunk are what its stored form decompresses to. -/
theorem load_toChunk [Codec.Formats] (hx : x.Loadable) (hc : contents.bytes = x.bytes)
    (hy : y ∈ x.places) (hcodec : Codec.ofCompression y.2.compression = .ok codec)
    (hd : codec.decompress y.2.stored (min y.2.size Fetcher.maxRoom) = .ok d)
    (hsize : d.size = y.2.size) :
    Fetcher.load (Stream.ofFile contents) (StoredChunk.toChunk y) = .ok d := by
  have hcount : (StoredChunk.toChunk y).sizeUncompressed.toNat = y.2.size :=
    UInt32.toNat_ofNat_of_lt' (hx.chunks _ (mem_placed hy).1).size
  obtain ⟨s', hrun⟩ := run_stored hx (chunksIn_of_bytes hc) hy
  exact Fetcher.load_eq hcodec hrun (hcount ▸ hd) (hcount ▸ hsize)

theorem chunks_ascending (hx : x.Loadable) :
    (x.places.map StoredChunk.toChunk).Pairwise fun a b => a.recordPos < b.recordPos := by
  refine List.pairwise_map.2 ?_
  refine (placed_ascending Layout.dataStart x.chunks).imp_of_mem fun {y z} hy hz hlt => ?_
  rwa [UInt64.lt_iff_toNat_lt, Bag.recordPos_toChunk hx.toReadable hy,
    Bag.recordPos_toChunk hx.toReadable hz]

variable [Codec.Formats] {path : String} {settings : Settings}

/-- The contents of a chunk are found at its place. -/
theorem contentsAt_bag (hx : x.Loadable) (hc : contents.bytes = x.bytes) (hy : y ∈ x.places)
    (hcodec : Codec.ofCompression y.2.compression = .ok codec)
    (hd : codec.decompress y.2.stored (min y.2.size Fetcher.maxRoom) = .ok d)
    (hsize : d.size = y.2.size) :
    Fetcher.contentsAt (Stream.ofFile contents) (x.bag path settings).chunks (UInt64.ofNat y.1) =
      .ok d := by
  have hfind : Chunk.find (x.bag path settings).chunks (UInt64.ofNat y.1) =
      .ok (StoredChunk.toChunk y) :=
    Chunk.find_of_mem (chunks_ascending hx) (List.mem_map_of_mem hy)
  rw [Fetcher.contentsAt, hfind]
  exact load_toChunk hx hc hy hcodec hd hsize

/-- An entry gives the message whose record stands at its offset. -/
theorem rawAt_bag (hx : x.Loadable) (hc : contents.bytes = x.bytes) (hy : y ∈ x.places)
    (hcodec : Codec.ofCompression y.2.compression = .ok codec)
    (hd : codec.decompress y.2.stored (min y.2.size Fetcher.maxRoom) = .ok d)
    (hsize : d.size = y.2.size)
    {m : RawMessage} {offset : UInt32} (hm : m.bytes <+: d.bytes.drop offset.toNat)
    (hdata : m.data.size < 2 ^ 32) (time : Time) :
    Fetcher.rawAt (Stream.ofFile contents) (x.bag path settings).chunks
      ⟨time, UInt64.ofNat y.1, offset⟩ = .ok m := by
  rw [Fetcher.rawAt, contentsAt_bag hx hc hy hcodec hd hsize]
  exact RawMessage.ofChunk_eq hm hdata

end Image

end BagFile
