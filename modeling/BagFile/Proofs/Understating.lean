/-
  What a bag is opened as whose header counts too little.

  * `Image.opened`: so many connections and chunks of an image are read as its header counts.  If
    connections are left over, the first of them is looked at as a chunk, and is none
    (`Bag.readChunk_connection`);
  * `Bag.load_iff_opened`: a file with an image in it is opened like that, or not at all, whatever
    its header is padded with;
  * `Bag.load_headless`: without fields in the header it is not opened.
-/
import BagFile.Proofs.Loading
import Mathlib.Data.List.Infix

namespace BagFile

open Source

/-- The bag that an image is opened as.  Of its connections and chunks only so many are read as
    the header counts, which may be too few. -/
def Image.opened (x : Image) (path : String) (settings : Settings) : Option Bag :=
  let m := x.header.connCount.toNat
  let n := x.header.chunkCount.toNat
  -- a chunk is looked for where there is another connection
  if m < x.connections.length ∧ 0 < n then none
  else some {
    path := path
    settings := settings
    header := x.header
    connections := x.connections.take m
    chunks := (x.places.take n).map StoredChunk.toChunk
    index := Index.build ((x.connections.take m).map Connection.id)
      ((x.places.take n).map StoredChunk.rows).flatten }

namespace Bag

variable {contents : Contents} {s : Stream} {x : Image}

/-- A connection is not taken for the summary of a chunk. -/
theorem readChunk_connection {c : Connection} (hc : c.Fits) (h : c.blocks.flatten <+: rest s) :
    ∃ e s', readChunk.run s = .error e s' := by
  have hheader := ConnectionHeader.readable hc.1
  have hblocks : c.blocks.flatten = Header.bytes c.header ++ Fields.bytes c.dataFields := by
    rw [Connection.blocks, List.flatten_cons, List.flatten_singleton]
  rw [hblocks] at h
  have hread := Fields.reads s hheader.named hheader.fits ((List.prefix_append _ _).trans h)
  have hkind : (Header.toFields c.header).expectKind (Header.kind ChunkInfoHeader) =
      .error (.unexpectedKind .chunkInfo .connection) := rfl
  have hinfo := Header.run_read_unexpected hread hkind
  exact ⟨_, _, run_bind_of_error hinfo _⟩

/-- The header counts no more connections and chunks than there are. -/
theorem counted_le (x : Image) : x.header.connCount.toNat ≤ x.connections.length ∧
    x.header.chunkCount.toNat ≤ x.places.length := by
  have hplaces : x.places.length = x.chunks.length := Image.length_placed _ _
  rw [hplaces]
  exact ⟨Nat.mod_le _ _, Nat.mod_le _ _⟩

/-- Tables of which more connections are there than the header counts, and chunks too. -/
theorem readTables_short (hx : x.Readable) (hs : s.Over contents) {m n : Nat}
    (hm : m < x.connections.length) (hn : 0 < n)
    (hp : x.tableBlocks.flatten <+: rest s) :
    ∃ e s', (readTables m n).run s = .error e s' := by
  have hlength : (x.connections.take m).length = m := by
    rw [List.length_take, Nat.min_eq_left (Nat.le_of_lt hm)]
  have hsplit : x.tableBlocks.flatten = (x.connections.take m).flatMap (fun c => c.blocks.flatten) ++
      (x.connections[m].blocks.flatten ++
        ((x.connections.drop (m + 1)).flatMap (fun c => c.blocks.flatten) ++
          x.places.flatMap fun y => (StoredChunk.summaryBlocks y).flatten)) := by
    rw [Image.flatten_tableBlocks, Image.tablesOf]
    conv_lhs => rw [← List.take_append_drop m x.connections, List.drop_eq_getElem_cons hm]
    rw [List.flatMap_append, List.flatMap_cons]
    simp only [List.append_assoc]
  rw [hsplit] at hp
  have hconnections : Reads s (readMany Connection.read m)
      ((x.connections.take m).flatMap fun c => c.blocks.flatten)
      ((x.connections.take m).map id) := by
    have hread := reads_readMany (f := id) hs fun s _ c (hc : c ∈ x.connections.take m) =>
      Connection.reads s (hx.tables.connections c (List.mem_of_mem_take hc))
    rwa [hlength] at hread
  have hrun := hconnections ((List.prefix_append _ _).trans hp)
  have hrest := prefix_rest_move hp
  obtain ⟨e, s', hchunk⟩ := readChunk_connection (hx.tables.connections _ (List.getElem_mem hm))
    ((List.prefix_append _ _).trans hrest)
  obtain ⟨n, rfl⟩ := Nat.exists_eq_add_one.2 hn
  refine ⟨e, s', ?_⟩
  rw [readTables, EStateM.run_bind, hrun]
  exact run_bind_of_error (run_bind_of_error hchunk _) _

/-- Tables are read as far as the header counts, if that makes a table of both kinds. -/
theorem readTables_counted (hx : x.Readable) (hc : x.StandsIn contents) (hs : s.Over contents)
    {m n : Nat} (hm : m ≤ x.connections.length) (hn : n ≤ x.places.length)
    (hwhole : m = x.connections.length ∨ n = 0) (hp : x.tableBlocks.flatten <+: rest s) :
    ∃ s', s'.Over contents ∧ (readTables m n).run s =
      .ok (x.connections.take m, (x.places.take n).map StoredChunk.toChunk) s' := by
  have hread := reads_some hx hc.chunksIn hs (fun c => List.mem_of_mem_take (i := m))
    fun y => List.mem_of_mem_take (i := n)
  rw [List.length_take, List.length_take, Nat.min_eq_left hm, Nat.min_eq_left hn] at hread
  refine ⟨_, ?_, hread (List.IsPrefix.trans ?_ hp)⟩
  · exact hs.move _
  · rw [Image.flatten_tableBlocks, Image.tablesOf]
    rcases hwhole with rfl | rfl
    · -- all connections, and the first of the chunks behind them
      rw [List.take_length, List.prefix_append_right_inj]
      exact (List.take_prefix n x.places).flatMap _
    · rw [List.take_zero, List.flatMap_nil, List.append_nil]
      exact ((List.take_prefix m x.connections).flatMap _).trans (List.prefix_append _ _)

/-- **What is behind the header** decides what a bag is opened as. -/
theorem run_behind_opened (path : String) (settings : Settings) (hx : x.Readable)
    (hc : x.StandsIn contents) (hs : s.Over contents) :
    (∃ b s', (readBehind path settings x.header).run s = .ok b s' ∧
        x.opened path settings = some b) ∨
      ∃ e s', (readBehind path settings x.header).run s = .error e s' ∧
        x.opened path settings = none := by
  obtain ⟨hm, hn⟩ := counted_le x
  have hplaces : (x.places.take x.header.chunkCount.toNat).Sublist x.places := List.take_sublist _ _
  have hover : ({ s with pos := x.indexPos } : Stream).Over contents := hs
  have hp : x.tableBlocks.flatten <+: rest ({ s with pos := x.indexPos } : Stream) := by
    show _ <+: s.contents.bytes.drop x.indexPos
    rw [hs.1, hc.arranged.tables, Image.flatten_tableBlocks]
  have hbehind : (readBehind path settings x.header).run s =
      (readTables x.header.connCount.toNat x.header.chunkCount.toNat >>= fun t => do
        let rows ← (sortChunks t.2).mapM (readChunkIndex (t.1.map Connection.id))
        return {
          path := path
          settings := settings
          header := x.header
          connections := t.1
          chunks := sortChunks t.2
          index := Index.build (t.1.map Connection.id) rows.flatten }).run
        { s with pos := x.indexPos } := by
    rw [readBehind, if_neg (not_lt_dataStart hx), toNat_indexPos hx,
      Stream.run_seek_bind (indexPos_lt_reach hx hs)]
  rw [hbehind]
  by_cases hshort : x.header.connCount.toNat < x.connections.length ∧ 0 < x.header.chunkCount.toNat
  · obtain ⟨e, s', hrun⟩ := readTables_short hx hover hshort.1 hshort.2 hp
    exact .inr ⟨e, s', run_bind_of_error hrun _, if_pos hshort⟩
  · obtain ⟨s₁, hs₁, hrun⟩ := readTables_counted hx hc hover hm hn (by omega) hp
    have hrows : ∃ s', (((x.places.take x.header.chunkCount.toNat).map StoredChunk.toChunk).mapM
        (readChunkIndex ((x.connections.take x.header.connCount.toNat).map Connection.id))).run s₁ =
          .ok ((x.places.take x.header.chunkCount.toNat).map StoredChunk.rows) s' := by
      rcases Nat.lt_or_eq_of_le hm with hlt | heq
      · have hzero : x.header.chunkCount.toNat = 0 := by omega
        rw [hzero]
        exact ⟨s₁, rfl⟩
      · rw [heq, List.take_length]
        obtain ⟨s', -, hrun⟩ := run_indexes hx hc.chunksIn (fun y hy => hplaces.subset hy) hs₁
        exact ⟨s', hrun⟩
    obtain ⟨s', hrows⟩ := hrows
    refine .inl ⟨_, s', ?_, if_neg hshort⟩
    rw [EStateM.run_bind, hrun]
    simp only [sortChunks_places hx hplaces, EStateM.run_bind, hrows]
    rfl

/-- **A file with an image in it** is opened as what the header of the image counts, whatever the
    header is padded with. -/
theorem load_iff_opened {path : String} {settings : Settings} {b : Bag} (hx : x.Readable)
    (hc : x.StandsIn contents) {padding : Bytes} (hpadding : padding.length < 2 ^ 32)
    (hfront : Layout.versionLine.bytes ++ (Header.bytes x.header ++ Bytes.sized padding) <+:
      contents.bytes) :
    load path settings contents = .ok b ↔ x.opened path settings = some b := by
  have hover : (Stream.ofFile contents).Over contents := ⟨rfl, rfl⟩
  have hread := reads_padded x.header hpadding hover rfl hfront
  have hmove := hover.move
    (Layout.versionLine.bytes ++ (Header.bytes x.header ++ Bytes.sized padding)).length
  rcases run_behind_opened path settings hx hc hmove with
    ⟨b', s', hrun, hopened⟩ | ⟨e, s', hrun, hopened⟩
  · have hload : load path settings contents = .ok b' := by
      unfold load
      rw [read_eq, EStateM.run_bind, hread]
      simp only [hrun]
    rw [hload, hopened, Except.ok.injEq, Option.some.injEq]
  · have hload : load path settings contents = .error e := by
      unfold load
      rw [read_eq, EStateM.run_bind, hread]
      simp only [hrun]
    rw [hload, hopened]
    exact iff_of_false (by rintro ⟨⟩) (by rintro ⟨⟩)

/-- **A file whose header has no fields** is not opened. -/
theorem load_headless (h : Layout.versionLine.bytes ++ Bytes.zeros 4 <+: contents.bytes)
    (path : String) (settings : Settings) : ∃ e, load path settings contents = .error e := by
  have hversion := reads_version (Stream.ofFile contents) ((List.prefix_append _ _).trans h)
  have hfields := Fields.reads (f := Fields.empty)
    (move (Stream.ofFile contents) Layout.versionLine.bytes.length) (by decide) (by decide)
      (prefix_rest_move h)
  have hkind : Fields.empty.expectKind (Header.kind FileHeader) =
      .error (.malformedHeader (.missingField "op")) := rfl
  refine ⟨.malformedHeader (.missingField "op"),
    load_of_run (s := move (move (Stream.ofFile contents) Layout.versionLine.bytes.length) 4) ?_⟩
  rw [read, EStateM.run_bind, hversion]
  exact run_bind_of_error (Header.run_read_unexpected hfields hkind) _

end Bag

end BagFile
