/-
  What a bag says about its chunks.

  * `Time.Spans`: two points in time are the first and the last of some, or the epoch;
  * `Chunk.Summarises`: what a bag says of a chunk is true of the messages in it, as they were
    recorded;
  * `Recorder.metadata_round_trip`: the header, the connections and the chunks that were written
    are those of the bag that is opened.
-/
import BagFile.Proofs.Announcing

namespace BagFile

/-! ## Times -/

/-- Picking from a list again and again gives one of its elements, which is related to all of them
    if each pick is related to both choices. -/
theorem foldl_pick {α : Type} {R : α → α → Prop} {pick : α → α → α} (hrefl : ∀ a, R a a)
    (htrans : ∀ {a b c}, R a b → R b c → R a c) (hone : ∀ a b, pick a b = a ∨ pick a b = b)
    (hboth : ∀ a b, R (pick a b) a ∧ R (pick a b) b) (a : α) (xs : List α) :
    xs.foldl pick a ∈ a :: xs ∧ ∀ x ∈ a :: xs, R (xs.foldl pick a) x := by
  induction xs generalizing a with
  | nil => simp [hrefl]
  | cons b xs ih =>
    obtain ⟨hmem, hall⟩ := ih (pick a b)
    obtain ⟨hpick, hxs⟩ := List.forall_mem_cons.1 hall
    rw [List.foldl_cons]
    refine ⟨?_, List.forall_mem_cons.2 ⟨htrans hpick (hboth a b).1,
      List.forall_mem_cons.2 ⟨htrans hpick (hboth a b).2, hxs⟩⟩⟩
    rcases List.mem_cons.1 hmem with he | hmem
    · rw [he]
      rcases hone a b with h | h <;> simp [h]
    · exact List.mem_cons_of_mem _ (List.mem_cons_of_mem _ hmem)

namespace Time

/-- The first and the last of some points in time: the epoch if there are none. -/
def Spans (first last : Time) (ts : List Time) : Prop :=
  if ts = [] then first = zero ∧ last = zero
  else first ∈ ts ∧ last ∈ ts ∧ ∀ t ∈ ts, first ≤ t ∧ t ≤ last

theorem foldl_earlier (t : Time) (ts : List Time) :
    ts.foldl earlier t ∈ t :: ts ∧ ∀ u ∈ t :: ts, ts.foldl earlier t ≤ u := by
  refine foldl_pick (R := fun a b : Time => a ≤ b) (fun a => Nat.le_refl _) Nat.le_trans
    (fun a b => ?_) (fun a b => ?_) t ts
  · unfold earlier
    split <;> simp
  · unfold earlier
    split
    · next h => exact ⟨Nat.le_refl _, h⟩
    · next h => exact ⟨Nat.le_of_not_le h, Nat.le_refl _⟩

theorem foldl_later (t : Time) (ts : List Time) :
    ts.foldl later t ∈ t :: ts ∧ ∀ u ∈ t :: ts, u ≤ ts.foldl later t := by
  refine foldl_pick (R := fun a b : Time => b ≤ a) (fun a => Nat.le_refl _)
    (fun h h' => Nat.le_trans h' h) (fun a b => ?_) (fun a b => ?_) t ts
  · unfold later
    split <;> simp
  · unfold later
    split
    · next h => exact ⟨h, Nat.le_refl _⟩
    · next h => exact ⟨Nat.le_refl _, Nat.le_of_not_le h⟩

theorem spans_earliest_latest (ts : List Time) :
    Spans ((Index.earliest? ts).getD zero) ((Index.latest? ts).getD zero) ts := by
  cases ts with
  | nil => exact ⟨rfl, rfl⟩
  | cons t ts =>
    obtain ⟨hfirst, hle⟩ := foldl_earlier t ts
    obtain ⟨hlast, hge⟩ := foldl_later t ts
    rw [Spans, if_neg (List.cons_ne_nil _ _)]
    exact ⟨hfirst, hlast, fun u hu => ⟨hle u hu, hge u hu⟩⟩

end Time

/-! ## Chunks -/

namespace Batch

/-- The index of a chunk has as many entries of a connection as there are messages of it. -/
theorem length_of_mem_index [Codec.Formats] (b : Batch) {x : UInt32 × List (Time × UInt32)}
    (hx : x ∈ b.stored.index) : x.2.length = (b.messages.map RawMessage.conn).count x.1 := by
  rw [index_eq] at hx
  obtain ⟨conn, -, rfl⟩ := List.mem_map.1 hx
  show (b.listed conn).length = _
  rw [listed, List.length_mergeSort, rowsOf, List.length_map, ← map_fst_rows, List.count,
    List.countP_map, List.countP_eq_length_filter]
  rfl

end Batch

namespace Chunk

/-- What a bag says of a chunk is true of the messages that it was made of. -/
structure Summarises [Codec.Formats] (contents : Contents) (chunk : Chunk) (b : Batch) : Prop where
  compression : chunk.compression = b.compression
  /-- what is stored is made of the contents, and the lengths of both are those that it says -/
  packed : chunk.Packs contents (.ofBytes b.contents)
  times : Time.Spans chunk.startTime chunk.endTime (b.messages.map RawMessage.time)
  /-- the connections ascend; they are those of the messages, each with how many it has -/
  ascending : (chunk.connections.map ConnectionCount.conn).Pairwise (· < ·)
  used : ∀ conn, conn ∈ chunk.connections.map ConnectionCount.conn ↔
    conn ∈ b.messages.map RawMessage.conn
  counted : ∀ n ∈ chunk.connections,
    n.count.toNat = (b.messages.map RawMessage.conn).count n.conn

/-- What a recorder keeps of a chunk, told by a bag. -/
def closed (chunk : Chunk) : ClosedChunk :=
  ⟨chunk.recordPos.toNat, chunk.startTime, chunk.endTime, chunk.connections⟩

end Chunk

namespace Account.Finished

variable [Codec.Formats] {a : Account} {contents : Contents}

/-- The counts of a chunk fit four bytes. -/
theorem toNat_count (h : a.Finished) {b : Batch} (hb : b ∈ a.chunks)
    {x : UInt32 × List (Time × UInt32)} (hx : x ∈ b.stored.index) :
    (UInt32.ofNat x.2.length).toNat = x.2.length := by
  have hfits : Table.Fits Table.indexRow x.2 := (h.fits b hb).index x hx
  rw [Table.Fits, Table.length_rows Table.length_indexRow] at hfits
  exact UInt32.toNat_ofNat_of_lt'
    (Nat.lt_of_le_of_lt (Nat.le_mul_of_pos_right _ (by decide)) hfits)

/-- **A chunk of a finished recording is opened with what is true of it.** -/
theorem summarises (h : a.Finished) (hc : contents.bytes = a.image.bytes) {y : Nat × StoredChunk}
    {b : Batch} (hy : y ∈ a.image.places) (hb : b ∈ a.chunks) (hstored : y.2 = b.stored) :
    (StoredChunk.toChunk y).Summarises contents b := by
  have hconns : (StoredChunk.toChunk y).connections.map ConnectionCount.conn =
      b.stored.index.map Prod.fst := by
    show (y.2.index.map _).map _ = _
    rw [hstored, List.map_map]
    rfl
  refine ⟨congrArg StoredChunk.compression hstored, h.packs hc hy hb hstored, ?_, ?_, ?_, ?_⟩
  · show Time.Spans y.2.startTime y.2.endTime _
    rw [hstored, ← b.map_time_rows]
    exact Time.spans_earliest_latest _
  · rw [hconns]
    exact b.index_ascending
  · intro conn
    rw [hconns]
    exact b.mem_index
  · intro n hn
    replace hn : n ∈ y.2.counts := hn
    rw [hstored] at hn
    obtain ⟨x, hx, rfl⟩ := List.mem_map.1 hn
    rw [h.toNat_count hb hx, b.length_of_mem_index hx]

/-- The chunks of a finished recording are opened one by one. -/
theorem forall₂_summarises (h : a.Finished) (hc : contents.bytes = a.image.bytes) (path : String)
    (settings : Settings) :
    List.Forall₂ (Chunk.Summarises contents) (a.image.bag path settings).chunks a.chunks := by
  refine List.forall₂_map_left_iff.2
    (List.forall₂_iff_zip.2 ⟨a.length_places, fun {y b} hzip => ?_⟩)
  obtain ⟨hplace, hchunk, hstored⟩ := mem_zip_places hzip
  exact h.summarises hc hplace hchunk hstored

/-- They are the chunks that a recorder keeps. -/
theorem map_closed (h : a.Finished) (path : String) (settings : Settings) :
    (a.image.bag path settings).chunks.map Chunk.closed = a.closedChunks := by
  show (a.image.places.map StoredChunk.toChunk).map Chunk.closed = _
  rw [List.map_map]
  refine List.map_congr_left fun y hy => ?_
  show ClosedChunk.mk (UInt64.ofNat y.1).toNat _ _ _ = _
  rw [Bag.toNat_place h.loadable.toReadable hy]
  rfl

end Account.Finished

/-! ## Whole recordings -/

namespace Recorder

variable {settings : Settings} {calls : List Call} {r₀ r : Recorder} {header : FileHeader}

/-- **What a finalized recording says about itself is what is opened.**  The header is the one
    that was returned.  The connections are those of the recorder, which are the registered ones
    with ids in order from zero.  The chunks are those of the recorder as well, one behind the
    other in the file, and what is said of each is true of the messages that were put into it;
    in the order of the chunks these are the accepted ones. -/
theorem metadata_round_trip [Codec.Formats] (hcreate : create settings = .ok r₀)
    (hrun : finalize.run (r₀.after calls) = .ok header r)
    (hconnections : r.connections.length < 2 ^ 32) (hchunks : r.chunks.length < 2 ^ 32)
    (hsize : r.tape.size < 2 ^ 63) (path : String) (reading : Settings) :
    ∃ b, Bag.load path reading r.tape.contents = .ok b ∧ b.header = header ∧
      b.connections = r.connections ∧ b.connections = Call.registered calls ∧
      b.chunks.map Chunk.closed = r.chunks ∧
      (b.chunks.Pairwise fun c d => c.recordPos < d.recordPos) ∧
      let batches := ((Account.start settings).after calls).close.chunks
      batches.flatMap Batch.messages = r₀.accepted calls ∧
        List.Forall₂ (Chunk.Summarises r.tape.contents) b.chunks batches := by
  obtain ⟨hfinished, hbytes, hmessages, hregistered⟩ :=
    finished_of_finalize hcreate hrun hconnections hchunks hsize
  obtain ⟨-, hheader, -, -, hconns, -⟩ := (follows_of_create hcreate).of_finalize calls hrun
  have hclosed := (follows_of_create hcreate).chunks_of_finalize calls hrun
  refine ⟨_, Bag.load_image path reading hfinished.loadable hbytes, hheader.symm, hconns.symm,
    hregistered, ?_, Image.chunks_ascending hfinished.loadable, ?_,
    hfinished.forall₂_summarises hbytes path reading⟩
  · rw [hfinished.map_closed, hclosed]
  · rw [← hmessages, Account.messages, hfinished.idle, Option.toList_none, List.append_nil]

theorem metadata_round_trip_sample : ∃ (r₀ : Recorder) (header : FileHeader) (r : Recorder)
    (b : Bag), create .default = .ok r₀ ∧ finalize.run (r₀.after sampleCalls) = .ok header r ∧
      Bag.load "" .default r.tape.contents = .ok b ∧ b.header = header ∧
      b.connections = r.connections ∧ b.chunks.map Chunk.closed = r.chunks ∧
      List.Forall₂ (Chunk.Summarises r.tape.contents) b.chunks
        ((Account.start .default).after sampleCalls).close.chunks := by
  obtain ⟨r₀, header, r, hcreate, hrun, hconnections, hchunks, hsize⟩ := sample_finalized
  obtain ⟨b, hload, hheader, hconns, -, hclosed, -, -, hsummarises⟩ :=
    metadata_round_trip hcreate hrun (by omega) (by omega) (by omega) "" .default
  exact ⟨r₀, header, r, b, hcreate, hrun, hload, hheader, hconns, hclosed, hsummarises⟩

end Recorder

end BagFile
