/-
  What holds of every bag that was opened, whatever the file.

  * `IndexRecord.StandsAt`: an index record as it is read at a position of a file;
    `IndexRecord.Stand` are several of them, each behind the last, and `Chunk.Lists` those behind
    a chunk;
  * `Bag.Reflects`: the tables are as long as the header says, the chunks are in order, and the
    index is made of the records behind the chunks;
  * `Bag.reflects_of_load`: a bag that was opened reflects its file.
-/
import BagFile.Codec.InMemory
import BagFile.Proofs.Counting
import BagFile.Proofs.Resolving
import BagFile.Proofs.Selection

namespace BagFile

/-! ## Streams over a file -/

/-- The stream of a file at a position. -/
def Stream.inFile (contents : Contents) (pos : Nat) : Stream :=
  { Stream.ofFile contents with pos := pos }

variable {contents : Contents}

theorem Stream.Over.eq_inFile {s : Stream} (h : s.Over contents) : s = inFile contents s.pos :=
  h.ext ⟨rfl, rfl⟩ rfl

namespace Stream

theorem keeps_seek (pos : Nat) : Keeps (Over · contents) (seek pos) := by
  intro s a s' h hs
  rw [EStateM.run, seek] at h
  split at h
  · cases h
  · cases h
    exact hs

theorem Over.of_seek {s s' : Stream} {pos : Nat} {u : Unit} (hs : s.Over contents)
    (h : (seek pos).run s = .ok u s') : s' = inFile contents pos := by
  rw [EStateM.run, seek] at h
  split at h
  · cases h
  · cases h
    exact Over.ext ⟨hs.1, hs.2⟩ ⟨rfl, rfl⟩ rfl

theorem keeps_position : Keeps (Over · contents) position := by
  intro s a s' h hs
  cases h
  exact hs

theorem keeps_readWord {α : Type} [Word α] : Keeps (Over · contents) (readWord : Op α) := by
  intro s a s' h hs
  rw [EStateM.run, readWord] at h
  split at h
  · cases h
    exact hs
  · cases h

theorem keeps_readBody (n : Nat) : Keeps (Over · contents) (readBody n) := by
  intro s a s' h hs
  rw [EStateM.run, readBody] at h
  split at h
  · cases h
  · cases h
    exact hs

theorem keeps_readSized : Keeps (Over · contents) readSized :=
  keeps_readWord.bind fun _ => keeps_readBody _

theorem keeps_skipSized : Keeps (Over · contents) skipSized := by
  refine keeps_readWord.bind fun len => ?_
  refine keeps_position.bind fun pos => ?_
  exact (keeps_seek _).bind fun _ => Keeps.pure _

theorem keeps_readThrough (stop : UInt8) (limit : Nat) :
    Keeps (Over · contents) (readThrough stop limit) := by
  intro s a s' h hs
  cases h
  exact hs

end Stream

open BagFile.Stream

theorem Fields.keeps_read : Keeps (Over · contents) Fields.read :=
  keeps_readSized.bind fun _ => Keeps.ofExcept _

theorem Fields.keeps_readExpecting (kind : Kind) :
    Keeps (Over · contents) (Fields.readExpecting kind) := by
  refine Fields.keeps_read.bind fun f => ?_
  exact (Keeps.ofExcept _).bind fun _ => Keeps.pure _

theorem Header.keeps_read {α : Type} [Header α] :
    Keeps (Over · contents) (Header.read : Stream.Op α) :=
  (Fields.keeps_readExpecting _).bind fun _ => Keeps.ofExcept _

theorem Connection.keeps_read : Keeps (Over · contents) Connection.read := by
  refine (Fields.keeps_readExpecting _).bind fun outer => ?_
  exact Fields.keeps_read.bind fun inner => Keeps.ofExcept _

namespace Bag

theorem keeps_readMany {α : Type} {op : Stream.Op α} (h : Keeps (Over · contents) op) (n : Nat) :
    Keeps (Over · contents) (readMany op n) := by
  induction n with
  | zero => exact Keeps.pure _
  | succ n ih => exact h.bind fun _ => ih.bind fun _ => Keeps.pure _

theorem length_readMany {α : Type} {op : Stream.Op α} {n : Nat} {s s' : Stream} {as : List α}
    (h : (readMany op n).run s = .ok as s') : as.length = n := by
  induction n generalizing s as with
  | zero =>
    cases h
    rfl
  | succ n ih =>
    obtain ⟨a, s₁, -, hrest⟩ := run_bind_eq_ok h
    obtain ⟨rest, s₂, hmany, hpure⟩ := run_bind_eq_ok hrest
    cases hpure
    rw [List.length_cons, ih hmany]

theorem keeps_readVersion : Keeps (Over · contents) readVersion := by
  refine (keeps_readThrough _ _).bind fun line => ?_
  exact Keeps.refuse (Keeps.pure _)

theorem keeps_readChunk : Keeps (Over · contents) readChunk := by
  refine Header.keeps_read.bind fun info => ?_
  refine keeps_readSized.bind fun data => ?_
  refine Keeps.refuse ?_
  refine keeps_position.bind fun resume => ?_
  refine (keeps_seek _).bind fun _ => ?_
  refine Header.keeps_read.bind fun chunk => ?_
  refine keeps_position.bind fun dataPos => ?_
  refine keeps_readWord.bind fun size => ?_
  exact (keeps_seek _).bind fun _ => Keeps.pure _

end Bag

/-! ## Index records -/

/-- An index record: its header, and the time and offset of each of its entries. -/
structure IndexRecord where
  header : IndexHeader
  rows : List (Time × UInt32)

namespace IndexRecord

/-- An index record is read at a position of a file, and ends at another. -/
def StandsAt (contents : Contents) (x : IndexRecord) (pos stop : Nat) : Prop :=
  ∃ s data s', Header.read.run (inFile contents pos) = .ok x.header s ∧
    readSized.run s = .ok data s' ∧ s'.pos = stop ∧
      data.size = x.header.count.toNat * Table.indexWidth ∧ x.rows = Table.indexRows data

/-- Index records from one position of a file to another, each behind the last. -/
inductive Stand (contents : Contents) : Nat → List IndexRecord → Nat → Prop
  | nil {pos} : Stand contents pos [] pos
  | cons {x xs pos mid stop} : x.StandsAt contents pos mid → Stand contents mid xs stop →
      Stand contents pos (x :: xs) stop

/-- The entries of an index record behind the chunk at a position. -/
def entries (chunkPos : UInt64) (x : IndexRecord) : List (UInt32 × Entry) :=
  x.rows.map fun row => (x.header.conn, ⟨row.1, chunkPos, row.2⟩)

theorem StandsAt.length_rows {x : IndexRecord} {pos stop : Nat}
    (h : x.StandsAt contents pos stop) : x.rows.length = x.header.count.toNat := by
  obtain ⟨s, data, s', -, -, -, hsize, hrows⟩ := h
  rw [hrows, Table.indexRows, Table.rows, List.length_map, List.length_range, hsize]
  exact Nat.mul_div_cancel _ (by decide)

theorem Stand.length_rows {xs : List IndexRecord} {pos stop : Nat}
    (h : Stand contents pos xs stop) : ∀ x ∈ xs, x.rows.length = x.header.count.toNat := by
  induction h with
  | nil =>
    intro x hx
    cases hx
  | cons hx _ ih =>
    intro y hy
    rcases List.mem_cons.1 hy with rfl | hy
    · exact hx.length_rows
    · exact ih y hy

/-- A position has one record at most. -/
theorem StandsAt.unique {x y : IndexRecord} {pos stop stop' : Nat}
    (hx : x.StandsAt contents pos stop) (hy : y.StandsAt contents pos stop') :
    x = y ∧ stop = stop' := by
  obtain ⟨s, data, s', hheader, hdata, hstop, -, hrows⟩ := hx
  obtain ⟨t, data', t', hheader', hdata', hstop', -, hrows'⟩ := hy
  rw [hheader] at hheader'
  obtain ⟨hh, hs⟩ := EStateM.Result.ok.inj hheader'
  rw [← hs, hdata] at hdata'
  obtain ⟨hd, hs'⟩ := EStateM.Result.ok.inj hdata'
  constructor
  · cases x
    cases y
    simp only at hh hrows hrows'
    rw [hh, hrows, hrows', hd]
  · rw [← hstop, ← hstop', hs']

theorem Stand.unique {xs ys : List IndexRecord} {pos stop stop' : Nat}
    (hxs : Stand contents pos xs stop) (hys : Stand contents pos ys stop')
    (hl : xs.length = ys.length) : xs = ys := by
  induction hxs generalizing ys stop' with
  | nil => exact (List.length_eq_zero_iff.1 hl.symm).symm
  | cons hx _ ih =>
    cases hys with
    | nil => cases hl
    | cons hy hrest =>
      obtain ⟨rfl, rfl⟩ := hx.unique hy
      rw [ih hrest (Nat.succ.inj hl)]

end IndexRecord

/-- Moves past the header and the data of a record. -/
def Stream.skipRecord : Stream.Op Unit := do
  let _ ← skipSized
  let _ ← skipSized

/-- The index records of a chunk are those behind its record, one for each of its connections. -/
def Chunk.Lists (contents : Contents) (chunk : Chunk) (xs : List IndexRecord) : Prop :=
  xs.length = chunk.connections.length ∧ ∃ s stop,
    skipRecord.run (inFile contents chunk.recordPos.toNat) = .ok ⟨⟩ s ∧
      IndexRecord.Stand contents s.pos xs stop

theorem Chunk.Lists.unique {chunk : Chunk} {xs ys : List IndexRecord}
    (hxs : chunk.Lists contents xs) (hys : chunk.Lists contents ys) : xs = ys := by
  obtain ⟨hl, s, stop, hskip, hstand⟩ := hxs
  obtain ⟨hl', s', stop', hskip', hstand'⟩ := hys
  rw [hskip] at hskip'
  obtain ⟨-, hs⟩ := EStateM.Result.ok.inj hskip'
  subst hs
  exact hstand.unique hstand' (hl.trans hl'.symm)

/-- The entries of the index records of some chunks, in the order in which they are read. -/
def rowsRead (listing : List (Chunk × List IndexRecord)) : List (UInt32 × Entry) :=
  listing.flatMap fun x => x.2.flatMap (IndexRecord.entries x.1.recordPos)

namespace Bag

variable {conns : List UInt32} {s s' : Stream}

theorem of_readIndexRecord (hs : s.Over contents) {pos : UInt64} {rows : List (UInt32 × Entry)}
    (h : (readIndexRecord conns pos).run s = .ok rows s') :
    s'.Over contents ∧ ∃ x : IndexRecord, x.StandsAt contents s.pos s'.pos ∧
      x.header.conn ∈ conns ∧ rows = x.entries pos := by
  obtain ⟨header, s₁, hheader, h₁⟩ := run_bind_eq_ok h
  obtain ⟨hknown, h₂⟩ := run_refuse_eq_ok h₁
  obtain ⟨data, s₂, hdata, h₃⟩ := run_bind_eq_ok h₂
  obtain ⟨hsize, h₄⟩ := run_refuse_eq_ok h₃
  cases h₄
  -- a stream over the file is known by its position
  have hover := keeps_readSized _ _ _ hdata (Header.keeps_read _ _ _ hheader hs)
  rw [hs.eq_inFile] at hheader
  refine ⟨hover, ⟨header, Table.indexRows data⟩, ?_, ?_, rfl⟩
  · exact ⟨s₁, data, _, hheader, hdata, rfl, not_not.1 hsize, rfl⟩
  · simpa using hknown

theorem of_readIndexRecords (hs : s.Over contents) {pos : UInt64} {n : Nat}
    {records : List (List (UInt32 × Entry))}
    (h : (readMany (readIndexRecord conns pos) n).run s = .ok records s') :
    s'.Over contents ∧ ∃ xs : List IndexRecord, IndexRecord.Stand contents s.pos xs s'.pos ∧
      xs.length = n ∧ (∀ x ∈ xs, x.header.conn ∈ conns) ∧
        records.flatten = xs.flatMap (IndexRecord.entries pos) := by
  induction n generalizing s records with
  | zero =>
    cases h
    exact ⟨hs, [], .nil, rfl, by simp, rfl⟩
  | succ n ih =>
    obtain ⟨rows, s₁, hrecord, h₁⟩ := run_bind_eq_ok h
    obtain ⟨rest, s₂, hmany, h₂⟩ := run_bind_eq_ok h₁
    cases h₂
    obtain ⟨hs₁, x, hx, hconn, hrows⟩ := of_readIndexRecord hs hrecord
    obtain ⟨hs₂, xs, hxs, hlength, hconns, hrest⟩ := ih hs₁ hmany
    refine ⟨hs₂, x :: xs, .cons hx hxs, ?_, ?_, ?_⟩
    · rw [List.length_cons, hlength]
    · exact List.forall_mem_cons.2 ⟨hconn, hconns⟩
    · rw [List.flatten_cons, hrows, hrest, List.flatMap_cons]

theorem of_readChunkIndex (hs : s.Over contents) {chunk : Chunk} {rows : List (UInt32 × Entry)}
    (h : (readChunkIndex conns chunk).run s = .ok rows s') :
    s'.Over contents ∧ ∃ xs, chunk.Lists contents xs ∧ (∀ x ∈ xs, x.header.conn ∈ conns) ∧
      rows = xs.flatMap (IndexRecord.entries chunk.recordPos) := by
  obtain ⟨u, s₁, hseek, h₁⟩ := run_bind_eq_ok h
  obtain ⟨n, s₂, hheader, h₂⟩ := run_bind_eq_ok h₁
  obtain ⟨m, s₃, hdata, h₃⟩ := run_bind_eq_ok h₂
  obtain ⟨records, s₄, hmany, h₄⟩ := run_bind_eq_ok h₃
  cases h₄
  have hs₁ := keeps_seek _ _ _ _ hseek hs
  have hs₃ := keeps_skipSized _ _ _ hdata (keeps_skipSized _ _ _ hheader hs₁)
  obtain ⟨hs₄, xs, hxs, hlength, hconns, hrows⟩ := of_readIndexRecords hs₃ hmany
  refine ⟨hs₄, xs, ⟨hlength, s₃, s'.pos, ?_, hxs⟩, hconns, hrows⟩
  rw [← hs.of_seek hseek, skipRecord, EStateM.run_bind, hheader]
  simp only [EStateM.run_bind, hdata]
  rfl

/-- The index of each chunk, one chunk after the other. -/
theorem of_readIndexes {chunks : List Chunk} (hs : s.Over contents)
    {rows : List (List (UInt32 × Entry))}
    (h : (chunks.mapM (readChunkIndex conns)).run s = .ok rows s') :
    ∃ listing, listing.map Prod.fst = chunks ∧ (∀ x ∈ listing, x.1.Lists contents x.2) ∧
      (∀ x ∈ listing, ∀ y ∈ x.2, y.header.conn ∈ conns) ∧ rows.flatten = rowsRead listing := by
  induction chunks generalizing s rows with
  | nil =>
    cases h
    exact ⟨[], rfl, by simp, by simp, rfl⟩
  | cons chunk chunks ih =>
    rw [List.mapM_cons] at h
    obtain ⟨first, s₁, hfirst, h₁⟩ := run_bind_eq_ok h
    obtain ⟨rest, s₂, hrest, h₂⟩ := run_bind_eq_ok h₁
    cases h₂
    obtain ⟨hs₁, xs, hlists, hconns, hrows⟩ := of_readChunkIndex hs hfirst
    obtain ⟨listing, hfst, hall, hknown, hflatten⟩ := ih hs₁ hrest
    refine ⟨(chunk, xs) :: listing, ?_, ?_, ?_, ?_⟩
    · rw [List.map_cons, hfst]
    · exact List.forall_mem_cons.2 ⟨hlists, hall⟩
    · exact List.forall_mem_cons.2 ⟨hconns, hknown⟩
    · rw [List.flatten_cons, hflatten, hrows]
      rfl

/-! ## Opened bags -/

theorem keeps_readFront : Keeps (Over · contents) readFront := by
  refine keeps_readVersion.bind fun _ => ?_
  refine Header.keeps_read.bind fun header => ?_
  exact keeps_skipSized.bind fun _ => Keeps.pure _

theorem of_readTables {n m : Nat} {connections : List Connection} {chunks : List Chunk}
    (hs : s.Over contents) (h : (readTables n m).run s = .ok (connections, chunks) s') :
    s'.Over contents ∧ connections.length = n ∧ chunks.length = m := by
  obtain ⟨conns, s₁, hconns, h₁⟩ := run_bind_eq_ok h
  obtain ⟨cs, s₂, hchunks, h₂⟩ := run_bind_eq_ok h₁
  cases h₂
  have hs₁ := keeps_readMany Connection.keeps_read _ _ _ _ hconns hs
  have hs₂ := keeps_readMany keeps_readChunk _ _ _ _ hchunks hs₁
  exact ⟨hs₂, length_readMany hconns, length_readMany hchunks⟩

theorem sortChunks_byKey : ByKey (fun a b : Chunk => decide (a.recordPos ≤ b.recordPos))
    fun c => c.recordPos.toNat := by
  intro a b
  rw [decide_eq_true_eq]
  exact UInt64.le_iff_toNat_le

theorem ordered_sortChunks (chunks : List Chunk) : Chunk.Ordered (sortChunks chunks) := by
  refine (sortChunks_byKey.pairwise_mergeSort chunks).imp fun h => ?_
  exact UInt64.le_iff_toNat_le.2 h

/-- What a bag says is what stands in its file, where `listing` has the index records of each
    chunk. -/
structure Reflects [Codec.Formats] (b : Bag) (contents : Contents)
    (listing : List (Chunk × List IndexRecord)) : Prop where
  /-- the header is that of the file, and the tables are those at its position -/
  header : ∃ s, readFront.run (Stream.ofFile contents) = .ok b.header s
  tables : ∃ chunks s, (readTables b.header.connCount.toNat b.header.chunkCount.toNat).run
    (inFile contents b.header.indexPos.toNat) = .ok (b.connections, chunks) s ∧
      b.chunks = sortChunks chunks
  connections_length : b.connections.length = b.header.connCount.toNat
  chunks_length : b.chunks.length = b.header.chunkCount.toNat
  ordered : Chunk.Ordered b.chunks
  /-- the index records are those behind each chunk, chunk by chunk -/
  chunks_eq : listing.map Prod.fst = b.chunks
  lists : ∀ x ∈ listing, x.1.Lists contents x.2
  /-- a connection is in the index if it has entries, which are then in order of time -/
  entries?_eq_none : ∀ conn, b.index.entries? conn = none ↔
    Index.entriesOf conn (rowsRead listing) = []
  entries?_eq_some : ∀ conn es, b.index.entries? conn = some es →
    es = Entry.sort (Index.entriesOf conn (rowsRead listing))
  known : ∀ conn ∈ b.index.connections, conn ∈ b.connections.map Connection.id
  /-- every entry is in a chunk of the table, which is found there -/
  placed : ∀ l ∈ b.index.lists, ∀ e ∈ l.2, ∃ c ∈ b.chunks, c.recordPos = e.chunkPos
  resolved : ∀ l ∈ b.index.lists, ∀ e ∈ l.2, ∀ source,
    FailsWith Error.Elsewhere (Fetcher.resolve source b.chunks e)
  messageCount_eq : b.messageCount =
    ((listing.flatMap Prod.snd).map fun x => x.header.count.toNat).sum

theorem mem_rowsRead {listing : List (Chunk × List IndexRecord)} {row : UInt32 × Entry}
    (h : row ∈ rowsRead listing) : ∃ x ∈ listing, ∃ y ∈ x.2, row.1 = y.header.conn ∧
      row.2.chunkPos = x.1.recordPos := by
  obtain ⟨x, hx, hrow⟩ := List.mem_flatMap.1 h
  obtain ⟨y, hy, hrow⟩ := List.mem_flatMap.1 hrow
  obtain ⟨r, -, rfl⟩ := List.mem_map.1 hrow
  exact ⟨x, hx, y, hy, rfl, rfl⟩

/-- There are as many rows as the headers of the index records say. -/
theorem length_rowsRead {listing : List (Chunk × List IndexRecord)}
    (h : ∀ x ∈ listing, x.1.Lists contents x.2) : (rowsRead listing).length =
      ((listing.flatMap Prod.snd).map fun x => x.header.count.toNat).sum := by
  induction listing with
  | nil => rfl
  | cons x listing ih =>
    obtain ⟨hx, hrest⟩ := List.forall_mem_cons.1 h
    obtain ⟨-, s, stop, -, hstand⟩ := hx
    have hone : (x.2.flatMap (IndexRecord.entries x.1.recordPos)).length =
        (x.2.map fun x => x.header.count.toNat).sum := by
      rw [List.length_flatMap]
      refine congrArg List.sum (List.map_congr_left fun y hy => ?_)
      rw [IndexRecord.entries, List.length_map, hstand.length_rows y hy]
    have hcons : rowsRead (x :: listing) =
        x.2.flatMap (IndexRecord.entries x.1.recordPos) ++ rowsRead listing := rfl
    rw [hcons, List.length_append, hone, ih hrest, List.flatMap_cons, List.map_append,
      List.sum_append]

section
variable [Codec.Formats]

/-- Chunks have one listing at most. -/
theorem Reflects.unique {b : Bag} {listing listing' : List (Chunk × List IndexRecord)}
    (h : b.Reflects contents listing) (h' : b.Reflects contents listing') :
    listing = listing' := by
  refine List.ext_getElem ?_ fun i hi hi' => ?_
  · rw [← List.length_map Prod.fst, h.chunks_eq, ← h'.chunks_eq, List.length_map]
  · have hchunk : listing[i].1 = listing'[i].1 := by
      have := congrArg (·[i]?) (h.chunks_eq.trans h'.chunks_eq.symm)
      simpa [hi, hi'] using this
    refine Prod.ext hchunk ?_
    have hlists := h'.lists _ (List.getElem_mem hi')
    rw [← hchunk] at hlists
    exact (h.lists _ (List.getElem_mem hi)).unique hlists

theorem exists_reflects {b : Bag} {path : String} {settings : Settings}
    (h : load path settings contents = .ok b) : ∃ listing, b.Reflects contents listing := by
  obtain ⟨chunks, rows, s₁, s₂, s₃, s₄, hfront, hseek, htables, hsort, hrows, hbuild⟩ := of_load h
  have hs₁ : s₁.Over contents := keeps_readFront _ _ _ hfront ⟨rfl, rfl⟩
  obtain ⟨hs₃, hconnections, hchunks⟩ := of_readTables (keeps_seek _ _ _ _ hseek hs₁) htables
  obtain ⟨listing, hfst, hlists, hknown, hflatten⟩ := of_readIndexes hs₃ hrows
  rw [hs₁.of_seek hseek] at htables
  have hindex : b.index = Index.ofRows (rowsRead listing) := by
    rw [hbuild, Index.build_eq, hflatten]
  have hordered : Chunk.Ordered b.chunks := by
    rw [hsort]
    exact ordered_sortChunks chunks
  have hplaced : ∀ l ∈ b.index.lists, ∀ e ∈ l.2, ∃ c ∈ b.chunks, c.recordPos = e.chunkPos := by
    intro l hl e he
    rw [hindex] at hl
    rw [(Index.mem_ofRows.1 hl).2, Entry.sort, List.mem_mergeSort] at he
    obtain ⟨row, hrow, rfl⟩ := List.mem_map.1 he
    obtain ⟨x, hx, -, -, -, hpos⟩ := mem_rowsRead (List.mem_of_mem_filter hrow)
    exact ⟨x.1, hfst ▸ List.mem_map_of_mem hx, hpos.symm⟩
  refine ⟨listing, ?_⟩
  exact {
    header := ⟨s₁, hfront⟩
    tables := ⟨chunks, s₃, htables, hsort⟩
    connections_length := hconnections
    chunks_length := by rw [hsort, sortChunks, List.length_mergeSort, hchunks]
    ordered := hordered
    chunks_eq := hfst
    lists := hlists
    entries?_eq_none := by
      intro conn
      rw [hindex, Index.entries?_ofRows, Index.entriesOf_eq_nil_iff]
      simp
    entries?_eq_some := by
      intro conn es hes
      rw [hindex, Index.entries?_ofRows, Option.ite_none_right_eq_some] at hes
      exact (Option.some.inj hes.2).symm
    known := by
      intro conn hconn
      rw [hindex, Index.mem_connections_ofRows] at hconn
      obtain ⟨row, hrow, rfl⟩ := List.mem_map.1 hconn
      obtain ⟨x, hx, y, hy, hconn, -⟩ := mem_rowsRead hrow
      rw [hconn]
      exact hknown x hx y hy
    placed := hplaced
    resolved := fun l hl e he source =>
      Fetcher.resolve_elsewhere hordered (hplaced l hl e he) source
    messageCount_eq := by
      rw [messageCount, hindex, Index.messageCount_ofRows]
      exact length_rowsRead hlists }

/-- **A bag that was opened reflects its file.**  Its tables are those of the file, as long as the
    header says; its index has the entries of the index records behind the chunks, each list
    stably sorted by time and none empty, for connections and chunks of the tables only. -/
theorem reflects_of_load {b : Bag} {path : String} {settings : Settings}
    (h : load path settings contents = .ok b) : ∃! listing, b.Reflects contents listing := by
  obtain ⟨listing, hlisting⟩ := exists_reflects h
  exact ⟨listing, hlisting, fun listing' h' => h'.unique hlisting⟩

end

theorem reflects_of_load_misfiled : ∃ b, load "" .default Image.misfiled.file = .ok b ∧
    ∃! listing, b.Reflects Image.misfiled.file listing := by
  have hload := load_image "" .default Image.misfiled_loadable Image.misfiled.bytes_file
  exact ⟨_, hload, reflects_of_load hload⟩

end Bag

end BagFile
