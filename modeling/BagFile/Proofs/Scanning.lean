/-
  The contents of a chunk, record by record.

  * A `ChunkRecord` is the record of a connection or of a message.  `ChunkRecord.Parses` says that
    contents are such records one behind the other, from a position to the end;
  * `Batch.items` are the records of a chunk, each with its offset, and `Batch.parses` reads them
    out of its contents;
  * `Batch.index_perm`: the index of a chunk lists its messages, each once.
-/
import BagFile.Proofs.Opening
import BagFile.Proofs.RoundTrip
import Mathlib.Data.List.Perm.Basic

namespace BagFile

open Source

/-! ## Groups -/

/-- A list is its elements group by group, in some order. -/
theorem perm_grouped {α κ : Type} [DecidableEq κ] {keys : List κ} (hkeys : keys.Nodup) (key : α → κ)
    {xs : List α} (h : ∀ x ∈ xs, key x ∈ keys) :
    (keys.flatMap fun k => xs.filter (key · = k)).Perm xs := by
  induction keys generalizing xs with
  | nil =>
    rcases xs with - | ⟨x, xs⟩
    · exact .nil
    · cases h x List.mem_cons_self
  | cons k keys ih =>
    obtain ⟨hk, hkeys⟩ := List.nodup_cons.1 hkeys
    -- the other groups are those of the elements with other keys
    have hothers : (keys.flatMap fun k' => xs.filter (key · = k')) =
        keys.flatMap fun k' => (xs.filter (key · ≠ k)).filter (key · = k') := by
      refine List.flatMap_congr fun k' hk' => ?_
      rw [List.filter_filter]
      refine List.filter_congr fun x _ => ?_
      by_cases hx : key x = k'
      · have hne : k' ≠ k := fun he => hk (he ▸ hk')
        simp [hx, hne]
      · simp [hx]
    have hrest : ∀ x ∈ xs.filter (key · ≠ k), key x ∈ keys := by
      intro x hx
      obtain ⟨hx, hne⟩ := List.mem_filter.1 hx
      exact (List.mem_cons.1 (h x hx)).resolve_left (by simpa using hne)
    rw [List.flatMap_cons, hothers]
    refine ((ih hkeys hrest).append_left _).trans ?_
    simpa using List.filter_append_perm (fun x => decide (key x = k)) xs

/-! ## Records in chunks -/

/-- A record in the contents of a chunk. -/
inductive ChunkRecord where
  | connection (c : Connection)
  | message (m : RawMessage)
  deriving DecidableEq

namespace ChunkRecord

/-- The connection of a record. -/
def conn : ChunkRecord → UInt32
  | connection c => c.id
  | message m => m.conn

/-- The written form of a record. -/
def bytes : ChunkRecord → Bytes
  | connection c => c.blocks.flatten
  | message m => m.bytes

/-- A record whose lengths four bytes can hold. -/
def Fits : ChunkRecord → Prop
  | connection c => c.Fits
  | message m => m.data.size < 2 ^ 32

/-- Reads a record, which must be that of a connection or of a message. -/
def read : Cursor.Op ChunkRecord := do
  let block ← Fields.readCursor
  match ← MonadExcept.ofExcept block.kind with
  | .connection =>
    let inner ← Fields.readCursor
    return connection (← MonadExcept.ofExcept (Connection.ofBlocks block inner))
  | .messageData =>
    let header : MessageHeader ← MonadExcept.ofExcept (Header.ofFields block)
    let data ← Cursor.readSized
    return message ⟨header.conn, header.time, data⟩
  | actual => throw (.unexpectedKind .messageData actual)

/-- A record is read at a position of contents, and is there as it would be written. -/
structure StandsAt (contents : Dense) (x : ChunkRecord) (pos : Nat) : Prop where
  run : read.run ⟨contents, pos⟩ = .ok x ⟨contents, pos + x.bytes.length⟩
  bytes : x.bytes <+: contents.bytes.drop pos

/-- Contents are records from a position to the end, each behind the last; with each record goes
    its offset. -/
inductive Parses (contents : Dense) : Nat → List (Nat × ChunkRecord) → Prop
  | done : Parses contents contents.size []
  | record {pos x xs} : x.StandsAt contents pos → Parses contents (pos + x.bytes.length) xs →
      Parses contents pos ((pos, x) :: xs)

variable {contents : Dense} {pos : Nat}

theorem bytes_pos (x : ChunkRecord) : 0 < x.bytes.length := by
  cases x with
  | connection c =>
    rw [bytes, Connection.blocks, List.flatten_cons, List.length_append, Header.length_bytes]
    omega
  | message m =>
    rw [bytes, RawMessage.bytes, List.length_append, Header.length_bytes]
    omega

/-- **A record of a chunk is read as it was written.** -/
theorem reads (c : Cursor) {x : ChunkRecord} (h : x.Fits) : Reads c read x.bytes x := by
  cases x with
  | connection x =>
    have hheader := ConnectionHeader.readable h.1
    have hkind : (Header.toFields x.header).kind = .ok .connection := rfl
    have hdata := (Fields.reads_cursor (Source.move c (Header.bytes x.header).length)
      x.named_dataFields h.2).bind
        (k := fun inner =>
          MonadExcept.ofExcept (Connection.ofBlocks (Header.toFields x.header) inner) >>=
            fun c => pure (connection c))
        (Reads.check (Connection.ofBlocks_eq hheader.ofFields) (Reads.pure _ _))
    rw [List.append_nil] at hdata
    rw [bytes, Connection.blocks, List.flatten_cons, List.flatten_singleton]
    exact (Fields.reads_cursor c hheader.named hheader.fits).bind (k := fun block => _)
      (Reads.check hkind hdata)
  | message m =>
    have hheader := MessageHeader.readable m.header
    have hkind : (Header.toFields m.header).kind = .ok .messageData := rfl
    have hdata := (Cursor.reads_sized (Source.move c (Header.bytes m.header).length) h).bind
      (k := fun data => pure (message ⟨m.header.conn, m.header.time, data⟩)) (Reads.pure _ _)
    rw [List.append_nil] at hdata
    exact (Fields.reads_cursor c hheader.named hheader.fits).bind (k := fun block => _)
      (Reads.check hkind (Reads.check hheader.ofFields hdata))

theorem Fits.standsAt {x : ChunkRecord} (h : x.Fits) (hp : x.bytes <+: contents.bytes.drop pos) :
    x.StandsAt contents pos := ⟨reads ⟨contents, pos⟩ h hp, hp⟩

theorem Parses.offset_lt {xs : List (Nat × ChunkRecord)} (h : Parses contents pos xs) :
    ∀ x ∈ xs, x.1 < contents.size := by
  induction h with
  | done => simp
  | @record pos x xs hx _ ih =>
    refine List.forall_mem_cons.2 ⟨?_, ih⟩
    have hlength := hx.bytes.length_le
    have hpos := x.bytes_pos
    rw [List.length_drop, Dense.length_bytes] at hlength
    omega

/-- Records that stand one behind the other from a position on, each with its own position. -/
def placed : Nat → List ChunkRecord → List (Nat × ChunkRecord)
  | _, [] => []
  | pos, x :: xs => (pos, x) :: placed (pos + x.bytes.length) xs

theorem map_snd_placed (pos : Nat) (xs : List ChunkRecord) :
    (placed pos xs).map Prod.snd = xs := by
  induction xs generalizing pos with
  | nil => rfl
  | cons x xs ih => rw [placed, List.map_cons, ih]

theorem placed_append (pos : Nat) (xs ys : List ChunkRecord) : placed pos (xs ++ ys) =
    placed pos xs ++ placed (pos + (xs.flatMap bytes).length) ys := by
  induction xs generalizing pos with
  | nil => rfl
  | cons x xs ih =>
    rw [List.cons_append, placed, ih, placed, List.cons_append, List.flatMap_cons,
      List.length_append, ← Nat.add_assoc]

/-- **Records are read as they were written**, with nothing left over. -/
theorem parses_placed {xs : List ChunkRecord} (h : ∀ x ∈ xs, x.Fits) {front : Bytes}
    (hcontents : contents.bytes = front ++ xs.flatMap bytes) :
    Parses contents front.length (placed front.length xs) := by
  induction xs generalizing front with
  | nil =>
    have hend : front.length = contents.size := by
      rw [← Dense.length_bytes, hcontents, List.flatMap_nil, List.append_nil]
    rw [hend]
    exact .done
  | cons x xs ih =>
    obtain ⟨hx, hxs⟩ := List.forall_mem_cons.1 h
    rw [List.flatMap_cons] at hcontents
    have hprefix : x.bytes <+: contents.bytes.drop front.length := by
      rw [hcontents, List.drop_left]
      exact List.prefix_append _ _
    refine .record (hx.standsAt hprefix) ?_
    have hsplit : contents.bytes = (front ++ x.bytes) ++ xs.flatMap bytes := by
      rw [hcontents, List.append_assoc]
    have hrest := ih hxs hsplit
    rwa [List.length_append] at hrest

/-- What the index should say of a record at an offset: nothing of a connection's. -/
def row? (x : Nat × ChunkRecord) : Option (Nat × UInt32 × Time) :=
  match x.2 with
  | connection _ => none
  | message m => some (x.1, m.conn, m.time)

@[simp] theorem row?_connection (pos : Nat) (c : Connection) : row? (pos, connection c) = none :=
  rfl

@[simp] theorem row?_message (pos : Nat) (m : RawMessage) :
    row? (pos, message m) = some (pos, m.conn, m.time) := rfl

theorem fst_of_row? {x : Nat × ChunkRecord} {row : Nat × UInt32 × Time} (h : row? x = some row) :
    row.1 = x.1 := by
  rcases x with ⟨pos, c | m⟩
  · cases h
  · cases h
    rfl

end ChunkRecord

/-! ## Chunks -/

namespace Note

/-- The records that a message adds to a chunk. -/
def records (n : Note) : List ChunkRecord :=
  n.preface.toList.map .connection ++ [.message n.message]

theorem bytes_records (n : Note) : n.records.flatMap ChunkRecord.bytes = n.bytes := by
  have hfront : (n.preface.toList.map .connection).flatMap ChunkRecord.bytes = n.front.flatten := by
    rw [List.flatMap_map, front, flatten_flatMap]
    rfl
  rw [records, List.flatMap_append, hfront, List.flatMap_singleton, n.bytes_eq]
  rfl

/-- What the index should say of the records of a message: where the message's own starts. -/
theorem filterMap_placed_records (n : Note) (pos : Nat) :
    (ChunkRecord.placed pos n.records).filterMap ChunkRecord.row? =
      [(pos + n.lead, n.message.conn, n.message.time)] := by
  rw [records, ChunkRecord.placed_append, lead, front]
  rcases n.preface with - | c
  · rfl
  · simp [ChunkRecord.placed, ChunkRecord.bytes, List.filterMap_cons]

theorem filterMap_placed (ns : List Note) {pos : Nat}
    (hpos : pos + (ns.flatMap bytes).length < 2 ^ 32) :
    (ChunkRecord.placed pos (ns.flatMap records)).filterMap ChunkRecord.row? =
      (Batch.rowsFrom pos ns).map fun row => (row.2.2.toNat, row.1, row.2.1) := by
  induction ns generalizing pos with
  | nil => rfl
  | cons n ns ih =>
    rw [List.flatMap_cons, List.length_append, ← Nat.add_assoc] at hpos
    have hlead : pos + n.lead < 2 ^ 32 := by
      rw [n.bytes_eq, List.length_append] at hpos
      rw [lead]
      omega
    rw [List.flatMap_cons, ChunkRecord.placed_append, n.bytes_records, List.filterMap_append,
      n.filterMap_placed_records, ih hpos, Batch.rowsFrom, List.map_cons,
      UInt32.toNat_ofNat_of_lt' hlead]
    rfl

end Note

namespace Batch

/-- The records of the chunk. -/
def records (b : Batch) : List ChunkRecord := b.notes.flatMap Note.records

/-- The records of the chunk, each with its offset. -/
def items (b : Batch) : List (Nat × ChunkRecord) := ChunkRecord.placed 0 b.records

theorem bytes_records (b : Batch) : b.records.flatMap ChunkRecord.bytes = b.contents := by
  rw [records, List.flatMap_assoc, contents]
  exact List.flatMap_congr fun n _ => n.bytes_records

/-- The contents of a chunk are its records. -/
theorem parses (b : Batch) (hsize : b.contents.length < 2 ^ 32)
    (hprefaces : ∀ n ∈ b.notes, ∀ c ∈ n.preface, c.Fits) :
    ChunkRecord.Parses (.ofBytes b.contents) 0 b.items := by
  have hcontents : (Dense.ofBytes b.contents).bytes =
      [] ++ b.records.flatMap ChunkRecord.bytes := by
    rw [Dense.bytes_ofBytes, b.bytes_records, List.nil_append]
  refine ChunkRecord.parses_placed (fun x hx => ?_) hcontents
  obtain ⟨n, hn, hxn⟩ := List.mem_flatMap.1 hx
  rcases List.mem_append.1 hxn with hc | hm
  · obtain ⟨c, hpreface, rfl⟩ := List.mem_map.1 hc
    exact hprefaces n hn c (Option.mem_toList.1 hpreface)
  · -- a message is no longer than the contents
    obtain rfl := List.mem_singleton.1 hm
    obtain ⟨front, after, hsplit⟩ := List.append_of_mem hx
    have hlength := congrArg List.length b.bytes_records
    rw [hsplit, List.flatMap_append, List.flatMap_cons, List.length_append, List.length_append,
      ChunkRecord.bytes, RawMessage.bytes, List.length_append, Bytes.length_sized,
      Dense.length_bytes] at hlength
    show n.message.data.size < 2 ^ 32
    omega

/-- The rows of a chunk are those of its messages' records. -/
theorem filterMap_items (b : Batch) (hsize : b.contents.length < 2 ^ 32) :
    b.items.filterMap ChunkRecord.row? =
      b.rows.map fun row => (row.2.2.toNat, row.1, row.2.1) :=
  Note.filterMap_placed b.notes (by rw [Nat.zero_add]; exact hsize)

/-- **The index of a chunk lists its messages**, each once. -/
theorem index_perm [Codec.Formats] (b : Batch) :
    (b.stored.index.flatMap fun x => x.2.map fun row => (x.1, row)).Perm b.rows := by
  have hkeys : (b.stored.index.map Prod.fst).Nodup := b.index_ascending.imp UInt32.ne_of_lt
  have hmem : ∀ row ∈ b.rows, row.1 ∈ b.stored.index.map Prod.fst := by
    intro row hrow
    rw [mem_index, ← map_fst_rows]
    exact List.mem_map_of_mem hrow
  have hgroup : ∀ conn, ((b.listed conn).map fun row => (conn, row)).Perm
      (b.rows.filter (·.1 = conn)) := by
    intro conn
    refine ((List.mergeSort_perm _ _).map _).trans ?_
    rw [rowsOf, List.map_map]
    refine List.Perm.of_eq ((List.map_congr_left fun row hrow => ?_).trans (List.map_id _))
    have hconn : row.1 = conn := by simpa using (List.mem_filter.1 hrow).2
    rw [← hconn]
    rfl
  rw [index_eq, List.flatMap_map]
  refine (List.Perm.flatMap_left _ fun conn _ => hgroup conn).trans ?_
  exact perm_grouped hkeys Prod.fst hmem

end Batch

end BagFile
