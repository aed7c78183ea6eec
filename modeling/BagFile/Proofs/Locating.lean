/-
  Where the messages of a recording are in its file.

  * `Account.locate`: the messages of some chunks in the order in which they were recorded, each
    with the entry that stands for it;
  * `Batch.mem_located`: at the offset of the entry stands the record of the message;
  * `Account.sort_entriesOf_rows`: by connection, the rows in the file are these entries, each
    list by time.
-/
import BagFile.Proofs.Bookkeeping
import BagFile.Proofs.Retrieval
import BagFile.Proofs.Selection

namespace BagFile

/-- Of a list without repetitions one element is taken. -/
theorem flatMap_ite_eq {α β : Type} [DecidableEq α] {cs : List α} (h : cs.Nodup) (k : α)
    (l : List β) : (cs.flatMap fun c => if c = k then l else []) = if k ∈ cs then l else [] := by
  induction cs with
  | nil => rfl
  | cons c cs ih =>
    obtain ⟨hc, hcs⟩ := List.nodup_cons.1 h
    rw [List.flatMap_cons, ih hcs]
    by_cases hk : c = k
    · subst hk
      simp [hc]
    · simp [hk, Ne.symm hk]

/-- The entry of a row in a chunk at a position. -/
def Entry.ofRow (pos : Nat) (row : Time × UInt32) : Entry := ⟨row.1, UInt64.ofNat pos, row.2⟩

/-- A message that was located, as a row of the index. -/
def RawMessage.filed (x : RawMessage × Entry) : UInt32 × Entry := (x.1.conn, x.2)

namespace Batch

/-- The messages of a chunk at a position, when so many bytes of contents are in front. -/
def locatedFrom (pos : Nat) : Nat → List Note → List (RawMessage × Entry)
  | _, [] => []
  | off, n :: ns =>
    (n.message, .ofRow pos (n.message.time, UInt32.ofNat (off + n.lead))) ::
      locatedFrom pos (off + n.bytes.length) ns

/-- The messages of a chunk at a position. -/
def located (pos : Nat) (b : Batch) : List (RawMessage × Entry) := locatedFrom pos 0 b.notes

theorem map_fst_located (pos : Nat) (b : Batch) : (b.located pos).map Prod.fst = b.messages := by
  have hfrom : ∀ off ns, (locatedFrom pos off ns).map Prod.fst = ns.map Note.message := by
    intro off ns
    induction ns generalizing off with
    | nil => rfl
    | cons n ns ih => rw [locatedFrom, List.map_cons, ih, List.map_cons]
  exact hfrom 0 b.notes

theorem map_filed_located (pos : Nat) (b : Batch) :
    (b.located pos).map RawMessage.filed = b.rows.map fun row => (row.1, .ofRow pos row.2) := by
  have hfrom : ∀ off ns, (locatedFrom pos off ns).map RawMessage.filed =
      (rowsFrom off ns).map fun row => (row.1, .ofRow pos row.2) := by
    intro off ns
    induction ns generalizing off with
    | nil => rfl
    | cons n ns ih =>
      rw [locatedFrom, List.map_cons, ih, rowsFrom, List.map_cons]
      rfl
  exact hfrom 0 b.notes

theorem time_located {pos : Nat} {b : Batch} : ∀ x ∈ b.located pos, x.2.time = x.1.time := by
  have hfrom : ∀ off ns, ∀ x ∈ locatedFrom pos off ns, x.2.time = x.1.time := by
    intro off ns
    induction ns generalizing off with
    | nil => simp [locatedFrom]
    | cons n ns ih =>
      rintro x hx
      rcases List.mem_cons.1 hx with rfl | hx
      · rfl
      · exact ih _ x hx
  exact hfrom 0 b.notes

/-- The rows of a connection. -/
def rowsOf (b : Batch) (conn : UInt32) : List (Time × UInt32) :=
  (b.rows.filter (·.1 = conn)).map Prod.snd

/-- The rows of a connection by time. -/
def listed (b : Batch) (conn : UInt32) : List (Time × UInt32) :=
  (b.rowsOf conn).mergeSort fun r s => r.1 ≤ s.1

theorem index_eq [Codec.Formats] (b : Batch) :
    b.stored.index = (b.stored.index.map Prod.fst).map fun c => (c, b.listed c) := by
  simp only [stored, Recorder.indexOf, List.map_map]
  rfl

theorem rowsOf_eq_nil [Codec.Formats] {b : Batch} {conn : UInt32}
    (h : conn ∉ b.stored.index.map Prod.fst) : b.rowsOf conn = [] := by
  rw [mem_index, ← map_fst_rows] at h
  rw [rowsOf, List.map_eq_nil_iff, List.filter_eq_nil_iff]
  intro row hrow he
  rw [decide_eq_true_eq] at he
  exact h (he ▸ List.mem_map_of_mem hrow)

theorem entriesOf_located (pos : Nat) (b : Batch) (conn : UInt32) :
    Index.entriesOf conn ((b.located pos).map RawMessage.filed) =
      (b.rowsOf conn).map (Entry.ofRow pos) := by
  rw [map_filed_located, Index.entriesOf, List.filter_map, List.map_map, rowsOf, List.map_map]
  rfl

/-- The index of a chunk lists the entries of a connection by time. -/
theorem entriesOf_rows [Codec.Formats] (pos : Nat) (b : Batch) (conn : UInt32) :
    Index.entriesOf conn (StoredChunk.rows (pos, b.stored)) =
      Entry.sort (Index.entriesOf conn ((b.located pos).map RawMessage.filed)) := by
  have hnodup : (b.stored.index.map Prod.fst).Nodup := by
    rw [conns_index]
    exact (List.mergeSort_perm _ _).nodup_iff.2 (nodup_eraseDups _)
  have hrows : StoredChunk.rows (pos, b.stored) = (b.stored.index.map Prod.fst).flatMap fun c =>
      (b.listed c).map fun r => (c, Entry.ofRow pos r) := by
    rw [StoredChunk.rows, index_eq, List.flatMap_map]
    simp only [List.map_map]
    rfl
  have hone : ∀ c, ((b.listed c).map fun r => (c, Entry.ofRow pos r)).filter (·.1 = conn) =
      if c = conn then (b.listed conn).map fun r => (conn, Entry.ofRow pos r) else [] := by
    intro c
    rw [List.filter_map]
    by_cases hc : c = conn
    · simp [Function.comp_def, hc]
    · simp [Function.comp_def, hc]
  have hlisted : Index.entriesOf conn (StoredChunk.rows (pos, b.stored)) =
      (b.listed conn).map (Entry.ofRow pos) := by
    rw [Index.entriesOf, hrows, List.filter_flatMap]
    simp only [hone]
    rw [flatMap_ite_eq hnodup]
    split
    · rw [List.map_map]
      rfl
    · next hnot =>
      rw [listed, rowsOf_eq_nil hnot, List.mergeSort_nil]
      rfl
  rw [hlisted, entriesOf_located, Entry.sort, listed]
  exact List.map_mergeSort fun r _ s _ => rfl

/-- The record of a message stands at its offset in the contents. -/
theorem mem_located {pos : Nat} {b : Batch} (hlt : b.contents.length < 2 ^ 32)
    {x : RawMessage × Entry} (hx : x ∈ b.located pos) :
    ∃ offset, x.2 = ⟨x.1.time, UInt64.ofNat pos, offset⟩ ∧
      x.1.bytes <+: b.contents.drop offset.toNat := by
  -- by induction on the notes that follow; those in front are `front`
  have hfrom : ∀ ns front, b.contents = front ++ ns.flatMap Note.bytes →
      x ∈ locatedFrom pos front.length ns → ∃ offset, x.2 = ⟨x.1.time, UInt64.ofNat pos, offset⟩ ∧
        x.1.bytes <+: b.contents.drop offset.toNat := by
    intro ns
    induction ns with
    | nil => simp [locatedFrom]
    | cons n ns ih =>
      intro front hcontents hx
      rw [List.flatMap_cons] at hcontents
      rcases List.mem_cons.1 hx with rfl | hx
      · have hsplit : b.contents =
            (front ++ n.front.flatten) ++ (n.message.bytes ++ ns.flatMap Note.bytes) := by
          rw [hcontents, n.bytes_eq]
          simp only [List.append_assoc]
        have hl : (front ++ n.front.flatten).length = front.length + n.lead := by
          rw [List.length_append, Note.lead]
        have hoffset : (UInt32.ofNat (front.length + n.lead)).toNat = front.length + n.lead := by
          refine UInt32.toNat_ofNat_of_lt' ?_
          rw [hsplit, List.length_append, hl] at hlt
          exact Nat.lt_of_le_of_lt (Nat.le_add_right _ _) hlt
        refine ⟨UInt32.ofNat (front.length + n.lead), rfl, ?_⟩
        rw [hoffset, hsplit, List.drop_left' hl]
        exact List.prefix_append _ _
      · refine ih (front ++ n.bytes) (by rw [hcontents, List.append_assoc]) ?_
        rwa [List.length_append]
  exact hfrom b.notes [] rfl hx

end Batch

/-- Decompressing gives back what was compressed. -/
def Codec.Lossless [Codec.Formats] (c : Codec) : Prop :=
  ∀ (d : Dense) (hint : Nat), d.size < 2 ^ 32 → c.decompress (c.compress d) hint = .ok d

theorem Codec.lossless_plain [Codec.Formats] : Codec.plain.Lossless := fun _ _ _ => rfl

namespace Account

variable [Codec.Formats]

/-- The messages of chunks that stand one behind the other from a position on. -/
def locate : Nat → List Batch → List (RawMessage × Entry)
  | _, [] => []
  | pos, b :: bs => b.located pos ++ locate (pos + b.stored.length) bs

theorem map_fst_locate (pos : Nat) (bs : List Batch) :
    (locate pos bs).map Prod.fst = bs.flatMap Batch.messages := by
  induction bs generalizing pos with
  | nil => rfl
  | cons b bs ih => rw [locate, List.map_append, ih, b.map_fst_located, List.flatMap_cons]

theorem mem_locate {pos : Nat} {bs : List Batch} {x : RawMessage × Entry}
    (hx : x ∈ locate pos bs) : ∃ p, ∃ b ∈ bs,
      (p, b.stored) ∈ Image.placed pos (bs.map Batch.stored) ∧ x ∈ b.located p := by
  induction bs generalizing pos with
  | nil => cases hx
  | cons b bs ih =>
    rcases List.mem_append.1 hx with hx | hx
    · exact ⟨pos, b, List.mem_cons_self, List.mem_cons_self, hx⟩
    · obtain ⟨p, b', hb', hplaced, hx⟩ := ih hx
      exact ⟨p, b', List.mem_cons_of_mem _ hb', List.mem_cons_of_mem _ hplaced, hx⟩

theorem time_locate {pos : Nat} {bs : List Batch} {x : RawMessage × Entry}
    (hx : x ∈ locate pos bs) : x.2.time = x.1.time := by
  obtain ⟨p, b, -, -, hx⟩ := mem_locate hx
  exact Batch.time_located x hx

/-- The rows of chunks list the entries of a connection, those of one time in the order in which
    they were recorded. -/
theorem sort_entriesOf_rows (pos : Nat) (bs : List Batch) (conn : UInt32) :
    Entry.sort (Index.entriesOf conn
        ((Image.placed pos (bs.map Batch.stored)).flatMap StoredChunk.rows)) =
      Entry.sort (Index.entriesOf conn ((locate pos bs).map RawMessage.filed)) := by
  refine Entry.sort_byKey.mergeSort_congr fun t => ?_
  induction bs generalizing pos with
  | nil => rfl
  | cons b bs ih =>
    have happend : ∀ xs ys : List (UInt32 × Entry), Index.entriesOf conn (xs ++ ys) =
        Index.entriesOf conn xs ++ Index.entriesOf conn ys := by
      intro xs ys
      simp [Index.entriesOf]
    rw [List.map_cons, Image.placed, List.flatMap_cons, locate, List.map_append, happend, happend,
      List.filter_append, List.filter_append, ih, b.entriesOf_rows, Entry.sort,
      Entry.sort_byKey.filter_mergeSort]

end Account

end BagFile
