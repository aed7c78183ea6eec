/-
  Records of all kinds come back as they were written.

  * `Fields.run_write_filled`: beyond the end of a tape a block is written as if the gap had been
    filled before, so nothing has to be assumed of where the tape stands;
  * `Stream.Replays s t t'`: the stream stands where the tape was written from `t` to `t'`, and
    anything may be behind that;
  * `Fields.Agree`: two blocks have the same values under some names.  What is read of a block
    hangs on its required fields alone (`Header.Embeds`);
  * `Header.Kept`: a header comes back alone and as a record, with other fields beside it too,
    and is not taken for one of another kind;
  * `Record.all_kept`: so it is with the headers of all six kinds, and with connections.
-/
import BagFile.Proofs.Records
import BagFile.Proofs.RecordReading
import BagFile.Proofs.Spelling
import Mathlib.Data.List.Find

namespace BagFile

open Source

/-! ## Writing beyond the end -/

namespace Contents

theorem take_of_size_lt {c : Contents} {pos : Nat} (h : c.size < pos) : c.take pos = c := by
  cases c with
  | empty => rfl
  | data c d =>
    rw [size] at h
    have hall : d.extract 0 (pos - c.size) = d := by
      apply Dense.ext_bytes
      rw [Dense.bytes_extract, List.drop_zero, List.take_of_length_le]
      rw [Dense.length_bytes]
      omega
    rw [take, if_neg (by omega), hall]
  | hole c n =>
    rw [size] at h
    rw [take, if_neg (by omega), Nat.min_eq_left (by omega)]

theorem drop_of_size_le {c : Contents} {pos : Nat} (h : c.size ≤ pos) : c.drop pos = empty := by
  cases c with
  | empty => rfl
  | data c d =>
    rw [size] at h
    have hnone : (d.extract (pos - c.size) d.size).size = 0 := by
      rw [ByteArray.size_extract]
      omega
    rw [drop, if_pos (by omega), addData, if_pos hnone]
  | hole c n =>
    rw [size] at h
    rw [drop, if_pos (by omega), addHole, if_pos (by omega)]

/-- Bytes beyond the end are the same where the gap was filled before. -/
theorem overwrite_addHole (c : Contents) (pos : Nat) (d : Dense) :
    (c.addHole (pos - c.size)).overwrite pos d = c.overwrite pos d := by
  by_cases h : c.size < pos
  · have hbeyond : c.overwrite pos d = c.splice pos d := by
      cases c with
      | data c e =>
        rw [size] at h
        rw [overwrite, if_neg (by omega)]
      | _ => rfl
    have hhole : c.addHole (pos - c.size) = hole c (pos - c.size) := by
      rw [addHole, if_neg (by omega)]
    have htake : (hole c (pos - c.size)).take pos = hole c (pos - c.size) := by
      rw [take, if_neg (by omega), Nat.min_self]
    have hsize : (hole c (pos - c.size)).size = pos := by
      rw [size]
      omega
    have hfilled : (hole c (pos - c.size)).overwrite pos d =
        (hole c (pos - c.size)).splice pos d := rfl
    rw [hbeyond, hhole, hfilled, splice, splice, htake, hsize, Nat.sub_self, take_of_size_lt h,
      hhole, drop_of_size_le (by omega), drop_of_size_le (by omega)]
    rfl
  · rw [Nat.sub_eq_zero_of_le (Nat.le_of_not_lt h), addHole, if_pos rfl]

end Contents

namespace Tape

/-- A tape filled up with zeros to its position. -/
def filled (t : Tape) : Tape := { t with contents := t.contents.addHole (t.pos - t.size) }

theorem filled_pos_le (t : Tape) : t.filled.pos ≤ t.filled.size := by
  have hsize : t.filled.size = t.size + (t.pos - t.size) := by
    rw [← length_bytes, bytes, filled, Contents.bytes_addHole, List.length_append,
      Contents.length_bytes, Bytes.zeros, List.length_replicate]
    rfl
  have hpos : t.filled.pos = t.pos := rfl
  omega

theorem written_filled (t : Tape) (d : Dense) : t.filled.written d = t.written d :=
  congrArg (fun c => (⟨c, t.pos + d.size, ⟨t.pos, d⟩ :: t.journal⟩ : Tape))
    (t.contents.overwrite_addHole t.pos d)

end Tape

theorem Fields.run_write_filled (f : Fields) (t : Tape) :
    f.write.run t.filled = f.write.run t := by
  rw [write, EStateM.run_bind, EStateM.run_bind, Slot.run_reserve, Slot.run_reserve,
    Tape.written_filled]
  rfl

theorem Connection.run_write_filled (c : Connection) (t : Tape) :
    c.write.run t.filled = c.write.run t := by
  have hheader : (Header.write c.header).run t.filled = (Header.write c.header).run t :=
    Fields.run_write_filled _ t
  rw [write, EStateM.run_bind, EStateM.run_bind, hheader]

/-! ## Reading what was written -/

/-- The stream stands where a tape was written, over the same bytes up to where the writing
    ended, and over any bytes behind that. -/
def Stream.Replays (s : Stream) (t t' : Tape) : Prop :=
  s.pos = t.pos ∧ t'.bytes.take t'.pos <+: s.contents.bytes

/-- An operation that fills the gap in front of it writes wherever the tape stands. -/
theorem Tape.Writes.anywhere {α : Type} {op : Op α} {fits : Prop} {a : α} {rs : List Bytes}
    {t : Tape} (h : Writes t.pos op fits a rs) (hfilled : op.run t.filled = op.run t) :
    (fits ∧ ∃ t', op.run t = .ok a t' ∧ t.filled.Puts rs t') ∨
      (¬fits ∧ ∃ e t', op.run t = .error e t' ∧ e.IsLimit) :=
  hfilled ▸ h t.filled rfl t.filled_pos_le

/-- What an operation wrote is what a stream has ahead of it. -/
theorem Tape.Writes.replayed {α : Type} {op : Op α} {fits : Prop} {a b : α} {rs : List Bytes}
    {t t' : Tape} (h : Writes t.pos op fits a rs) (hfilled : op.run t.filled = op.run t)
    (hrun : op.run t = .ok b t') :
    fits ∧ t'.pos = t.pos + rs.flatten.length ∧
      ∀ s : Stream, s.Replays t t' → rs.flatten <+: rest s := by
  have hle := t.filled_pos_le
  rcases h.anywhere hfilled with ⟨hfits, t₁, hrun₁, hputs⟩ | ⟨-, e, t₁, hrun₁, -⟩
  · rw [hrun] at hrun₁
    cases hrun₁
    refine ⟨hfits, hputs.pos_eq, fun s hs => ?_⟩
    obtain ⟨after, hafter⟩ := hs.2
    have hfront : (t.filled.bytes.take t.pos).length = t.pos := by
      rw [List.length_take, length_bytes]
      exact Nat.min_eq_left hle
    have hwritten : t'.bytes.take t'.pos = t.filled.bytes.take t.pos ++ rs.flatten := by
      rw [hputs.bytes_eq, hputs.pos_eq, Bytes.place]
      refine List.take_left' ?_
      rw [List.length_append]
      exact congrArg (· + _) hfront
    refine ⟨after, ?_⟩
    show _ = s.contents.bytes.drop s.pos
    rw [← hafter, hs.1, hwritten, List.append_assoc, List.drop_left' hfront]
  · rw [hrun] at hrun₁
    cases hrun₁

theorem Tape.Writes.succeeds_iff {α : Type} {op : Op α} {fits : Prop} {a : α} {rs : List Bytes}
    {t : Tape} (h : Writes t.pos op fits a rs) (hfilled : op.run t.filled = op.run t) :
    (∃ b t', op.run t = .ok b t') ↔ fits := by
  rcases h.anywhere hfilled with ⟨hfits, t', hrun, -⟩ | ⟨hfits, e, t', hrun, -⟩
  · exact iff_of_true ⟨a, t', hrun⟩ hfits
  · refine iff_of_false ?_ hfits
    rintro ⟨b, t₁, hrun₁⟩
    rw [hrun₁] at hrun
    cases hrun

/-- The operation that reads what was written ends where the writing ended. -/
theorem Reads.replayed {α : Type} {op : Stream.Op α} {a : α} {bs : Bytes} {s : Stream}
    {t t' : Tape} (h : Reads s op bs a) (hs : s.Replays t t') (hpos : t'.pos = t.pos + bs.length)
    (hp : bs <+: rest s) : op.run s = .ok a { s with pos := t'.pos } := by
  rw [h hp, hpos, ← hs.1]
  rfl

/-! ## Fields that are not asked for -/

namespace Fields

/-- Two blocks with the same values under some names. -/
def Agree (names : List String) (f g : Fields) : Prop := ∀ name ∈ names, f.get? name = g.get? name

/-- Fields with other names change nothing under these. -/
theorem agree_foldl_insert {names : List String} {es : List (String × Dense)} (f : Fields)
    (h : ∀ e ∈ es, e.1 ∉ names) : Agree names (es.foldl (fun f e => f.insert e.1 e.2) f) f := by
  induction es generalizing f with
  | nil => exact fun _ _ => rfl
  | cons e es ih =>
    rw [List.forall_mem_cons] at h
    intro name hname
    have hne : e.1 ≠ name := fun he => h.1 (he ▸ hname)
    rw [List.foldl_cons, ih _ h.2 name hname, get?_eq, field?_insert, if_neg hne, get?_eq]

variable {names : List String} {f g : Fields} {k : Kind}

namespace Agree

variable {name : String}

theorem require (h : Agree names f g) (hn : name ∈ names) : f.require name = g.require name := by
  rw [Fields.require, Fields.require, h name hn]

theorem requireWord {α : Type} [Word α] (h : Agree names f g) (hn : name ∈ names) :
    (f.requireWord name : Except Error α) = g.requireWord name := by
  rw [Fields.requireWord, Fields.requireWord, h.require hn]

theorem requireTime (h : Agree names f g) (hn : name ∈ names) :
    f.requireTime name = g.requireTime name := by
  rw [Fields.requireTime, Fields.requireTime, h.require hn]

theorem requireText (h : Agree names f g) (hn : name ∈ names) :
    f.requireText name = g.requireText name := by
  rw [Fields.requireText, Fields.requireText, h.require hn]

theorem requireVersion (h : Agree names f g) (hn : "ver" ∈ names) :
    f.requireVersion k = g.requireVersion k := by
  rw [Fields.requireVersion, Fields.requireVersion, h.requireWord hn]

theorem kind (h : Agree (kindName :: names) f g) : f.kind = g.kind := by
  rw [Fields.kind, Fields.kind, h.require List.mem_cons_self]

end Agree

theorem kind_of_expectKind (h : f.expectKind k = .ok ⟨⟩) : f.kind = .ok k := by
  rw [expectKind] at h
  rcases hkind : f.kind with e | actual
  · rw [hkind] at h
    cases h
  · by_cases hne : actual = k
    · rw [hne]
    · rw [hkind] at h
      change (if actual ≠ k then _ else _) = _ at h
      rw [if_pos hne] at h
      cases h

theorem expectKind_of_ne {actual : Kind} (hf : f.kind = .ok actual) (hne : actual ≠ k) :
    f.expectKind k = .error (.unexpectedKind k actual) := by
  rw [expectKind, hf]
  exact if_pos hne

end Fields

namespace Header

variable {α : Type} [Header α]

theorem check_congr {k : Kind} {f g : Fields} (h : Fields.Agree (Fields.kindName :: k.required) f g) :
    check k f = check k g := by
  have hmissing : k.required.find? (fun name => !f.contains name) =
      k.required.find? (fun name => !g.contains name) := by
    refine List.find?_congr fun name hname => ?_
    rw [Fields.contains, Fields.contains, h name (List.mem_cons_of_mem _ hname)]
  rw [check, check, Fields.expectKind, Fields.expectKind, h.kind, hmissing]

/-- A type of headers whose values are those of the required fields, and which is one of the kinds
    of records. -/
structure Embeds (wrap : α → Record) : Prop where
  toFields_eq : ∀ h, (wrap h).toFields = toFields h
  ofFieldsAs_eq : ∀ f, Record.ofFieldsAs f (kind α) = wrap <$> ofFields f
  names_eq : ∀ h : α, (toFields h).names = Fields.kindName :: (kind α).required
  project_congr : ∀ {f g : Fields}, Fields.Agree (kind α).required f g →
    (project f : Except Error α) = project g

namespace Embeds

variable {wrap : α → Record} {h : α}

theorem ofFields_congr (hw : Embeds wrap) {f g : Fields}
    (hfg : Fields.Agree (Fields.kindName :: (kind α).required) f g) :
    (ofFields f : Except Error α) = ofFields g := by
  rw [ofFields, ofFields, check_congr hfg,
    hw.project_congr fun name hname => hfg name (List.mem_cons_of_mem _ hname)]

/-- A block from which the header is read is the record of that kind. -/
theorem ofFields_wrap (hw : Embeds wrap) {f : Fields} (hf : ofFields f = .ok h) :
    Record.ofFields f = .ok (wrap h) := by
  rw [Record.ofFields, Fields.kind_of_expectKind (expectKind_of_ofFields hf)]
  show Record.ofFieldsAs f (kind α) = _
  rw [hw.ofFieldsAs_eq, hf]
  rfl

end Embeds

/-! ## Headers -/

/-- What holds of a header that comes back as it was written. -/
structure Kept (wrap : α → Record) (h : α) : Prop where
  /-- it can be written if its length allows, wherever the tape stands -/
  written : ∀ t : Tape, (∃ n t', (write h).run t = .ok n t') ↔ Fits h
  /-- it is read where it was written, and nothing behind it -/
  restored : ∀ {t t' : Tape} {n : UInt32}, (write h).run t = .ok n t' →
    t'.pos = t.pos + (4 + (toFields h).bodyLength) ∧
      ∀ s : Stream, s.Replays t t' →
        (read : Stream.Op α).run s = .ok h { s with pos := t'.pos }
  /-- a header of another kind is not read there -/
  refused : ∀ {t t' : Tape} {n : UInt32}, (write h).run t = .ok n t' →
    ∀ {β : Type} [Header β], kind β ≠ kind α → ∀ s : Stream, s.Replays t t' →
      (read : Stream.Op β).run s =
        .error (.unexpectedKind (kind β) (kind α)) { s with pos := t'.pos }
  /-- its block is that of a record, and makes that record again -/
  wrapped : Record.ofFields (toFields h) = .ok (wrap h) ∧ (wrap h).toFields = toFields h
  /-- fields with other names are not looked at -/
  extended : ∀ es : List (String × Dense), (∀ e ∈ es, e.1 ∉ (toFields h).names) →
    ofFields (es.foldl (fun f e => f.insert e.1 e.2) (toFields h)) = .ok h ∧
      Record.ofFields (es.foldl (fun f e => f.insert e.1 e.2) (toFields h)) = .ok (wrap h)

theorem named_required (k : Kind) : Fields.Named (Fields.kindName :: k.required) := by
  cases k <;> decide

/-- **A header that its own block makes again comes back as it was written.** -/
theorem Embeds.kept {wrap : α → Record} {h : α} (hw : Embeds wrap)
    (hof : ofFields (toFields h) = .ok h) : Kept wrap h := by
  have hfilled : ∀ t : Tape, (write h).run t.filled = (write h).run t :=
    Fields.run_write_filled (toFields h)
  have hnamed : Fields.Named (toFields h).names := hw.names_eq h ▸ named_required (kind α)
  have hlength : [bytes h].flatten.length = 4 + (toFields h).bodyLength := by
    rw [List.flatten_singleton, length_bytes]
  refine ⟨fun t => (writes t.pos h).succeeds_iff (hfilled t), ?_, ?_, ?_, ?_⟩
  · intro t t' n hrun
    obtain ⟨hfits, hpos, hahead⟩ := (writes t.pos h).replayed (hfilled t) hrun
    rw [List.flatten_singleton] at hpos hahead
    have hreads := fun s => reads s (h := h) ⟨hnamed, hfits, hof⟩
    exact ⟨by rw [hpos, length_bytes], fun s hs => (hreads s).replayed hs hpos (hahead s hs)⟩
  · intro t t' n hrun β _ hne s hs
    -- the block is read whole, and only then its kind is looked at
    obtain ⟨hfits, hpos, hahead⟩ := (writes t.pos h).replayed (hfilled t) hrun
    rw [List.flatten_singleton] at hpos hahead
    have hblock := (Fields.reads s hnamed hfits).replayed hs hpos (hahead s hs)
    have hkind := Fields.kind_of_expectKind (expectKind_of_ofFields hof)
    exact run_read_unexpected hblock (Fields.expectKind_of_ne hkind hne.symm)
  · exact ⟨hw.ofFields_wrap hof, hw.toFields_eq h⟩
  · intro es hes
    -- the fields of the block are the required ones, so the others are not asked for
    have hagree := Fields.agree_foldl_insert (toFields h) hes
    rw [hw.names_eq] at hagree
    have hof' := (hw.ofFields_congr hagree).trans hof
    exact ⟨hof', hw.ofFields_wrap hof'⟩

end Header

/-! ## The six kinds -/

theorem FileHeader.embeds : Header.Embeds Record.file where
  toFields_eq _ := rfl
  ofFieldsAs_eq _ := rfl
  names_eq _ := rfl
  project_congr h := by simp (disch := decide) only [Header.project, h.requireWord]

theorem ChunkHeader.embeds : Header.Embeds Record.chunk where
  toFields_eq _ := rfl
  ofFieldsAs_eq _ := rfl
  names_eq _ := rfl
  project_congr h := by simp (disch := decide) only [Header.project, h.requireText, h.requireWord]

theorem ConnectionHeader.embeds : Header.Embeds Record.connection where
  toFields_eq _ := rfl
  ofFieldsAs_eq _ := rfl
  names_eq _ := rfl
  project_congr h := by simp (disch := decide) only [Header.project, h.requireWord, h.requireText]

theorem MessageHeader.embeds : Header.Embeds Record.message where
  toFields_eq _ := rfl
  ofFieldsAs_eq _ := rfl
  names_eq _ := rfl
  project_congr h := by simp (disch := decide) only [Header.project, h.requireWord, h.requireTime]

theorem IndexHeader.embeds : Header.Embeds Record.index where
  toFields_eq _ := rfl
  ofFieldsAs_eq _ := rfl
  names_eq _ := rfl
  project_congr h := by
    simp (disch := decide) only [Header.project, h.requireVersion, h.requireWord]

theorem ChunkInfoHeader.embeds : Header.Embeds Record.chunkInfo where
  toFields_eq _ := rfl
  ofFieldsAs_eq _ := rfl
  names_eq _ := rfl
  project_congr h := by
    simp (disch := decide) only [Header.project, h.requireVersion, h.requireWord, h.requireTime]

theorem Compression.ofName_name {z : Compression}
    (hz : ∀ name, z = .other name → name ∉ ["none", "bz2", "lz4"]) : ofName z.name = z := by
  cases z with
  | other name =>
    have hname := hz name rfl
    simp only [List.mem_cons, List.not_mem_nil, or_false, not_or] at hname
    rw [Compression.name, ofName, if_neg hname.1, if_neg hname.2.1, if_neg hname.2.2]
  | _ => rfl

/-! ## Connections -/

/-- What holds of a connection that comes back as it was written. -/
structure Connection.Kept (c : Connection) : Prop where
  /-- it can be written if the lengths of its blocks allow, wherever the tape stands -/
  written : ∀ t : Tape, (∃ t', c.write.run t = .ok ⟨⟩ t') ↔ c.Fits
  /-- it is read where it was written: both blocks, and nothing behind them -/
  restored : ∀ {t t' : Tape}, c.write.run t = .ok ⟨⟩ t' →
    t'.pos = t.pos + (4 + (Header.toFields c.header).bodyLength) + (4 + c.dataFields.bodyLength) ∧
      ∀ s : Stream, s.Replays t t' → read.run s = .ok c { s with pos := t'.pos }

theorem Connection.kept (c : Connection) : c.Kept where
  written t := by
    rw [← (writes t.pos c).succeeds_iff (c.run_write_filled t)]
    exact ⟨fun ⟨t', h⟩ => ⟨⟨⟩, t', h⟩, fun ⟨_, t', h⟩ => ⟨t', h⟩⟩
  restored {t t'} hrun := by
    obtain ⟨hfits, hpos, hahead⟩ := (writes t.pos c).replayed (c.run_write_filled t) hrun
    have hlength : c.blocks.flatten.length =
        (4 + (Header.toFields c.header).bodyLength) + (4 + c.dataFields.bodyLength) := by
      rw [blocks, List.flatten_cons, List.flatten_singleton, List.length_append,
        Header.length_bytes, Fields.length_bytes]
    refine ⟨by rw [hpos, hlength, Nat.add_assoc t.pos], fun s hs => ?_⟩
    exact (reads s hfits).replayed hs hpos (hahead s hs)

/-! ## All records -/

/-- **Every record comes back as it was written**: headers of all six kinds, with the one version
    there is and a compression that goes by its own name, and connections with both their
    blocks. -/
theorem Record.all_kept :
    (∀ h : FileHeader, Header.Kept Record.file h) ∧
    (∀ h : ChunkHeader, (∀ name, h.compression = .other name → name ∉ ["none", "bz2", "lz4"]) →
      Header.Kept Record.chunk h) ∧
    (∀ h : ConnectionHeader, Header.Kept Record.connection h) ∧
    (∀ h : MessageHeader, Header.Kept Record.message h) ∧
    (∀ h : IndexHeader, h.version = 1 → Header.Kept Record.index h) ∧
    (∀ h : ChunkInfoHeader, h.version = 1 → Header.Kept Record.chunkInfo h) ∧
    (∀ c : Connection, c.Kept) :=
  ⟨fun h => FileHeader.embeds.kept h.readable.ofFields,
    fun _ hz => ChunkHeader.embeds.kept
      (ChunkHeader.ofFields_toFields (Compression.ofName_name hz)),
    fun h => ConnectionHeader.embeds.kept h.ofFields_toFields,
    fun h => MessageHeader.embeds.kept h.readable.ofFields,
    fun _ hv => IndexHeader.embeds.kept (IndexHeader.readable hv).ofFields,
    fun _ hv => ChunkInfoHeader.embeds.kept (ChunkInfoHeader.readable hv).ofFields,
    Connection.kept⟩

/-- A chunk of an unknown compression, the two kinds with a version, and a connection that is read
    where it was written, with a byte behind it. -/
theorem Record.all_kept_samples :
    Header.Kept Record.chunk ⟨.other "zstd", 7⟩ ∧ Header.Kept Record.index ⟨1, 2, 3⟩ ∧
    Header.Kept Record.chunkInfo ⟨1, 4117, ⟨5, 0⟩, ⟨6, 0⟩, 1⟩ ∧
    ∃ t', (Connection.sample 3 "/a").write.run .empty = .ok ⟨⟩ t' ∧
      Connection.read.run (.ofDense (t'.data ++ .ofBytes [7])) =
        .ok (.sample 3 "/a") { Stream.ofDense (t'.data ++ .ofBytes [7]) with pos := t'.pos } := by
  obtain ⟨-, hchunk, -, -, hindex, hinfo, hconnection⟩ := Record.all_kept
  have hc := hconnection (.sample 3 "/a")
  obtain ⟨t', hrun⟩ := (hc.written .empty).2 (by decide)
  refine ⟨hchunk _ ?_, hindex _ rfl, hinfo _ rfl, t', hrun, (hc.restored hrun).2 _ ⟨rfl, ?_⟩⟩
  · rintro name ⟨⟩
    decide
  · have hbytes : (Stream.ofDense (t'.data ++ .ofBytes [7])).contents.bytes = t'.bytes ++ [7] := by
      rw [Stream.ofDense, Contents.bytes_ofDense, Dense.bytes_append, Tape.data,
        Contents.bytes_all, Dense.bytes_ofBytes]
      rfl
    rw [hbytes]
    exact (List.take_prefix _ _).trans (List.prefix_append _ _)

end BagFile
