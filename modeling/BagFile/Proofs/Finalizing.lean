/-
  What a reader finds while a bag is finalized.

  * `Tape.Went Q c j`: since the contents of the tape were `c` and its journal was `j`, they have
    been as `Q` says, after each single write;
  * `Image.Stage x`: how far a file may have come on the way to an image.  At every stage it is not
    opened, or is opened as the image in the end (`Image.Stage.opened`);
  * `Follows.went_finalize`: a bag that is finalized goes through these stages only, and so
    `Recorder.finalize_all_or_nothing` holds.
-/
import BagFile.Proofs.Lifecycle
import BagFile.Proofs.Reserving
import BagFile.Proofs.RoundTrip
import BagFile.Proofs.Understating

namespace BagFile

/-! ## After each write -/

variable {Q : Contents → Prop} {c : Contents} {j : List Write} {t t' : Tape}

namespace Tape

/-- Since its contents were `c` and its journal was `j`, the contents of a tape have been as `Q`
    says, after each write. -/
def Went (Q : Contents → Prop) (c : Contents) (j : List Write) (t : Tape) : Prop :=
  ∃ ws : List Write, t.journal = ws.reverse ++ j ∧ t.contents = after c ws ∧
    ∀ k, Q (after c (ws.take k))

theorem went_start (h : Q t.contents) : t.Went Q t.contents t.journal := by
  refine ⟨[], rfl, rfl, fun k => ?_⟩
  rw [List.take_nil]
  exact h

/-- One more write. -/
theorem Went.written (h : t.Went Q c j) {d : Dense} (hQ : Q (t.written d).contents) :
    (t.written d).Went Q c j := by
  obtain ⟨ws, hjournal, hcontents, hall⟩ := h
  have hlast : (t.written d).contents = after c (ws ++ [⟨t.pos, d⟩]) := by
    rw [after, List.foldl_append]
    show t.contents.overwrite t.pos d = (after c ws).overwrite t.pos d
    rw [hcontents]
  refine ⟨ws ++ [⟨t.pos, d⟩], ?_, hlast, fun k => ?_⟩
  · rw [List.reverse_append]
    exact congrArg (⟨t.pos, d⟩ :: ·) hjournal
  · by_cases hk : k ≤ ws.length
    · rw [List.take_append_of_le_length hk]
      exact hall k
    · rw [List.take_of_length_le (by simp; omega), ← hlast]
      exact hQ

theorem Went.moved (h : t.Went Q c j) (pos : Nat) : Went Q c j { t with pos := pos } := h

/-- If a front is all that `Q` asks for, then nothing that is written behind it matters. -/
theorem shields_went {front : Bytes} (hQ : ∀ c' : Contents, front <+: c'.bytes → Q c')
    (c : Contents) (j : List Write) :
    Shields front.length fun t => t.Went Q c j ∧ t.Starts front where
  written t d h hpos := by
    have hstarts := (shields_starts front).written t d h.2 hpos
    exact ⟨h.1.written (hQ _ hstarts), hstarts⟩
  moved t pos h := ⟨h.1.moved pos, h.2⟩
  le_size t h := (shields_starts front).le_size t h.2

end Tape

open Tape

/-- A block of fields that is written through a reserved length: it is empty until that is filled
    in. -/
theorem Fields.went_write {f : Fields} {len : UInt32} (hrun : f.write.run t = .ok len t')
    (h : t.Went Q c j) (hpos : t.pos ≤ t.size)
    (hempty : ∀ c' : Contents, t.bytes.take t.pos ++ Bytes.zeros 4 <+: c'.bytes → Q c')
    (hend : Q t'.contents) : t'.Went Q c j := by
  have hzero : (Word.encode (0 : UInt32)).bytes = Bytes.zeros 4 := by decide
  have hlength : (t.bytes.take t.pos ++ Bytes.zeros 4).length = t.pos + 4 := by
    rw [List.length_append, List.length_take, Tape.length_bytes, Nat.min_eq_left hpos]
    rfl
  have hstarts : (t.written (Word.encode (0 : UInt32))).Starts
      (t.bytes.take t.pos ++ Bytes.zeros 4) := by
    have hputs := puts_written hpos (Word.encode (0 : UInt32))
    rw [Starts, hputs.bytes_eq, List.flatten_singleton, hzero, Bytes.place]
    exact List.prefix_append _ _
  have hreserved : Behind (t.bytes.take t.pos ++ Bytes.zeros 4).length
      (fun t' => t'.Went Q c j ∧ t'.Starts (t.bytes.take t.pos ++ Bytes.zeros 4))
      (t.written (Word.encode (0 : UInt32))) := by
    refine ⟨⟨h.written (hempty _ hstarts), hstarts⟩, ?_⟩
    rw [hlength]
    exact Nat.le_refl _
  obtain ⟨slot, t₁, hreserve, hrest⟩ := run_bind_eq_ok hrun
  cases hreserve
  obtain ⟨u, t₂, hentries, hcommit⟩ := run_bind_eq_ok hrest
  have hwent := ((Fields.upholds_entries (shields_went hempty c j) f.entries).gives _ _ _ hentries
    hreserved).2.kept.1
  rw [Slot.run_commit] at hcommit
  split at hcommit
  · cases hcommit
  · split at hcommit
    · cases hcommit
    · cases hcommit
      exact ((hwent.moved t.pos).written hend).moved t₂.pos

/-- Bytes written over as many others. -/
theorem Tape.bytes_written_middle {A d e : Bytes} {x : Dense} (h : t.bytes = A ++ d ++ e)
    (hpos : t.pos = A.length) (hlength : x.bytes.length = d.length) :
    (t.written x).bytes = A ++ x.bytes ++ e := by
  have hle : t.pos ≤ t.size := by
    rw [← Tape.length_bytes, h, hpos, List.length_append, List.length_append]
    omega
  rw [(puts_written hle x).bytes_eq, List.flatten_singleton, h, hpos,
    Bytes.place_middle A e hlength]

/-- A length that is filled in. -/
theorem Slot.went_commit {s : Slot} {len : UInt32} {A d e : Bytes}
    (hrun : s.commit.run t = .ok len t') (hwent : t.Went Q c j) (hbytes : t.bytes = A ++ d ++ e)
    (hd : d.length = 4) (hpos : s.pos = A.length)
    (hQ : ∀ c' : Contents, c'.bytes = A ++ Bytes.ofNat 4 (t.pos - s.contentStart) ++ e → Q c') :
    t'.Went Q c j := by
  rw [run_commit] at hrun
  split at hrun
  · cases hrun
  · split at hrun
    · cases hrun
    · cases hrun
      refine ((hwent.moved s.pos).written (hQ _ ?_)).moved t.pos
      have hbytes' : ({ t with pos := s.pos } : Tape).bytes = A ++ d ++ e := hbytes
      rw [← bytes_encode_length]
      exact bytes_written_middle hbytes' hpos
        (by rw [bytes_encode_length, Bytes.length_ofNat, hd])

namespace Recorder

variable {h : FileHeader} {rest : Bytes}

/-- A header with its padding, whose length may not be filled in yet. -/
def padded (h : FileHeader) (n : Nat) (rest : Bytes) : Bytes :=
  Layout.versionLine.bytes ++ Header.bytes h ++ Bytes.ofNat 4 n ++
    (List.replicate (Layout.headerLength - ((Header.bytes h).length + 4)) Layout.padding ++ rest)

/-- The padding is written over the padding that was there. -/
theorem went_padding {n : Nat} {u : Unit} (hn : n = Layout.headerLength - ((Header.bytes h).length + 4))
    (hrun : (do
      let slot ← Slot.reserve
      Tape.write (.replicate n Layout.padding)
      let _ ← slot.commit : Tape.Op Unit).run t = .ok u t')
    (hwent : t.Went Q c j) (hbytes : t.bytes = padded h n rest)
    (hpos : t.pos = (Layout.versionLine.bytes ++ Header.bytes h).length)
    (hQ : ∀ (c' : Contents) (k : Nat), k = 0 ∨ k = n → c'.bytes = padded h k rest → Q c') :
    t'.Went Q c j := by
  have hzero : (Word.encode (0 : UInt32)).bytes = Bytes.ofNat 4 0 := by decide
  have hreplicate : (Dense.replicate n Layout.padding).bytes = List.replicate (Layout.headerLength -
      ((Header.bytes h).length + 4)) Layout.padding := by
    rw [Dense.bytes_replicate, hn]
  have hsize : (Dense.replicate n Layout.padding).size = n := by
    rw [← Dense.length_bytes, Dense.bytes_replicate, List.length_replicate]
  obtain ⟨slot, t₁, hreserve, hrest⟩ := run_bind_eq_ok hrun
  cases hreserve
  -- the length is zero by now
  have hbytes₁ : (t.written (Word.encode (0 : UInt32))).bytes = padded h 0 rest := by
    rw [bytes_written_middle hbytes hpos (by rw [hzero, Bytes.length_ofNat, Bytes.length_ofNat]),
      hzero]
    rfl
  have hwent₁ := hwent.written (hQ _ 0 (.inl rfl) hbytes₁)
  obtain ⟨_, t₂, hwrite, hrest⟩ := run_bind_eq_ok hrest
  cases hwrite
  have hbytes₂ : ((t.written (Word.encode (0 : UInt32))).written
      (.replicate n Layout.padding)).bytes = padded h 0 rest := by
    have hmiddle := bytes_written_middle (x := .replicate n Layout.padding) (hbytes₁.trans
      (List.append_assoc _ _ _).symm) ?_ (by rw [hreplicate])
    · rw [hmiddle, hreplicate, padded, List.append_assoc]
    · rw [List.length_append, ← hpos]
      rfl
  have hwent₂ := hwent₁.written (hQ _ 0 (.inl rfl) hbytes₂)
  obtain ⟨len, t₃, hcommit, hpure⟩ := run_bind_eq_ok hrest
  cases hpure
  refine Slot.went_commit hcommit hwent₂ hbytes₂ (Bytes.length_ofNat 4 0) hpos fun c' hc' => ?_
  have hlen : t.pos + 4 + (Dense.replicate n Layout.padding).size - (t.pos + 4) = n := by
    rw [hsize]
    exact Nat.add_sub_cancel_left _ _
  exact hQ c' n (.inr rfl) (hlen ▸ hc')

/-- **While the header is written** over another, it has no fields; then it has all of them, and
    what pads it may have no length yet. -/
theorem went_writeHeader {old : FileHeader} {B : List Bytes} {u : Unit}
    (hholds : t.Holds (Image.preamble old ++ B)) (hwent : t.Went Q c j)
    (hrun : (writeHeader h).run t = .ok u t')
    (hempty : ∀ c' : Contents, Layout.versionLine.bytes ++ Bytes.zeros 4 <+: c'.bytes → Q c')
    (hQ : ∀ (c' : Contents) (n : Nat),
      n = 0 ∨ n = Layout.headerLength - ((Header.bytes h).length + 4) →
        c'.bytes = padded h n B.flatten → Q c') : t'.Went Q c j := by
  have hplace : Layout.headerPos = Layout.versionLine.bytes.length := by
    rw [Dense.length_bytes]
    decide
  have hlength : (Header.bytes old).length = (Header.bytes h).length := by
    rw [FileHeader.length_bytes, FileHeader.length_bytes]
  have hsplit : t.Holds ([Layout.versionLine.bytes] ++ [Header.bytes old] ++ ([Bytes.sized
      (List.replicate (Layout.headerLength - ((Header.bytes h).length + 4)) Layout.padding)] ++
        B)) := by
    rw [Image.preamble, Image.headerBlocks, hlength] at hholds
    exact hholds
  have hle : Layout.headerPos ≤ t.size := by
    rw [hsplit.size_eq, hplace]
    simp only [List.flatten_append, List.flatten_singleton, List.length_append]
    omega
  rw [writeHeader, run_seek_bind] at hrun
  obtain ⟨len, t₁, hwrite, hrest⟩ := run_bind_eq_ok hrun
  rcases Header.writes Layout.headerPos h { t with pos := Layout.headerPos } rfl hle with
    ⟨-, t₁', hwrite', hputs⟩ | ⟨-, e, t₁', hwrite', -⟩
  · cases hwrite.symm.trans hwrite'
    have hbytes : t₁.bytes = padded h (Layout.headerLength - ((Header.bytes h).length + 4))
        B.flatten := by
      rw [hplace, ← List.flatten_singleton (l := Layout.versionLine.bytes)] at hputs
      have hpatched := hsplit.patch (by simp [hlength]) hputs
      rw [hpatched.bytes_eq, padded, Bytes.sized, List.length_replicate]
      simp only [List.flatten_append, List.flatten_singleton, List.append_assoc]
    have hpos : t₁.pos = (Layout.versionLine.bytes ++ Header.bytes h).length := by
      rw [hputs.pos_eq, List.flatten_singleton, List.length_append, ← hplace]
    have hwent₁ : t₁.Went Q c j := by
      refine Fields.went_write hwrite (hwent.moved _) hle (fun c' hc' => hempty c' ?_)
        (hQ _ _ (.inr rfl) hbytes)
      have htake : ({ t with pos := Layout.headerPos } : Tape).bytes.take Layout.headerPos =
          Layout.versionLine.bytes := by
        show t.bytes.take _ = _
        rw [hsplit.bytes_eq, hplace]
        simp
      rwa [htake] at hc'
    have hused : t₁.pos - Layout.headerPos = (Header.bytes h).length := by
      rw [hpos, List.length_append, ← hplace, Nat.add_sub_cancel_left]
    rw [run_position_bind, hused] at hrest
    obtain ⟨-, hpadding⟩ := run_refuse_eq_ok hrest
    exact went_padding rfl hpadding hwent₁ hbytes hpos hQ
  · cases hwrite.symm.trans hwrite'

end Recorder

/-! ## The stages of a file -/

/-- How far a file has come on the way to an image: its header keeps its place, has no fields, or
    has all of them, and the length of what pads it may be missing. -/
inductive Image.Stage (x : Image) (contents : Contents) : Prop
  | reserved : Recorder.reservedFront <+: contents.bytes → Stage x contents
  | headless : Layout.versionLine.bytes ++ Bytes.zeros 4 <+: contents.bytes → Stage x contents
  | padded (n : Nat) : n = 0 ∨ n = Layout.headerLength - ((Header.bytes x.header).length + 4) →
      contents.bytes = Recorder.padded x.header n (chunkBlocks x.chunks ++ x.tableBlocks).flatten →
      Stage x contents

/-- The image itself has all of its header, and what pads it. -/
theorem Image.bytes_padded (x : Image) : x.bytes = Recorder.padded x.header
    (Layout.headerLength - ((Header.bytes x.header).length + 4))
    (chunkBlocks x.chunks ++ x.tableBlocks).flatten := by
  rw [bytes, blocks, preamble, headerBlocks, Recorder.padded, Bytes.sized, List.length_replicate]
  simp only [List.flatten_append, List.flatten_cons, List.flatten_nil, List.append_assoc,
    List.append_nil]

/-- A header that is there is read, and what pads it as far as its length says. -/
theorem Bag.load_padded {x : Image} {contents : Contents} (hx : x.Readable) {n : Nat}
    (hn : n ≤ Layout.headerLength - ((Header.bytes x.header).length + 4))
    (hbytes : contents.bytes =
      Recorder.padded x.header n (Image.chunkBlocks x.chunks ++ x.tableBlocks).flatten)
    {path : String} {settings : Settings} {b : Bag} :
    load path settings contents = .ok b ↔ x.opened path settings = some b := by
  have hlength : (Layout.versionLine.bytes ++ Header.bytes x.header ++ Bytes.ofNat 4 n ++
      List.replicate (Layout.headerLength - ((Header.bytes x.header).length + 4))
        Layout.padding).length = Layout.dataStart := by
    rw [← Image.length_preamble x.header, Image.preamble, Image.headerBlocks]
    simp only [List.flatten_cons, List.flatten_nil, List.length_append, Bytes.length_sized,
      Bytes.length_ofNat, List.length_nil]
    omega
  have hstands : x.StandsIn contents := by
    have himage : x.bytes.drop Layout.dataStart =
        (Image.chunkBlocks x.chunks ++ x.tableBlocks).flatten := by
      rw [Image.bytes, Image.blocks, List.append_assoc, List.flatten_append,
        List.drop_left' (Image.length_preamble _)]
    rw [Image.StandsIn, himage, hbytes, Recorder.padded, ← List.append_assoc,
      List.drop_left' hlength]
  have hlt : (List.replicate n Layout.padding).length < 2 ^ 32 := by
    rw [List.length_replicate]
    exact Nat.lt_of_le_of_lt (hn.trans (Nat.sub_le _ _)) (by decide)
  have hpadding : List.replicate n Layout.padding <+: List.replicate
      (Layout.headerLength - ((Header.bytes x.header).length + 4)) Layout.padding := by
    rw [← Nat.add_sub_of_le hn, List.replicate_add]
    exact List.prefix_append _ _
  refine load_iff_opened hx hstands hlt ?_
  rw [hbytes, Recorder.padded, Bytes.sized, List.length_replicate]
  simp only [List.append_assoc, List.prefix_append_right_inj]
  exact hpadding.trans (List.prefix_append _ _)

/-- **At every stage** a file is not opened, or is opened as the image in the end. -/
theorem Image.Stage.opened {x : Image} {contents : Contents} (h : x.Stage contents)
    (hx : x.Readable) {path : String} {settings : Settings} {b : Bag}
    (hload : Bag.load path settings contents = .ok b) : x.opened path settings = some b := by
  cases h with
  | reserved h =>
    rw [Bag.load_reserved h] at hload
    cases hload
  | headless h =>
    obtain ⟨e, herror⟩ := Bag.load_headless h path settings
    rw [herror] at hload
    cases hload
  | padded n hn hbytes => exact (Bag.load_padded hx (by omega) hbytes).1 hload

namespace Recorder

variable {x : Image} {header : FileHeader} {r r' : Recorder} {a : Account}

/-- Behind the place of the header, nothing that is written matters. -/
theorem shields_stages (x : Image) (c : Contents) (j : List Write) :
    Shields reservedFront.length fun t => t.Went x.Stage c j ∧ t.Starts reservedFront :=
  shields_went (fun _ => .reserved) c j

/-- While the tables are written, and the header is written over the one that kept its place. -/
theorem went_writeTables
    (hholds : t.Holds (Image.preamble FileHeader.placeholder ++ Image.chunkBlocks x.chunks))
    (hwent : t.Went x.Stage c j)
    (hrun : (writeTables x.connections ((Image.placed Layout.dataStart x.chunks).map closedAt)).run t =
      .ok header t') : t'.Went x.Stage c j := by
  have hfront : t.Starts reservedFront := by
    rw [Tape.Starts, hholds.bytes_eq, List.flatten_append]
    exact List.prefix_append _ _
  have hbehind : Behind reservedFront.length
      (fun t => t.Went x.Stage c j ∧ t.Starts reservedFront) { t with pos := t.size } :=
    ⟨⟨hwent.moved _, hfront⟩, shields_reservedFront.le_size t hfront⟩
  have hshields := shields_stages x c j
  have hsize : t.size = x.indexPos := by
    rw [hholds.size_eq, List.flatten_append, List.length_append, Image.length_preamble]
    rfl
  have hheader : ({
      indexPos := UInt64.ofNat t.size
      connCount := UInt32.ofNat x.connections.length
      chunkCount := UInt32.ofNat ((Image.placed Layout.dataStart x.chunks).map closedAt).length }
        : FileHeader) = x.header := by
    rw [hsize, List.length_map, Image.length_placed]
    rfl
  unfold writeTables at hrun
  rw [run_toEnd_bind] at hrun
  simp only [hheader] at hrun
  rw [← bind_assoc] at hrun
  obtain ⟨_, t₁, htables, hrest⟩ := run_bind_eq_ok hrun
  have hwent₁ : t₁.Went x.Stage c j :=
    (((Upholds.forM (Connection.upholds_write hshields) _).bind fun _ _ =>
      Upholds.forM (upholds_writeSummary hshields) _).gives _ _ _ htables hbehind).2.kept.1
  rcases writes_tables t.size x { t with pos := t.size } rfl (Nat.le_refl _) with
    ⟨-, t₁', htables', hputs⟩ | ⟨-, e, t₁', htables', -⟩
  · cases htables.symm.trans htables'
    obtain ⟨hholds₁, -⟩ := Holds.extend (t := { t with pos := t.size })
      ⟨hholds.bytes_eq, hholds.within⟩ rfl hputs
    rw [List.append_assoc] at hholds₁
    obtain ⟨_, t₂, hwrite, hpure⟩ := run_bind_eq_ok hrest
    cases hpure
    exact went_writeHeader hholds₁ hwent₁ hwrite (fun _ => .headless) fun _ n => .padded n
  · cases htables.symm.trans htables'

section
variable [Codec.Formats]

theorem Follows.starts (h : r.Follows a) : r.tape.Starts reservedFront := by
  rw [Tape.Starts, h.holds.bytes_eq, Account.blocks, Account.front, List.append_assoc,
    List.flatten_append]
  exact List.prefix_append _ _

/-- While the open chunk is closed, the header keeps its place. -/
theorem Follows.went_endChunk {u : Unit} (h : r.Follows a) (hrun : endChunk.run r = .ok u r')
    (hwent : r.tape.Went x.Stage c j) : r'.tape.Went x.Stage c j := by
  have hshields := shields_stages x c j
  rw [endChunk, h.run_checkWritable_bind, run_get_bind] at hrun
  split at hrun
  · cases hrun
  · next chunk hchunk =>
    have hbeyond : reservedFront.length ≤ chunk.recordPos := by
      rcases hb : a.current with - | b
      · rw [h.idle hb] at hchunk
        cases hchunk
      · obtain ⟨chunk', hchunk', hd⟩ := h.busy b hb
        cases hchunk.symm.trans hchunk'
        rw [hd.recordPos, length_reservedFront]
        exact Nat.le_add_right _ _
    have hbehind : Behind reservedFront.length
        (fun t => t.Went x.Stage c j ∧ t.Starts reservedFront) r.tape :=
      ⟨⟨hwent, h.starts⟩, h.atEnd ▸ shields_reservedFront.le_size _ h.starts⟩
    obtain ⟨_, r₁, hwrite, hmodify⟩ := run_bind_eq_ok (of_guarded_ok hrun)
    cases hmodify
    rw [run_onTape] at hwrite
    split at hwrite
    · next t hop =>
      cases hwrite
      exact ((upholds_writeChunk hshields hbeyond).gives _ _ _ hop hbehind).2.kept.1
    · cases hwrite

theorem Follows.went_tables (h : r.Follows a) (hidle : a.current = none)
    (hrun : (guarded do
        let r ← get
        let header ← onTape (writeTables r.connections r.chunks)
        modify fun r => { r with phase := .finalized }
        return header).run r = .ok header r')
    (hwent : r.tape.Went a.image.Stage c j) : r'.tape.Went a.image.Stage c j := by
  have hblocks : a.blocks = Image.preamble FileHeader.placeholder ++
      Image.chunkBlocks a.image.chunks := by simp [Account.blocks, Account.front, hidle, Account.image]
  have hstep := of_guarded_ok hrun
  rw [run_get_bind] at hstep
  obtain ⟨_, r₁, hwrite, hmodify⟩ := run_bind_eq_ok hstep
  cases hmodify
  rw [run_onTape, h.chunks, h.connections] at hwrite
  split at hwrite
  · next t hop =>
    cases hwrite
    exact went_writeTables (hblocks ▸ h.holds) hwent hop
  · cases hwrite

/-- **While a bag is finalized**, its file goes through the stages of its image. -/
theorem Follows.went_finalize (h : r.Follows a) (hrun : finalize.run r = .ok header r') :
    r'.tape.Went a.close.image.Stage r.tape.contents r.tape.journal := by
  have hstart : r.tape.Went a.close.image.Stage r.tape.contents r.tape.journal :=
    went_start (.reserved h.starts)
  rw [finalize, h.run_checkWritable_bind, run_get_bind] at hrun
  rcases hb : a.current with - | b
  · rw [h.idle hb, if_neg (by simp)] at hrun
    rw [Account.close_of_idle hb] at hstart ⊢
    exact h.went_tables hb hrun hstart
  · obtain ⟨chunk, hchunk, -⟩ := h.busy b hb
    rw [hchunk, if_pos Option.isSome_some] at hrun
    obtain ⟨_, r₁, hclose, htables⟩ := run_bind_eq_ok hrun
    have hends := h.run_endChunk
    rw [hclose, hb] at hends
    obtain ⟨-, a', ha, h₁⟩ := hends
    cases ha
    exact h₁.went_tables rfl htables (h.went_endChunk hclose hstart)

/-! ## Sessions that can be ended -/

/-- A recorder that has ended its bag, or was given up, does nothing more. -/
theorem afterMoves_of_done (h : r.phase = .finalized ∨ r.phase = .failed) (moves : List Move) :
    r.afterMoves moves = r := by
  have hafter : ∀ q : Request, q.after r = r := by
    intro q
    rcases h with h | h
    · exact after_finalized h q
    · have hcheck : checkWritable.run r = .error (.writer .abandoned) r := by
        rw [checkWritable, run_get_bind, h]
        rfl
      rw [Request.after, run_unwritable hcheck (by rw [h]; rfl) q]
  induction moves with
  | nil => rfl
  | cons m ms ih =>
    rw [afterMoves, List.foldl_cons, hafter]
    exact ih

theorem phase_of_finalize (hrun : finalize.run r = .ok header r') : r'.phase = .finalized := by
  have htables : ∀ {r r' : Recorder}, (guarded do
        let r ← get
        let header ← onTape (writeTables r.connections r.chunks)
        modify fun r => { r with phase := .finalized }
        return header).run r = .ok header r' → r'.phase = .finalized := by
    intro r r' hrun
    have hstep := of_guarded_ok hrun
    rw [run_get_bind] at hstep
    obtain ⟨_, r₁, -, hmodify⟩ := run_bind_eq_ok hstep
    cases hmodify
    rfl
  obtain ⟨_, r₁, -, hrest⟩ := run_bind_eq_ok hrun
  rw [run_get_bind] at hrest
  split at hrest
  · obtain ⟨_, r₂, -, hrest⟩ := run_bind_eq_ok hrest
    exact htables hrest
  · exact htables hrest

/-- A session that has not come to an end amounts to its calls. -/
theorem afterMoves_eq_after {moves : List Move}
    (h : ¬((r.afterMoves moves).phase = .finalized ∨ (r.afterMoves moves).phase = .failed)) :
    ∃ calls, r.afterMoves moves = r.after calls := by
  induction moves generalizing r with
  | nil => exact ⟨[], rfl⟩
  | cons m ms ih =>
    rw [afterMoves, List.foldl_cons] at h ⊢
    obtain ⟨calls, hcalls⟩ := ih h
    obtain ⟨⟨c⟩ | -, inserted⟩ := m
    · refine ⟨c :: calls, ?_⟩
      rw [after, List.foldl_cons, ← Request.after_call]
      exact hcalls
    · -- the bag was not ended by this request, which has changed nothing then
      have hsame : Request.finalize.after r = r := by
        have hdone : ∀ {r₁}, Request.finalize.after r = r₁ →
            ¬(r₁.phase = .finalized ∨ r₁.phase = .failed) := by
          rintro r₁ rfl hphase
          refine h ?_
          rw [← afterMoves, afterMoves_of_done hphase]
          exact hphase
        rcases hrun : finalize.run r with ⟨header, r₁⟩ | ⟨e, r₁⟩
        · have hafter : Request.finalize.after r = r₁ := by
            simp only [Request.after, Request.run, EStateM.run_bind, hrun]
            rfl
          exact absurd (.inl (phase_of_finalize hrun)) (hdone hafter)
        · have hafter : Request.finalize.after r = r₁ := by
            simp only [Request.after, Request.run, EStateM.run_bind, hrun]
          rcases settles_finalize _ _ _ hrun with ⟨-, hsame⟩ | ⟨-, hphase⟩
          · rw [hafter, hsame]
          · exact absurd (.inr hphase) (hdone hafter)
      rw [hsame] at hcalls
      exact ⟨calls, hsame.symm ▸ hcalls⟩

/-- **A bag is finalized at once**, as far as a reader can tell.  From wherever a session has come,
    ending the bag is a number of writes; and whichever of them is the last, the file is not opened
    at all, or is opened as the same bag as in the end, its connections, chunks and index
    included.  Positions are signed 64-bit numbers where a file is read. -/
theorem finalize_all_or_nothing {settings : Settings} {r₀ : Recorder} {moves : List Move}
    (hcreate : create settings = .ok r₀)
    (hrun : finalize.run (r₀.afterMoves moves) = .ok header r) (hsize : r.tape.size < 2 ^ 63) :
    ∃ writes : List Write,
      r.tape.journal = writes.reverse ++ (r₀.afterMoves moves).tape.journal ∧
      r.tape.contents = Tape.after (r₀.afterMoves moves).tape.contents writes ∧
      ∀ (k : Nat) (path : String) (reading : Settings) (b : Bag),
        Bag.load path reading
            (Tape.after (r₀.afterMoves moves).tape.contents (writes.take k)) = .ok b →
          Bag.load path reading r.tape.contents = .ok b := by
  have hgoes : ¬((r₀.afterMoves moves).phase = .finalized ∨
      (r₀.afterMoves moves).phase = .failed) := by
    rintro (hphase | hphase)
    · rw [finalize, EStateM.run_bind, checkWritable, run_get_bind, hphase] at hrun
      cases hrun
    · rw [finalize_failed hphase] at hrun
      cases hrun
  obtain ⟨calls, hcalls⟩ := afterMoves_eq_after hgoes
  rw [hcalls] at hrun ⊢
  have hf := follows_of_create hcreate
  obtain ⟨hfits, -, hholds, -, -, -⟩ := hf.of_finalize calls hrun
  have hbytes : r.tape.contents.bytes =
      ((Account.start settings).after calls).close.image.bytes := hholds.bytes_eq
  rw [← Tape.length_bytes, hholds.bytes_eq] at hsize
  have hreadable := (Account.closed_after hfits hsize).readable
  obtain ⟨writes, hjournal, hcontents, hstages⟩ := (hf.before_finalize calls hrun).1.went_finalize hrun
  refine ⟨writes, hjournal, hcontents, fun k path reading b hload => ?_⟩
  have hopened := (hstages k).opened hreadable hload
  exact (Bag.load_padded hreadable (Nat.le_refl _) (hbytes.trans (Image.bytes_padded _))).2 hopened

end

/-- The sample is finalized at once, by more than one write. -/
theorem finalize_all_or_nothing_sample : ∃ (r₀ : Recorder) (header : FileHeader) (r : Recorder)
    (writes : List Write), create .default = .ok r₀ ∧
      finalize.run (r₀.afterMoves (sampleCalls.map fun c => ⟨.call c, false⟩)) = .ok header r ∧
      r.tape.size < 2 ^ 63 ∧
      r.tape.contents = Tape.after
        (r₀.afterMoves (sampleCalls.map fun c => ⟨.call c, false⟩)).tape.contents writes ∧
      ∀ (k : Nat) (b : Bag), Bag.load "" .default (Tape.after
        (r₀.afterMoves (sampleCalls.map fun c => ⟨.call c, false⟩)).tape.contents
          (writes.take k)) = .ok b → Bag.load "" .default r.tape.contents = .ok b := by
  obtain ⟨r₀, header, r, hcreate, hrun, -, -, hsize⟩ := sample_finalized
  have hcalls : r₀.afterMoves (sampleCalls.map fun c => ⟨.call c, false⟩) = r₀.after sampleCalls := by
    rw [afterMoves, List.foldl_map, after]
    simp only [Request.after_call]
  have hlt : r.tape.size < 2 ^ 63 := by omega
  rw [← hcalls] at hrun
  obtain ⟨writes, -, hcontents, hload⟩ := finalize_all_or_nothing hcreate hrun hlt
  exact ⟨r₀, header, r, writes, hcreate, hrun, hlt, hcontents, fun k b => hload k "" .default b⟩

end Recorder

end BagFile
