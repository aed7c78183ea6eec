/-
  Which message an entry of the index points at.

  * `Sized.Leads`: some bytes begin with a whole block; from a cursor this is what reading it, or
    passing over it, comes to (`Cursor.readSized_eq_ok_iff`, `Cursor.skipSized_eq_ok_iff`);
  * `RawMessage.Passes k` and `RawMessage.Stands` say what the bytes behind an offset are made of:
    `k` records of connections, and then a message.  Neither knows of a cursor;
  * `RawMessage.ofChunk_eq_ok_iff` ties them to the search.  `Passes.run_atCursor` goes over the
    records of connections, `RawMessage.atCursor_enough` says that its bound is never met;
  * `Fetcher.resolve_eq_ok_iff`: so an entry is resolved exactly if such records stand where it
    points, whatever the contents of its chunk are.
-/
import BagFile.Codec.InMemory
import BagFile.Proofs.Fetching
import BagFile.Proofs.Outcomes
import BagFile.Proofs.RecordReading

namespace BagFile

open Source

/-! ## Blocks -/

/-- Some bytes begin with a block of `d`, and `after` stands behind it. -/
def Sized.Leads (d : Dense) (bs after : Bytes) : Prop :=
  d.size < 2 ^ 32 ∧ bs = Bytes.sized d.bytes ++ after

namespace Sized

variable {d : Dense} {bs after : Bytes}

theorem Leads.length_eq (h : Leads d bs after) : bs.length = 4 + d.size + after.length := by
  rw [h.2, List.length_append, Bytes.length_sized, Dense.length_bytes]

/-- Behind a block that is ahead there is what stands behind it. -/
theorem Leads.rest_move {σ : Type} [Source σ] {s : σ} (h : Leads d (rest s) after) :
    rest (move s (4 + d.size)) = after := by
  have hlength : (Bytes.sized d.bytes).length = 4 + d.size := by
    rw [Bytes.length_sized, Dense.length_bytes]
  rw [Source.rest_move, h.2, List.drop_left' hlength]

/-- Bytes begin with a block, if with its length and its bytes. -/
theorem leads_of_take {len : UInt32} (hlen : bs.take 4 = Bytes.ofNat 4 len.toNat)
    (hd : d.bytes = (bs.drop 4).take len.toNat) (hsize : d.size = len.toNat) :
    Leads d bs (bs.drop (4 + d.size)) := by
  refine ⟨hsize ▸ len.toNat_lt, ?_⟩
  rw [Bytes.sized, Dense.length_bytes, hsize, ← hlen, hd, ← List.drop_drop, List.append_assoc,
    List.take_append_drop, List.take_append_drop]

end Sized

namespace Cursor

variable {c c' : Cursor} {d : Dense} {n : Nat}

theorem length_rest (c : Cursor) : (rest c).length = c.remaining := by
  show (c.data.bytes.drop c.pos).length = _
  rw [List.length_drop, Dense.length_bytes]
  rfl

theorem of_skip {u : Unit} (h : (skip n).run c = .ok u c') :
    n ≤ (rest c).length ∧ c' = move c n := by
  rw [EStateM.run, skip] at h
  split at h
  · cases h
  · next hn =>
    cases h
    exact ⟨by rw [length_rest]; omega, rfl⟩

theorem of_take (h : (take n).run c = .ok d c') :
    d.size = n ∧ d.bytes = (rest c).take n ∧ c' = move c n := by
  rw [take, run_get_bind] at h
  obtain ⟨u, c₁, hskip, hrest⟩ := run_bind_eq_ok h
  obtain ⟨hn, rfl⟩ := of_skip hskip
  cases hrest
  have hbytes : (c.data.slice c.pos n).bytes = (rest c).take n := Dense.bytes_slice _ _ _
  refine ⟨?_, hbytes, rfl⟩
  rw [← Dense.length_bytes, hbytes, List.length_take, Nat.min_eq_left hn]

theorem of_readLength {len : UInt32} (h : readWord.run c = .ok len c') :
    c' = move c 4 ∧ (rest c).take 4 = Bytes.ofNat 4 len.toNat := by
  obtain ⟨d, c₁, htake, hdecode⟩ := run_bind_eq_ok h
  obtain ⟨hsize, hbytes, rfl⟩ := of_take htake
  rcases hd : (Word.decode d : Except Error UInt32) with e | a
  · rw [hd] at hdecode
    cases hdecode
  · rw [hd] at hdecode
    cases hdecode
    exact ⟨rfl, hbytes ▸ Word.bytes_of_decode hsize hd⟩

/-- **Reading a block** gives the one that is ahead, and goes behind it. -/
theorem readSized_eq_ok_iff : readSized.run c = .ok d c' ↔
    Sized.Leads d (rest c) (rest c') ∧ c' = move c (4 + d.size) := by
  constructor
  · intro h
    obtain ⟨len, c₁, hlen, htake⟩ := run_bind_eq_ok h
    obtain ⟨rfl, hlength⟩ := of_readLength hlen
    obtain ⟨hsize, hbytes, rfl⟩ := of_take htake
    rw [rest_move] at hbytes
    rw [move_move, ← hsize, rest_move]
    exact ⟨Sized.leads_of_take hlength hbytes hsize, rfl⟩
  · rintro ⟨⟨hlt, hrest⟩, rfl⟩
    rw [reads_sized c hlt (hrest ▸ List.prefix_append _ _), Bytes.length_sized, Dense.length_bytes]

/-- **Passing over a block** does so with the one that is ahead. -/
theorem skipSized_eq_ok_iff {u : Unit} : skipSized.run c = .ok u c' ↔
    ∃ d, Sized.Leads d (rest c) (rest c') ∧ c' = move c (4 + d.size) := by
  constructor
  · intro h
    obtain ⟨len, c₁, hlen, hskip⟩ := run_bind_eq_ok h
    obtain ⟨rfl, hlength⟩ := of_readLength hlen
    obtain ⟨hn, rfl⟩ := of_skip hskip
    rw [rest_move] at hn
    have hsize : (Dense.ofBytes (((rest c).drop 4).take len.toNat)).size = len.toNat := by
      rw [Dense.size_ofBytes, List.length_take, Nat.min_eq_left hn]
    rw [move_move, ← hsize, rest_move]
    exact ⟨_, Sized.leads_of_take hlength (Dense.bytes_ofBytes _) hsize, rfl⟩
  · rintro ⟨d, hd⟩
    -- it goes where reading the block would go
    obtain ⟨len, c₁, hlen, htake⟩ := run_bind_eq_ok (readSized_eq_ok_iff.2 hd)
    rw [take, run_get_bind] at htake
    obtain ⟨u, c₂, hskip, hend⟩ := run_bind_eq_ok htake
    cases hend
    rw [skipSized, EStateM.run_bind, hlen]
    exact hskip

theorem run_readSized {after : Bytes} (h : Sized.Leads d (rest c) after) :
    ∃ c', readSized.run c = .ok d c' ∧ rest c' = after := by
  have hmove := h.rest_move
  exact ⟨_, readSized_eq_ok_iff.2 ⟨hmove.symm ▸ h, rfl⟩, hmove⟩

theorem run_skipSized {after : Bytes} (h : Sized.Leads d (rest c) after) :
    ∃ c', skipSized.run c = .ok ⟨⟩ c' ∧ rest c' = after := by
  have hmove := h.rest_move
  exact ⟨_, skipSized_eq_ok_iff.2 ⟨d, hmove.symm ▸ h, rfl⟩, hmove⟩

end Cursor

/-! ## Records in chunks -/

namespace RawMessage

/-- Some bytes begin with the header of a record of a kind, and `after` stands behind it. -/
def Heads (block : Fields) (kind : Kind) (bs after : Bytes) : Prop :=
  ∃ body, Sized.Leads body bs after ∧ Fields.decode body = .ok block ∧ block.kind = .ok kind

/-- Some bytes begin with so many records of connections, and `rest` stands behind them. -/
inductive Passes : Nat → Bytes → Bytes → Prop
  | none (bs : Bytes) : Passes 0 bs bs
  | record {k : Nat} {block : Fields} {data : Dense} {bs mid after rest : Bytes} :
      Heads block .connection bs mid → Sized.Leads data mid after → Passes k after rest →
        Passes (k + 1) bs rest

/-- Some bytes begin with the record of a message: a header of that kind that says its connection
    and its time, and a block with its payload. -/
def Stands (m : RawMessage) (bs : Bytes) : Prop :=
  ∃ block mid after, Heads block .messageData bs mid ∧ block.requireWord "conn" = .ok m.conn ∧
    block.requireTime "time" = .ok m.time ∧ Sized.Leads m.data mid after

variable {c c' : Cursor} {m : RawMessage} {block : Fields} {kind : Kind} {k n : Nat}
  {bs after : Bytes}

theorem Heads.length_le (h : Heads block kind bs after) : 4 + after.length ≤ bs.length := by
  obtain ⟨body, hleads, -⟩ := h
  rw [hleads.length_eq]
  omega

/-- A record takes eight bytes at least. -/
theorem Passes.length_le (h : Passes k bs after) : 8 * k + after.length ≤ bs.length := by
  induction h with
  | none bs => omega
  | record hhead hdata _ ih =>
    have hle := hhead.length_le
    rw [hdata.length_eq] at hle
    omega

/-! ### Headers -/

theorem of_readCursor (h : Fields.readCursor.run c = .ok block c') (hkind : block.kind = .ok kind) :
    Heads block kind (rest c) (rest c') := by
  obtain ⟨body, c₁, hread, hdecode⟩ := run_bind_eq_ok h
  obtain ⟨hleads, rfl⟩ := Cursor.readSized_eq_ok_iff.1 hread
  rcases hd : Fields.decode body with e | f
  · rw [hd] at hdecode
    cases hdecode
  · rw [hd] at hdecode
    cases hdecode
    exact ⟨body, hleads, hd, hkind⟩

/-- The header of a record is read where it stands. -/
theorem Heads.run_readCursor (h : Heads block kind (rest c) after) :
    ∃ c', Fields.readCursor.run c = .ok block c' ∧ rest c' = after := by
  obtain ⟨body, hleads, hdecode, -⟩ := h
  obtain ⟨c', hread, hrest⟩ := Cursor.run_readSized hleads
  refine ⟨c', ?_, hrest⟩
  rw [Fields.readCursor, EStateM.run_bind, hread]
  simp only [hdecode]
  rfl

theorem contains_of_require {name : String} {v : Dense} (h : block.require name = .ok v) :
    block.contains name = true := by
  rw [Fields.require] at h
  split at h
  · next hget => rw [Fields.contains, hget, Option.isSome_some]
  · cases h

/-- A header of a message has both of its fields, and is then taken for what they say. -/
theorem ofFields_eq_ok_iff {header : MessageHeader} (hkind : block.kind = .ok .messageData) :
    (Header.ofFields block : Except Error MessageHeader) = .ok header ↔
      block.requireWord "conn" = .ok header.conn ∧ block.requireTime "time" = .ok header.time := by
  constructor
  · intro h
    obtain ⟨_, -, hproject⟩ := bind_eq_ok h
    obtain ⟨conn, hconn, hrest⟩ := bind_eq_ok hproject
    obtain ⟨time, htime, hheader⟩ := bind_eq_ok hrest
    cases hheader
    exact ⟨hconn, htime⟩
  · rintro ⟨hconn, htime⟩
    have hexpect : block.expectKind .messageData = .ok ⟨⟩ := by
      rw [Fields.expectKind, hkind]
      rfl
    have hcomplete :
        Kind.messageData.required.find? (fun name => !block.contains name) = none := by
      obtain ⟨v, hv, -⟩ := bind_eq_ok hconn
      obtain ⟨w, hw, -⟩ := bind_eq_ok htime
      rw [List.find?_eq_none]
      simp [Kind.required, contains_of_require hv, contains_of_require hw]
    have hcheck : Header.check .messageData block = .ok ⟨⟩ := by
      rw [Header.check, hexpect, hcomplete]
      rfl
    have hofFields : (Header.ofFields block : Except Error MessageHeader) =
        Header.project block := by
      show (Header.check .messageData block >>= fun _ => Header.project block) = _
      rw [hcheck]
      rfl
    rw [hofFields]
    simp only [Header.project, hconn, htime]
    rfl

/-! ### Records as they are written -/

theorem heads_written {f : Fields} (hf : Fields.Named (f.entries.map Prod.fst))
    (hl : f.bodyLength < 2 ^ 32) (hkind : f.kind = .ok kind) (after : Bytes) :
    Heads f kind (f.bytes ++ after) after :=
  ⟨.ofBytes f.body, ⟨by rwa [Fields.size_body], by rw [Dense.bytes_ofBytes, Fields.bytes]⟩,
    Fields.decode_body hf hl, hkind⟩

/-- The record of a connection is one to pass over. -/
theorem passes_written {x : Connection} (h : x.Fits) (after : Bytes) :
    Passes 1 (x.blocks.flatten ++ after) after := by
  have hheader := ConnectionHeader.readable h.1
  rw [Connection.blocks, List.flatten_cons, List.flatten_singleton, List.append_assoc]
  have hdata : Sized.Leads (.ofBytes x.dataFields.body) (x.dataFields.bytes ++ after) after := by
    refine ⟨?_, ?_⟩
    · rw [Fields.size_body]
      exact h.2
    · rw [Dense.bytes_ofBytes, Fields.bytes]
  exact .record (heads_written hheader.named hheader.fits rfl _) hdata (.none after)

/-- The record of a message stands where it is written. -/
theorem stands_written (h : m.data.size < 2 ^ 32) (after : Bytes) :
    m.Stands (m.bytes ++ after) := by
  have hheader := MessageHeader.readable m.header
  have hmessage := (ofFields_eq_ok_iff rfl).1 hheader.ofFields
  rw [bytes, List.append_assoc]
  have hheads := heads_written hheader.named hheader.fits rfl (Bytes.sized m.data.bytes ++ after)
  exact ⟨_, _, after, hheads, hmessage.1, hmessage.2, h, rfl⟩

/-! ### The search -/

/-- One record further: a connection's is passed over. -/
theorem run_atCursor_connection {c₁ c₂ : Cursor} (hblock : Fields.readCursor.run c = .ok block c₁)
    (hkind : block.kind = .ok .connection) (hskip : Cursor.skipSized.run c₁ = .ok ⟨⟩ c₂) (n : Nat) :
    (atCursor (n + 1)).run c = (atCursor n).run c₂ := by
  rw [atCursor, EStateM.run_bind, hblock]
  simp only
  rw [run_ofExcept_ok_bind hkind, EStateM.run_bind, hskip]

/-- Records of connections are passed over, one for each that is allowed. -/
theorem Passes.run_atCursor (h : Passes k (rest c) bs) :
    ∃ c', rest c' = bs ∧ ∀ n, (atCursor (n + k)).run c = (atCursor n).run c' := by
  generalize hc : rest c = front at h
  induction h generalizing c with
  | none bs => exact ⟨c, hc, fun n => rfl⟩
  | record hhead hdata hpasses ih =>
    subst hc
    obtain ⟨c₁, hblock, rfl⟩ := hhead.run_readCursor
    obtain ⟨c₂, hskip, hrest⟩ := Cursor.run_skipSized hdata
    obtain ⟨c', hc', hrun⟩ := ih hrest
    obtain ⟨-, -, -, hkind⟩ := hhead
    exact ⟨c', hc', fun n => (run_atCursor_connection hblock hkind hskip _).trans (hrun n)⟩

/-- A message that is found has its record behind records of connections. -/
theorem of_atCursor : ∀ {n : Nat} {c c' : Cursor}, (atCursor n).run c = .ok m c' →
    ∃ k bs, Passes k (rest c) bs ∧ m.Stands bs
  | 0, c, c', h => by cases h
  | n + 1, c, c', h => by
    obtain ⟨block, c₁, hblock, hkinds⟩ := run_bind_eq_ok h
    rcases hkind : block.kind with e | kind
    · rw [hkind] at hkinds
      cases hkinds
    · rw [run_ofExcept_ok_bind hkind] at hkinds
      have hheads := of_readCursor hblock hkind
      cases kind with
      | connection =>
        obtain ⟨u, c₂, hskip, hrest⟩ := run_bind_eq_ok hkinds
        obtain ⟨data, hdata, -⟩ := Cursor.skipSized_eq_ok_iff.1 hskip
        obtain ⟨k, bs, hpasses, hstands⟩ := of_atCursor hrest
        exact ⟨k + 1, bs, .record hheads hdata hpasses, hstands⟩
      | messageData =>
        obtain ⟨header, c₂, hof, hrest⟩ := run_bind_eq_ok hkinds
        rcases hheader : (Header.ofFields block : Except Error MessageHeader) with e | header'
        · rw [hheader] at hof
          cases hof
        · rw [hheader] at hof
          cases hof
          obtain ⟨data, c₃, hread, hend⟩ := run_bind_eq_ok hrest
          obtain ⟨hdata, -⟩ := Cursor.readSized_eq_ok_iff.1 hread
          obtain ⟨hconn, htime⟩ := (ofFields_eq_ok_iff hkind).1 hheader
          cases hend
          exact ⟨0, _, .none _, block, _, _, hheads, hconn, htime, hdata⟩
      | header | indexData | chunk | chunkInfo => cases hkinds

/-- A message is found where its record stands. -/
theorem Stands.run_atCursor (h : m.Stands (rest c)) (n : Nat) :
    ∃ c', (atCursor (n + 1)).run c = .ok m c' := by
  obtain ⟨block, mid, after, hhead, hconn, htime, hdata⟩ := h
  obtain ⟨c₁, hblock, rfl⟩ := hhead.run_readCursor
  obtain ⟨c₂, hread, -⟩ := Cursor.run_readSized hdata
  obtain ⟨-, -, -, hkind⟩ := hhead
  have hheader : (Header.ofFields block : Except Error MessageHeader) = .ok m.header :=
    (ofFields_eq_ok_iff hkind).2 ⟨hconn, htime⟩
  refine ⟨c₂, ?_⟩
  rw [atCursor, EStateM.run_bind, hblock]
  simp only
  rw [run_ofExcept_ok_bind hkind]
  simp only
  rw [run_ofExcept_ok_bind hheader, EStateM.run_bind, hread]
  rfl

/-- A record of another kind ends the search. -/
theorem Heads.run_atCursor (h : Heads block kind (rest c) after) (hconnection : kind ≠ .connection)
    (hmessage : kind ≠ .messageData) (n : Nat) :
    ∃ c', (atCursor (n + 1)).run c = .error (.unexpectedKind .messageData kind) c' := by
  obtain ⟨c₁, hblock, -⟩ := h.run_readCursor
  obtain ⟨-, -, -, hkind⟩ := h
  refine ⟨c₁, ?_⟩
  rw [atCursor, EStateM.run_bind, hblock]
  simp only
  rw [run_ofExcept_ok_bind hkind]
  cases kind with
  | connection => exact absurd rfl hconnection
  | messageData => exact absurd rfl hmessage
  | header | indexData | chunk | chunkInfo => rfl

/-- **The bound on the search is never met**: each record takes eight bytes, so with one more
    allowed than there is room for, it makes no difference how many more are. -/
theorem atCursor_enough : ∀ {n : Nat} {c : Cursor}, (rest c).length < 8 * n → ∀ j,
    (atCursor (n + j)).run c = (atCursor n).run c
  | 0, _, h, _ => absurd h (Nat.not_lt_zero _)
  | n + 1, c, h, j => by
    rw [Nat.add_right_comm, atCursor, atCursor, EStateM.run_bind, EStateM.run_bind]
    rcases hblock : Fields.readCursor.run c with ⟨block, c₁⟩ | ⟨e, c₁⟩
    · simp only
      rcases hkind : block.kind with e | kind
      · rfl
      · rw [run_ofExcept_ok_bind rfl, run_ofExcept_ok_bind rfl]
        cases kind with
        | connection =>
          rw [EStateM.run_bind, EStateM.run_bind]
          rcases hskip : Cursor.skipSized.run c₁ with ⟨u, c₂⟩ | ⟨e, c₂⟩
          · obtain ⟨data, hdata, -⟩ := Cursor.skipSized_eq_ok_iff.1 hskip
            have hheader := (of_readCursor hblock hkind).length_le
            have hlength := hdata.length_eq
            exact atCursor_enough (by omega) j
          · rfl
        | _ => rfl
    · rfl

/-! ### Offsets -/

variable {contents : Dense} {offset : Nat}

/-- The search from an offset, with so many records allowed. -/
theorem ofChunk_of_le (h : offset ≤ contents.size) : ofChunk contents offset =
    match (atCursor (contents.size / 8 + 1)).run ⟨contents, offset⟩ with
    | .ok m _ => .ok m
    | .error e _ => .error e := by
  have hseek : (Cursor.seek offset).run (.start contents) = .ok ⟨⟩ ⟨contents, offset⟩ := by
    rw [EStateM.run, Cursor.seek, Cursor.start, if_neg (Nat.not_lt_of_le h)]
  unfold ofChunk
  rcases hrun : (atCursor (contents.size / 8 + 1)).run ⟨contents, offset⟩ with ⟨m, c⟩ | ⟨e, c⟩ <;>
    simp only [EStateM.run_bind, hseek, hrun]

theorem ofChunk_of_lt (h : contents.size < offset) :
    ofChunk contents offset = .error (.truncated offset contents.size) := by
  have hseek : (Cursor.seek offset).run (.start contents) =
      .error (.truncated offset contents.size) (.start contents) := by
    rw [EStateM.run, Cursor.seek, Cursor.start, if_pos h]
  rw [ofChunk, EStateM.run_bind, hseek]

/-- What is passed over leaves one more record allowed. -/
theorem Passes.run_search (h : Passes k (contents.bytes.drop offset) bs) :
    ∃ c' n, rest c' = bs ∧ (atCursor (contents.size / 8 + 1)).run ⟨contents, offset⟩ =
      (atCursor (n + 1)).run c' := by
  have hlength : (contents.bytes.drop offset).length = contents.size - offset := by
    rw [List.length_drop, Dense.length_bytes]
  have hle := h.length_le
  have hpasses : Passes k (rest (⟨contents, offset⟩ : Cursor)) bs := h
  obtain ⟨c', hrest, hrun⟩ := hpasses.run_atCursor
  obtain ⟨n, hn⟩ : ∃ n, contents.size / 8 + 1 = n + 1 + k := ⟨contents.size / 8 - k, by omega⟩
  exact ⟨c', n, hrest, hn ▸ hrun (n + 1)⟩

/-- **An offset points at the message whose record stands there**, behind records of connections,
    and at no other. -/
theorem ofChunk_eq_ok_iff : ofChunk contents offset = .ok m ↔
    offset ≤ contents.size ∧ ∃ k bs, Passes k (contents.bytes.drop offset) bs ∧ m.Stands bs := by
  constructor
  · intro h
    have hle : offset ≤ contents.size := by
      refine Nat.le_of_not_lt fun hlt => ?_
      rw [ofChunk_of_lt hlt] at h
      cases h
    rw [ofChunk_of_le hle] at h
    split at h
    · next m' c' hrun =>
      cases h
      exact ⟨hle, of_atCursor hrun⟩
    · cases h
  · rintro ⟨hle, k, bs, hpasses, hstands⟩
    obtain ⟨c', n, rfl, hrun⟩ := hpasses.run_search
    obtain ⟨c'', hfound⟩ := hstands.run_atCursor n
    rw [ofChunk_of_le hle, hrun, hfound]

/-- An offset that leads to a record of another kind points at nothing. -/
theorem ofChunk_eq_error (hle : offset ≤ contents.size)
    (hpasses : Passes k (contents.bytes.drop offset) bs) (hheads : Heads block kind bs after)
    (hconnection : kind ≠ .connection) (hmessage : kind ≠ .messageData) :
    ofChunk contents offset = .error (.unexpectedKind .messageData kind) := by
  obtain ⟨c', n, rfl, hrun⟩ := hpasses.run_search
  obtain ⟨c'', hfound⟩ := hheads.run_atCursor hconnection hmessage n
  rw [ofChunk_of_le hle, hrun, hfound]

end RawMessage

/-! ## Entries -/

namespace Fetcher

section
variable [Codec.Formats] {source : Stream} {chunks : List Chunk} {f f' : Fetcher} {e : Entry}
  {contents : Dense}

/-- A fetcher gives the contents of the chunk that it read last, whatever they are. -/
theorem run_chunkData_last (source : Stream) (chunks : List Chunk) (cache : Option Cache)
    (pos : UInt64) (contents : Dense) :
    (chunkData source chunks pos).run ⟨cache, some (.start pos contents)⟩ =
      .ok contents ⟨cache, some (.start pos contents)⟩ := by
  have hlast : (some (Loaded.start pos contents)).filter (fun l => decide (l.pos = pos)) =
      some (.start pos contents) := by
    have hpos : (Loaded.start pos contents).pos = pos := rfl
    rw [Option.filter_some, if_pos (decide_eq_true hpos)]
  have hchunk : (chunkAt source chunks pos).run ⟨cache, some (.start pos contents)⟩ =
      .ok (.start pos contents) ⟨cache, some (.start pos contents)⟩ := by
    rw [chunkAt, run_get_bind]
    simp only [hlast]
    rfl
  rw [chunkData, EStateM.run_bind, hchunk]
  rfl

/-- The contents that a fetcher gives are those in which it looks. -/
theorem run_resolve_of_chunkData
    (h : (chunkData source chunks e.chunkPos).run f = .ok contents f') :
    ∃ f'', (resolve source chunks e).run f =
      match RawMessage.ofChunk contents e.offset.toNat with
      | .ok m => .ok m f''
      | .error x => .error x f'' := by
  obtain ⟨l, f₁, hchunk, hmodify⟩ := run_bind_eq_ok h
  cases hmodify
  have hmessage := l.lookUp_fst e.offset.toNat
  rcases hl : l.lookUp e.offset.toNat with ⟨message, chunk⟩
  rw [hl] at hmessage
  refine ⟨{ f₁ with last := some chunk }, ?_⟩
  rw [resolve, EStateM.run_bind, hchunk, ← hmessage]
  simp only [hl]
  rcases message with x | m <;> rfl

/-- **An entry is resolved exactly if a message stands where it points.**  Let a fetcher give some
    contents for the entry's chunk.  It then gives a message just if the entry's offset is not
    behind them, and from there on they begin with any number of records of connections and then
    the record of that message.  If the record behind those of connections is of another kind, it
    says so.  The search through the contents goes as far as there are records: allowing more of
    them changes nothing. -/
theorem resolve_eq_ok_iff (h : (chunkData source chunks e.chunkPos).run f = .ok contents f') :
    (∀ m, (∃ f'', (resolve source chunks e).run f = .ok m f'') ↔
      e.offset.toNat ≤ contents.size ∧ ∃ k bs,
        RawMessage.Passes k (contents.bytes.drop e.offset.toNat) bs ∧ m.Stands bs) ∧
    (∀ k bs block kind after, e.offset.toNat ≤ contents.size →
      RawMessage.Passes k (contents.bytes.drop e.offset.toNat) bs →
      RawMessage.Heads block kind bs after → kind ≠ .connection → kind ≠ .messageData →
        ∃ f'', (resolve source chunks e).run f = .error (.unexpectedKind .messageData kind) f'') ∧
    ∀ c j, c.data = contents → (RawMessage.atCursor (contents.size / 8 + 1 + j)).run c =
      (RawMessage.atCursor (contents.size / 8 + 1)).run c := by
  obtain ⟨f'', hrun⟩ := run_resolve_of_chunkData h
  refine ⟨fun m => ?_, fun k bs block kind after hle hpasses hheads hconnection hmessage => ?_,
    fun c j hc => RawMessage.atCursor_enough ?_ j⟩
  · rw [← RawMessage.ofChunk_eq_ok_iff, hrun]
    rcases RawMessage.ofChunk contents e.offset.toNat with x | m' <;> simp
  · rw [hrun, RawMessage.ofChunk_eq_error hle hpasses hheads hconnection hmessage]
    exact ⟨f'', rfl⟩
  · have hle : (rest c).length ≤ contents.size := by
      rw [Cursor.length_rest, ← hc]
      exact Nat.sub_le _ _
    omega

end

/-- A message. -/
def sampleMessage : RawMessage := ⟨0, ⟨5, 0⟩, .ofBytes [1, 2, 3]⟩

/-- Contents with the record of its connection in front of its own. -/
def sampleContents : Dense :=
  .ofBytes ((Connection.sample 0 "/a").blocks.flatten ++ (sampleMessage.bytes ++ []))

/-- An offset in front of a connection's record leads to the message behind it. -/
theorem resolve_eq_ok_sample : ∃ f f' : Fetcher,
    (chunkData (.ofFile .empty) [] 0).run f = .ok sampleContents f' ∧
      ∃ f'', (resolve (.ofFile .empty) [] ⟨⟨5, 0⟩, 0, 0⟩).run f = .ok sampleMessage f'' := by
  have hcontents := run_chunkData_last (.ofFile .empty) [] none 0 sampleContents
  have hpasses : RawMessage.Passes 1 (sampleContents.bytes.drop (0 : UInt32).toNat)
      (sampleMessage.bytes ++ []) := by
    rw [UInt32.toNat_zero, List.drop_zero, sampleContents, Dense.bytes_ofBytes]
    exact RawMessage.passes_written (by decide) _
  exact ⟨_, _, hcontents, ((resolve_eq_ok_iff hcontents).1 sampleMessage).2
    ⟨Nat.zero_le _, 1, _, hpasses, RawMessage.stands_written (by decide) []⟩⟩

end Fetcher

end BagFile
