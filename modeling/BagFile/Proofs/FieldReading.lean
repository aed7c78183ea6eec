/-
  Field blocks are read as they were written.

  * `Fields.Named`: no two fields have one name, and no name has the separator in it;
  * `Fields.decode_body`: the written form of such a block is read back, by induction on its
    fields;
  * `Header.reads`: so is the header of a record, if its fields make the same header again
    (`Header.Readable`); the headers of all kinds are such.
-/
import BagFile.Proofs.Reading

namespace BagFile

/-! ## Text -/

theorem Text.decode?_encode (s : String) : decode? (encode s) = some s := by
  unfold decode? encode String.fromUTF8?
  rw [String.toUTF8_eq_toByteArray, dif_pos s.isValidUTF8]
  rfl

theorem Time.decode_encode (t : Time) : decode t.encode = .ok t := by
  have hsecs : (Word.encode t.secs).bytes <+: t.encode.bytes := by
    rw [encode, Dense.bytes_append]
    exact List.prefix_append _ _
  have hwidth : (Word.encode t.secs).bytes.length = 4 := Word.length_encode _
  have hdrop : t.encode.bytes.drop 4 = (Word.encode t.nsecs).bytes := by
    rw [encode, Dense.bytes_append, List.drop_left' hwidth]
  have hnsecs : (Word.encode t.nsecs).bytes <+: t.encode.bytes.drop 4 := hdrop ▸ List.prefix_refl _
  simp only [decode, Word.decode_of_ahead hsecs, Word.decodeAt_of_ahead hnsecs]
  rfl

/-! ## Fields -/

namespace Dense

theorem findFrom_eq_some {d : Dense} {b : UInt8} : ∀ {n pos : Nat} {front after : Bytes},
    d.bytes.drop pos = front ++ b :: after → b ∉ front → front.length < n →
      d.findFrom b pos n = some (pos + front.length)
  | 0, _, _, _, _, _, hn => absurd hn (Nat.not_lt_zero _)
  | n + 1, pos, front, after, hd, hb, hn => by
    have hpos : pos < d.size := by
      rw [← length_bytes]
      refine Nat.lt_of_not_le fun hle => ?_
      rw [List.drop_eq_nil_of_le hle] at hd
      cases front <;> cases hd
    have hcons : d.bytes.drop pos = d[pos] :: d.bytes.drop (pos + 1) :=
      List.drop_eq_getElem_cons (by rwa [length_bytes])
    rw [hcons] at hd
    rw [findFrom, dif_pos hpos]
    cases front with
    | nil =>
      rw [if_pos (List.cons.inj hd).1]
      rfl
    | cons c front =>
      obtain ⟨hc, hd⟩ := List.cons.inj hd
      have hne : d[pos] ≠ b := fun he => hb (by rw [← he, hc]; exact List.mem_cons_self)
      rw [if_neg hne, findFrom_eq_some hd (fun hm => hb (List.mem_cons_of_mem _ hm))
        (Nat.lt_of_succ_lt_succ hn), List.length_cons]
      congr 1
      omega

end Dense

namespace Fields

/-- No two fields have one name, and the separator is in no name. -/
def Named (names : List String) : Prop :=
  names.Nodup ∧ ∀ n ∈ names, separator ∉ (Text.encode n).bytes

instance (names : List String) : Decidable (Named names) := inferInstanceAs (Decidable (_ ∧ _))

theorem decodeEntry_eq {body : Dense} {start : Nat} {name : String} {value : Dense} {after : Bytes}
    (h : body.bytes.drop start = (Text.encode name).bytes ++ separator :: (value.bytes ++ after))
    (hn : separator ∉ (Text.encode name).bytes) :
    decodeEntry body start (start + entryLength (name, value)) = .ok (name, value) := by
  have hname : (Text.encode name).bytes.length = (Text.encode name).size := Dense.length_bytes _
  have hlen : entryLength (name, value) = (Text.encode name).size + 1 + value.size := rfl
  have hfind : body.find? separator start (start + entryLength (name, value)) =
      some (start + (Text.encode name).size) := by
    rw [Dense.find?, Nat.add_sub_cancel_left, ← hname]
    refine Dense.findFrom_eq_some h hn ?_
    rw [hname, hlen]
    omega
  have hfront : body.extract start (start + (Text.encode name).size) = Text.encode name := by
    apply Dense.ext_bytes
    rw [Dense.bytes_extract, h, Nat.add_sub_cancel_left, List.take_left' hname]
  have hback : body.extract (start + (Text.encode name).size + 1)
      (start + entryLength (name, value)) = value := by
    apply Dense.ext_bytes
    have hstop : start + entryLength (name, value) - (start + (Text.encode name).size + 1) =
        value.bytes.length := by
      rw [hlen, Dense.length_bytes]
      omega
    have hdrop : body.bytes.drop (start + (Text.encode name).size + 1) = value.bytes ++ after := by
      rw [Nat.add_assoc, ← List.drop_drop, h, ← List.drop_drop, List.drop_left' hname,
        List.drop_one, List.tail_cons]
    rw [Dense.bytes_extract, hstop, hdrop, List.take_left]
  simp only [decodeEntry, hfind, hfront, hback, Text.decode?_encode]

theorem decodeFrom_eq {body : Dense} : ∀ {es : List (String × Dense)} {pos : Nat} {acc : Fields},
    body.bytes.drop pos = es.flatMap entryBytes →
      (∀ e ∈ es, separator ∉ (Text.encode e.1).bytes) → (∀ e ∈ es, entryLength e < 2 ^ 32) →
        decodeFrom body pos acc = .ok (es.foldl (fun f e => f.insert e.1 e.2) acc)
  | [], pos, acc, hb, _, _ => by
    have hle : body.size ≤ pos := by
      rw [← Dense.length_bytes]
      exact List.drop_eq_nil_iff.1 hb
    rw [decodeFrom, if_pos hle]
    rfl
  | e :: es, pos, acc, hb, hn, hl => by
    have hlt := hl e List.mem_cons_self
    have hsize : body.size - pos = 4 + entryLength e + (es.flatMap entryBytes).length := by
      rw [← Dense.length_bytes, ← List.length_drop, hb, List.flatMap_cons, List.length_append,
        length_entryBytes]
    have hlen : body.natAt pos 4 = entryLength e := by
      rw [Dense.natAt_eq, hb, List.flatMap_cons, entryBytes, Bytes.sized, List.append_assoc,
        List.append_assoc, List.take_left' (Bytes.length_ofNat 4 _), length_entry,
        Bytes.toNat_ofNat_of_lt (by omega)]
    have hentry : body.bytes.drop (pos + 4) =
        (Text.encode e.1).bytes ++ separator :: (e.2.bytes ++ es.flatMap entryBytes) := by
      rw [← List.drop_drop, hb, List.flatMap_cons, entryBytes, Bytes.sized, List.append_assoc,
        List.append_assoc, List.drop_left' (Bytes.length_ofNat 4 _)]
      rfl
    have hrest : body.bytes.drop (pos + 4 + entryLength e) = es.flatMap entryBytes := by
      rw [Nat.add_assoc, ← List.drop_drop, hb, List.flatMap_cons,
        List.drop_left' (length_entryBytes e)]
    rw [decodeFrom, if_neg (by omega), if_neg (by omega)]
    simp only [hlen]
    rw [if_neg (by omega), decodeEntry_eq hentry (hn e List.mem_cons_self)]
    exact decodeFrom_eq hrest (fun x hx => hn x (List.mem_cons_of_mem _ hx)) fun x hx =>
      hl x (List.mem_cons_of_mem _ hx)

theorem insertEntry_of_not_mem {name : String} {value : Dense} {es : List (String × Dense)}
    (h : name ∉ es.map Prod.fst) : insertEntry name value es = es ++ [(name, value)] := by
  induction es with
  | nil => rfl
  | cons e es ih =>
    rw [List.map_cons, List.mem_cons, not_or] at h
    rw [insertEntry, if_neg (fun he => h.1 he.symm), ih h.2, List.cons_append]

/-- Fields with names of their own are added at the end. -/
theorem foldl_insert {es : List (String × Dense)} (acc : Fields)
    (h : ((acc.entries ++ es).map Prod.fst).Nodup) :
    es.foldl (fun f e => f.insert e.1 e.2) acc = ⟨acc.entries ++ es⟩ := by
  induction es generalizing acc with
  | nil => rw [List.foldl_nil, List.append_nil]
  | cons e es ih =>
    have hnot : e.1 ∉ acc.entries.map Prod.fst := by
      rw [List.map_append, List.nodup_append] at h
      exact fun hm => h.2.2 e.1 hm e.1 List.mem_cons_self rfl
    have hinsert : acc.insert e.1 e.2 = ⟨acc.entries ++ [e]⟩ :=
      congrArg Fields.mk (insertEntry_of_not_mem hnot)
    rw [List.foldl_cons, hinsert, ih _ (by simpa using h), List.append_assoc, List.singleton_append]

/-- **A block with proper names is read as it was written.** -/
theorem decode_body {f : Fields} (hf : Named (f.entries.map Prod.fst))
    (hl : f.bodyLength < 2 ^ 32) : decode (.ofBytes f.body) = .ok f := by
  have hnames : ∀ e ∈ f.entries, separator ∉ (Text.encode e.1).bytes := fun e he =>
    hf.2 e.1 (List.mem_map_of_mem he)
  have hbody : (Dense.ofBytes f.body).bytes.drop 0 = f.entries.flatMap entryBytes := by
    rw [Dense.bytes_ofBytes, List.drop_zero, body]
  have hfits : ∀ e ∈ f.entries, entryLength e < 2 ^ 32 := fun e he =>
    Nat.lt_of_le_of_lt (entryLength_le he) hl
  rw [decode, decodeFrom_eq hbody hnames hfits, foldl_insert .empty hf.1]
  rfl

theorem size_body (f : Fields) : (Dense.ofBytes f.body).size = f.bodyLength := by
  rw [← Dense.length_bytes, Dense.bytes_ofBytes, length_body]

theorem reads (s : Stream) {f : Fields} (hf : Named (f.entries.map Prod.fst))
    (hl : f.bodyLength < 2 ^ 32) : Reads s read f.bytes f := by
  have h := (Stream.reads_sized s (d := .ofBytes f.body) (by rwa [size_body])).bind
    (k := fun d => MonadExcept.ofExcept (decode d)) (Reads.ofExcept _ (decode_body hf hl))
  rwa [Dense.bytes_ofBytes, List.append_nil] at h

theorem reads_cursor (c : Cursor) {f : Fields} (hf : Named (f.entries.map Prod.fst))
    (hl : f.bodyLength < 2 ^ 32) : Reads c readCursor f.bytes f := by
  have h := (Cursor.reads_sized c (d := .ofBytes f.body) (by rwa [size_body])).bind
    (k := fun d => MonadExcept.ofExcept (decode d)) (Reads.ofExcept _ (decode_body hf hl))
  rwa [Dense.bytes_ofBytes, List.append_nil] at h

/-! ## The values of fields -/

theorem requireWord_eq {α : Type} [Word α] [LawfulWord α] {f : Fields} {name : String} {a : α}
    (h : f.get? name = some (Word.encode a)) : f.requireWord name = .ok a := by
  rw [requireWord, require, h]
  exact Word.decode_encode a

theorem requireTime_eq {f : Fields} {name : String} {t : Time}
    (h : f.get? name = some t.encode) : f.requireTime name = .ok t := by
  rw [requireTime, require, h]
  exact Time.decode_encode t

theorem requireText_eq {f : Fields} {name text : String}
    (h : f.get? name = some (Text.encode text)) : f.requireText name = .ok text := by
  rw [requireText, require, h]
  show textValue name (Text.encode text) = _
  rw [textValue, Text.decode?_encode]

theorem optionalText_eq {f : Fields} {name : String} {text : Option String}
    (h : f.get? name = text.map Text.encode) : f.optionalText name = .ok text := by
  rw [optionalText, h]
  cases text with
  | none => rfl
  | some v =>
    show some <$> textValue name (Text.encode v) = _
    rw [textValue, Text.decode?_encode]
    rfl

end Fields

/-! ## Headers -/

namespace Header

variable {α : Type} [Header α]

/-- A header that can be read as it was written. -/
structure Readable (h : α) : Prop where
  named : Fields.Named ((toFields h).entries.map Prod.fst)
  fits : Fits h
  ofFields : ofFields (toFields h) = .ok h

theorem expectKind_of_ofFields {f : Fields} {h : α} (hf : ofFields f = .ok h) :
    f.expectKind (kind α) = .ok ⟨⟩ := by
  rw [ofFields, check] at hf
  rcases hk : f.expectKind (kind α) with e | _
  · rw [hk] at hf
    cases hf
  · rfl

theorem Readable.expectKind {h : α} (hr : Readable h) :
    (toFields h).expectKind (kind α) = .ok ⟨⟩ := expectKind_of_ofFields hr.ofFields

/-- **The header of a record is read as it was written.** -/
theorem reads (s : Stream) {h : α} (hr : Readable h) : Reads s read (bytes h) h := by
  have hexpect := (Fields.reads s hr.named hr.fits).bind
    (k := fun f => MonadExcept.ofExcept (f.expectKind (kind α)) >>= fun _ => pure f)
    (Reads.check hr.expectKind (Reads.pure _ _))
  rw [List.append_nil] at hexpect
  have h' := hexpect.bind (k := fun f => MonadExcept.ofExcept (Header.ofFields f))
    (Reads.ofExcept _ hr.ofFields)
  rwa [List.append_nil] at h'

/-- A header is not read from a block that heads no record of its kind. -/
theorem run_read_unexpected {f : Fields} {e : Error} {s s' : Stream}
    (hread : Fields.read.run s = .ok f s') (hkind : f.expectKind (kind α) = .error e) :
    (read : Stream.Op α).run s = .error e s' := by
  rw [read, Fields.readExpecting, EStateM.run_bind, EStateM.run_bind, hread]
  simp only [run_ofExcept_error_bind hkind]

end Header

/-- A block that is of its kind and complete is read value by value. -/
theorem Header.ofFields_eq {α : Type} [Header α] {h : α}
    (hc : check (kind α) (toFields h) = .ok ⟨⟩) (hp : project (toFields h) = .ok h) :
    ofFields (toFields h) = .ok h := by
  rw [ofFields, hc]
  exact hp

theorem FileHeader.readable (h : FileHeader) : Header.Readable h where
  named := show Fields.Named ["op", "index_pos", "conn_count", "chunk_count"] by decide
  fits := by
    rw [Header.Fits, FileHeader.bodyLength_toFields]
    decide
  ofFields := by
    have h₁ : (Header.toFields h).requireWord "index_pos" = .ok h.indexPos :=
      Fields.requireWord_eq rfl
    have h₂ : (Header.toFields h).requireWord "conn_count" = .ok h.connCount :=
      Fields.requireWord_eq rfl
    have h₃ : (Header.toFields h).requireWord "chunk_count" = .ok h.chunkCount :=
      Fields.requireWord_eq rfl
    refine Header.ofFields_eq rfl ?_
    simp only [Header.project, h₁, h₂, h₃]
    rfl

theorem ChunkHeader.ofFields_toFields {h : ChunkHeader}
    (hn : Compression.ofName h.compression.name = h.compression) :
    Header.ofFields (Header.toFields h) = .ok h := by
  have h₁ : (Header.toFields h).requireText "compression" = .ok h.compression.name :=
    Fields.requireText_eq rfl
  have h₂ : (Header.toFields h).requireWord "size" = .ok h.size := Fields.requireWord_eq rfl
  refine Header.ofFields_eq rfl ?_
  simp only [Header.project, h₁, h₂]
  show Except.ok (⟨Compression.ofName h.compression.name, h.size⟩ : ChunkHeader) = _
  rw [hn]

theorem ChunkHeader.readable {h : ChunkHeader} (hl : Header.Fits h)
    (hn : Compression.ofName h.compression.name = h.compression) : Header.Readable h where
  named := show Fields.Named ["op", "compression", "size"] by decide
  fits := hl
  ofFields := ofFields_toFields hn

theorem ConnectionHeader.ofFields_toFields (h : ConnectionHeader) :
    Header.ofFields (Header.toFields h) = .ok h := by
  have h₁ : (Header.toFields h).requireWord "conn" = .ok h.conn := Fields.requireWord_eq rfl
  have h₂ : (Header.toFields h).requireText "topic" = .ok h.topic := Fields.requireText_eq rfl
  refine Header.ofFields_eq rfl ?_
  simp only [Header.project, h₁, h₂]
  rfl

theorem ConnectionHeader.readable {h : ConnectionHeader} (hl : Header.Fits h) :
    Header.Readable h where
  named := show Fields.Named ["op", "conn", "topic"] by decide
  fits := hl
  ofFields := ofFields_toFields h

theorem MessageHeader.readable (h : MessageHeader) : Header.Readable h where
  named := show Fields.Named ["op", "conn", "time"] by decide
  fits := by
    rw [Header.Fits, MessageHeader.bodyLength_toFields]
    decide
  ofFields := by
    have h₁ : (Header.toFields h).requireWord "conn" = .ok h.conn := Fields.requireWord_eq rfl
    have h₂ : (Header.toFields h).requireTime "time" = .ok h.time := Fields.requireTime_eq rfl
    refine Header.ofFields_eq rfl ?_
    simp only [Header.project, h₁, h₂]
    rfl

theorem Fields.requireVersion_eq {f : Fields} {kind : Kind}
    (h : f.get? "ver" = some (Word.encode recordVersion)) :
    f.requireVersion kind = .ok recordVersion := by
  rw [requireVersion, requireWord_eq h]
  rfl

theorem IndexHeader.readable {h : IndexHeader} (hv : h.version = recordVersion) :
    Header.Readable h where
  named := show Fields.Named ["op", "ver", "conn", "count"] by decide
  fits := by
    rw [Header.Fits, IndexHeader.bodyLength_toFields]
    decide
  ofFields := by
    have h₀ : (Header.toFields h).requireVersion .indexData = .ok h.version :=
      hv ▸ Fields.requireVersion_eq (hv ▸ rfl)
    have h₁ : (Header.toFields h).requireWord "conn" = .ok h.conn := Fields.requireWord_eq rfl
    have h₂ : (Header.toFields h).requireWord "count" = .ok h.count := Fields.requireWord_eq rfl
    refine Header.ofFields_eq rfl ?_
    simp only [Header.project, h₀, h₁, h₂]
    rfl

theorem ChunkInfoHeader.readable {h : ChunkInfoHeader} (hv : h.version = recordVersion) :
    Header.Readable h where
  named := show Fields.Named ["op", "ver", "chunk_pos", "start_time", "end_time", "count"] by decide
  fits := by
    rw [Header.Fits, ChunkInfoHeader.bodyLength_toFields]
    decide
  ofFields := by
    have h₀ : (Header.toFields h).requireVersion .chunkInfo = .ok h.version :=
      hv ▸ Fields.requireVersion_eq (hv ▸ rfl)
    have h₁ : (Header.toFields h).requireWord "chunk_pos" = .ok h.chunkPos :=
      Fields.requireWord_eq rfl
    have h₂ : (Header.toFields h).requireTime "start_time" = .ok h.startTime :=
      Fields.requireTime_eq rfl
    have h₃ : (Header.toFields h).requireTime "end_time" = .ok h.endTime :=
      Fields.requireTime_eq rfl
    have h₄ : (Header.toFields h).requireWord "count" = .ok h.count := Fields.requireWord_eq rfl
    refine Header.ofFields_eq rfl ?_
    simp only [Header.project, h₀, h₁, h₂, h₃, h₄]
    rfl

end BagFile
