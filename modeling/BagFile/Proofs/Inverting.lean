/-
  Blocks of fields and their written forms are one for one.

  * `Text.separator_mem_encode`: the separator is in the UTF-8 form of a name only if it is one of
    the name's characters;
  * `Fields.Spelled.unique`: bytes are fields in one way only;
  * `Fields.encode_inverts`: a block that was made by setting fields is read as it was written,
    whether it was built in memory or put on a tape; and what was read from a body is written as
    that body exactly if no name was there twice.
-/
import BagFile.Proofs.Records
import BagFile.Proofs.Spelling

namespace BagFile

/-! ## Names -/

namespace Text

theorem bytes_encode (s : String) : (encode s).bytes = s.toList.flatMap String.utf8EncodeChar := by
  have hencode : encode s = Dense.ofBytes (s.toList.flatMap String.utf8EncodeChar) :=
    String.utf8Encode_toList.symm
  rw [hencode, Dense.bytes_ofBytes]

/-- All bytes of a character beyond ASCII are beyond ASCII. -/
theorem separator_mem_utf8EncodeChar (c : Char) :
    Fields.separator ∈ String.utf8EncodeChar c ↔ c = '=' := by
  have hhigh : ∀ n : Nat, 128 ≤ n % 256 → Fields.separator ≠ UInt8.ofNat n := by
    intro n hn he
    have hnat : 61 = n % 256 := (congrArg UInt8.toNat he).trans UInt8.toNat_ofNat'
    omega
  constructor
  · intro h
    rw [String.utf8EncodeChar] at h
    split at h
    · next hlow =>
      rw [List.mem_singleton] at h
      have hnat : 61 = c.val.toNat % 256 := (congrArg UInt8.toNat h).trans UInt8.toNat_ofNat'
      exact Char.ext (UInt32.toNat_inj.1 (show c.val.toNat = 61 by omega))
    · refine absurd h ?_
      split
      · simp only [List.mem_cons, List.not_mem_nil, or_false, not_or]
        exact ⟨hhigh _ (by omega), hhigh _ (by omega)⟩
      · split
        · simp only [List.mem_cons, List.not_mem_nil, or_false, not_or]
          exact ⟨hhigh _ (by omega), hhigh _ (by omega), hhigh _ (by omega)⟩
        · simp only [List.mem_cons, List.not_mem_nil, or_false, not_or]
          exact ⟨hhigh _ (by omega), hhigh _ (by omega), hhigh _ (by omega), hhigh _ (by omega)⟩
  · rintro rfl
    decide

/-- The separator is in the written form of a text exactly if it is in the text. -/
theorem separator_mem_encode {s : String} :
    Fields.separator ∈ (encode s).bytes ↔ '=' ∈ s.toList := by
  rw [bytes_encode, List.mem_flatMap]
  simp only [separator_mem_utf8EncodeChar, exists_eq_right]

theorem encode_inj {s s' : String} (h : (encode s).bytes = (encode s').bytes) : s = s' := by
  have := decode?_encode s
  rw [Dense.ext_bytes h, decode?_encode] at this
  exact (Option.some.inj this).symm

end Text

namespace Fields

/-! ## One way to read -/

theorem IsField.unique {bs : Bytes} {e e' : String × Dense} (h : IsField bs e)
    (h' : IsField bs e') : e = e' := by
  have hfront : ∀ {a b : Bytes}, separator ∉ a →
      (a ++ separator :: b).takeWhile (· ≠ separator) = a := by
    intro a b ha
    rw [List.takeWhile_append_of_pos, List.takeWhile_cons_of_neg (by simp), List.append_nil]
    intro x hx
    rw [decide_eq_true_eq]
    exact fun he => ha (he ▸ hx)
  have hname : (Text.encode e.1).bytes = (Text.encode e'.1).bytes := by
    rw [← hfront (b := e.2.bytes) h.first, ← h.eq, h'.eq, hfront h'.first]
  have hvalue : e.2.bytes = e'.2.bytes := by
    have := h.eq.symm.trans h'.eq
    rw [hname] at this
    exact (List.cons.inj (List.append_cancel_left this)).2
  exact Prod.ext (Text.encode_inj hname) (Dense.ext_bytes hvalue)

theorem spelled_flatMap : ∀ {es : List (String × Dense)},
    (∀ e ∈ es, separator ∉ (Text.encode e.1).bytes) → (∀ e ∈ es, entryLength e < 2 ^ 32) →
      Spelled (es.flatMap entryBytes) es
  | [], _, _ => .nil
  | e :: es, hfirst, hfits => by
    rw [List.forall_mem_cons] at hfirst hfits
    rw [List.flatMap_cons, entryBytes, Bytes.sized]
    refine .cons (Bytes.length_ofNat 4 _) ?_ ⟨rfl, hfirst.1⟩ (spelled_flatMap hfirst.2 hfits.2)
    rw [length_entry]
    exact Bytes.toNat_ofNat_of_lt hfits.1

/-- **The grammar is unambiguous.** -/
theorem Spelled.unique {bs : Bytes} {es es' : List (String × Dense)} (h : Spelled bs es)
    (h' : Spelled bs es') : es = es' := by
  induction h generalizing es' with
  | nil =>
    generalize hbs : ([] : Bytes) = bs at h'
    cases h' with
    | nil => rfl
    | cons hwidth =>
      rw [List.nil_eq, List.append_eq_nil_iff, List.append_eq_nil_iff] at hbs
      rw [hbs.1.1] at hwidth
      cases hwidth
  | @cons length field rest e es hwidth hlength hfield _ ih =>
    generalize hbs : length ++ field ++ rest = bs at h'
    cases h' with
    | nil =>
      rw [List.append_eq_nil_iff, List.append_eq_nil_iff] at hbs
      rw [hbs.1.1] at hwidth
      cases hwidth
    | @cons length' field' rest' e' es' hwidth' hlength' hfield' hrest' =>
      rw [List.append_assoc, List.append_assoc] at hbs
      -- the lengths in front have one width, so they are the same, and so are the fields
      obtain ⟨hfront, hbehind⟩ := List.append_inj hbs (hwidth.trans hwidth'.symm)
      subst hfront
      obtain ⟨rfl, rfl⟩ := List.append_inj hbehind (hlength.symm.trans hlength')
      rw [hfield.unique hfield', ih hrest']

/-! ## Writing and reading -/

/-- A block that was made by setting fields. -/
def Built (f : Fields) : Prop := ∃ es, ofList es = f

theorem Built.nodup {f : Fields} (h : Built f) : f.names.Nodup := by
  obtain ⟨es, rfl⟩ := h
  rw [names_ofList]
  exact nodup_eraseDups _

theorem Built.named {f : Fields} (h : Built f) (hnames : ∀ name ∈ f.names, '=' ∉ name.toList) :
    Named (f.entries.map Prod.fst) :=
  ⟨h.nodup, fun name hname hmem => hnames name hname (Text.separator_mem_encode.1 hmem)⟩

/-- The written form of a block is that of its body, with the length in front. -/
theorem encode_eq (f : Fields) : f.encode = Sized.encode (.ofBytes f.body) := by
  apply Dense.ext_bytes
  rw [bytes_encode, bytes, Bytes.sized, Sized.encode, Dense.bytes_append,
    Slot.bytes_encode_length, Dense.bytes_ofBytes, size_body, length_body]

theorem encode_eq_iff {f : Fields} {body : Dense} :
    f.encode = Sized.encode body ↔ f.body = body.bytes := by
  constructor
  · intro h
    have hbytes := congrArg Dense.bytes (f.encode_eq.symm.trans h)
    rw [Sized.encode, Sized.encode, Dense.bytes_append, Dense.bytes_append] at hbytes
    have hwidth := (Word.length_encode (UInt32.ofNat (Dense.ofBytes f.body).size)).trans
      (Word.length_encode (UInt32.ofNat body.size)).symm
    have hbody := (List.append_inj hbytes hwidth).2
    rwa [Dense.bytes_ofBytes] at hbody
  · intro h
    rw [encode_eq, h, Dense.ofBytes_bytes]

theorem extract_encode (f : Fields) :
    f.encode.extract 4 f.encode.size = Dense.ofBytes f.body := by
  apply Dense.ext_bytes
  rw [Dense.bytes_extract, bytes_encode, bytes, Bytes.sized,
    List.drop_left' (Bytes.length_ofNat 4 _), Dense.bytes_ofBytes, List.take_of_length_le]
  rw [← Dense.length_bytes, bytes_encode, length_bytes, length_body, Nat.add_sub_cancel_left]

/-- Setting the fields of a body one after the other leaves them as they stand exactly if no name
    is there twice. -/
theorem Spelled.body_ofList_iff {bs : Bytes} {es : List (String × Dense)} (h : Spelled bs es) :
    (ofList es).body = bs ↔ (es.map Prod.fst).Nodup := by
  constructor
  · intro hbody
    have hlatest : ∀ e ∈ latest es, e ∈ es := fun e he => by
      obtain ⟨name, -, hfind⟩ := List.mem_filterMap.1 he
      exact List.mem_reverse.1 (List.mem_of_find?_eq_some hfind)
    have hspelled : Spelled (ofList es).body (latest es) := by
      rw [body, entries_ofList]
      exact spelled_flatMap (fun e he => h.first e (hlatest e he)) fun e he =>
        h.fits e (hlatest e he)
    rw [h.unique (hbody ▸ hspelled), ← entries_ofList]
    exact Built.nodup ⟨es, rfl⟩
  · intro hnodup
    have hset : ofList es = ⟨es⟩ := foldl_insert .empty hnodup
    rw [body, hset, h.eq]

/-- **Writing undoes reading, and reading undoes writing.** -/
theorem encode_inverts :
    (∀ f, Built f → (∀ name ∈ f.names, '=' ∉ name.toList) → f.bodyLength < 2 ^ 32 →
      decode (f.encode.extract 4 f.encode.size) = .ok f ∧
      f.encode.size = 4 + f.bodyLength ∧
      ∀ t : Tape, t.pos ≤ t.size → ∃ length t', f.write.run t = .ok length t' ∧
        t'.bytes = t.bytes.place t.pos f.encode.bytes ∧
        length.toNat = f.bodyLength ∧ t'.pos = t.pos + 4 + f.bodyLength) ∧
    (∀ body f, decode body = .ok f → ∃ es, Spelled body.bytes es ∧ f.entries = latest es ∧
      (f.encode = Sized.encode body ↔ (es.map Prod.fst).Nodup)) := by
  refine ⟨fun f hbuilt hnames hfits => ⟨?_, ?_, fun t ht => ?_⟩, fun body f hread => ?_⟩
  · rw [extract_encode]
    exact decode_body (hbuilt.named hnames) hfits
  · rw [← Dense.length_bytes, bytes_encode, length_bytes]
  · rcases writes t.pos f t rfl ht with ⟨-, t', hrun, hputs⟩ | ⟨hn, -⟩
    · refine ⟨_, t', hrun, ?_, UInt32.toNat_ofNat_of_lt' hfits, ?_⟩
      · rw [hputs.bytes_eq, List.flatten_singleton, bytes_encode]
      · rw [hputs.pos_eq, List.flatten_singleton, length_bytes, Nat.add_assoc]
    · exact absurd hfits hn
  · obtain ⟨es, hes, rfl⟩ := decode_eq_ok_iff.1 hread
    exact ⟨es, hes, entries_ofList es, encode_eq_iff.trans hes.body_ofList_iff⟩

/-- Fields of which one is set twice. -/
def repeated : List (String × Dense) := [("b", .ofBytes [1]), ("", .ofBytes [61]), ("b", .empty)]

/-- The block that they make is read as it was written; their own bytes are not those that it is
    written as. -/
theorem encode_inverts_repeated :
    (decode ((ofList repeated).encode.extract 4 (ofList repeated).encode.size) =
        .ok (ofList repeated) ∧
      (ofList repeated).encode.size = 16 ∧
      ∃ length t', (ofList repeated).write.run ⟨.ofDense (.ofBytes [7, 8, 9]), 2, []⟩ =
          .ok length t' ∧
        t'.bytes = [7, 8, 12, 0, 0, 0, 2, 0, 0, 0, 98, 61, 2, 0, 0, 0, 61, 61] ∧
        length.toNat = 12 ∧ t'.pos = 18) ∧
    decode (.ofBytes (repeated.flatMap entryBytes)) = .ok (ofList repeated) ∧
      (ofList repeated).encode ≠ Sized.encode (.ofBytes (repeated.flatMap entryBytes)) := by
  have hspelled : Spelled (Dense.ofBytes (repeated.flatMap entryBytes)).bytes repeated := by
    rw [Dense.bytes_ofBytes]
    exact spelled_flatMap (by decide) (by decide)
  have hread := decode_eq_ok_iff.2 ⟨repeated, hspelled, rfl⟩
  obtain ⟨hdecode, hsize, hwrite⟩ := encode_inverts.1 (ofList repeated) ⟨repeated, rfl⟩ (by decide)
    (by decide)
  obtain ⟨es, hes, -, hiff⟩ := encode_inverts.2 _ _ hread
  obtain ⟨length, t', hrun, hbytes, hlength, hpos⟩ := hwrite ⟨.ofDense (.ofBytes [7, 8, 9]), 2, []⟩
    (by decide)
  refine ⟨⟨hdecode, hsize, length, t', hrun, ?_, hlength, hpos⟩, hread, fun h => ?_⟩
  · rw [hbytes]
    decide
  · rw [hes.unique hspelled] at hiff
    exact absurd (hiff.1 h) (by decide)

end Fields

end BagFile
