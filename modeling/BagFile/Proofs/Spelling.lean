/-
  Which bytes are the body of a block, and which block they are.

  * `Fields.Spelled bs es`: the bytes are fields one behind the other, each with its length in
    front; the grammar says nothing about how they are read;
  * `Fields.latest es`: of fields in the order in which they are written, each name once, where it
    comes first, with the value that comes last.  Setting one field after the other makes this
    block (`Fields.entries_ofList`);
  * `Fields.decodeFrom_cases`: what one step of the reader can do.  From it follow that reading
    fails for a malformed header only (`Fields.decode_malformed`) and that what is read is in the
    grammar;
  * `Fields.decode_iff_spelled`: what is read are the bytes of the grammar and no others, and the
    block is that of `latest`.
-/
import BagFile.Proofs.FieldReading
import BagFile.Proofs.Outcomes
import BagFile.Proofs.StableSort
import Mathlib.Data.List.Induction
import Mathlib.Data.List.Nodup

namespace BagFile

/-- The errors of a header that cannot be read. -/
def Error.Malformed (e : Error) : Prop := ∃ fault, e = .malformedHeader fault

/-! ## Names and values -/

namespace Fields

/-- The names of a block, in order. -/
def names (f : Fields) : List String := f.entries.map Prod.fst

/-- The field of a name, if it is there. -/
def field? (f : Fields) (name : String) : Option (String × Dense) :=
  f.entries.find? (·.1 = name)

theorem get?_eq (f : Fields) (name : String) : f.get? name = (f.field? name).map Prod.snd := rfl

theorem names_insert (f : Fields) (name : String) (value : Dense) :
    (f.insert name value).names =
      if name ∈ f.names then f.names else f.names ++ [name] := by
  obtain ⟨es⟩ := f
  show (insertEntry name value es).map Prod.fst =
    if name ∈ es.map Prod.fst then es.map Prod.fst else es.map Prod.fst ++ [name]
  induction es with
  | nil => rfl
  | cons e es ih =>
    rw [insertEntry]
    split
    · next he => simp [he]
    · next he =>
      rw [List.map_cons, ih, List.map_cons]
      by_cases hmem : name ∈ es.map Prod.fst
      · rw [if_pos hmem, if_pos (List.mem_cons_of_mem _ hmem)]
      · have hnot : name ∉ e.1 :: es.map Prod.fst := by
          rw [List.mem_cons, not_or]
          exact ⟨Ne.symm he, hmem⟩
        rw [if_neg hmem, if_neg hnot, List.cons_append]

theorem field?_insert (f : Fields) (name : String) (value : Dense) (n : String) :
    (f.insert name value).field? n = if name = n then some (name, value) else f.field? n := by
  obtain ⟨es⟩ := f
  show (insertEntry name value es).find? (·.1 = n) = if name = n then _ else es.find? (·.1 = n)
  induction es with
  | nil =>
    rw [insertEntry, List.find?_cons, List.find?_nil]
    split <;> simp_all
  | cons e es ih =>
    rw [insertEntry]
    split
    · next he =>
      rw [List.find?_cons, List.find?_cons, he]
      by_cases hn : name = n
      · simp [hn]
      · simp [hn]
    · next he =>
      rw [List.find?_cons, List.find?_cons, ih]
      by_cases hn : e.1 = n
      · have hne : name ≠ n := fun h => he (hn.trans h.symm)
        simp [hn, hne]
      · simp [hn]

/-- A block with distinct names is known by its names and what it has under them. -/
theorem entries_eq {f : Fields} (h : f.names.Nodup) : f.entries = f.names.filterMap f.field? := by
  have hfind : ∀ e ∈ f.entries, f.field? e.1 = some e := by
    intro e he
    obtain ⟨d, hd⟩ : ∃ d, f.field? e.1 = some d :=
      Option.isSome_iff_exists.1 (List.find?_isSome.2 ⟨e, he, by simp⟩)
    have hname : d.1 = e.1 := by simpa using List.find?_some hd
    rw [hd, List.inj_on_of_nodup_map h (List.mem_of_find?_eq_some hd) he hname]
  rw [names, List.filterMap_map]
  exact ((List.filterMap_congr hfind).trans List.filterMap_some).symm

/-! ## Fields in the order in which they are set -/

/-- Each name once, where it comes first, with the value that comes last. -/
def latest (es : List (String × Dense)) : List (String × Dense) :=
  (es.map Prod.fst).eraseDups.filterMap fun name => es.reverse.find? (·.1 = name)

theorem ofList_concat (es : List (String × Dense)) (e : String × Dense) :
    ofList (es ++ [e]) = (ofList es).insert e.1 e.2 := by
  rw [ofList, List.foldl_append]
  rfl

theorem names_ofList (es : List (String × Dense)) :
    (ofList es).names = (es.map Prod.fst).eraseDups := by
  induction es using List.reverseRecOn with
  | nil => rfl
  | append_singleton es e ih =>
    rw [ofList_concat, names_insert, ih, List.map_append, List.map_singleton,
      List.eraseDups_append]
    split
    · next hmem => simp [List.removeAll, List.mem_eraseDups.1 hmem]
    · next hmem => simp [List.removeAll, mt List.mem_eraseDups.2 hmem, List.eraseDups_cons]

theorem field?_ofList (es : List (String × Dense)) (name : String) :
    (ofList es).field? name = es.reverse.find? (·.1 = name) := by
  induction es using List.reverseRecOn with
  | nil => rfl
  | append_singleton es e ih =>
    rw [ofList_concat, field?_insert, ih, List.reverse_append, List.reverse_singleton,
      List.singleton_append, List.find?_cons]
    obtain ⟨n, value⟩ := e
    by_cases hn : n = name <;> simp [hn]

/-- **Setting fields one after the other** keeps each name where it came first, with the value
    that came last. -/
theorem entries_ofList (es : List (String × Dense)) : (ofList es).entries = latest es := by
  have hnodup : (ofList es).names.Nodup := names_ofList es ▸ nodup_eraseDups _
  rw [entries_eq hnodup, names_ofList, latest]
  exact List.filterMap_congr fun name _ => field?_ofList es name

example : latest [("b", .ofBytes [1]), ("", .ofBytes [61]), ("b", .empty)] =
    [("b", .empty), ("", .ofBytes [61])] := by decide

/-! ## The grammar -/

/-- Bytes that are a field: in front of the first separator is the name, in UTF-8, and behind it
    the value. -/
structure IsField (bs : Bytes) (e : String × Dense) : Prop where
  eq : bs = (Text.encode e.1).bytes ++ separator :: e.2.bytes
  first : separator ∉ (Text.encode e.1).bytes

/-- Bytes that are fields one behind the other, each with its length in four bytes in front. -/
inductive Spelled : Bytes → List (String × Dense) → Prop
  | nil : Spelled [] []
  | cons {length bs rest : Bytes} {e : String × Dense} {es : List (String × Dense)} :
      length.length = 4 → Bytes.toNat length = bs.length → IsField bs e → Spelled rest es →
        Spelled (length ++ bs ++ rest) (e :: es)

namespace Spelled

variable {bs : Bytes} {es : List (String × Dense)}

/-- Each field stands as it is written. -/
theorem eq (h : Spelled bs es) : bs = es.flatMap entryBytes := by
  induction h with
  | nil => rfl
  | @cons length bs rest e es hwidth hlength hfield _ ih =>
    have hprefix : length = Bytes.ofNat 4 bs.length := by
      rw [← hlength, ← hwidth, Bytes.ofNat_toNat]
    rw [List.flatMap_cons, ← ih, entryBytes, ← hfield.eq, Bytes.sized, ← hprefix]

theorem first (h : Spelled bs es) : ∀ e ∈ es, separator ∉ (Text.encode e.1).bytes := by
  induction h with
  | nil => simp
  | cons _ _ hfield _ ih => exact List.forall_mem_cons.2 ⟨hfield.first, ih⟩

theorem fits (h : Spelled bs es) : ∀ e ∈ es, entryLength e < 2 ^ 32 := by
  induction h with
  | nil => simp
  | @cons length bs rest e es hwidth hlength hfield _ ih =>
    have hlt := Bytes.toNat_lt length
    rw [hwidth, hlength, hfield.eq, length_entry] at hlt
    exact List.forall_mem_cons.2 ⟨hlt, ih⟩

end Spelled

end Fields

/-! ## What is read -/

theorem Text.encode_of_decode? {d : Dense} {s : String} (h : decode? d = some s) :
    encode s = d := by
  unfold decode? String.fromUTF8? at h
  split at h
  · cases h
    rfl
  · cases h

/-- The position that is found is that of the first such byte. -/
theorem Dense.of_findFrom {d : Dense} {b : UInt8} : ∀ {n pos i : Nat},
    d.findFrom b pos n = some i → ∃ front after, d.bytes.drop pos = front ++ b :: after ∧
      b ∉ front ∧ i = pos + front.length ∧ front.length < n
  | 0, _, _, h => by cases h
  | n + 1, pos, i, h => by
    rw [findFrom] at h
    split at h
    · next hpos =>
      split at h
      · next hb =>
        cases h
        exact ⟨[], d.bytes.drop (pos + 1), by rw [drop_bytes hpos, hb]; rfl, by simp, rfl,
          Nat.succ_pos n⟩
      · next hb =>
        obtain ⟨front, after, hdrop, hfront, rfl, hlt⟩ := of_findFrom h
        refine ⟨d[pos] :: front, after, by rw [drop_bytes hpos, hdrop]; rfl, ?_, ?_, ?_⟩
        · rw [List.mem_cons, not_or]
          exact ⟨Ne.symm hb, hfront⟩
        · rw [List.length_cons]
          omega
        · exact Nat.succ_lt_succ hlt
    · cases h

namespace Fields

theorem of_decodeEntry {body : Dense} {start n : Nat} {e : String × Dense}
    (h : decodeEntry body start (start + n) = .ok e) :
    IsField ((body.bytes.drop start).take n) e := by
  unfold decodeEntry at h
  split at h
  · cases h
  · next i hfind =>
    rw [Dense.find?, Nat.add_sub_cancel_left] at hfind
    obtain ⟨front, after, hdrop, hfront, rfl, hlt⟩ := Dense.of_findFrom hfind
    split at h
    · next name hname =>
      cases h
      -- what is in front of the first separator is text, so it is the text's own written form
      have hencode : (Text.encode name).bytes = front := by
        rw [Text.encode_of_decode? hname, Dense.bytes_extract, hdrop, Nat.add_sub_cancel_left,
          List.take_left]
      have hvalue : Dense.bytes (body.extract (start + front.length + 1) (start + n)) =
          after.take (n - (front.length + 1)) := by
        have hbehind : body.bytes.drop (start + front.length + 1) = after := by
          rw [Nat.add_assoc, ← List.drop_drop, hdrop, ← List.drop_drop, List.drop_left]
          rfl
        have hlength : start + n - (start + front.length + 1) = n - (front.length + 1) := by omega
        rw [Dense.bytes_extract, hbehind, hlength]
      refine ⟨?_, hencode ▸ hfront⟩
      rw [hdrop, hencode, hvalue, List.take_append, List.take_of_length_le (Nat.le_of_lt hlt)]
      obtain ⟨k, hk⟩ : ∃ k, n - front.length = k + 1 := ⟨n - (front.length + 1), by omega⟩
      have hn : n - (front.length + 1) = k := by omega
      rw [hk, hn, List.take_succ_cons]
    · cases h

/-! ## What cannot be read -/

theorem decodeEntry_malformed (body : Dense) (start stop : Nat) :
    ErrsIn Error.Malformed (decodeEntry body start stop) := by
  unfold decodeEntry
  split
  · exact ErrsIn.error ⟨_, rfl⟩
  · split
    · exact ErrsIn.ok _
    · exact ErrsIn.error ⟨_, rfl⟩

/-- **One step**: the body is at its end, or malformed, or a field is taken from it. -/
theorem decodeFrom_cases (body : Dense) (pos : Nat) (acc : Fields) :
    (body.size ≤ pos ∧ decodeFrom body pos acc = .ok acc) ∨
      (∃ e, Error.Malformed e ∧ decodeFrom body pos acc = .error e) ∨
      ∃ n e, n = body.natAt pos 4 ∧ pos + 4 + n ≤ body.size ∧
        decodeEntry body (pos + 4) (pos + 4 + n) = .ok e ∧
        decodeFrom body pos acc = decodeFrom body (pos + 4 + n) (acc.insert e.1 e.2) := by
  by_cases hend : body.size ≤ pos
  · exact .inl ⟨hend, by rw [decodeFrom, if_pos hend]⟩
  · by_cases hshort : body.size < pos + 4
    · exact .inr (.inl ⟨_, ⟨_, rfl⟩, by rw [decodeFrom, if_neg hend, if_pos hshort]⟩)
    · have hstep := decodeFrom.eq_1 body pos acc
      rw [if_neg hend, if_neg hshort] at hstep
      by_cases hpast : body.size < pos + 4 + body.natAt pos 4
      · exact .inr (.inl ⟨_, ⟨_, rfl⟩, hstep.trans (if_pos hpast)⟩)
      · have hentry := hstep.trans (if_neg hpast)
        cases he : decodeEntry body (pos + 4) (pos + 4 + body.natAt pos 4) with
        | error e =>
          rw [he] at hentry
          exact .inr (.inl ⟨e, decodeEntry_malformed _ _ _ e he, hentry⟩)
        | ok e =>
          rw [he] at hentry
          exact .inr (.inr ⟨_, e, rfl, Nat.le_of_not_lt hpast, he, hentry⟩)

theorem decodeFrom_malformed (body : Dense) (pos : Nat) (acc : Fields) :
    ErrsIn Error.Malformed (decodeFrom body pos acc) := by
  rcases decodeFrom_cases body pos acc with ⟨-, hok⟩ | ⟨e, he, herror⟩ | ⟨n, e, -, hle, -, hnext⟩
  · rw [hok]
    exact ErrsIn.ok acc
  · rw [herror]
    exact ErrsIn.error he
  · rw [hnext]
    exact decodeFrom_malformed body (pos + 4 + n) (acc.insert e.1 e.2)
termination_by body.size - pos

/-- A body that cannot be read is a malformed header, whatever is wrong with it. -/
theorem decode_malformed (body : Dense) : ErrsIn Error.Malformed (decode body) :=
  decodeFrom_malformed body 0 empty

/-! ## Reading and the grammar -/

/-- What has been read stands in the body from the position on. -/
theorem of_decodeFrom {body : Dense} {pos : Nat} {acc f : Fields}
    (h : decodeFrom body pos acc = .ok f) : ∃ es, Spelled (body.bytes.drop pos) es ∧
      f = es.foldl (fun f e => f.insert e.1 e.2) acc := by
  rcases decodeFrom_cases body pos acc with
    ⟨hend, hok⟩ | ⟨e, -, herror⟩ | ⟨n, e, hn, hle, he, hnext⟩
  · rw [hok] at h
    cases h
    exact ⟨[], Dense.drop_bytes_of_le hend ▸ .nil, rfl⟩
  · rw [herror] at h
    cases h
  · rw [hnext] at h
    obtain ⟨es, hes, rfl⟩ := of_decodeFrom h
    -- the length, the field and the rest are the three parts of what was left
    have hsplit : body.bytes.drop pos = (body.bytes.drop pos).take 4 ++
        (body.bytes.drop (pos + 4)).take n ++ body.bytes.drop (pos + 4 + n) := by
      rw [List.append_assoc, ← List.drop_drop (i := n), List.take_append_drop,
        ← List.drop_drop (i := 4), List.take_append_drop]
    have hroom : ∀ i j, i + j ≤ body.size → ((body.bytes.drop i).take j).length = j := by
      intro i j hle
      rw [List.length_take, List.length_drop, Dense.length_bytes]
      omega
    refine ⟨e :: es, ?_, rfl⟩
    rw [hsplit]
    refine .cons (hroom pos 4 (by omega)) ?_ (of_decodeEntry he) hes
    rw [hroom (pos + 4) n hle, hn, Dense.natAt_eq]
termination_by body.size - pos

/-- The body of a block is read exactly if it is made of fields, which are then set one after the
    other. -/
theorem decode_eq_ok_iff {body : Dense} {f : Fields} :
    decode body = .ok f ↔ ∃ es, Spelled body.bytes es ∧ f = ofList es := by
  constructor
  · intro h
    have := of_decodeFrom h
    rwa [List.drop_zero] at this
  · rintro ⟨es, hes, rfl⟩
    exact decodeFrom_eq (by rw [List.drop_zero]; exact hes.eq) hes.first hes.fits

/-- **The reader of blocks accepts its grammar and nothing else**: fields one behind the other, of
    which each name is kept once, where it comes first, with the value that comes last.  All other
    bytes are a malformed header. -/
theorem decode_iff_spelled (body : Dense) :
    (∀ f, decode body = .ok f ↔ ∃ es, Spelled body.bytes es ∧ f.entries = latest es) ∧
      ((∃ fault, decode body = .error (.malformedHeader fault)) ↔ ¬∃ es, Spelled body.bytes es) := by
  refine ⟨fun f => ?_, ?_, fun hnot => ?_⟩
  · rw [decode_eq_ok_iff]
    refine exists_congr fun es => and_congr_right fun _ => ?_
    rw [← entries_ofList]
    exact ⟨congrArg entries, fun h => congrArg Fields.mk h⟩
  · rintro ⟨fault, hfault⟩ ⟨es, hes⟩
    have hok := decode_eq_ok_iff.2 ⟨es, hes, rfl⟩
    rw [hok] at hfault
    cases hfault
  · cases hread : decode body with
    | ok f =>
      obtain ⟨es, hes, -⟩ := decode_eq_ok_iff.1 hread
      exact absurd ⟨es, hes⟩ hnot
    | error e =>
      obtain ⟨fault, rfl⟩ := decode_malformed body e hread
      exact ⟨fault, rfl⟩

end Fields

end BagFile
