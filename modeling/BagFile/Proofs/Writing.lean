/-
  What an operation puts on a tape.

  * `Bytes.place` puts bytes over others from a position on;
  * `Tape.Puts t rs t'`: from `t` to `t'` the records `rs` were put at the position, one behind
    the other, and each write stayed within one of them;
  * `Tape.Writes p op fits a rs`: at position `p`, over whatever is there, `op` puts the records
    `rs` and gives `a` if `fits` holds, and refuses for a length that is too large if not.
    `Writes.bind`, `Writes.around` and `Writes.forM` follow the ways in which operations are
    made of others, so that the layers above never look at positions again;
  * `Tape.Holds t rs`: the tape holds the records `rs` and nothing else.  Records are added at
    the end (`Holds.extend`) or put over others of the same lengths (`Holds.patch`).
-/
import BagFile.Tape
import Mathlib.Data.List.Basic

namespace BagFile

/-! ## Operations in general -/

section Operations

variable {σ α β : Type}

theorem run_throw_bind (e : Error) (k : α → EStateM Error σ β) (s : σ) :
    (throw e >>= k).run s = .error e s := rfl

theorem run_ofExcept_ok_bind {x : Except Error α} {a : α} (h : x = .ok a)
    (k : α → EStateM Error σ β) (s : σ) :
    (MonadExcept.ofExcept x >>= k).run s = (k a).run s := by
  rw [h]
  rfl

theorem run_ofExcept_error_bind {x : Except Error α} {e : Error} (h : x = .error e)
    (k : α → EStateM Error σ β) (s : σ) :
    (MonadExcept.ofExcept x >>= k).run s = .error e s := by
  rw [h]
  rfl

theorem run_get_bind (k : σ → EStateM Error σ β) (s : σ) : (get >>= k).run s = (k s).run s := rfl

theorem run_bind_of_error {op : EStateM Error σ α} {s s' : σ} {e : Error}
    (h : op.run s = .error e s') (k : α → EStateM Error σ β) :
    (op >>= k).run s = .error e s' := by
  rw [EStateM.run_bind, h]

theorem run_bind_eq_ok {op : EStateM Error σ α} {k : α → EStateM Error σ β} {s s' : σ} {b : β}
    (h : (op >>= k).run s = .ok b s') :
    ∃ a s₁, op.run s = .ok a s₁ ∧ (k a).run s₁ = .ok b s' := by
  rw [EStateM.run_bind] at h
  rcases hop : op.run s with ⟨a, s₁⟩ | ⟨e, s₁⟩
  · rw [hop] at h
    exact ⟨a, s₁, rfl, h⟩
  · rw [hop] at h
    cases h

end Operations

/-! ## Bytes over bytes -/

theorem flatten_flatMap {α β : Type} (xs : List α) (f : α → List (List β)) :
    (xs.flatMap f).flatten = xs.flatMap fun x => (f x).flatten := by
  rw [List.flatMap_def, List.flatten_flatten, List.map_map]
  rfl

theorem Word.length_encode {α : Type} [Word α] (a : α) : (encode a).bytes.length = width α := by
  rw [Dense.length_bytes, size_encode]

namespace Bytes

theorem ofNat_mod (w n : Nat) : ofNat w (n % 256 ^ w) = ofNat w n := by
  induction w generalizing n with
  | zero => rfl
  | succ w ih =>
    have hlow : n % 256 ^ (w + 1) % 256 = n % 256 := by
      rw [Nat.pow_succ', Nat.mod_mul_right_mod]
    have hhigh : n % 256 ^ (w + 1) / 256 = n / 256 % 256 ^ w := by
      rw [Nat.pow_succ', Nat.mod_mul_right_div_self]
    rw [ofNat, ofNat, hlow, hhigh, ih]

/-- Bytes are those of the number that they stand for. -/
theorem ofNat_toNat (bs : Bytes) : ofNat bs.length (toNat bs) = bs := by
  induction bs with
  | nil => rfl
  | cons b bs ih =>
    have hlt := b.toNat_lt
    have hlow : (b.toNat + 256 * toNat bs) % 256 = b.toNat := by omega
    have hhigh : (b.toNat + 256 * toNat bs) / 256 = toNat bs := by omega
    rw [List.length_cons, toNat, ofNat, hlow, hhigh, ih, UInt8.ofNat_toNat]

/-- The length of some bytes in four bytes, then the bytes. -/
def sized (d : Bytes) : Bytes := ofNat 4 d.length ++ d

theorem length_sized (d : Bytes) : (sized d).length = 4 + d.length := by
  rw [sized, List.length_append, length_ofNat]

/-- Bytes put over others from a position on, and beyond the end if need be. -/
def place (bs : Bytes) (pos : Nat) (d : Bytes) : Bytes :=
  bs.take pos ++ d ++ bs.drop (pos + d.length)

theorem place_nil (bs : Bytes) (pos : Nat) : bs.place pos [] = bs := by
  simp [place]

theorem length_place {bs : Bytes} {pos : Nat} (h : pos ≤ bs.length) (d : Bytes) :
    (bs.place pos d).length = max bs.length (pos + d.length) := by
  simp only [place, List.length_append, List.length_take, List.length_drop]
  omega

theorem le_length_place {bs : Bytes} {pos : Nat} (h : pos ≤ bs.length) (d : Bytes) :
    pos + d.length ≤ (bs.place pos d).length := by
  rw [length_place h]
  omega

/-- Bytes placed one behind the other are placed together. -/
theorem place_place {bs : Bytes} {pos : Nat} (h : pos ≤ bs.length) (d e : Bytes) :
    (bs.place pos d).place (pos + d.length) e = bs.place pos (d ++ e) := by
  have hl : (bs.take pos).length = pos := by rw [List.length_take, Nat.min_eq_left h]
  have htake : (bs.take pos ++ d ++ bs.drop (pos + d.length)).take (pos + d.length) =
      bs.take pos ++ d := by
    rw [List.take_left']
    rw [List.length_append, hl]
  have hdrop : (bs.take pos ++ d ++ bs.drop (pos + d.length)).drop (pos + d.length + e.length) =
      bs.drop (pos + (d ++ e).length) := by
    rw [← List.drop_drop, List.drop_left' (by rw [List.length_append, hl]), List.drop_drop,
      List.length_append, Nat.add_assoc]
  rw [place, place, htake, hdrop, place, List.append_assoc (bs.take pos) d e]

/-- Bytes placed over the first of those placed before. -/
theorem place_over {bs : Bytes} {pos : Nat} (h : pos ≤ bs.length) {d d' e : Bytes}
    (hd : d'.length = d.length) : (bs.place pos (d ++ e)).place pos d' = bs.place pos (d' ++ e) := by
  have hl : (bs.take pos).length = pos := by rw [List.length_take, Nat.min_eq_left h]
  have htake : (bs.take pos ++ (d ++ e) ++ bs.drop (pos + (d ++ e).length)).take pos =
      bs.take pos := by
    rw [List.append_assoc, List.take_left' hl]
  have hdrop : (bs.take pos ++ (d ++ e) ++ bs.drop (pos + (d ++ e).length)).drop (pos + d'.length) =
      e ++ bs.drop (pos + (d' ++ e).length) := by
    rw [← List.append_assoc (bs.take pos), List.append_assoc (bs.take pos ++ d),
      List.drop_left' (by rw [List.length_append, hl, hd]), List.length_append, List.length_append,
      hd]
  rw [place, place, htake, hdrop, place]
  simp only [List.append_assoc]

theorem place_length (bs d : Bytes) : bs.place bs.length d = bs ++ d := by
  rw [place, List.take_length, List.drop_eq_nil_of_le (Nat.le_add_right _ _), List.append_nil]

/-- Bytes placed over as many others. -/
theorem place_middle (bs e : Bytes) {d d' : Bytes} (hd : d'.length = d.length) :
    (bs ++ d ++ e).place bs.length d' = bs ++ d' ++ e := by
  rw [place, hd, List.append_assoc bs d e, List.take_left, ← List.drop_drop, List.drop_left,
    List.drop_left]

end Bytes

/-! ## Records on a tape -/

/-- The errors for a length or an offset that four bytes cannot hold. -/
def Error.IsLimit : Error → Prop
  | .writer (.blockTooLong _) | .writer .offsetTooLarge | .writer .chunkTooLong => True
  | _ => False

/-- A write within one of the records that start at a position. -/
def Write.Within (w : Write) : Nat → List Bytes → Prop
  | _, [] => False
  | pos, r :: rs =>
    (pos ≤ w.pos ∧ w.pos + w.data.size ≤ pos + r.length) ∨ w.Within (pos + r.length) rs

namespace Write

theorem within_append {w : Write} : ∀ {rs rs' : List Bytes} {pos : Nat},
    w.Within pos (rs ++ rs') ↔ w.Within pos rs ∨ w.Within (pos + rs.flatten.length) rs'
  | [], _, _ => by simp [Within]
  | r :: rs, rs', pos => by
    rw [List.cons_append, Within, Within, within_append, List.flatten_cons, List.length_append,
      Nat.add_assoc, or_assoc]

/-- Only the lengths of the records count. -/
theorem Within.congr {w : Write} : ∀ {rs rs' : List Bytes} {pos : Nat},
    rs.map List.length = rs'.map List.length → w.Within pos rs → w.Within pos rs'
  | [], _, _, _, h => absurd h id
  | r :: rs, r' :: rs', pos, hl, h => by
    obtain ⟨hr, hrs⟩ := List.cons.inj hl
    rw [Within, ← hr]
    exact h.imp id (Within.congr hrs)

/-- A write within one of some records is within all of them together. -/
theorem Within.join {w : Write} : ∀ {rs : List Bytes} {pos : Nat}, w.Within pos rs →
    w.Within pos [rs.flatten]
  | r :: rs, pos, h => by
    rw [Within, List.flatten_cons, List.length_append]
    rcases h with h | h
    · exact .inl ⟨h.1, Nat.le_trans h.2 (by omega)⟩
    · rcases h.join with h | h
      · exact .inl ⟨by omega, by omega⟩
      · exact absurd h id

end Write

namespace Tape

/-- The bytes on a tape. -/
def bytes (t : Tape) : Bytes := t.contents.bytes

theorem length_bytes (t : Tape) : t.bytes.length = t.size := t.contents.length_bytes

/-- From one tape to another some records were put at the position. -/
structure Puts (t : Tape) (rs : List Bytes) (t' : Tape) : Prop where
  bytes_eq : t'.bytes = t.bytes.place t.pos rs.flatten
  pos_eq : t'.pos = t.pos + rs.flatten.length
  journal_eq : ∃ ws, t'.journal = ws ++ t.journal ∧ ∀ w ∈ ws, w.Within t.pos rs

namespace Puts

variable {t t' t'' : Tape} {rs rs' : List Bytes}

theorem pos_le (h : t.Puts rs t') (ht : t.pos ≤ t.size) : t'.pos ≤ t'.size := by
  rw [← length_bytes] at ht ⊢
  rw [h.pos_eq, h.bytes_eq]
  exact Bytes.le_length_place ht _

theorem trans (h : t.Puts rs t') (h' : t'.Puts rs' t'') (ht : t.pos ≤ t.size) :
    t.Puts (rs ++ rs') t'' := by
  rw [← length_bytes] at ht
  obtain ⟨ws, hw, hin⟩ := h.journal_eq
  obtain ⟨ws', hw', hin'⟩ := h'.journal_eq
  refine ⟨?_, ?_, ws' ++ ws, by rw [hw', hw, List.append_assoc], fun w hmem => ?_⟩
  · rw [h'.bytes_eq, h.bytes_eq, h.pos_eq, Bytes.place_place ht, List.flatten_append]
  · rw [h'.pos_eq, h.pos_eq, List.flatten_append, List.length_append, Nat.add_assoc]
  · rw [Write.within_append]
    rcases List.mem_append.1 hmem with hmem | hmem
    · exact .inr (h.pos_eq ▸ hin' w hmem)
    · exact .inl (hin w hmem)

/-- Several records seen as one. -/
theorem join (h : t.Puts rs t') : t.Puts [rs.flatten] t' := by
  obtain ⟨ws, hw, hin⟩ := h.journal_eq
  refine ⟨by rw [h.bytes_eq]; simp, by rw [h.pos_eq]; simp, ws, hw, fun w hmem => (hin w hmem).join⟩

end Puts

/-- What an operation does at a position, over whatever is there. -/
def Writes {α : Type} (p : Nat) (op : Op α) (fits : Prop) (a : α) (rs : List Bytes) : Prop :=
  ∀ t : Tape, t.pos = p → t.pos ≤ t.size →
    (fits ∧ ∃ t', op.run t = .ok a t' ∧ t.Puts rs t') ∨
      (¬fits ∧ ∃ e t', op.run t = .error e t' ∧ e.IsLimit)

namespace Writes

variable {α β : Type} {p : Nat} {op : Op α} {fits Q : Prop} {a : α} {b : β}
  {rs rs' : List Bytes}

theorem congr (h : Writes p op fits a rs) (hf : fits ↔ Q) : Writes p op Q a rs := by
  intro t hp ht
  rw [← hf]
  exact h t hp ht

theorem cast (h : Writes p op fits a rs) (hr : rs = rs') : Writes p op fits a rs' := hr ▸ h

/-- Several records seen as one. -/
theorem join (h : Writes p op fits a rs) : Writes p op fits a [rs.flatten] := by
  intro t hp ht
  rcases h t hp ht with ⟨hf, t', hrun, hputs⟩ | h
  · exact .inl ⟨hf, t', hrun, hputs.join⟩
  · exact .inr h

theorem pure (a : α) : Writes p (Pure.pure a) True a [] := by
  intro t _ _
  exact .inl ⟨trivial, t, rfl, by simp [Bytes.place_nil], by simp, [], rfl, by simp⟩

theorem bind {k : α → Op β} (h : Writes p op fits a rs)
    (hk : Writes (p + rs.flatten.length) (k a) Q b rs') :
    Writes p (op >>= k) (fits ∧ Q) b (rs ++ rs') := by
  intro t hp ht
  rw [EStateM.run_bind]
  rcases h t hp ht with ⟨hf, t', hrun, hputs⟩ | ⟨hf, e, t', hrun, he⟩
  · rw [hrun]
    rcases hk t' (by rw [hputs.pos_eq, hp]) (hputs.pos_le ht) with
      ⟨hf', t'', hrun', hputs'⟩ | ⟨hf', e, t'', hrun', he⟩
    · exact .inl ⟨⟨hf, hf'⟩, t'', hrun', hputs.trans hputs' ht⟩
    · exact .inr ⟨fun h => hf' h.2, e, t'', hrun', he⟩
  · rw [hrun]
    exact .inr ⟨fun h => hf h.1, e, t', rfl, he⟩

/-- Only the value is changed. -/
theorem map (h : Writes p op fits a rs) (f : α → β) :
    Writes p (op >>= fun a => Pure.pure (f a)) fits (f a) rs := by
  have := h.bind (k := fun a => Pure.pure (f a)) (Writes.pure (f a))
  simpa using this

/-- An operation for each element of a list. -/
theorem forM {f : β → Op PUnit} {fits : β → Prop} {rs : β → List Bytes}
    (h : ∀ p x, Writes p (f x) (fits x) ⟨⟩ (rs x)) : ∀ (xs : List β) (p : Nat),
      Writes p (xs.forM f) (∀ x ∈ xs, fits x) ⟨⟩ (xs.flatMap rs)
  | [], p => (Writes.pure PUnit.unit).congr (by simp)
  | x :: xs, p => ((h p x).bind (forM h xs _)).congr (by simp)

/-- An operation for each element of a list, what they write seen as one record. -/
theorem forM_join {f : β → Op PUnit} {fits : β → Prop} {g : β → Bytes}
    (h : ∀ p x, Writes p (f x) (fits x) ⟨⟩ [g x]) (xs : List β) (p : Nat) :
    Writes p (xs.forM f) (∀ x ∈ xs, fits x) ⟨⟩ [xs.flatMap g] := by
  refine (forM h xs p).join.cast ?_
  simp only [flatten_flatMap, List.flatten_singleton]

end Writes

/-! ## Tapes that hold records -/

/-- What is on the tape are these records, and each write was within one of them. -/
structure Holds (t : Tape) (rs : List Bytes) : Prop where
  bytes_eq : t.bytes = rs.flatten
  within : ∀ w ∈ t.journal, w.Within 0 rs

namespace Holds

variable {t t' : Tape} {rs rs' A B : List Bytes}

theorem size_eq (h : t.Holds rs) : t.size = rs.flatten.length := by
  rw [← length_bytes, h.bytes_eq]

/-- Records put at the end. -/
theorem extend (h : t.Holds rs) (ht : t.pos = t.size) (hp : t.Puts rs' t') :
    t'.Holds (rs ++ rs') ∧ t'.pos = t'.size := by
  have hb : t'.bytes = (rs ++ rs').flatten := by
    rw [hp.bytes_eq, ht, ← length_bytes, Bytes.place_length, h.bytes_eq, List.flatten_append]
  obtain ⟨ws, hw, hin⟩ := hp.journal_eq
  refine ⟨⟨hb, fun w hmem => ?_⟩, ?_⟩
  · rw [hw, List.mem_append] at hmem
    rw [Write.within_append, Nat.zero_add, ← h.size_eq, ← ht]
    exact hmem.symm.imp (h.within w) (hin w)
  · rw [hp.pos_eq, ht, h.size_eq, ← length_bytes, hb, List.flatten_append, List.length_append]

/-- **Records put over others of the same lengths** leave all others as they are. -/
theorem patch (h : t.Holds (A ++ rs ++ B)) (hl : rs.map List.length = rs'.map List.length)
    (hp : { t with pos := A.flatten.length }.Puts rs' t') : t'.Holds (A ++ rs' ++ B) := by
  have hlen : rs'.flatten.length = rs.flatten.length := by
    rw [List.length_flatten, List.length_flatten, hl]
  have hmap : (A ++ rs ++ B).map List.length = (A ++ rs' ++ B).map List.length := by
    simp only [List.map_append, hl]
  obtain ⟨ws, hw, hin⟩ := hp.journal_eq
  refine ⟨?_, fun w hmem => ?_⟩
  · have hb : ({ t with pos := A.flatten.length } : Tape).bytes = (A ++ rs ++ B).flatten := h.bytes_eq
    rw [hp.bytes_eq, hb]
    simp only [List.flatten_append]
    exact Bytes.place_middle _ _ hlen
  · rw [hw, List.mem_append] at hmem
    rcases hmem with hmem | hmem
    · rw [Write.within_append, Write.within_append, Nat.zero_add]
      exact .inl (.inr (hin w hmem))
    · exact (h.within w hmem).congr hmap

end Holds

/-! ## The basic operations -/

/-- The tape after bytes were written. -/
def written (t : Tape) (d : Dense) : Tape :=
  ⟨t.contents.overwrite t.pos d, t.pos + d.size, ⟨t.pos, d⟩ :: t.journal⟩

theorem puts_written {t : Tape} (ht : t.pos ≤ t.size) (d : Dense) :
    t.Puts [d.bytes] (t.written d) := by
  have hsize : d.bytes.length = d.size := d.length_bytes
  refine ⟨?_, ?_, [⟨t.pos, d⟩], rfl, fun w hw => ?_⟩
  · show (t.contents.overwrite t.pos d).bytes = _
    have hgap : t.pos - t.contents.size = 0 := Nat.sub_eq_zero_of_le ht
    rw [Contents.bytes_overwrite, hgap, List.flatten_singleton, Bytes.place, hsize]
    simp [Bytes.zeros, bytes]
  · simp [hsize, written]
  · rw [List.mem_singleton] at hw
    subst hw
    exact .inl ⟨Nat.le_refl _, by simp [hsize]⟩

/-- Bytes written over the first of those that were put, the position kept. -/
theorem Puts.patch {t t' : Tape} {d e : Bytes} (h : t.Puts [d ++ e] t') (ht : t.pos ≤ t.size)
    {x : Dense} (hx : x.bytes.length = d.length) :
    t.Puts [x.bytes ++ e] { ({ t' with pos := t.pos } : Tape).written x with pos := t'.pos } := by
  have hpos : t'.pos = t.pos + (d ++ e).length := by rw [h.pos_eq, List.flatten_singleton]
  have ht' : t.pos ≤ t'.size := by
    have := h.pos_le ht
    omega
  have hlen : (x.bytes ++ e).length = (d ++ e).length := by
    rw [List.length_append, List.length_append, hx]
  obtain ⟨ws, hw, hin⟩ := h.journal_eq
  refine ⟨?_, ?_, ⟨t.pos, x⟩ :: ws, by rw [List.cons_append, ← hw]; rfl, fun w hmem => ?_⟩
  · refine (puts_written (t := { t' with pos := t.pos }) ht' x).bytes_eq.trans ?_
    show t'.bytes.place t.pos _ = _
    rw [h.bytes_eq, List.flatten_singleton, List.flatten_singleton, List.flatten_singleton,
      Bytes.place_over (by rw [length_bytes]; exact ht) hx]
  · rw [List.flatten_singleton, hlen]
    exact hpos
  · rcases List.mem_cons.1 hmem with rfl | hmem
    · refine .inl ⟨Nat.le_refl _, ?_⟩
      rw [List.length_append, Dense.length_bytes]
      exact Nat.add_le_add_left (Nat.le_add_right _ _) _
    · have := hin w hmem
      rwa [Write.Within, ← hlen] at this

theorem writes_write (p : Nat) (d : Dense) : Writes p (write d) True ⟨⟩ [d.bytes] :=
  fun t _ ht => .inl ⟨trivial, t.written d, rfl, puts_written ht d⟩

theorem writes_word {α : Type} [Word α] (p : Nat) (a : α) :
    Writes p (writeWord a) True ⟨⟩ [(Word.encode a).bytes] := writes_write p _

theorem writes_position (p : Nat) : Writes p position True p [] := by
  intro t hp _
  exact .inl ⟨trivial, t, by rw [← hp]; rfl, by simp [Bytes.place_nil], by simp, [], rfl, by simp⟩

theorem run_seek_bind {α : Type} (pos : Nat) (k : Unit → Op α) (t : Tape) :
    (seek pos >>= k).run t = (k ⟨⟩).run { t with pos := pos } := rfl

theorem run_position_bind {α : Type} (k : Nat → Op α) (t : Tape) :
    (position >>= k).run t = (k t.pos).run t := rfl

theorem run_toEnd_bind {α : Type} (k : Nat → Op α) (t : Tape) :
    (toEnd >>= k).run t = (k t.size).run { t with pos := t.size } := rfl

/-- A length that is too large is refused. -/
theorem Writes.refuse {α : Type} {p : Nat} {e : Error} (he : e.IsLimit) {refused fits : Prop}
    [Decidable refused] {k : PUnit → Op α} {a : α} {rs : List Bytes}
    (h : Writes p (k ⟨⟩) fits a rs) :
    Writes p (if refused then throw e >>= k else k ⟨⟩) (¬refused ∧ fits) a rs := by
  by_cases hr : refused
  · rw [if_pos hr]
    exact fun t _ _ => .inr ⟨fun hn => hn.1 hr, e, t, rfl, he⟩
  · rw [if_neg hr]
    exact h.congr (by simp [hr])

end Tape

/-! ## Lengths filled in later -/

namespace Slot

/-- An operation with a place for the length of what it writes in front. -/
def around (body : Tape.Op PUnit) : Tape.Op (Slot × UInt32) := do
  let slot ← reserve
  body
  let length ← slot.commit
  return (slot, length)

theorem around_bind {α : Type} (body : Tape.Op PUnit) (k : Slot → UInt32 → Tape.Op α) :
    (reserve >>= fun slot => body >>= fun _ => slot.commit >>= k slot) =
      around body >>= fun x => k x.1 x.2 := by
  simp only [around, bind_assoc, pure_bind]

theorem bytes_encode_length (n : Nat) :
    (Word.encode (UInt32.ofNat n)).bytes = Bytes.ofNat 4 n := by
  have : Word.toNat (UInt32.ofNat n) = n % 256 ^ 4 := UInt32.toNat_ofNat'
  rw [Word.encode, Dense.bytes_ofNat, this]
  exact Bytes.ofNat_mod 4 n

theorem run_reserve (t : Tape) :
    reserve.run t = .ok ⟨t.pos⟩ (t.written (Word.encode (0 : UInt32))) := rfl

theorem run_commit (s : Slot) (t : Tape) : s.commit.run t =
    if t.pos < s.contentStart then .error (.writer (.behindSlot s.pos)) t
    else if 2 ^ 32 ≤ t.pos - s.contentStart then
      .error (.writer (.blockTooLong (t.pos - s.contentStart))) t
    else
      let len := UInt32.ofNat (t.pos - s.contentStart)
      .ok len { ({ t with pos := s.pos } : Tape).written (Word.encode len) with pos := t.pos } := by
  rw [commit, EStateM.run_bind]
  simp only [Tape.position, EStateM.run]
  split
  · rfl
  · split <;> rfl

end Slot

namespace Tape

open Slot

/-- **A length filled in later is the length written first**, if four bytes can hold it. -/
theorem Writes.around {p : Nat} {body : Op PUnit} {fits : Prop} {rs : List Bytes}
    (h : Writes (p + 4) body fits ⟨⟩ rs) :
    Writes p (around body) (fits ∧ rs.flatten.length < 2 ^ 32)
      (⟨p⟩, UInt32.ofNat rs.flatten.length) [Bytes.sized rs.flatten] := by
  intro t hp ht
  subst hp
  have hzero : (Word.encode (0 : UInt32)).bytes.length = 4 := Word.length_encode _
  have hputs₁ := puts_written ht (Word.encode (0 : UInt32))
  have hpos₁ : (t.written (Word.encode (0 : UInt32))).pos = t.pos + 4 := by
    rw [hputs₁.pos_eq, List.flatten_singleton, hzero]
  rw [Slot.around, EStateM.run_bind, run_reserve]
  simp only [EStateM.run_bind]
  rcases h _ hpos₁ (hputs₁.pos_le ht) with ⟨hf, t', hrun, hputs₂⟩ | ⟨hf, e, t', hrun, he⟩
  · have hpos : t'.pos = t.pos + 4 + rs.flatten.length := by rw [hputs₂.pos_eq, hpos₁]
    have hlen : t'.pos - (⟨t.pos⟩ : Slot).contentStart = rs.flatten.length := by
      rw [hpos, contentStart, Nat.add_sub_cancel_left]
    have hstart : ¬t'.pos < (⟨t.pos⟩ : Slot).contentStart := by
      show ¬t'.pos < t.pos + 4
      omega
    simp only [hrun, run_commit, hlen, if_neg hstart]
    by_cases hl : rs.flatten.length < 2 ^ 32
    · rw [if_neg (Nat.not_le_of_lt hl)]
      have hputs := (hputs₁.trans hputs₂ ht).join
      rw [List.singleton_append, List.flatten_cons] at hputs
      have := hputs.patch ht (x := Word.encode (UInt32.ofNat rs.flatten.length))
        (by rw [bytes_encode_length, Bytes.length_ofNat, hzero])
      rw [bytes_encode_length] at this
      exact .inl ⟨⟨hf, hl⟩, _, rfl, this⟩
    · rw [if_pos (Nat.le_of_not_lt hl)]
      exact .inr ⟨fun h => hl h.2, _, _, rfl, trivial⟩
  · simp only [hrun]
    exact .inr ⟨fun h => hf h.1, e, t', rfl, he⟩

/-- The same with something behind it, as operations have it. -/
theorem Writes.around_bind {α : Type} {p : Nat} {body : Op PUnit} {k : Slot → UInt32 → Op α}
    {fits Q : Prop} {a : α} {rs rs' : List Bytes} (h : Writes (p + 4) body fits ⟨⟩ rs)
    (hk : Writes (p + (4 + rs.flatten.length)) (k ⟨p⟩ (UInt32.ofNat rs.flatten.length)) Q a rs') :
    Writes p (reserve >>= fun slot => body >>= fun _ => slot.commit >>= k slot)
      ((fits ∧ rs.flatten.length < 2 ^ 32) ∧ Q) a (Bytes.sized rs.flatten :: rs') := by
  rw [Slot.around_bind]
  refine (Writes.around h).bind (k := fun x => k x.1 x.2) ?_
  rwa [List.flatten_singleton, Bytes.length_sized]

end Tape

end BagFile
