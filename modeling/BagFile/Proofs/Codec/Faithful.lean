/-
  What is relied on of a compressed format, and what follows for whole contents.

  * `Format.Takes` is said of writers and `Format.Gives` of readers, each for one call; what they
    have in common is what a stored form stands for in the format, so that neither mentions the
    other;
  * `Format.Faithful` formats have both, and then give back what they stored, in however many
    pieces it is taken and read (`Format.Faithful.unpack_eq`);
  * a format in memory is faithful if its two functions fit (`Format.faithful_inMemory`).
-/
import BagFile.Codec.InMemory

namespace BagFile.Codec.Format

variable {f : Format} {content : Dense → Option Bytes}

/-! ## The contract -/

/-- A writer adds what it takes of some bytes to what it has `taken`, and its stored form stands
    for all that. -/
structure Takes (f : Format) (content : Dense → Option Bytes) (taken : f.Writer → Bytes) :
    Prop where
  writer : taken f.writer = []
  write : ∀ {w d n w'}, f.write w d = some (n, w') → taken w' = taken w ++ d.bytes.take n
  finish : ∀ {w stored}, f.finish w = some stored → content stored = some (taken w)

/-- A reader gives the next of the bytes that are `left` in it, and none only at their end.  With
    damage ahead nothing is left: such a reader fails sooner or later, and has no end. -/
structure Gives (f : Format) (content : Dense → Option Bytes) (left : f.Reader → Option Bytes) :
    Prop where
  reader : ∀ stored, left (f.reader stored) = content stored
  read : ∀ {r bs n}, left r = some bs → 0 < n → ∃ d r' rest, f.read r n = some (d, r') ∧
    left r' = some rest ∧ d.bytes ++ rest = bs ∧ (d.size = 0 → bs = [])
  fails : ∀ {r n d r'}, left r = none → 0 < n → f.read r n = some (d, r') →
    left r' = none ∧ 0 < d.size

/-- A format that does what its documentation says: there is a `content` that stored forms stand
    for, its writers store it and its readers give it. -/
def Faithful (f : Format) : Prop :=
  ∃ content taken left, f.Takes content taken ∧ f.Gives content left

/-! ## Whole contents -/

/-- If each call adds what it takes, all bytes are added in the end. -/
theorem taken_writeAll {taken : f.Writer → Bytes}
    (hwrite : ∀ {w d n w'}, f.write w d = some (n, w') → taken w' = taken w ++ d.bytes.take n)
    {w w' : f.Writer} {d : Dense} (h : f.writeAll w d = some w') :
    taken w' = taken w ++ d.bytes := by
  fun_induction writeAll f w d with
  | case1 w d hd =>
    obtain rfl : w = w' := Option.some.inj h
    rw [List.eq_nil_of_length_eq_zero ((Dense.length_bytes d).trans hd), List.append_nil]
  | case2 w d hd hnone => cases h
  | case3 w d hd w₁ hzero => cases h
  | case4 w d hd n w₁ hsome ih =>
    have hrest : (d.bytes.drop (n + 1)).take (d.size - (n + 1)) = d.bytes.drop (n + 1) := by
      refine List.take_of_length_le (Nat.le_of_eq ?_)
      rw [List.length_drop, Dense.length_bytes]
    rw [ih h, hwrite hsome, List.append_assoc, Dense.bytes_extract, hrest, Nat.succ_eq_add_one,
      List.take_append_drop]

/-- A stored form stands for the bytes that were stored. -/
theorem Takes.pack {taken : f.Writer → Bytes} (h : f.Takes content taken) {d stored : Dense}
    (hpack : f.pack d = some stored) : content stored = some d.bytes := by
  obtain ⟨w, hw, hfinish⟩ := Option.bind_eq_some_iff.mp hpack
  rw [h.finish hfinish, taken_writeAll h.write hw, h.writer, List.nil_append]

/-- All that is left is read, however much is asked for at a time. -/
theorem Gives.readToEnd {left : f.Reader → Option Bytes} (h : f.Gives content left)
    {room : Nat → Nat} (hroom : ∀ n, 0 < room n) (r : f.Reader) (out : Dense) :
    (f.readToEnd room r out).map Dense.bytes = (left r).map (out.bytes ++ ·) := by
  fun_induction Format.readToEnd f room r out with
  | case1 r out hread =>
    rcases hleft : left r with - | bs
    · rfl
    · obtain ⟨d, r', rest, hsome, -⟩ := h.read hleft (hroom out.size)
      rw [hread] at hsome
      cases hsome
  | case2 r out d r' hread hd ih =>
    rw [ih]
    rcases hleft : left r with - | bs
    · rw [(h.fails hleft (hroom _) hread).1]
      rfl
    · obtain ⟨d₁, r₁, rest, hsome, hrest, hbytes, -⟩ := h.read hleft (hroom out.size)
      obtain ⟨rfl, rfl⟩ : d = d₁ ∧ r' = r₁ := by simpa [hread] using hsome
      rw [hrest, Option.map_some, Option.map_some, Dense.bytes_append, List.append_assoc, hbytes]
  | case3 r out d r' hread hd =>
    rcases hleft : left r with - | bs
    · exact absurd (h.fails hleft (hroom _) hread).2 hd
    · obtain ⟨d₁, r₁, rest, hsome, -, -, hend⟩ := h.read hleft (hroom out.size)
      obtain ⟨rfl, rfl⟩ : d = d₁ ∧ r' = r₁ := by simpa [hread] using hsome
      rw [hend (by omega), Option.map_some, Option.map_some, List.append_nil]

theorem Gives.unpack {left : f.Reader → Option Bytes} (h : f.Gives content left) (stored : Dense)
    (hint : Nat) : (f.unpack stored hint).map Dense.bytes = content stored := by
  rw [Format.unpack, h.readToEnd (room_pos hint), h.reader]
  exact congrFun Option.map_id _

/-- **A faithful format gives back what it stored**, whatever room is set aside. -/
theorem Faithful.unpack_eq (h : f.Faithful) {d stored : Dense} (hpack : f.pack d = some stored)
    (hint : Nat) : f.unpack stored hint = some d := by
  obtain ⟨content, taken, left, htakes, hgives⟩ := h
  have hbytes := hgives.unpack stored hint
  rw [htakes.pack hpack] at hbytes
  obtain ⟨d', hd', hsame⟩ := Option.map_eq_some_iff.mp hbytes
  rw [hd', ← Dense.ofBytes_bytes d', hsame, Dense.ofBytes_bytes]

/-- What is read does not depend on the room that is set aside, also if it was stored elsewhere. -/
theorem Faithful.unpack_hint (h : f.Faithful) (stored : Dense) (hint hint' : Nat) :
    f.unpack stored hint = f.unpack stored hint' := by
  obtain ⟨content, taken, left, -, hgives⟩ := h
  have hinjective : Function.Injective Dense.bytes :=
    Function.LeftInverse.injective Dense.ofBytes_bytes
  exact Option.map_injective hinjective
    ((hgives.unpack stored hint).trans (hgives.unpack stored hint').symm)

/-! ## Formats in memory -/

variable {compress : Dense → Dense} {decompress : Dense → Option Dense}

theorem write_inMemory {w : (inMemory compress decompress).Writer} {d : Dense} {n : Nat}
    {w' : (inMemory compress decompress).Writer}
    (h : (inMemory compress decompress).write w d = some (n, w')) :
    Dense.bytes w' = Dense.bytes w ++ d.bytes.take n := by
  cases h
  rw [List.take_of_length_le (Nat.le_of_eq (Dense.length_bytes d))]
  exact Dense.bytes_append w d

/-- A format of two functions stores with one of them. -/
theorem pack_inMemory (d : Dense) : (inMemory compress decompress).pack d = some (compress d) := by
  obtain ⟨w, hw⟩ := (inMemory compress decompress).exists_writeAll ByteArray.empty d
  have hbytes : Dense.bytes w = [] ++ d.bytes := taken_writeAll write_inMemory hw
  obtain rfl : w = d := by
    rw [← Dense.ofBytes_bytes w, hbytes, List.nil_append, Dense.ofBytes_bytes]
  exact Option.bind_eq_some_iff.mpr ⟨w, hw, rfl⟩

/-- What a stored form stands for in a format of two functions: what the other one makes of it. -/
def contentOf (decompress : Dense → Option Dense) (stored : Dense) : Option Bytes :=
  (decompress stored).map Dense.bytes

theorem takes_inMemory (h : ∀ d, decompress (compress d) = some d) :
    (inMemory compress decompress).Takes (contentOf decompress) Dense.bytes where
  writer := rfl
  write := write_inMemory
  finish {w stored} hfinish := by
    cases hfinish
    exact congrArg (Option.map Dense.bytes) (h w)

theorem gives_inMemory : (inMemory compress decompress).Gives (contentOf decompress)
    (fun r => r.1.map fun d => d.bytes.drop r.2) where
  reader stored := by
    rw [contentOf]
    rfl
  read {r bs n} hleft hn := by
    obtain ⟨_ | d, pos⟩ := r
    · cases hleft
    · cases hleft
      refine ⟨d.extract pos (pos + n), (some d, pos + n), d.bytes.drop (pos + n), rfl, rfl, ?_, ?_⟩
      · rw [Dense.bytes_extract, Nat.add_sub_cancel_left, ← List.drop_drop,
          List.take_append_drop]
      · intro hzero
        rw [ByteArray.size_extract] at hzero
        refine List.drop_eq_nil_of_le ?_
        rw [Dense.length_bytes]
        omega
  fails {r n d r'} hleft hn hread := by
    obtain ⟨_ | d, pos⟩ := r
    · cases hread
    · cases hleft

/-- A format of two functions is faithful if the one undoes the other. -/
theorem faithful_inMemory (h : ∀ d, decompress (compress d) = some d) :
    (inMemory compress decompress).Faithful := ⟨_, _, _, takes_inMemory h, gives_inMemory⟩

end BagFile.Codec.Format
