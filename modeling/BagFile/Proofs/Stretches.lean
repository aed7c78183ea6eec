/-
  Stretches of bytes, as lists and in memory.

  * A stretch is given by its bytes (`Dense.ext_bytes`); `Dense.drop_bytes` goes along it byte by
    byte, and `Dense.foldl_eq` does so with a function;
  * `Dense.slice_of_drop_eq` and `Dense.natAt_of_drop_eq` read what is ahead of a position;
  * `drop_flatMap` finds a place among blocks of one width;
  * `Dense.flatMap_pieces`: the pieces of a stretch are the stretch, and `Dense.size_of_mem_pieces`
    says how long they are.
-/
import BagFile.Dense
import Mathlib.Algebra.BigOperators.Group.List.Basic
import Mathlib.Data.List.Basic

namespace BagFile

/-- A place among blocks of one width. -/
theorem drop_flatMap {α β : Type} {g : α → List β} {w : Nat} (hg : ∀ x, (g x).length = w) :
    ∀ (xs : List α) (i : Nat), (xs.flatMap g).drop (w * i) = (xs.drop i).flatMap g
  | xs, 0 => by simp
  | [], i + 1 => by simp
  | x :: xs, i + 1 => by
    rw [Nat.mul_succ, Nat.add_comm, ← List.drop_drop, List.flatMap_cons, List.drop_left' (hg x),
      drop_flatMap hg xs i, List.drop_succ_cons]

/-- There are no more of some things than of what they are made of. -/
theorem length_le_flatMap {α β : Type} {g : α → List β} (hg : ∀ x, 0 < (g x).length) (xs : List α) :
    xs.length ≤ (xs.flatMap g).length := by
  rw [List.length_flatMap, ← List.length_map (fun x => (g x).length)]
  refine List.length_le_sum_of_one_le _ ?_
  intro n hn
  obtain ⟨x, -, rfl⟩ := List.mem_map.1 hn
  exact hg x

theorem drop_add_of_drop_eq {α : Type} {l xs ys : List α} {pos : Nat} (h : l.drop pos = xs ++ ys) :
    l.drop (pos + xs.length) = ys := by rw [← List.drop_drop, h, List.drop_left]

/-- What comes behind a prefix of what is ahead. -/
theorem prefix_drop_add {α : Type} {l xs ys : List α} {pos : Nat} (h : xs ++ ys <+: l.drop pos) :
    ys <+: l.drop (pos + xs.length) := by
  obtain ⟨rest, hrest⟩ := h
  rw [List.append_assoc] at hrest
  rw [drop_add_of_drop_eq hrest.symm]
  exact List.prefix_append _ _

namespace Dense

theorem ext_bytes {d e : Dense} (h : d.bytes = e.bytes) : d = e := by
  rw [← ofBytes_bytes d, h, ofBytes_bytes]

theorem size_ofBytes (bs : Bytes) : (ofBytes bs).size = bs.length := by
  rw [← length_bytes, bytes_ofBytes]

/-- A byte, and those behind it. -/
theorem drop_bytes {d : Dense} {pos : Nat} (h : pos < d.size) :
    d.bytes.drop pos = d[pos] :: d.bytes.drop (pos + 1) :=
  List.drop_eq_getElem_cons (by rwa [length_bytes])

theorem drop_bytes_of_le {d : Dense} {pos : Nat} (h : d.size ≤ pos) : d.bytes.drop pos = [] :=
  List.drop_eq_nil_of_le (by rwa [length_bytes])

/-- Where a byte is ahead, there is one. -/
theorem of_drop_eq_cons {d : Dense} {pos : Nat} {b : UInt8} {bs : Bytes}
    (h : d.bytes.drop pos = b :: bs) : ∃ hpos : pos < d.size, d[pos] = b ∧
      d.bytes.drop (pos + 1) = bs := by
  by_cases hpos : pos < d.size
  · rw [drop_bytes hpos] at h
    obtain ⟨hb, hbs⟩ := List.cons.inj h
    exact ⟨hpos, hb, hbs⟩
  · rw [drop_bytes_of_le (Nat.le_of_not_lt hpos)] at h
    cases h

section Ahead

variable {d : Dense} {pos : Nat} {rest : Bytes}

/-- The end of a stretch, where something is ahead. -/
theorem size_of_drop_eq (h : d.bytes.drop pos = rest) (hrest : rest ≠ []) :
    d.size = pos + rest.length := by
  have hpos := List.length_pos_of_ne_nil hrest
  rw [← h, List.length_drop, length_bytes] at hpos
  rw [← h, List.length_drop, length_bytes]
  omega

theorem slice_of_drop_eq {e : Dense} (h : d.bytes.drop pos = e.bytes ++ rest) :
    d.slice pos e.size = e := by
  apply ext_bytes
  rw [bytes_slice, h, List.take_left' (length_bytes e)]

/-- A number that is ahead. -/
theorem natAt_of_drop_eq {w n : Nat} (h : d.bytes.drop pos = Bytes.ofNat w n ++ rest)
    (hn : n < 256 ^ w) : d.natAt pos w = n := by
  rw [natAt_eq, h, List.take_left' (Bytes.length_ofNat w n), Bytes.toNat_ofNat_of_lt hn]

end Ahead

/-- The byte at a position. -/
theorem byteAt_eq {d : Dense} {pos : Nat} {b : UInt8} (h : d.bytes[pos]? = some b) :
    d.byteAt pos = b := by
  obtain ⟨hpos, hb⟩ := List.getElem?_eq_some_iff.1 h
  rw [length_bytes] at hpos
  rw [byteAt, dif_pos hpos]
  exact hb

theorem map_byteAt (d : Dense) : (List.range d.size).map d.byteAt = d.bytes := by
  refine List.ext_getElem (by rw [List.length_map, List.length_range, length_bytes]) ?_
  intro pos _ hpos
  rw [List.getElem_map, List.getElem_range]
  exact byteAt_eq (List.getElem?_eq_getElem hpos)

theorem foldlM_loop {β : Type} (f : β → UInt8 → β) (d : Dense) (n pos : Nat) (b : β)
    (h : pos + n = d.size) :
    ByteArray.foldlM.loop (m := Id) (fun b c => pure (f b c)) d d.size (Nat.le_refl _) n pos b =
      (d.bytes.drop pos).foldl f b := by
  induction n generalizing pos b with
  | zero =>
    rw [ByteArray.foldlM.loop, dif_neg (by omega), drop_bytes_of_le (by omega)]
    rfl
  | succ n ih =>
    have hpos : pos < d.size := by omega
    rw [ByteArray.foldlM.loop, dif_pos hpos, drop_bytes hpos, List.foldl_cons,
      ← ih (pos + 1) _ (by omega)]
    rfl

theorem foldl_eq {β : Type} (f : β → UInt8 → β) (d : Dense) (b : β) :
    d.foldl f b = d.bytes.foldl f b := by
  rw [ByteArray.foldl, ByteArray.foldlM]
  simp only [Nat.le_refl, dif_pos]
  exact foldlM_loop f d _ 0 b (by omega)

theorem take_append_extract (d : Dense) {start stop : Nat} (h : start ≤ stop) :
    d.bytes.take start ++ bytes (d.extract start stop) = d.bytes.take stop := by
  rw [bytes_extract, ← List.take_add, Nat.add_sub_of_le h]

theorem take_size (d : Dense) : d.bytes.take d.size = d.bytes :=
  List.take_of_length_le (Nat.le_of_eq d.length_bytes)

/-! ## Pieces -/

/-- A stretch in pieces is the same stretch. -/
theorem flatMap_pieces {n : Nat} (hn : 0 < n) (d : Dense) :
    (d.pieces n).flatMap bytes = d.bytes := by
  have hslices : ∀ (k : Nat), ((List.range k).map fun i => d.slice (n * i) n).flatMap bytes =
      d.bytes.take (n * k) := by
    intro k
    induction k with
    | zero => simp
    | succ k ih =>
      rw [List.range_succ, List.map_append, List.flatMap_append, ih, List.map_singleton,
        List.flatMap_singleton, bytes_slice, Nat.mul_succ, List.take_add]
  rw [pieces, hslices, List.take_of_length_le]
  rw [length_bytes]
  have hmod := Nat.div_add_mod (d.size + (n - 1)) n
  have hlt := Nat.mod_lt (d.size + (n - 1)) hn
  omega

theorem join_eq {ds : List Dense} {d : Dense} (h : ds.flatMap bytes = d.bytes) : join ds = d :=
  ext_bytes ((bytes_join ds).trans h)

theorem size_of_mem_pieces {n : Nat} (hn : 0 < n) {d e : Dense} (he : e ∈ d.pieces n) :
    0 < e.size ∧ e.size ≤ n := by
  obtain ⟨i, hi, rfl⟩ := List.mem_map.1 he
  have hlt : n * i < d.size := by
    have hi := List.mem_range.1 hi
    have hmul : n * (i + 1) ≤ d.size + (n - 1) :=
      Nat.le_trans (Nat.mul_le_mul_left n hi) (Nat.mul_div_le _ _)
    rw [Nat.mul_succ] at hmul
    omega
  rw [← length_bytes, bytes_slice, List.length_take, List.length_drop, length_bytes]
  omega

end Dense

end BagFile
