/-
  The block sort of bzip2 can be undone.

  * A row with its last byte in front is a row again (`Rotation.perm_turned`).  Sorted by this
    byte alone, ties kept, these are all the rows in order (`Rotation.sorted_turned`), since they
    were in order behind it;
  * so the place that a byte of the last column gets in sorting the column is that of its row,
    turned (`Rotation.getElem?_place`), and `Rotation.links` holds the way back
    (`Rotation.getElem?_links`);
  * `Rotation.decode_encode` walks along these links.
-/
import BagFile.Codec.Bzip2.Rotation
import BagFile.Proofs.StableSort
import BagFile.Proofs.Stretches
import Mathlib.Data.Fintype.EquivFin

namespace BagFile.Bzip2.Rotation

/-! ## Rows -/

/-- The rotation of a text by so many bytes. -/
def rotation (bs : Bytes) (i : Nat) : Bytes := bs.drop i ++ bs.take i

/-- A row with its last byte in front. -/
def turn (r : Bytes) : Bytes := r.getLastD 0 :: r.dropLast

/-- The first byte of a row, as a number. -/
def lead (r : Bytes) : Nat := (r.headD 0).toNat

variable {bs r r' : Bytes}

theorem length_rotation {i : Nat} (h : i ≤ bs.length) : (rotation bs i).length = bs.length := by
  rw [rotation, List.length_append, List.length_drop, List.length_take]
  omega

theorem turn_rotation {i : Nat} (h : i < bs.length) :
    turn (rotation bs (i + 1)) = rotation bs i := by
  have hlast : rotation bs (i + 1) = bs.drop (i + 1) ++ bs.take i ++ [bs[i]] := by
    rw [rotation, List.append_assoc, List.take_append_getElem h]
  rw [turn, hlast, List.getLastD_concat, List.dropLast_concat, rotation,
    List.drop_eq_getElem_cons h, List.cons_append]

theorem rows_perm (bs : Bytes) :
    (rows bs).Perm ((List.range bs.length).map (rotation bs)) := List.mergeSort_perm _ _

theorem length_rows (bs : Bytes) : (rows bs).length = bs.length := by
  rw [(rows_perm bs).length_eq, List.length_map, List.length_range]

theorem length_of_mem_rows (h : r ∈ rows bs) : r.length = bs.length := by
  obtain ⟨i, hi, rfl⟩ := List.mem_map.1 ((rows_perm bs).mem_iff.1 h)
  exact length_rotation (Nat.le_of_lt (List.mem_range.1 hi))

/-- The text is among its rotations, if it is not empty. -/
theorem mem_rows (h : bs ≠ []) : bs ∈ rows bs := by
  refine (rows_perm bs).mem_iff.2 (List.mem_map.2 ⟨0, ?_, ?_⟩)
  · exact List.mem_range.2 (List.length_pos_iff.2 h)
  · rw [rotation, List.drop_zero, List.take_zero, List.append_nil]

/-- **Rows with the last byte in front** are the same rows. -/
theorem perm_turned (bs : Bytes) : ((rows bs).map turn).Perm (rows bs) := by
  have hturned : ((List.range bs.length).map fun i => rotation bs (i + 1)).map turn =
      (List.range bs.length).map (rotation bs) := by
    rw [List.map_map]
    exact List.map_congr_left fun i hi => turn_rotation (List.mem_range.1 hi)
  have hshifted : ((List.range bs.length).map (rotation bs)).Perm
      ((List.range bs.length).map fun i => rotation bs (i + 1)) := by
    rcases hlength : bs.length with - | n
    · exact List.Perm.refl _
    · -- the rotation by all bytes is the text itself
      have hwhole : rotation bs 0 = rotation bs (n + 1) := by
        rw [rotation, rotation, ← hlength, List.drop_length, List.take_length, List.drop_zero,
          List.take_zero, List.append_nil, List.nil_append]
      rw [List.range_succ_eq_map, List.map_cons, List.map_map, hwhole, ← List.range_succ_eq_map,
        List.range_succ, List.map_append, List.map_singleton]
      exact (List.perm_append_singleton _ _).symm
  exact ((rows_perm bs).map turn).trans
    ((hshifted.map turn).trans (hturned ▸ (rows_perm bs).symm))

/-! ## The order of rows -/

theorem sorted_rows (bs : Bytes) : (rows bs).Pairwise (· ≤ ·) := by
  have htrans : ∀ a b c : Bytes, decide (a ≤ b) → decide (b ≤ c) → decide (a ≤ c) := by
    intro a b c hab hbc
    rw [decide_eq_true_eq] at hab hbc ⊢
    exact List.le_trans hab hbc
  have htotal : ∀ a b : Bytes, decide (a ≤ b) || decide (b ≤ a) := by
    intro a b
    rw [Bool.or_eq_true, decide_eq_true_eq, decide_eq_true_eq]
    exact List.le_total a b
  exact (List.pairwise_mergeSort htrans htotal _).imp of_decide_eq_true

/-- Rows in order begin with bytes in order. -/
theorem lead_le (h : r ≤ r') (hlength : r.length = r'.length) : lead r ≤ lead r' := by
  cases r with
  | nil => exact Nat.zero_le _
  | cons a r =>
    cases r' with
    | nil => cases hlength
    | cons b r' =>
      rcases List.cons_le_cons_iff.1 h with hlt | ⟨rfl, -⟩
      · exact Nat.le_of_lt (UInt8.lt_iff_toNat_lt.1 hlt)
      · exact Nat.le_refl _

/-- Rows are in order without their last bytes, too. -/
theorem dropLast_le (h : r ≤ r') (hlength : r.length = r'.length) : r.dropLast ≤ r'.dropLast := by
  induction r generalizing r' with
  | nil =>
    obtain rfl := List.length_eq_zero_iff.1 hlength.symm
    exact h
  | cons a r ih =>
    cases r' with
    | nil => cases hlength
    | cons b r' =>
      have hrest : r.length = r'.length := Nat.succ.inj hlength
      cases r with
      | nil =>
        obtain rfl := List.length_eq_zero_iff.1 hrest.symm
        exact List.le_refl _
      | cons c r =>
        cases r' with
        | nil => cases hrest
        | cons d r' =>
          rw [List.dropLast_cons_cons, List.dropLast_cons_cons]
          refine List.cons_le_cons_iff.2 ((List.cons_le_cons_iff.1 h).imp id ?_)
          rintro ⟨rfl, hle⟩
          exact ⟨rfl, ih hle hrest⟩

theorem byKey_lead : ByKey (fun r r' : Bytes => decide (lead r ≤ lead r')) lead :=
  fun _ _ => decide_eq_true_iff

/-- **Sorting by the first byte**, ties kept, puts the turned rows in order. -/
theorem sorted_turned (bs : Bytes) :
    ((rows bs).map turn).mergeSort (fun r r' => lead r ≤ lead r') = rows bs := by
  have hsorted := sorted_rows bs
  refine byKey_lead.mergeSort_eq ?_ fun k => ?_
  · exact hsorted.imp_of_mem fun hr hr' hle =>
      lead_le hle ((length_of_mem_rows hr).trans (length_of_mem_rows hr').symm)
  · refine List.Perm.eq_of_pairwise (fun _ _ _ _ => List.le_antisymm) (hsorted.filter _) ?_
      ((perm_turned bs).symm.filter _)
    rw [List.pairwise_filter, List.pairwise_map]
    refine hsorted.imp_of_mem fun {r r'} hr hr' hle hk hk' => ?_
    -- with one byte in front, the rest decides
    have hlead : r.getLastD 0 = r'.getLastD 0 := by
      rw [decide_eq_true_eq] at hk hk'
      exact UInt8.toNat_inj.1 (hk.trans hk'.symm)
    refine List.cons_le_cons_iff.2 (.inr ⟨hlead, dropLast_le hle ?_⟩)
    rw [length_of_mem_rows hr, length_of_mem_rows hr']

/-- The bytes of a column, as numbers. -/
def keys (column : Dense) : List Nat := column.bytes.map UInt8.toNat

/-- The place of a byte of a column, in sorting the column. -/
def place (column : Dense) (i : Nat) : Nat := placeOf (keys column) i (column.byteAt i).toNat

/-- **At the place of a byte of the last column** stands its row, turned. -/
theorem getElem?_place {column : Dense} (hcolumn : column.bytes = (encode bs).1) {i : Nat}
    (h : (rows bs)[i]? = some r) : (rows bs)[place column i]? = some (turn r) := by
  have hbytes : column.bytes = (rows bs).map fun r => r.getLastD 0 := hcolumn
  have hkeys : ((rows bs).map turn).map lead = keys column := by
    rw [keys, hbytes, List.map_map, List.map_map]
    rfl
  have hbyte : column.byteAt i = r.getLastD 0 := by
    refine Dense.byteAt_eq ?_
    rw [hbytes, List.getElem?_map, h]
    rfl
  have hturned : ((rows bs).map turn)[i]? = some (turn r) := by
    rw [List.getElem?_map, h]
    rfl
  have hplace := byKey_lead.getElem?_mergeSort hturned
  rw [sorted_turned, hkeys] at hplace
  rw [place, hbyte]
  exact hplace

/-! ## Links -/

variable (column : Dense)

/-- The places of a column, in the order of their bytes. -/
theorem getElem?_places {i : Nat} (h : i < column.size) :
    ((List.range column.size).mergeSort fun j k =>
      (column.byteAt j).toNat ≤ (column.byteAt k).toNat)[place column i]? = some i := by
  have hkey : ByKey (fun j k => decide ((column.byteAt j).toNat ≤ (column.byteAt k).toNat))
      fun j => (column.byteAt j).toNat := fun _ _ => decide_eq_true_iff
  have hkeys : (List.range column.size).map (fun j => (column.byteAt j).toNat) = keys column := by
    rw [keys, ← column.map_byteAt, List.map_map]
    rfl
  have hplace := hkey.getElem?_mergeSort (List.getElem?_range h)
  rw [hkeys] at hplace
  exact hplace

variable {column} {i : Nat}

theorem place_lt (h : i < column.size) : place column i < column.size := by
  have hlt := (List.getElem?_eq_some_iff.1 (getElem?_places column h)).1
  rwa [List.length_mergeSort, List.length_range] at hlt

theorem place_inj {j : Nat} (hi : i < column.size) (hj : j < column.size)
    (h : place column i = place column j) : i = j := by
  have hplace := getElem?_places column hi
  rw [h, getElem?_places column hj] at hplace
  exact (Option.some.inj hplace).symm

/-- Every place of the column is taken. -/
theorem exists_place {k : Nat} (hk : k < column.size) : ∃ i < column.size, place column i = k := by
  let f : Fin column.size → Fin column.size := fun i => ⟨place column i, place_lt i.2⟩
  have hinjective : Function.Injective f := fun i j h =>
    Fin.ext (place_inj i.2 j.2 (Fin.mk.inj_iff.1 h))
  obtain ⟨i, hi⟩ := Finite.injective_iff_surjective.1 hinjective ⟨k, hk⟩
  exact ⟨i, i.2, Fin.mk.inj_iff.1 hi⟩

variable (column) in
/-- The bytes of a column are counted. -/
theorem counts_eq :
    (counts column).toList = (List.range 256).map fun b => (keys column).countP (· = b) := by
  have hfold : ∀ (bs : Bytes) (a : Array Nat),
      (bs.foldl (fun a b => a.modify b.toNat (· + 1)) a).size = a.size ∧ ∀ b, (bs.foldl (fun a b => a.modify b.toNat (· + 1)) a)[b]? =
        a[b]?.map (· + (bs.map UInt8.toNat).countP (· = b)) := by
    intro bs
    induction bs with
    | nil => simp
    | cons c bs ih =>
      intro a
      obtain ⟨hsize, hget⟩ := ih (a.modify c.toNat (· + 1))
      refine ⟨by rw [List.foldl_cons, hsize, Array.size_modify], fun b => ?_⟩
      rw [List.foldl_cons, hget, Array.getElem?_modify, List.map_cons, List.countP_cons]
      by_cases hb : c.toNat = b
      · rw [if_pos hb, Option.map_map, if_pos (by simpa using hb)]
        congr 1
        funext n
        simp only [Function.comp_apply]
        omega
      · rw [if_neg hb, if_neg (by simpa using hb), Nat.add_zero]
  obtain ⟨hsize, hget⟩ := hfold column.bytes (Array.replicate 256 0)
  rw [Array.size_replicate] at hsize
  rw [counts, Dense.foldl_eq]
  refine List.ext_getElem? fun b => ?_
  rw [Array.getElem?_toList, hget, List.getElem?_map, Array.getElem?_replicate, keys]
  by_cases hb : b < 256
  · rw [if_pos hb, List.getElem?_range hb, Option.map_some, Option.map_some, Nat.zero_add]
  · rw [if_neg hb, List.getElem?_eq_none (by simpa using hb)]
    rfl

theorem countP_lt_succ (ks : List Nat) (b : Nat) :
    ks.countP (· < b + 1) = ks.countP (· < b) + ks.countP (· = b) := by
  induction ks with
  | nil => rfl
  | cons k ks ih =>
    rw [List.countP_cons, List.countP_cons, List.countP_cons, ih]
    by_cases hlt : k < b
    · simp [hlt, Nat.lt_succ_of_lt hlt, Nat.ne_of_lt hlt]
      omega
    · by_cases heq : k = b
      · simp [heq]
        omega
      · simp [hlt, heq, show ¬k < b + 1 by omega]

/-- Counts one by one are a count of all smaller ones. -/
theorem sum_take_counts (ks : List Nat) {b n : Nat} (hb : b ≤ n) :
    (((List.range n).map fun b => ks.countP (· = b)).take b).sum = ks.countP (· < b) := by
  induction b with
  | zero => simp
  | succ b ih =>
    have hget : ((List.range n).map fun b => ks.countP (· = b))[b]? =
        some (ks.countP (· = b)) := by
      rw [List.getElem?_map, List.getElem?_range hb]
      rfl
    rw [List.take_add_one, hget, List.sum_append, ih (Nat.le_of_lt hb), Option.toList_some,
      List.sum_singleton, countP_lt_succ]

/-- Rows that are counted from one on: each is behind the counts before. -/
theorem foldl_rows (cs : List Nat) (rows : Array Nat) (n : Nat) :
    (cs.foldl (fun (x : Array Nat × Nat) count => (x.1.push x.2, x.2 + count))
      (rows, n)).1.toList =
      rows.toList ++ (List.range cs.length).map fun j => n + (cs.take j).sum := by
  induction cs generalizing rows n with
  | nil => simp
  | cons c cs ih =>
    rw [List.foldl_cons, ih, Array.toList_push, List.append_assoc, List.length_cons,
      List.range_succ_eq_map, List.map_cons, List.map_map]
    simp [Function.comp_def, Nat.add_assoc]

/-- The first rows are behind those of all smaller bytes. -/
theorem getElem?_firstRows {b : Nat} (hb : b < 256) :
    (firstRows column)[b]? = some ((keys column).countP (· < b)) := by
  have hrows : (firstRows column).toList =
      (List.range 256).map fun b => (keys column).countP (· < b) := by
    have hfirst : firstRows column = ((counts column).foldl
        (fun (x : Array Nat × Nat) count => (x.1.push x.2, x.2 + count)) (#[], 0)).1 := rfl
    rw [hfirst, ← Array.foldl_toList, counts_eq, foldl_rows]
    simp only [List.nil_append, List.length_map, List.length_range, Nat.zero_add]
    exact List.map_congr_left fun b hb =>
      sum_take_counts _ (Nat.le_of_lt (List.mem_range.1 hb))
  rw [← Array.getElem?_toList, hrows, List.getElem?_map, List.getElem?_range hb]
  rfl

/-- **Each place is linked** to the byte that gets it. -/
theorem getElem?_linkFrom {next links : Array Nat} {n : Nat} (hend : i + n = column.size)
    (hnext : ∀ b < 256, next[b]? =
      some ((keys column).countP (· < b) + ((keys column).take i).countP (· = b)))
    (hsize : links.size = column.size)
    (hlinks : ∀ j < i, links[place column j]? = some j) :
    ∀ j < column.size, (linkFrom column next links i n)[place column j]? = some j := by
  induction n generalizing i next links with
  | zero =>
    intro j hj
    exact hlinks j (by omega)
  | succ n ih =>
    have hi : i < column.size := by omega
    have hbyte : (column.byteAt i).toNat < 256 := UInt8.toNat_lt _
    have hrow : next.getD (column.byteAt i).toNat 0 = place column i := by
      rw [Array.getD_eq_getD_getElem?, hnext _ hbyte, place, placeOf, Option.getD_some]
    have hkey : (keys column)[i]? = some (column.byteAt i).toNat := by
      rw [keys, ← column.map_byteAt, List.map_map, List.getElem?_map, List.getElem?_range hi]
      rfl
    rw [linkFrom]
    simp only [hrow]
    refine ih (by omega) (fun b hb => ?_) ?_ fun j hj => ?_
    · rw [Array.getElem?_setIfInBounds, List.take_add_one, hkey, Option.toList_some,
        List.countP_append, List.countP_singleton]
      by_cases hb' : (column.byteAt i).toNat = b
      · have hlt := (Array.getElem?_eq_some_iff.1 (hnext b hb)).1
        rw [if_pos hb', if_pos (hb'.symm ▸ hlt), if_pos (by simpa using hb'), place, placeOf, hb',
          Nat.add_assoc]
      · rw [if_neg hb', if_neg (by simpa using hb'), Nat.add_zero]
        exact hnext b hb
    · rw [Array.size_setIfInBounds, hsize]
    · rw [Array.getElem?_setIfInBounds]
      by_cases hij : j = i
      · rw [if_pos (by rw [hij]), if_pos (hsize ▸ place_lt hi), hij]
      · have hne : place column i ≠ place column j := fun h =>
          hij (place_inj hi (by omega) h).symm
        rw [if_neg hne]
        exact hlinks j (by omega)

theorem getElem?_links (h : i < column.size) : (links column)[place column i]? = some i := by
  refine getElem?_linkFrom (Nat.zero_add _) (fun b hb => ?_) Array.size_replicate ?_ i h
  · rw [getElem?_firstRows hb, List.take_zero]
    rfl
  · intro j hj
    cases hj

/-! ## The way back -/

/-- Walking along the links from a row gives the bytes of the row. -/
theorem walk_eq (hcolumn : column.bytes = (encode bs).1) (out : Dense) {k m : Nat}
    (hr : (rows bs)[k]? = some r) (hm : m ≤ r.length) :
    (walk column (links column) out k m).bytes = out.bytes ++ r.take m := by
  induction m generalizing out k r with
  | zero => rw [List.take_zero, List.append_nil]; rfl
  | succ m ih =>
    have hsize : column.size = (rows bs).length := by
      rw [← Dense.length_bytes, hcolumn, encode, List.length_map]
    have hk : k < column.size := hsize ▸ (List.getElem?_eq_some_iff.1 hr).1
    obtain ⟨i, hi, rfl⟩ := exists_place hk
    have hlink : (links column).getD (place column i) 0 = i := by
      rw [Array.getD_eq_getD_getElem?, getElem?_links hi, Option.getD_some]
    obtain ⟨r', hr'⟩ : ∃ r', (rows bs)[i]? = some r' := ⟨_, List.getElem?_eq_getElem (hsize ▸ hi)⟩
    -- the row that is reached has the first byte of this one at its end
    have hturn := getElem?_place hcolumn hr'
    rw [hr, Option.some.injEq] at hturn
    have hbyte : column.byteAt i = r'.getLastD 0 := by
      refine Dense.byteAt_eq ?_
      rw [hcolumn, encode, List.getElem?_map, hr']
      rfl
    have hlength : m ≤ r'.dropLast.length := by
      rw [hturn, turn, List.length_cons] at hm
      exact Nat.le_of_succ_le_succ hm
    have hrest : r'.take m = r'.dropLast.take m := by
      rw [List.dropLast_eq_take, List.take_take, Nat.min_eq_left]
      rwa [List.length_dropLast] at hlength
    rw [walk]
    simp only [hlink]
    rw [ih (out.push (column.byteAt i)) hr' (hlength.trans (by simp)), Dense.bytes_push, hrest,
      hbyte, hturn, turn, List.take_succ_cons, List.append_assoc, List.singleton_append]

/-- **The text is found again** from the last column of its rotations and the row in which it
    stands. -/
theorem decode_encode (h : bs ≠ []) {column : Dense} (hcolumn : column.bytes = (encode bs).1) :
    decode column (encode bs).2 = some (.ofBytes bs) := by
  have hsize : column.size = bs.length := by
    rw [← Dense.length_bytes, hcolumn, encode, List.length_map, length_rows]
  have hrow : (rows bs)[(encode bs).2]? = some bs := List.getElem?_idxOf (mem_rows h)
  have hlt : (encode bs).2 < column.size := by
    rw [hsize, ← length_rows]
    exact (List.getElem?_eq_some_iff.1 hrow).1
  rw [decode, if_pos hlt]
  refine congrArg some (Dense.ext_bytes ?_)
  rw [walk_eq hcolumn .empty hrow (Nat.le_of_eq hsize), hsize, List.take_length,
    Dense.bytes_ofBytes]
  rfl

/-- The last column has all bytes of the text. -/
theorem length_encode (bs : Bytes) : (encode bs).1.length = bs.length := by
  rw [encode, List.length_map, length_rows]

theorem row_lt (h : bs ≠ []) : (encode bs).2 < bs.length := by
  rw [← length_rows bs]
  exact List.idxOf_lt_length_iff.2 (mem_rows h)

end BagFile.Bzip2.Rotation
