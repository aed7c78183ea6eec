/-
  A block of a bzip2 file is read as it was written.

  * `PrefixCode.reads_flat`: in a code with words of one length each symbol has the bits of its
    number;
  * each part of a block is read from the bits that `Block.encode` writes for it: the bytes that
    occur (`Block.reads_used`), the selectors, the codes, and the symbols in their groups
    (`Block.reads_symbols`);
  * `Block.textOf_encode` undoes the transforms, and `Block.reads_encode` puts all together.
-/
import BagFile.Codec.Bzip2.Block
import BagFile.Proofs.Codec.Bits
import BagFile.Proofs.Codec.Ranks
import BagFile.Proofs.Codec.Rotation
import BagFile.Proofs.Codec.RunLength

namespace BagFile.Bzip2

open BitReader

/-! ## Prefix codes -/

namespace PrefixCode

theorem zipIdx_replicate (m w : Nat) :
    (List.replicate m w).zipIdx = (List.range m).map fun i => (w, i) := by
  refine List.ext_getElem (by simp) fun i _ _ => ?_
  simp

/-- In a flat code all symbols have words of one length. -/
theorem symbolsOf_replicate (m w length : Nat) :
    symbolsOf (List.replicate m w) length = if w = length then List.range m else [] := by
  rw [symbolsOf, zipIdx_replicate]
  split
  · next h =>
    rw [List.filter_eq_self.2 (by simp [h]), List.map_map]
    exact List.map_id _
  · next h =>
    rw [List.filter_eq_nil_iff.2 (by simp [h])]
    rfl

/-- The tables of a flat code. -/
theorem ofLengths_replicate {m w : Nat} (hw : w < maxWord) :
    ofLengths (List.replicate m (w + 1)) =
      ⟨List.replicate w 0 ++ m :: List.replicate (maxWord - (w + 1)) 0, Array.range m⟩ := by
  have hgroups : (List.range' 1 maxWord).map (symbolsOf (List.replicate m (w + 1))) =
      List.replicate w [] ++ List.range m :: List.replicate (maxWord - (w + 1)) [] := by
    have hsplit : List.range' 1 maxWord =
        List.range' 1 w ++ (w + 1) :: List.range' (w + 2) (maxWord - (w + 1)) := by
      have hcount : maxWord = w + (maxWord - (w + 1) + 1) := by omega
      conv_lhs => rw [hcount, ← List.range'_append_1, List.range'_succ, Nat.add_comm 1 w]
    have hnone : ∀ {start n : Nat}, (∀ l ∈ List.range' start n, w + 1 ≠ l) →
        (List.range' start n).map (symbolsOf (List.replicate m (w + 1))) = List.replicate n [] := by
      intro start n hne
      have hsymbols := fun l hl => (symbolsOf_replicate m (w + 1) l).trans (if_neg (hne l hl))
      rw [List.map_congr_left hsymbols, List.map_const', List.length_range']
    rw [hsplit, List.map_append, List.map_cons, symbolsOf_replicate, if_pos rfl, hnone, hnone]
    · intro l hl
      rw [List.mem_range'_1] at hl
      omega
    · intro l hl
      rw [List.mem_range'_1] at hl
      omega
  rw [ofLengths]
  simp only [hgroups, List.map_append, List.map_replicate, List.map_cons, List.length_nil,
    List.length_range, List.flatten_append, List.flatten_replicate_nil, List.flatten_cons,
    List.nil_append, List.append_nil, mk.injEq, true_and]
  exact List.toArray_range

/-- The position of a word of a flat code is its number. -/
theorem reads_walk {w m : Nat} (rest : List Nat) (s offset before : Nat)
    (hs : offset * 2 ^ (w + 1) + s % 2 ^ (w + 1) < m) :
    Reads (walk (List.replicate w 0 ++ m :: rest) offset before) (Bits.ofNat (w + 1) s)
      (before + (offset * 2 ^ (w + 1) + s % 2 ^ (w + 1))) := by
  induction w generalizing offset before with
  | zero =>
    rw [← Bits.value_succ, Nat.pow_zero, Nat.mul_one, Nat.mod_one, Nat.add_zero] at hs ⊢
    rw [List.replicate_zero, List.nil_append, walk]
    refine (reads_bit (s.testBit 0)).bind ?_
    simp only [if_pos hs]
    exact Reads.pure _
  | succ w ih =>
    -- there are no words of this length, so one bit more is taken
    rw [← Bits.value_succ] at hs ⊢
    rw [List.replicate_succ, List.cons_append, walk]
    refine (reads_bit (s.testBit (w + 1))).bind ?_
    simp only [Nat.not_lt_zero, if_false, Nat.sub_zero, Nat.add_zero]
    exact ih _ _ hs

/-- **A symbol of a flat code** has the bits of its number. -/
theorem reads_flat {m w s : Nat} (hw : w < maxWord) (hm : m ≤ 2 ^ (w + 1)) (hs : s < m) :
    Reads (ofLengths (List.replicate m (w + 1))).read (Bits.ofNat (w + 1) s) s := by
  have hmod : s % 2 ^ (w + 1) = s := Nat.mod_eq_of_lt (Nat.lt_of_lt_of_le hs hm)
  have hwalk := reads_walk (List.replicate (maxWord - (w + 1)) 0) s 0 0
    (by rwa [Nat.zero_mul, Nat.zero_add, hmod])
  rw [Nat.zero_mul, Nat.zero_add, Nat.zero_add, hmod] at hwalk
  have hsymbol : (Array.range m)[s]? = some s := by
    rw [← Array.getElem?_toList, Array.toList_range, List.getElem?_range hs]
  rw [PrefixCode.read, ofLengths_replicate hw]
  refine (hwalk.bind ?_).cast (List.append_nil _)
  simp only [hsymbol]
  exact Reads.pure s

/-- Words of this length are enough for all symbols. -/
theorem le_flatLength {n : Nat} : n ≤ 2 ^ flatLength n := by
  have hlt := Nat.lt_log2_self (n := n - 1)
  rw [flatLength]
  omega

end PrefixCode

namespace Block

/-! ## The bytes that occur -/

/-- Bytes in order, each once. -/
def Ascending (used : Bytes) : Prop := used.Pairwise fun a b => a.toNat < b.toNat

/-- All bytes in order. -/
def allBytes : Bytes := (List.range 256).map UInt8.ofNat

theorem flatMap_range : (List.range 16).flatMap range = allBytes := by decide +kernel

theorem ascending_allBytes : Ascending allBytes := by
  refine List.pairwise_map.2 (List.pairwise_lt_range.imp_of_mem fun ha hb hlt => ?_)
  rwa [UInt8.toNat_ofNat_of_lt' (List.mem_range.1 ha),
    UInt8.toNat_ofNat_of_lt' (List.mem_range.1 hb)]

theorem mem_allBytes (b : UInt8) : b ∈ allBytes :=
  List.mem_map.2 ⟨b.toNat, List.mem_range.2 (UInt8.toNat_lt b), UInt8.ofNat_toNat⟩

theorem Ascending.nodup {used : Bytes} (h : Ascending used) : used.Nodup := by
  unfold Ascending at h
  exact h.imp fun hlt heq => Nat.ne_of_lt hlt (congrArg _ heq)

theorem length_allBytes : allBytes.length = 256 := by
  rw [allBytes, List.length_map, List.length_range]

theorem ascending_occurring (bs : Bytes) : Ascending (occurring bs) := by
  have hkey : ByKey (fun a b : UInt8 => decide (a ≤ b)) UInt8.toNat := fun a b => by
    rw [decide_eq_true_eq, UInt8.le_iff_toNat_le]
  exact hkey.ascending_eraseDups (fun _ _ => UInt8.toNat_inj.1) bs

theorem mem_occurring {b : UInt8} {bs : Bytes} : b ∈ occurring bs ↔ b ∈ bs := by
  rw [occurring, List.mem_mergeSort, List.mem_eraseDups]

/-- Bytes in order are those of all bytes that are among them. -/
theorem Ascending.filter_allBytes {used : Bytes} (h : Ascending used) :
    allBytes.filter used.contains = used := by
  have hall := ascending_allBytes
  unfold Ascending at h hall
  refine List.Perm.eq_of_pairwise (fun a b _ _ hab hba => ?_) (hall.filter used.contains) h ?_
  · exact absurd hab (Nat.lt_asymm hba)
  · have hnodup := ascending_allBytes.nodup.filter used.contains
    refine (List.perm_ext_iff_of_nodup hnodup (Ascending.nodup h)).2 fun b => ?_
    simp [mem_allBytes]

theorem Ascending.length_le {used : Bytes} (h : Ascending used) : used.length ≤ 256 := by
  have hle := List.length_filter_le used.contains allBytes
  rwa [h.filter_allBytes, length_allBytes] at hle

/-- The bytes of a range that are among some. -/
def within (used : Bytes) (i : Nat) : Bytes := (range i).filter used.contains

theorem within_of_not_meets {used : Bytes} {i : Nat} (hi : i < 16) (h : meets used i = false) :
    within used i = [] := by
  refine List.filter_eq_nil_iff.2 fun b hb hused => ?_
  have hrange : b.toNat / 16 = i := by
    obtain ⟨j, hj, rfl⟩ := List.mem_map.1 hb
    rw [List.mem_range'_1] at hj
    have hlt : j < 256 := by omega
    rw [UInt8.toNat_ofNat_of_lt' hlt]
    omega
  have hmeets : meets used i = true :=
    List.any_eq_true.2 ⟨b, List.contains_iff_mem.1 hused, decide_eq_true hrange⟩
  rw [h] at hmeets
  cases hmeets

/-- The bits of one range are there if it has any of the bytes. -/
def rangeBits (used : Bytes) (i : Nat) : List Bool :=
  if meets used i then (range i).map used.contains else []

theorem reads_bits (bits : List Bool) : Reads (repeated bits.length bit) bits bits := by
  have hread := reads_repeated (f := id) fun b (_ : b ∈ bits) => reads_bit b
  rwa [List.flatMap_singleton', List.map_id] at hread

theorem reads_range {used : Bytes} {i : Nat} (hi : i < 16) :
    Reads (readRange i (meets used i)) (rangeBits used i) (within used i) := by
  unfold readRange rangeBits
  cases hmeets : meets used i with
  | false =>
    rw [within_of_not_meets hi hmeets]
    exact Reads.pure _
  | true =>
    have hread := reads_bits ((range i).map used.contains)
    have hlength : ((range i).map used.contains).length = 16 := by
      rw [List.length_map, range, List.length_map, List.length_range']
    have hzip : ((range i).zip ((range i).map used.contains)).filterMap
        (fun x : UInt8 × Bool => if x.2 then some x.1 else none) = within used i := by
      rw [within]
      generalize range i = bs
      induction bs with
      | nil => rfl
      | cons b bs ih =>
        rw [List.map_cons, List.zip_cons_cons, List.filterMap_cons, List.filter_cons, ih]
        cases used.contains b <;> rfl
    rw [hlength] at hread
    rw [← hzip]
    exact hread.map _

/-- **The bytes that occur** are read as they were written. -/
theorem reads_used {used : Bytes} (h : Ascending used) : Reads readUsed (encodeUsed used) used := by
  have hpresent := reads_bits ((List.range 16).map (meets used))
  have hranges : Reads (((List.range 16).map (meets used)).zipIdx.mapM fun x => readRange x.2 x.1)
      ((List.range 16).flatMap (rangeBits used)) ((List.range 16).map (within used)) := by
    have hzip : ((List.range 16).map (meets used)).zipIdx =
        (List.range 16).map fun i => (meets used i, i) := rfl
    have hread := reads_mapM (r := fun x : Bool × Nat => readRange x.2 x.1)
      (g := fun x => rangeBits used x.2) (f := fun x => within used x.2)
      fun x (hx : x ∈ (List.range 16).map fun i => (meets used i, i)) => by
        obtain ⟨i, hi, rfl⟩ := List.mem_map.1 hx
        exact reads_range (List.mem_range.1 hi)
    rw [List.flatMap_map, List.map_map] at hread
    rw [hzip]
    exact hread
  have hbits : (((List.range 16).filter (meets used)).flatMap fun i =>
      (range i).map used.contains) = (List.range 16).flatMap (rangeBits used) := by
    generalize List.range 16 = is
    induction is with
    | nil => rfl
    | cons i is ih =>
      rw [List.filter_cons, List.flatMap_cons, ← ih, rangeBits]
      split <;> rfl
  have hused : ((List.range 16).map (within used)).flatten = used := by
    have hall := h.filter_allBytes
    rw [← flatMap_range, List.filter_flatMap] at hall
    rw [← List.flatMap_def]
    exact hall
  have hread := hpresent.bind (k := fun present => do
    let ranges ← present.zipIdx.mapM fun x => readRange x.2 x.1
    return ranges.flatten) (hranges.map List.flatten)
  rw [encodeUsed]
  simp only [hbits]
  rw [hused] at hread
  exact hread

/-! ## Selectors and codes -/

/-- The first code is selected as often as there are zeros. -/
theorem reads_selectors (count : Nat) : Reads (readSelectors 2 count) (List.replicate count false)
    (List.replicate (min maxSelectors count) 0) := by
  have hranks : Reads (repeated count (readUnary 2)) (List.replicate count false)
      (List.replicate count 0) := by
    have hzero : Reads (readUnary 2) [false] 0 := (reads_bit false).bind (Reads.pure 0)
    have hread := reads_repeated (r := readUnary 2) (f := fun _ => 0) (g := fun b => [b])
      fun b (hb : b ∈ List.replicate count false) => List.eq_of_mem_replicate hb ▸ hzero
    rwa [List.length_replicate, List.map_replicate, List.flatMap_singleton'] at hread
  refine (hranks.bind ?_).cast (List.append_nil _)
  have hdecode : MoveToFront.decode (List.range 2) ((List.replicate count 0).take maxSelectors) =
      some (List.replicate (min maxSelectors count) 0) := by
    rw [List.take_replicate]
    exact MoveToFront.decode_zeros 0 [1] _
  simp only [hdecode]
  exact Reads.pure _

/-- A zero keeps the length. -/
theorem reads_length {w : Nat} (hw : w < maxWord) : Reads (readLength (w + 1)) [false] (w + 1) := by
  have hstep : ∀ steps, Reads (readLengthFrom (w + 1) (steps + 1)) [false] (w + 1) := by
    intro steps
    have hguard : (1 ≤ w + 1 && w + 1 ≤ maxWord) = true := by
      simp
      omega
    exact Reads.guard_bind hguard ((reads_bit false).bind (Reads.pure (w + 1)))
  exact fun d pos hp => hstep (8 * d.size) d pos hp

theorem reads_lengthsFrom {w : Nat} (hw : w < maxWord) (done : List Nat) (count : Nat) :
    Reads (readLengthsFrom done (w + 1) count) (List.replicate count false)
      (done.reverse ++ List.replicate count (w + 1)) := by
  induction count generalizing done with
  | zero =>
    rw [List.replicate_zero, List.replicate_zero, List.append_nil]
    exact Reads.pure _
  | succ count ih =>
    have hrest := ih ((w + 1) :: done)
    rw [List.reverse_cons, List.append_assoc] at hrest
    exact (reads_length hw).bind hrest

/-- A flat code is the length of its words, and as many zeros as there are symbols. -/
theorem reads_code {w : Nat} (hw : w < maxWord) (alphabet : Nat) :
    Reads (readCode alphabet) (Bits.ofNat 5 (w + 1) ++ List.replicate alphabet false)
      (PrefixCode.ofLengths (List.replicate alphabet (w + 1))) := by
  have hlt : w + 1 < 2 ^ 5 := by
    have hmax : maxWord = 20 := rfl
    omega
  exact (reads_number hlt).bind ((reads_lengthsFrom hw [] alphabet).map PrefixCode.ofLengths)

/-! ## Symbols -/

section Symbols

variable {code : PrefixCode} {word : Nat → List Bool} {stop : Nat} {ss : List Nat}

/-- One symbol that is not the last one. -/
theorem reads_group_cons {s count : Nat} {done : List Nat} {bits : List Bool}
    {x : Bool × List Nat} (hs : Reads code.read (word s) s) (hne : s ≠ stop)
    (hrest : Reads (readGroup code stop (s :: done) count) bits x) :
    Reads (readGroup code stop done (count + 1)) (word s ++ bits) x := by
  rw [readGroup]
  refine hs.bind ?_
  rw [if_neg hne]
  exact hrest

/-- Symbols without the last one. -/
theorem reads_group (hcode : ∀ s ∈ ss, Reads code.read (word s) s) (hstop : stop ∉ ss)
    (done : List Nat) :
    Reads (readGroup code stop done ss.length) (ss.flatMap word) (false, ss.reverse ++ done) := by
  induction ss generalizing done with
  | nil => exact Reads.pure _
  | cons s ss ih =>
    obtain ⟨hs, hss⟩ := List.forall_mem_cons.1 hcode
    obtain ⟨hne, hnotMem⟩ := not_or.1 (List.mem_cons.not.1 hstop)
    rw [List.reverse_cons, List.append_assoc]
    exact reads_group_cons hs (Ne.symm hne) (ih hss hnotMem (s :: done))

/-- Symbols and the last one, which are no more than a group. -/
theorem reads_lastGroup (hcode : ∀ s ∈ ss ++ [stop], Reads code.read (word s) s)
    (hstop : stop ∉ ss) (done : List Nat) {count : Nat} (hcount : ss.length < count) :
    Reads (readGroup code stop done count) ((ss ++ [stop]).flatMap word)
      (true, ss.reverse ++ done) := by
  obtain ⟨count, rfl⟩ := Nat.exists_eq_add_one.2 (Nat.lt_of_le_of_lt (Nat.zero_le _) hcount)
  induction ss generalizing done count with
  | nil =>
    have hlast := hcode stop (List.mem_append_right _ List.mem_cons_self)
    rw [List.nil_append, List.flatMap_singleton, ← List.append_nil (word stop)]
    refine hlast.bind ?_
    rw [if_pos rfl]
    exact Reads.pure _
  | cons s ss ih =>
    obtain ⟨hs, hss⟩ := List.forall_mem_cons.1 hcode
    obtain ⟨hne, hnotMem⟩ := not_or.1 (List.mem_cons.not.1 hstop)
    rw [List.length_cons] at hcount
    obtain ⟨count, rfl⟩ := Nat.exists_eq_add_one.2 (show 0 < count by omega)
    rw [List.reverse_cons, List.append_assoc]
    exact reads_group_cons hs (Ne.symm hne) (ih hss hnotMem (s :: done) count (by omega))

/-- **The symbols** are read group by group, up to the last one. -/
theorem reads_symbols {codes : Array PrefixCode}
    (hfirst : codes.getD 0 (PrefixCode.ofLengths []) = code)
    (hcode : ∀ s ∈ ss ++ [stop], Reads code.read (word s) s) (hstop : stop ∉ ss)
    (done : List Nat) {groups : Nat} (hgroups : ss.length < groupSize * groups) :
    Reads (readSymbols codes stop done (List.replicate groups 0)) ((ss ++ [stop]).flatMap word)
      (done.reverse ++ ss) := by
  induction groups generalizing ss done with
  | zero => exact absurd hgroups (Nat.not_lt_zero _)
  | succ groups ih =>
    rw [List.replicate_succ, readSymbols]
    simp only [hfirst]
    by_cases hlast : ss.length < groupSize
    · refine ((reads_lastGroup hcode hstop done hlast).bind ?_).cast (List.append_nil _)
      have hreverse : (ss.reverse ++ done).reverse = done.reverse ++ ss := by
        rw [List.reverse_append, List.reverse_reverse]
      simp only [if_true, ← hreverse]
      exact Reads.pure _
    · -- a whole group, and the others
      obtain ⟨front, rest, rfl, hfront⟩ : ∃ front rest, ss = front ++ rest ∧
          front.length = groupSize := by
        refine ⟨ss.take groupSize, ss.drop groupSize, (List.take_append_drop _ _).symm, ?_⟩
        rw [List.length_take, Nat.min_eq_left (Nat.le_of_not_lt hlast)]
      rw [List.append_assoc] at hcode
      obtain ⟨hfrontStop, hrestStop⟩ := not_or.1 (List.mem_append.not.1 hstop)
      have hless : rest.length < groupSize * groups := by
        rw [List.length_append, hfront, Nat.mul_succ] at hgroups
        omega
      have hgroup := reads_group (fun s hs => hcode s (List.mem_append_left _ hs)) hfrontStop done
      have hrest := ih (fun s hs => hcode s (List.mem_append_right _ hs)) hrestStop
        (front.reverse ++ done) hless
      rw [hfront] at hgroup
      rw [List.append_assoc, List.flatMap_append]
      refine hgroup.bind ?_
      rw [List.reverse_append, List.reverse_reverse, List.append_assoc] at hrest
      simp only [Bool.false_eq_true, if_false]
      exact hrest

end Symbols

/-! ## Whole blocks -/

section Texts

variable {text : Dense} {limit : Nat}

/-- The last column of the sorted rotations of a text that is written run by run. -/
def columnOf (text : Dense) : Bytes := (Rotation.encode (RunLength.encode text)).1

/-- The ranks of the column. -/
def ranksOf (text : Dense) : List Nat :=
  MoveToFront.encode (occurring (columnOf text)) (columnOf text)

theorem length_columnOf (text : Dense) :
    (columnOf text).length = (RunLength.encode text).length := Rotation.length_encode _

theorem length_ranksOf (text : Dense) : (ranksOf text).length = (RunLength.encode text).length := by
  rw [ranksOf, MoveToFront.length_encode, length_columnOf]

theorem occurring_ne_nil (h : 0 < text.size) : occurring (columnOf text) ≠ [] := by
  have hlength := List.length_pos_iff.2 (RunLength.encode_ne_nil h)
  rw [← length_columnOf] at hlength
  obtain ⟨b, hb⟩ := List.exists_mem_of_length_pos hlength
  exact List.ne_nil_of_mem (mem_occurring.2 hb)

/-- **The transforms of a text** are undone one by one. -/
theorem textOf_encode (h : 0 < text.size) (hlimit : (RunLength.encode text).length ≤ limit) :
    textOf limit (occurring (columnOf text)) (Rotation.encode (RunLength.encode text)).2 false
      (ZeroRun.encode (ranksOf text)) = some text := by
  obtain ⟨runs, hruns, hranks⟩ := ZeroRun.decode_encode ((length_ranksOf text).symm ▸ hlimit)
  have hcolumn := MoveToFront.decodeRuns_encode (occurring_ne_nil h)
    (fun _ => mem_occurring.2) hranks
  have hrotated := Rotation.decode_encode (RunLength.encode_ne_nil h)
    (Dense.bytes_ofBytes (columnOf text))
  have htext := RunLength.decode_encode text (Dense.bytes_ofBytes (RunLength.encode text))
  rw [textOf, hruns, Option.bind_eq_bind, Option.bind_some, hcolumn, Option.bind_eq_bind,
    Option.bind_some, hrotated]
  exact htext

/-- The number of groups that symbols and the last one make. -/
def groupsOf (ss : List Nat) : Nat := (ss.length + 1 + groupSize - 1) / groupSize

theorem length_lt_groups (ss : List Nat) : ss.length < groupSize * groupsOf ss := by
  rw [groupsOf, groupSize]
  omega

/-- There are few groups, if there are not too many symbols. -/
theorem groupsOf_le {ss : List Nat} (h : ss.length ≤ 900000) : groupsOf ss ≤ maxSelectors := by
  rw [groupsOf, groupSize, maxSelectors]
  omega

/-- The parts of a written block, one behind the other. -/
theorem encode_eq (text : Dense) :
    let used := occurring (columnOf text)
    let ss := ZeroRun.encode (ranksOf text)
    let width := PrefixCode.flatLength (used.length + 2)
    let code := Bits.ofNat 5 width ++ List.replicate (used.length + 2) false
    encode text = Bits.ofNat 32 (Crc32.ofDense text).toNat ++ ([false] ++
      (Bits.ofNat 24 (Rotation.encode (RunLength.encode text)).2 ++ (encodeUsed used ++
        (Bits.ofNat 3 2 ++ (Bits.ofNat 15 (groupsOf ss) ++ (List.replicate (groupsOf ss) false ++
          ((code ++ (code ++ [])) ++
            (ss ++ [used.length + 1]).flatMap (Bits.ofNat width)))))))) := by
  intro used ss width code
  have hlength : (ss ++ [used.length + 1]).length = ss.length + 1 := List.length_append
  rw [groupsOf, ← hlength, List.append_nil]
  simp only [encode, List.append_assoc]
  rfl

/-- Symbols are below the one that stops them. -/
theorem symbols_lt (h : 0 < text.size) :
    ∀ s ∈ ZeroRun.encode (ranksOf text), s < (occurring (columnOf text)).length + 1 :=
  ZeroRun.encodeFrom_lt (List.length_pos_iff.2 (occurring_ne_nil h)) 0
    (MoveToFront.encode_lt fun _ => mem_occurring.2)

theorem length_symbols (text : Dense) :
    (ZeroRun.encode (ranksOf text)).length ≤ (RunLength.encode text).length := by
  have hle := ZeroRun.length_encodeFrom 0 (ranksOf text)
  rwa [length_ranksOf, Nat.zero_add] at hle

/-- Both codes of a block are the flat one. -/
theorem reads_codes {w : Nat} (hw : w < maxWord) (alphabet : Nat) :
    Reads (repeated 2 (readCode alphabet))
      ((Bits.ofNat 5 (w + 1) ++ List.replicate alphabet false) ++
        ((Bits.ofNat 5 (w + 1) ++ List.replicate alphabet false) ++ []))
      (List.replicate 2 (PrefixCode.ofLengths (List.replicate alphabet (w + 1)))) :=
  reads_repeated (f := fun _ => PrefixCode.ofLengths (List.replicate alphabet (w + 1)))
    fun _ (_ : _ ∈ [(), ()]) => reads_code hw alphabet

/-- The symbols of a block in its first code. -/
theorem reads_symbols_flat {ss : List Nat} {n w : Nat} (hw : w < maxWord)
    (hwidth : n + 2 ≤ 2 ^ (w + 1)) (hss : ∀ s ∈ ss, s < n + 1) :
    Reads (readSymbols (List.replicate 2
        (PrefixCode.ofLengths (List.replicate (n + 2) (w + 1)))).toArray (n + 1) []
        (List.replicate (groupsOf ss) 0))
      ((ss ++ [n + 1]).flatMap (Bits.ofNat (w + 1))) ss := by
  have hcode : ∀ s ∈ ss ++ [n + 1], Reads
      (PrefixCode.ofLengths (List.replicate (n + 2) (w + 1))).read (Bits.ofNat (w + 1) s) s := by
    intro s hs
    refine PrefixCode.reads_flat hw hwidth ?_
    rcases List.mem_append.1 hs with hs | hs
    · exact Nat.lt_succ_of_lt (hss s hs)
    · rw [List.mem_singleton.1 hs]
      exact Nat.lt_succ_self _
  exact reads_symbols rfl hcode (fun hs => Nat.lt_irrefl _ (hss _ hs)) [] (length_lt_groups ss)

/-- **A block is read as it was written**, if its text is not too long. -/
theorem reads_encode (h : 0 < text.size) (hlength : (RunLength.encode text).length ≤ limit)
    (hlimit : limit ≤ 900000) :
    Reads (read limit) (encode text) (Crc32.ofDense text, text) := by
  have hrow := Rotation.row_lt (RunLength.encode_ne_nil h)
  have hused := List.length_pos_iff.2 (occurring_ne_nil h)
  have hused_le := (ascending_occurring (columnOf text)).length_le
  have hgroups := groupsOf_le ((length_symbols text).trans (hlength.trans hlimit))
  have hgroups_pos : 0 < groupsOf (ZeroRun.encode (ranksOf text)) :=
    Nat.pos_of_ne_zero fun hzero => by
      have hlt := length_lt_groups (ZeroRun.encode (ranksOf text))
      rw [hzero] at hlt
      exact Nat.not_lt_zero _ hlt
  have hwidth : ((occurring (columnOf text)).length + 2 - 1).log2 < maxWord :=
    (Nat.log2_lt (by omega)).2 (Nat.lt_of_le_of_lt (by omega) (by decide : 257 < 2 ^ maxWord))
  rw [encode_eq]
  unfold read
  refine (reads_number (UInt32.toNat_lt _)).bind ?_
  rw [UInt32.ofNat_toNat]
  refine (reads_bit false).bind ?_
  refine (reads_number (show _ < 2 ^ 24 by omega)).bind ?_
  refine Reads.guard_bind (decide_eq_true (by omega)) ?_
  refine (reads_used (ascending_occurring _)).bind ?_
  refine Reads.guard_bind (by simpa using occurring_ne_nil h) ?_
  refine (reads_number (show 2 < 2 ^ 3 by decide)).bind ?_
  refine Reads.guard_bind rfl ?_
  refine (reads_number (Nat.lt_of_le_of_lt hgroups (by decide : maxSelectors < 2 ^ 15))).bind ?_
  refine Reads.guard_bind (decide_eq_true hgroups_pos) ?_
  refine (reads_selectors _).bind ?_
  rw [Nat.min_eq_right hgroups]
  refine (reads_codes hwidth _).bind ?_
  refine ((reads_symbols_flat hwidth PrefixCode.le_flatLength (symbols_lt h)).bind ?_).cast
    (List.append_nil _)
  rw [textOf_encode h hlength]
  exact Reads.guard_bind (decide_eq_true rfl) (Reads.pure _)

end Texts

end Block

end BagFile.Bzip2
