/-
  The ranks in which bzip2 writes a text give it back.

  * `RankRun.ranks` are the ranks that a run stands for; `ZeroRun.decode_encode` gives back runs
    for the ranks that were written;
  * `MoveToFront.decodeRuns_encode`: runs for the ranks of a text give the text, if all its bytes
    are in the table;
  * `MoveToFront.decode_zeros`: the rank zero always stands for the symbol in front.
-/
import BagFile.Codec.Bzip2.MoveToFront
import BagFile.Proofs.Stretches

namespace BagFile.Bzip2

/-- The ranks that a run stands for. -/
def RankRun.ranks : RankRun → List Nat
  | .zeros count => List.replicate count 0
  | .single rank => [rank]

/-! ## Runs of zeros -/

namespace ZeroRun

/-- The digits of a number add up to it. -/
theorem decodeFrom_digits (done : List RankRun) (n : Nat) {room run weight : Nat} (ss : List Nat)
    (hroom : run + weight * n ≤ room) : ∃ weight',
      decodeFrom done room run weight (digits n ++ ss) =
        decodeFrom done room (run + weight * n) weight' ss := by
  fun_induction digits n generalizing run weight with
  | case1 => exact ⟨weight, rfl⟩
  | case2 n hn ih =>
    rcases Nat.mod_two_eq_zero_or_one (n - 1) with hdigit | hdigit
    · have hsum : run + weight + 2 * weight * ((n - 1) / 2) = run + weight * n := by
        have hn : n = 2 * ((n - 1) / 2) + 1 := by omega
        conv_rhs => rw [hn]
        rw [Nat.mul_add, Nat.mul_one, Nat.mul_left_comm, Nat.mul_assoc]
        omega
      rw [hdigit, List.cons_append, decodeFrom, if_neg (by omega), ← hsum]
      exact ih (hsum ▸ hroom)
    · have hsum : run + 2 * weight + 2 * weight * ((n - 1) / 2) = run + weight * n := by
        have hn : n = 2 * ((n - 1) / 2) + 2 := by omega
        conv_rhs => rw [hn]
        rw [Nat.mul_add, Nat.mul_left_comm, Nat.mul_assoc, Nat.mul_comm weight 2]
        omega
      rw [hdigit, List.cons_append, decodeFrom, if_neg (by omega), ← hsum]
      exact ih (hsum ▸ hroom)

/-- The runs with zeros in front stand for the ranks with zeros in front. -/
theorem ranks_addZeros (count : Nat) (done : List RankRun) :
    (addZeros count done).reverse.flatMap RankRun.ranks =
      done.reverse.flatMap RankRun.ranks ++ List.replicate count 0 := by
  unfold addZeros
  split
  · next hzero => rw [hzero, List.replicate_zero, List.append_nil]
  · rw [List.reverse_cons, List.flatMap_append, List.flatMap_singleton]
    rfl

theorem decodeFrom_encodeFrom (done : List RankRun) (zeros : Nat) (is : List Nat) {room : Nat}
    (hroom : zeros + is.length ≤ room) : ∃ runs,
      decodeFrom done room 0 1 (encodeFrom zeros is) = some runs ∧
        runs.flatMap RankRun.ranks =
          done.reverse.flatMap RankRun.ranks ++ List.replicate zeros 0 ++ is := by
  fun_induction encodeFrom zeros is generalizing done room with
  | case1 zeros =>
    have hle : 0 + 1 * zeros ≤ room := by
      rw [List.length_nil] at hroom
      omega
    obtain ⟨weight, hdigits⟩ := decodeFrom_digits done zeros [] hle
    rw [List.append_nil, Nat.zero_add, Nat.one_mul] at hdigits
    refine ⟨(addZeros zeros done).reverse, ?_, ?_⟩
    · rw [hdigits, decodeFrom, if_neg (by omega)]
    · rw [ranks_addZeros, List.append_nil]
  | case2 zeros is ih =>
    have hless : zeros + 1 + is.length ≤ room := by
      rw [List.length_cons] at hroom
      omega
    obtain ⟨runs, hruns, hranks⟩ := ih done hless
    refine ⟨runs, hruns, ?_⟩
    rw [hranks, List.replicate_succ', List.append_assoc, List.append_assoc, List.append_assoc]
    rfl
  | case3 zeros i is ih =>
    rw [List.length_cons] at hroom
    obtain ⟨weight, hdigits⟩ := decodeFrom_digits done zeros ((i + 2) :: encodeFrom 0 is)
      (by omega : 0 + 1 * zeros ≤ room)
    rw [Nat.zero_add, Nat.one_mul] at hdigits
    have hless : 0 + is.length ≤ room - zeros - 1 := by omega
    obtain ⟨runs, hruns, hranks⟩ := ih (.single (i + 1) :: addZeros zeros done) hless
    refine ⟨runs, ?_, ?_⟩
    · rw [hdigits, decodeFrom, if_neg (by omega)]
      exact hruns
    · rw [hranks, List.reverse_cons, List.flatMap_append, List.flatMap_singleton, ranks_addZeros]
      simp [RankRun.ranks]

/-- **The ranks that were written are read back**, if there are no more than the limit. -/
theorem decode_encode {limit : Nat} {is : List Nat} (h : is.length ≤ limit) :
    ∃ runs, decode limit (encode is) = some runs ∧ runs.flatMap RankRun.ranks = is :=
  decodeFrom_encodeFrom [] 0 is (by omega)

theorem length_digits (n : Nat) : (digits n).length ≤ n := by
  fun_induction digits n with
  | case1 => exact Nat.zero_le _
  | case2 n hn ih =>
    rw [List.length_cons]
    omega

/-- There are no more symbols than ranks. -/
theorem length_encodeFrom (zeros : Nat) (is : List Nat) :
    (encodeFrom zeros is).length ≤ zeros + is.length := by
  fun_induction encodeFrom zeros is with
  | case1 zeros => exact length_digits zeros
  | case2 zeros is ih =>
    rw [List.length_cons]
    omega
  | case3 zeros i is ih =>
    have hdigits := length_digits zeros
    rw [List.length_append, List.length_cons, List.length_cons]
    omega

theorem digits_lt (n : Nat) : ∀ s ∈ digits n, s < 2 := by
  fun_induction digits n with
  | case1 => simp
  | case2 n hn ih => exact List.forall_mem_cons.2 ⟨Nat.mod_lt _ (by decide), ih⟩

/-- Symbols go one beyond the ranks. -/
theorem encodeFrom_lt {n : Nat} (hn : 0 < n) (zeros : Nat) {is : List Nat} (h : ∀ i ∈ is, i < n) :
    ∀ s ∈ encodeFrom zeros is, s < n + 1 := by
  have hdigits : ∀ zeros, ∀ s ∈ digits zeros, s < n + 1 := fun zeros s hs => by
    have := digits_lt zeros s hs
    omega
  fun_induction encodeFrom zeros is with
  | case1 zeros => exact hdigits zeros
  | case2 zeros is ih => exact ih fun i hi => h i (List.mem_cons_of_mem _ hi)
  | case3 zeros i is ih =>
    have hi := h (i + 1) List.mem_cons_self
    intro s hs
    rcases List.mem_append.1 hs with hs | hs
    · exact hdigits zeros s hs
    · rcases List.mem_cons.1 hs with rfl | hs
      · omega
      · exact ih (fun i hi => h i (List.mem_cons_of_mem _ hi)) s hs

end ZeroRun

/-! ## Recency -/

namespace MoveToFront

variable {table as : Bytes} {a : UInt8}

/-- The symbols that are left are in the table when the first has moved to its front. -/
theorem mem_moved (h : ∀ b ∈ a :: as, b ∈ table) : ∀ b ∈ as, b ∈ a :: table.erase a := by
  intro b hb
  by_cases hba : b = a
  · exact hba ▸ List.mem_cons_self
  · exact List.mem_cons_of_mem _ ((List.mem_erase_of_ne hba).2 (h b (List.mem_cons_of_mem _ hb)))

/-- The rank of a symbol of the table. -/
theorem encode_lt (h : ∀ a ∈ as, a ∈ table) : ∀ i ∈ encode table as, i < table.length := by
  induction as generalizing table with
  | nil => simp [encode]
  | cons a as ih =>
    have ha : a ∈ table := h a List.mem_cons_self
    have hlength : (a :: table.erase a).length = table.length := by
      rw [List.length_cons, List.length_erase_of_mem ha]
      exact Nat.sub_add_cancel (List.length_pos_of_mem ha)
    refine List.forall_mem_cons.2 ⟨List.idxOf_lt_length_iff.2 ha, ?_⟩
    exact hlength ▸ ih (mem_moved h)

theorem length_encode (table as : Bytes) : (encode table as).length = as.length := by
  induction as generalizing table with
  | nil => rfl
  | cons a as ih => rw [encode, List.length_cons, ih, List.length_cons]

/-- Ranks that start with zeros are those of a text that starts with the symbol in front. -/
theorem of_encode_zeros {b : UInt8} {n : Nat} {is : List Nat}
    (h : encode (b :: table) as = List.replicate n 0 ++ is) :
    ∃ as', as = List.replicate n b ++ as' ∧ encode (b :: table) as' = is := by
  induction n generalizing as with
  | zero => exact ⟨as, rfl, h⟩
  | succ n ih =>
    rw [List.replicate_succ, List.cons_append] at h
    cases as with
    | nil => cases h
    | cons a as =>
      obtain ⟨hrank, hrest⟩ := List.cons.inj h
      have hab : a = b := by
        by_contra hne
        rw [List.idxOf_cons_ne _ (Ne.symm hne)] at hrank
        cases hrank
      subst hab
      rw [List.erase_cons_head] at hrest
      obtain ⟨as', rfl, hencode⟩ := ih hrest
      exact ⟨as', rfl, hencode⟩

theorem decodeRunsFrom_encode (out : Dense) {runs : List RankRun} (htable : table ≠ [])
    (hmem : ∀ a ∈ as, a ∈ table) (h : runs.flatMap RankRun.ranks = encode table as) :
    ∃ out', decodeRunsFrom out table runs = some out' ∧ out'.bytes = out.bytes ++ as := by
  induction runs generalizing table as out with
  | nil =>
    have hnil : as = [] := by
      rw [← List.length_eq_zero_iff, ← length_encode table, ← h]
      rfl
    exact ⟨out, rfl, by rw [hnil, List.append_nil]⟩
  | cons run runs ih =>
    rw [List.flatMap_cons] at h
    cases run with
    | zeros count =>
      obtain ⟨b, table, rfl⟩ := List.exists_cons_of_ne_nil htable
      obtain ⟨as, rfl, hencode⟩ := of_encode_zeros h.symm
      obtain ⟨out', hout', hbytes⟩ := ih (out ++ .replicate count b) htable
        (fun a ha => hmem a (List.mem_append_right _ ha)) hencode.symm
      refine ⟨out', hout', ?_⟩
      rw [hbytes, Dense.bytes_append, Dense.bytes_replicate, List.append_assoc]
    | single i =>
      cases as with
      | nil => cases h
      | cons a as =>
        obtain ⟨rfl, hencode⟩ := List.cons.inj h
        have ha : a ∈ table := hmem a List.mem_cons_self
        have hget : table[table.idxOf a]? = some a := List.getElem?_idxOf ha
        have herase : table.eraseIdx (table.idxOf a) = table.erase a :=
          (List.erase_eq_eraseIdx_of_idxOf rfl).symm
        obtain ⟨out', hout', hbytes⟩ := ih (out.push a) (List.cons_ne_nil _ _) (mem_moved hmem)
          hencode
        refine ⟨out', ?_, ?_⟩
        · rw [decodeRunsFrom, hget, herase]
          exact hout'
        · rw [hbytes, Dense.bytes_push, List.append_assoc, List.singleton_append]

/-- **Runs for the ranks of a text** give the text. -/
theorem decodeRuns_encode {runs : List RankRun} (htable : table ≠ []) (hmem : ∀ a ∈ as, a ∈ table)
    (h : runs.flatMap RankRun.ranks = encode table as) :
    decodeRuns table runs = some (.ofBytes as) := by
  obtain ⟨out, hout, hbytes⟩ := decodeRunsFrom_encode .empty htable hmem h
  refine hout.trans (congrArg some (Dense.ext_bytes ?_))
  rw [hbytes, Dense.bytes_ofBytes]
  rfl

/-- The rank zero stands for the symbol in front. -/
theorem decode_zeros {α : Type} (a : α) (table : List α) (n : Nat) :
    decode (a :: table) (List.replicate n 0) = some (List.replicate n a) := by
  have hfrom : ∀ done : List α, decodeFrom done (a :: table) (List.replicate n 0) =
      some (done.reverse ++ List.replicate n a) := by
    induction n with
    | zero => simp [decodeFrom]
    | succ n ih =>
      intro done
      rw [List.replicate_succ, decodeFrom, List.replicate_succ]
      refine (ih (a :: done)).trans ?_
      rw [List.reverse_cons, List.append_assoc, List.singleton_append]
  exact hfrom []

end MoveToFront

end BagFile.Bzip2
