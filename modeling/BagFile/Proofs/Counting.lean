/-
  How many entries an index has.

  * `sum_count_comm`: the pairs of equal elements of two lists may be counted from either side;
    `sum_grouped`: a sum may be taken group by group;
  * `Index.messageCount_ofRows`: an index has as many entries as rows were read, and
    `Index.sum_lengths` says how many there are for some connections, which may be listed twice.
-/
import BagFile.Proofs.Indexing
import Mathlib.Data.List.Nodup

namespace BagFile

/-! ## Sums -/

/-- Pairs of equal elements of two lists may be counted from either side. -/
theorem sum_count_comm {α : Type} [BEq α] [LawfulBEq α] (xs ys : List α) :
    (xs.map ys.count).sum = (ys.map xs.count).sum := by
  induction xs with
  | nil => simp
  | cons x xs ih =>
    -- one more element on the left is met once for each of its equals on the right
    have hcons : ∀ ys : List α, (ys.map (x :: xs).count).sum =
        ys.count x + (ys.map xs.count).sum := by
      intro ys
      induction ys with
      | nil => rfl
      | cons y ys ih =>
        have hsymm : (x == y) = (y == x) := BEq.comm
        rw [List.map_cons, List.sum_cons, ih, List.map_cons, List.sum_cons, List.count_cons,
          List.count_cons, hsymm]
        omega
    rw [List.map_cons, List.sum_cons, ih, hcons]

/-- Counting the elements of a list, each once, is to go through it. -/
theorem sum_counts {α : Type} [BEq α] [LawfulBEq α] {keys xs : List α} (hkeys : keys.Nodup)
    (h : ∀ x ∈ xs, x ∈ keys) : (keys.map xs.count).sum = xs.length := by
  have hone : ∀ x ∈ xs, keys.count x = 1 := fun x hx => List.count_eq_one_of_mem hkeys (h x hx)
  rw [sum_count_comm, List.map_congr_left hone, List.map_const', List.sum_replicate_nat,
    Nat.mul_one]

theorem length_le_sum {α : Type} {f : α → Nat} {xs : List α} (h : ∀ x ∈ xs, 1 ≤ f x) :
    xs.length ≤ (xs.map f).sum := by
  induction xs with
  | nil => exact Nat.le_refl _
  | cons x xs ih =>
    obtain ⟨hx, hxs⟩ := List.forall_mem_cons.1 h
    have := ih hxs
    rw [List.length_cons, List.map_cons, List.sum_cons]
    omega

/-- Positive numbers add up to how many they are only if all of them are one. -/
theorem sum_eq_length_iff {α : Type} {f : α → Nat} {xs : List α} (h : ∀ x ∈ xs, 1 ≤ f x) :
    (xs.map f).sum = xs.length ↔ ∀ x ∈ xs, f x = 1 := by
  induction xs with
  | nil => simp
  | cons x xs ih =>
    obtain ⟨hx, hxs⟩ := List.forall_mem_cons.1 h
    have hle := length_le_sum hxs
    rw [List.map_cons, List.sum_cons, List.length_cons, List.forall_mem_cons, ← ih hxs]
    constructor
    · intro hsum
      constructor
      · omega
      · omega
    · rintro ⟨hone, hrest⟩
      omega

/-- A sum may be taken group by group. -/
theorem sum_grouped {α κ : Type} [DecidableEq κ] {keys : List κ} (hkeys : keys.Nodup) (key : α → κ)
    (f : α → Nat) {xs : List α} (h : ∀ x ∈ xs, key x ∈ keys) :
    (keys.map fun k => ((xs.filter (key · = k)).map f).sum).sum = (xs.map f).sum := by
  induction xs with
  | nil => simp
  | cons x xs ih =>
    obtain ⟨hx, hxs⟩ := List.forall_mem_cons.1 h
    -- one more element adds to the groups of its key, of which there will be one
    have hone : ∀ keys : List κ,
        (keys.map fun k => (((x :: xs).filter (key · = k)).map f).sum).sum =
          keys.count (key x) * f x + (keys.map fun k => ((xs.filter (key · = k)).map f).sum).sum := by
      intro keys
      induction keys with
      | nil => simp
      | cons k keys ih =>
        rw [List.map_cons, List.sum_cons, ih, List.map_cons, List.sum_cons, List.count_cons]
        by_cases hk : key x = k
        · simp [hk, Nat.add_mul]
          omega
        · have hne : ¬k = key x := fun he => hk he.symm
          simp [hk, hne]
          omega
    rw [hone, ih hxs, List.count_eq_one_of_mem hkeys hx, Nat.one_mul, List.map_cons, List.sum_cons]

/-! ## Entries -/

namespace Index

theorem length_entriesOf (conn : UInt32) (rows : List (UInt32 × Entry)) :
    (entriesOf conn rows).length = (rows.map Prod.fst).count conn := by
  induction rows with
  | nil => rfl
  | cons row rows ih =>
    rw [entriesOf] at ih ⊢
    rw [List.map_cons, List.count_cons, ← ih]
    by_cases h : row.1 = conn
    · simp [h]
    · simp [h]

theorem mem_connections_ofRows {rows : List (UInt32 × Entry)} {conn : UInt32} :
    conn ∈ (ofRows rows).connections ↔ conn ∈ rows.map Prod.fst := by
  rw [connections, ofRows, List.map_map]
  exact (Eq.to_iff (congrArg (conn ∈ ·) (List.map_id _))).trans mem_ascending

/-- An index has an entry for each row. -/
theorem messageCount_ofRows (rows : List (UInt32 × Entry)) :
    (ofRows rows).messageCount = rows.length := by
  have hnodup : ((rows.map Prod.fst).eraseDups.mergeSort fun a b => decide (a ≤ b)).Nodup :=
    (List.mergeSort_perm _ _).nodup_iff.2 (nodup_eraseDups _)
  calc (ofRows rows).messageCount
      = (((rows.map Prod.fst).eraseDups.mergeSort fun a b => decide (a ≤ b)).map
          (rows.map Prod.fst).count).sum := by
        rw [messageCount, ofRows, List.map_map]
        refine congrArg List.sum (List.map_congr_left fun c _ => ?_)
        simp only [Function.comp_apply, Entry.sort, List.length_mergeSort, length_entriesOf]
    _ = (rows.map Prod.fst).length := sum_counts hnodup fun _ => mem_ascending.2
    _ = rows.length := List.length_map _

/-- The entries of some connections are counted as often as their connections are listed. -/
theorem sum_lengths (ids : List UInt32) (rows : List (UInt32 × Entry)) :
    (ids.map fun id => (entriesOf id rows).length).sum =
      ((rows.map Prod.fst).map ids.count).sum := by
  rw [← sum_count_comm]
  exact congrArg List.sum (List.map_congr_left fun id _ => length_entriesOf id rows)

end Index

end BagFile
