/-
  Stable sorting by a key.

  * `ByKey le key`: the comparison `le` goes by `key`, so elements with one key are ties;
  * `ByKey.filter_mergeSort`: `List.mergeSort` keeps the order of ties;
  * `ByKey.mergeSort_eq`: a list in order of its keys that has the ties of `l` as they are in
    `l` is `l` sorted.  All that is said below about merged, grouped and sorted-twice lists
    follows from comparing their ties;
  * `ascending_eraseDups`: numbers sorted without repetitions ascend strictly.
-/
import Mathlib.Data.List.Basic
import Mathlib.Order.Lattice

namespace BagFile

variable {α κ : Type} [LinearOrder κ]

/-- A comparison that goes by a key. -/
def ByKey (le : α → α → Bool) (key : α → κ) : Prop := ∀ a b, le a b = true ↔ key a ≤ key b

/-- **A list in order of its keys is known by its ties.** -/
theorem eq_of_ties {key : α → κ} : ∀ {l₁ l₂ : List α},
    l₁.Pairwise (key · ≤ key ·) → l₂.Pairwise (key · ≤ key ·) →
      (∀ k, l₁.filter (key · = k) = l₂.filter (key · = k)) → l₁ = l₂
  | [], [], _, _, _ => rfl
  | [], b :: _, _, _, h => by simpa using h (key b)
  | a :: _, [], _, _, h => by simpa using h (key a)
  | a :: l₁, b :: l₂, h₁, h₂, h => by
    have hmem : ∀ {x : α} {l l' : List α}, x ∈ l →
        l.filter (key · = key x) = l'.filter (key · = key x) → x ∈ l' := by
      intro x l l' hx he
      have : x ∈ l.filter (key · = key x) := List.mem_filter.2 ⟨hx, by simp⟩
      rw [he] at this
      exact (List.mem_filter.1 this).1
    -- the heads have one key, so they are the first of the same ties
    have hab : key a = key b := by
      apply le_antisymm
      · rcases List.mem_cons.1 (hmem List.mem_cons_self (h (key b)).symm) with hb | hb
        · rw [hb]
        · exact List.rel_of_pairwise_cons h₁ hb
      · rcases List.mem_cons.1 (hmem List.mem_cons_self (h (key a))) with ha | ha
        · rw [ha]
        · exact List.rel_of_pairwise_cons h₂ ha
    have he : a = b := by
      have := h (key a)
      rw [List.filter_cons_of_pos (by simp), List.filter_cons_of_pos (by simp [hab])] at this
      exact (List.cons.inj this).1
    subst he
    refine congrArg _ (eq_of_ties h₁.tail h₂.tail fun k => ?_)
    have := h k
    by_cases hk : key a = k
    · rw [List.filter_cons_of_pos (by simp [hk]), List.filter_cons_of_pos (by simp [hk])] at this
      exact (List.cons.inj this).2
    · rwa [List.filter_cons_of_neg (by simp [hk]), List.filter_cons_of_neg (by simp [hk])] at this

namespace ByKey

variable {le : α → α → Bool} {key : α → κ}

theorem trans (h : ByKey le key) (a b c : α) (hab : le a b) (hbc : le b c) : le a c :=
  (h a c).2 (((h a b).1 hab).trans ((h b c).1 hbc))

theorem total (h : ByKey le key) (a b : α) : le a b || le b a := by
  rw [Bool.or_eq_true, h, h]
  exact le_total _ _

theorem pairwise_mergeSort (h : ByKey le key) (l : List α) :
    (l.mergeSort le).Pairwise (key · ≤ key ·) :=
  (List.pairwise_mergeSort h.trans h.total l).imp fun hab => (h _ _).1 hab

/-- **Sorting keeps the order of ties.** -/
theorem filter_mergeSort (h : ByKey le key) (l : List α) (k : κ) :
    (l.mergeSort le).filter (key · = k) = l.filter (key · = k) := by
  have hties : (l.filter (key · = k)).Pairwise (fun a b => le a b) := by
    rw [List.pairwise_filter]
    refine List.pairwise_of_forall fun a b ha hb => (h a b).2 (le_of_eq ?_)
    rw [decide_eq_true_eq] at ha hb
    rw [ha, hb]
  have hsub : (l.filter (key · = k)).Sublist ((l.mergeSort le).filter (key · = k)) := by
    have := (List.sublist_mergeSort h.trans h.total hties List.filter_sublist).filter (key · = k)
    rwa [List.filter_filter, List.filter_congr fun a _ => Bool.and_self _] at this
  exact (hsub.eq_of_length ((List.mergeSort_perm l le).filter _).length_eq.symm).symm

/-- Sorting keeps the order of elements that are in order already. -/
theorem filter_mergeSort_of_pairwise (h : ByKey le key) {l : List α} {p : α → Bool}
    (hp : (l.filter p).Pairwise (key · ≤ key ·)) : (l.mergeSort le).filter p = l.filter p :=
  eq_of_ties ((h.pairwise_mergeSort l).filter p) hp fun k => by
    rw [List.filter_comm, h.filter_mergeSort, List.filter_comm]

/-- **What sorting gives.**  A list in order of its keys, with the ties of `l` in the order that
    they have in `l`, is `l` sorted. -/
theorem mergeSort_eq (h : ByKey le key) {l l' : List α} (hs : l'.Pairwise (key · ≤ key ·))
    (ht : ∀ k, l'.filter (key · = k) = l.filter (key · = k)) : l.mergeSort le = l' :=
  eq_of_ties (h.pairwise_mergeSort l) hs fun k => by rw [h.filter_mergeSort, ht]

/-- What is in order stays so when it is sorted. -/
theorem mergeSort_of_pairwise (h : ByKey le key) {l : List α}
    (hl : l.Pairwise fun a b => le a b) : l.mergeSort le = l :=
  h.mergeSort_eq (hl.imp fun hab => (h _ _).1 hab) fun _ => rfl

/-- Lists with the same ties are sorted alike. -/
theorem mergeSort_congr (h : ByKey le key) {l l' : List α}
    (ht : ∀ k, l.filter (key · = k) = l'.filter (key · = k)) : l.mergeSort le = l'.mergeSort le :=
  h.mergeSort_eq (h.pairwise_mergeSort l') fun k => by rw [h.filter_mergeSort, ht]

/-- The first element in order of the keys comes out first. -/
theorem mergeSort_least (h : ByKey le key) {l₁ l₂ : List α} {a : α}
    (h₁ : ∀ b ∈ l₁, key a < key b) (h₂ : ∀ b ∈ l₂, key a ≤ key b) :
    (l₁ ++ a :: l₂).mergeSort le = a :: (l₁ ++ l₂).mergeSort le := by
  refine h.mergeSort_eq (List.pairwise_cons.2 ⟨fun b hb => ?_, h.pairwise_mergeSort _⟩) fun k => ?_
  · rcases List.mem_append.1 (List.mem_mergeSort.1 hb) with hb | hb
    · exact (h₁ b hb).le
    · exact h₂ b hb
  · by_cases hk : key a = k
    · have hnone : l₁.filter (key · = k) = [] := by
        refine List.filter_eq_nil_iff.2 fun b hb => ?_
        rw [decide_eq_true_eq]
        exact fun hbk => (h₁ b hb).ne (hk.trans hbk.symm)
      simp [List.filter_append, h.filter_mergeSort, hk, hnone]
    · simp [List.filter_append, h.filter_mergeSort, hk]

end ByKey

/-! ## Places -/

/-- The place that an element with a key gets when a list is sorted, if it stands at position `i`:
    behind those with smaller keys, and those with the same key in front of it. -/
def placeOf (keys : List κ) (i : Nat) (k : κ) : Nat :=
  keys.countP (· < k) + (keys.take i).countP (· = k)

/-- A list in order falls into three parts. -/
theorem split_ordered {key : α → κ} (k : κ) : ∀ {l : List α}, l.Pairwise (key · ≤ key ·) →
    l = l.filter (key · < k) ++ (l.filter (key · = k) ++ l.filter (k < key ·))
  | [], _ => rfl
  | a :: l, h => by
    have hrest : l = l.filter (key · < k) ++ (l.filter (key · = k) ++ l.filter (k < key ·)) :=
      split_ordered k h.tail
    have hle : ∀ b ∈ l, key a ≤ key b := fun b hb => List.rel_of_pairwise_cons h hb
    have hnone : k ≤ key a → l.filter (key · < k) = [] := by
      intro hk
      refine List.filter_eq_nil_iff.2 fun b hb => ?_
      rw [decide_eq_true_eq, not_lt]
      exact hk.trans (hle b hb)
    rcases lt_trichotomy (key a) k with hk | hk | hk
    · simp only [List.filter_cons, hk, hk.ne, hk.not_gt, decide_true, decide_false, if_true,
        Bool.false_eq_true, if_false, List.cons_append]
      rw [← hrest]
    · rw [hnone hk.ge, List.nil_append] at hrest
      simp only [List.filter_cons, hk, lt_irrefl, decide_true, decide_false, if_true,
        Bool.false_eq_true, if_false, hnone hk.ge, List.nil_append, List.cons_append]
      rw [← hrest]
    · have hbeyond : l.filter (key · = k) = [] := by
        refine List.filter_eq_nil_iff.2 fun b hb => ?_
        rw [decide_eq_true_eq]
        exact fun hbk => absurd (hk.trans_le (hle b hb)) (hbk ▸ lt_irrefl _)
      rw [hnone hk.le, hbeyond, List.nil_append, List.nil_append] at hrest
      simp only [List.filter_cons, hk, hk.ne', hk.not_gt, decide_true, decide_false, if_true,
        Bool.false_eq_true, if_false, hnone hk.le, hbeyond, List.nil_append]
      rw [← hrest]

/-- **An element is found at its place** after sorting. -/
theorem ByKey.getElem?_mergeSort {le : α → α → Bool} {key : α → κ} (h : ByKey le key) {l : List α}
    {i : Nat} {a : α} (hi : l[i]? = some a) :
    (l.mergeSort le)[placeOf (l.map key) i (key a)]? = some a := by
  obtain ⟨hlt, rfl⟩ := List.getElem?_eq_some_iff.1 hi
  have hsmaller : ((l.mergeSort le).filter (key · < key l[i])).length =
      (l.map key).countP (· < key l[i]) := by
    rw [((List.mergeSort_perm l le).filter _).length_eq, ← List.countP_eq_length_filter,
      List.countP_map]
    rfl
  have hties : l.filter (key · = key l[i]) = (l.take i).filter (key · = key l[i]) ++
      l[i] :: (l.drop (i + 1)).filter (key · = key l[i]) := by
    have hsplit : (l.take i ++ l[i] :: l.drop (i + 1)).filter (key · = key l[i]) =
        l.filter (key · = key l[i]) := by
      rw [← List.drop_eq_getElem_cons hlt, List.take_append_drop]
    rw [← hsplit, List.filter_append, List.filter_cons_of_pos (by simp)]
  have hbefore : ((l.take i).filter (key · = key l[i])).length =
      ((l.map key).take i).countP (· = key l[i]) := by
    rw [← List.map_take, ← List.countP_eq_length_filter, List.countP_map]
    rfl
  rw [split_ordered (key l[i]) (h.pairwise_mergeSort l), h.filter_mergeSort, hties, placeOf,
    ← hsmaller, ← hbefore, List.getElem?_append_right (Nat.le_add_right _ _),
    Nat.add_sub_cancel_left, List.append_assoc, List.getElem?_append_right (Nat.le_refl _),
    Nat.sub_self]
  rfl

/-! ## Numbers in order, each once -/

theorem nodup_eraseDups {α : Type} [BEq α] [LawfulBEq α] : ∀ l : List α, l.eraseDups.Nodup
  | [] => List.nodup_nil
  | a :: l => by
    rw [List.eraseDups_cons, List.nodup_cons, List.mem_eraseDups, List.mem_filter]
    exact ⟨by simp, nodup_eraseDups _⟩
termination_by l => l.length
decreasing_by exact Nat.lt_succ_of_le (List.length_filter_le _ _)

/-- The elements of a list in order of their keys, each once, if they are told apart by these. -/
theorem ByKey.ascending_eraseDups [BEq α] [LawfulBEq α] {le : α → α → Bool} {key : α → κ}
    (h : ByKey le key) (hkey : Function.Injective key) (l : List α) :
    (l.eraseDups.mergeSort le).Pairwise (key · < key ·) := by
  have hnodup : (l.eraseDups.mergeSort le).Nodup :=
    (List.mergeSort_perm _ _).nodup_iff.2 (nodup_eraseDups l)
  exact ((h.pairwise_mergeSort _).and hnodup).imp fun ⟨hle, hne⟩ =>
    lt_of_le_of_ne hle fun heq => hne (hkey heq)

/-- The numbers of a list in order, each once. -/
theorem ascending_eraseDups (l : List UInt32) :
    (l.eraseDups.mergeSort fun a b => a ≤ b).Pairwise (· < ·) := by
  have hkey : ByKey (fun a b : UInt32 => decide (a ≤ b)) UInt32.toNat := fun a b => by
    rw [decide_eq_true_eq, UInt32.le_iff_toNat_le]
  exact (hkey.ascending_eraseDups (fun _ _ => UInt32.toNat_inj.1) l).imp UInt32.lt_iff_toNat_lt.2

theorem mem_ascending {a : UInt32} {l : List UInt32} :
    a ∈ (l.eraseDups.mergeSort fun a b => a ≤ b) ↔ a ∈ l := by
  rw [List.mem_mergeSort, List.mem_eraseDups]

end BagFile
