/-
  What a merge gives, call by call, until it has nothing more.

  * `Merge.after k m`: the merge after it was asked `k` times;
  * `Merge.IsMerge`: what it should give of inputs, said without sorting: all entries within the
    bounds, by time and number of their input, and of each input in its own order.  There is one
    such list only (`Merge.IsMerge.unique`);
  * `Merge.drains`: of sorted inputs a merge gives that list, one entry for each call, and
    nothing at any call after.
-/
import BagFile.Proofs.MergeOrder
import Mathlib.Data.List.Induction

namespace BagFile.Merge

/-! ## Calls -/

/-- A merge after it was asked some number of times. -/
def after : Nat → Merge → Merge
  | 0, m => m
  | k + 1, m => after k m.next.2

/-- A merge that has ended gives nothing any more. -/
theorem next_after_finished : ∀ (k : Nat) {m : Merge}, m.phase = .finished →
    (after k m).next = (none, m)
  | 0, m, h => by
    have hprime : m.prime = m := by
      rw [prime, if_neg (by rw [h]; decide)]
    rw [after, next, hprime, if_pos h]
  | k + 1, m, h => by
    have hnext : m.next = (none, m) := next_after_finished 0 h
    rw [after, hnext]
    exact next_after_finished k h

/-- Taking the first entries of all lanes by itself changes nothing. -/
theorem next_after_prime (k : Nat) (m : Merge) : (after k m.prime).next = (after k m).next := by
  cases k with
  | zero => exact next_prime m
  | succ k => rw [after, after, next_prime]

variable {start stop : Option Time}

/-- **Each call gives the next entry that is due**, and after the last nothing. -/
theorem next_after_running : ∀ (k : Nat) {ls : List (Nat × Lane)}, ls.Pairwise (·.1 < ·.1) →
    (∀ l ∈ ls, l.2.Ready start) →
      (after k ⟨ls.map Prod.snd, start, stop, .running⟩).next.1 = ((due ls stop).map Prod.snd)[k]?
  | 0, ls, hn, hr => by
    rcases next_running hn hr stop with ⟨hd, h⟩ | ⟨n, e, ls', -, -, hd, h⟩
    · rw [after, h, hd]
      rfl
    · rw [after, h, hd]
      rfl
  | k + 1, ls, hn, hr => by
    rcases next_running hn hr stop with ⟨hd, h⟩ | ⟨n, e, ls', hn', hr', hd, h⟩
    · rw [after, h, hd, next_after_finished k rfl]
      rfl
    · rw [after, h, hd, List.map_cons, List.getElem?_cons_succ]
      exact next_after_running k hn' hr'

/-! ## Numbered inputs -/

/-- The inputs with their places as numbers. -/
def number (inputs : List (List Entry)) : List (Nat × List Entry) :=
  inputs.zipIdx.map Prod.swap

theorem map_snd_number (inputs : List (List Entry)) : (number inputs).map Prod.snd = inputs := by
  rw [number, List.map_map]
  exact List.zipIdx_map_fst 0 inputs

theorem pairwise_number (inputs : List (List Entry)) :
    (number inputs).Pairwise (·.1 < ·.1) := by
  have hnumbers : (inputs.zipIdx.map Prod.snd).Pairwise (· < ·) := by
    rw [List.zipIdx_map_snd]
    exact List.pairwise_lt_range'
  rw [number, List.pairwise_map]
  exact List.pairwise_map.1 hnumbers

theorem number_concat (inputs : List (List Entry)) (es : List Entry) :
    number (inputs ++ [es]) = number inputs ++ [(inputs.length, es)] := by
  rw [number, List.zipIdx_append, List.map_append, Nat.zero_add]
  rfl

/-- The entries of one input among those of all. -/
theorem filter_numbered (inputs : List (List Entry)) (i : Nat) :
    (numbered (number inputs)).filter (·.1 = i) = (inputs[i]?.getD []).map (i, ·) := by
  induction inputs using List.reverseRecOn with
  | nil => rfl
  | append_singleton inputs es ih =>
    rw [number_concat, numbered, List.flatMap_append, List.filter_append, ← numbered, ih,
      List.flatMap_singleton, List.filter_map]
    by_cases hi : inputs.length = i
    · subst hi
      simp [Function.comp_def]
    · by_cases hlt : i < inputs.length
      · simp [Function.comp_def, hi, List.getElem?_append_left hlt]
      · have hnone : (inputs ++ [es])[i]? = none := by
          rw [List.getElem?_eq_none_iff, List.length_append, List.length_singleton]
          omega
        have hnone' : inputs[i]? = none := List.getElem?_eq_none_iff.2 (Nat.le_of_not_lt hlt)
        simp [Function.comp_def, hi, hnone, hnone']

/-! ## What should come out -/

/-- Numbered entries that are the merge of some inputs between two bounds. -/
structure IsMerge (inputs : List (List Entry)) (start stop : Option Time)
    (xs : List (Nat × Entry)) : Prop where
  /-- every entry within the bounds, with the number of its input, is there once -/
  perm : xs.Perm ((numbered (number inputs)).filter fun x => inBounds start stop x.2.time)
  /-- they are in order of time, then of the input's number -/
  ordered : xs.Pairwise fun a b => a.2.time < b.2.time ∨ a.2.time = b.2.time ∧ a.1 ≤ b.1
  /-- those of one input are in its order -/
  own : ∀ i, (xs.filter (·.1 = i)).map Prod.snd =
    (inputs[i]?.getD []).filter fun e => inBounds start stop e.time

namespace IsMerge

variable {inputs : List (List Entry)} {start stop : Option Time} {xs ys : List (Nat × Entry)}

theorem ranked (h : IsMerge inputs start stop xs) : xs.Pairwise (rank · ≤ rank ·) :=
  h.ordered.imp rank_le.2

/-- The entries of one input, with its number. -/
theorem filter_eq (h : IsMerge inputs start stop xs) (i : Nat) : xs.filter (·.1 = i) =
    ((inputs[i]?.getD []).filter fun e => inBounds start stop e.time).map (i, ·) := by
  rw [← h.own i, List.map_map]
  refine ((List.map_congr_left fun x hx => ?_).trans (List.map_id _)).symm
  have hi : x.1 = i := by simpa using (List.mem_filter.1 hx).2
  exact Prod.ext hi.symm rfl

/-- Entries of one rank are of one input. -/
theorem filter_rank (zs : List (Nat × Entry)) (k : ℕ ×ₗ ℕ) :
    zs.filter (rank · = k) = (zs.filter (·.1 = (ofLex k).2)).filter (rank · = k) := by
  rw [List.filter_filter]
  refine List.filter_congr fun x _ => ?_
  rw [Bool.eq_iff_iff]
  simp only [Bool.and_eq_true, decide_eq_true_eq]
  exact ⟨fun hk => ⟨hk, hk ▸ rfl⟩, And.left⟩

/-- **There is one merge only.** -/
theorem unique (h : IsMerge inputs start stop xs) (h' : IsMerge inputs start stop ys) : xs = ys :=
  eq_of_ties h.ranked h'.ranked fun k => by
    rw [filter_rank xs, h.filter_eq, filter_rank ys, h'.filter_eq]

end IsMerge

/-- Sorting the entries within the bounds merges sorted inputs. -/
theorem isMerge_mergeSort {inputs : List (List Entry)} (hs : ∀ es ∈ inputs, Entry.Sorted es)
    (start stop : Option Time) : IsMerge inputs start stop
      (((numbered (number inputs)).filter fun x => inBounds start stop x.2.time).mergeSort
        noLater) where
  perm := List.mergeSort_perm _ _
  ordered := (noLater_byKey.pairwise_mergeSort _).imp rank_le.1
  own i := by
    have hown : ((numbered (number inputs)).filter fun x => inBounds start stop x.2.time).filter
        (·.1 = i) = ((inputs[i]?.getD []).filter fun e => inBounds start stop e.time).map (i, ·) := by
      rw [List.filter_comm, filter_numbered, List.filter_map]
      rfl
    have hsorted : Entry.Sorted (inputs[i]?.getD []) := by
      cases hi : inputs[i]? with
      | none => exact List.Pairwise.nil
      | some es => exact hs es (List.mem_of_getElem? hi)
    have hordered : (((inputs[i]?.getD []).filter fun e => inBounds start stop e.time).map
        (i, ·)).Pairwise (rank · ≤ rank ·) := by
      rw [List.pairwise_map]
      refine (hsorted.filter _).imp fun {a b} hle => ?_
      exact (rank_le_of_le hle (Nat.le_refl i) : rank (i, a) ≤ rank (i, b))
    rw [noLater_byKey.filter_mergeSort_of_pairwise (hown ▸ hordered), hown, List.map_map]
    exact List.map_id _

/-! ## All calls -/

/-- **A merge of sorted inputs gives all their entries within the bounds**, each once, in order of
    time and of the input's number and those of one input as they were, and after them nothing. -/
theorem drains (inputs : List (List Entry)) (start stop : Option Time)
    (hs : ∀ es ∈ inputs, Entry.Sorted es) :
    ∃ xs, IsMerge inputs start stop xs ∧ (∀ ys, IsMerge inputs start stop ys → ys = xs) ∧
      (ofLists inputs start stop).toList = xs.map Prod.snd ∧
      ∀ k, (after k (ofLists inputs start stop)).next.1 = (xs.map Prod.snd)[k]? := by
  have hmerge := isMerge_mergeSort hs start stop
  have hnumber := map_snd_number inputs
  have hn := pairwise_number inputs
  have hs' : ∀ x ∈ number inputs, Entry.Sorted x.2 := fun x hx =>
    hs x.2 (hnumber ▸ List.mem_map_of_mem hx)
  refine ⟨_, hmerge, fun ys hys => hys.unique hmerge, ?_, fun k => ?_⟩
  · have hlist := toList_ofLists hn hs' start stop
    rwa [hnumber, sorted] at hlist
  · have hprime := prime_ofLists (number inputs) start stop
    rw [hnumber] at hprime
    rw [← next_after_prime, hprime,
      next_after_running k (pairwise_primed hn start) (ready_primed hs' start),
      due_primed hs']

/-- Two inputs with entries of one time, and entries out of the bounds of the sample below. -/
def tied : List (List Entry) :=
  [[⟨⟨3, 0⟩, 0, 1⟩, ⟨⟨9, 0⟩, 0, 2⟩], [⟨⟨1, 0⟩, 0, 3⟩, ⟨⟨3, 0⟩, 0, 4⟩, ⟨⟨3, 0⟩, 0, 5⟩]]

/-- The ties come out by input, then in the order of their input, and nothing after them. -/
theorem drains_tied :
    (ofLists tied (some ⟨2, 0⟩) (some ⟨5, 0⟩)).toList =
        [⟨⟨3, 0⟩, 0, 1⟩, ⟨⟨3, 0⟩, 0, 4⟩, ⟨⟨3, 0⟩, 0, 5⟩] ∧
      ∀ k, (after k (ofLists tied (some ⟨2, 0⟩) (some ⟨5, 0⟩))).next.1 =
        [⟨⟨3, 0⟩, 0, 1⟩, ⟨⟨3, 0⟩, 0, 4⟩, ⟨⟨3, 0⟩, 0, 5⟩][k]? := by
  have hs : ∀ es ∈ tied, Entry.Sorted es := by
    unfold Entry.Sorted
    decide
  obtain ⟨xs, -, -, hlist, hcalls⟩ := drains tied (some ⟨2, 0⟩) (some ⟨5, 0⟩) hs
  have hentries : (ofLists tied (some ⟨2, 0⟩) (some ⟨5, 0⟩)).toList =
      [⟨⟨3, 0⟩, 0, 1⟩, ⟨⟨3, 0⟩, 0, 4⟩, ⟨⟨3, 0⟩, 0, 5⟩] := by
    decide
  rw [← hlist, hentries] at hcalls
  exact ⟨hentries, hcalls⟩

end BagFile.Merge
