/-
  The order in which a merge gives its entries.

  * `Merge.sorted` is what a merge of sorted inputs should give: the entries within the bounds,
    stably sorted by time and by the number of their input;
  * `Merge.take_running`: once every lane has its head, a merge gives all that is pending up to
    the stop in this order.  The invariant is `Lane.Ready`: nothing pending is before the start,
    and an input without a head has run dry;
  * `Merge.toList_ofLists`: so a merge of sorted inputs gives `Merge.sorted`, for inputs with
    any ascending numbers.  `Merge.take_ofLists` says so for any number of calls, hence also that
    nothing more comes after it.
-/
import BagFile.Merge
import BagFile.Proofs.StableSort
import Mathlib.Data.Prod.Lex

namespace BagFile

/-! ## The order -/

namespace Merge

/-- Whether a point in time is within two bounds. -/
def inBounds (start stop : Option Time) (t : Time) : Bool :=
  start.all (fun s => s ≤ t) && stop.all (fun e => t ≤ e)

/-- Whether an entry comes no later than another: by time, then by the number of its input. -/
def noLater (a b : Nat × Entry) : Bool :=
  a.2.time < b.2.time || a.2.time = b.2.time && a.1 ≤ b.1

/-- What a merge of numbered inputs should give: their entries within the bounds, by time and
    number, those of one input and one time as they were. -/
def sorted (inputs : List (Nat × List Entry)) (start stop : Option Time) : List Entry :=
  ((((inputs.flatMap fun x => x.2.map (x.1, ·)).filter
    fun x => inBounds start stop x.2.time).mergeSort noLater).map Prod.snd)

/-- The time of an entry, then the number of its input. -/
def rank (x : Nat × Entry) : ℕ ×ₗ ℕ := toLex (x.2.time.rank, x.1)

theorem rank_le {a b : Nat × Entry} :
    rank a ≤ rank b ↔ a.2.time < b.2.time ∨ a.2.time = b.2.time ∧ a.1 ≤ b.1 := by
  rw [rank, rank, Prod.Lex.toLex_le_toLex, Time.rank_inj, Time.lt_def]

theorem rank_le_of_le {a b : Nat × Entry} (ht : a.2.time ≤ b.2.time) (hn : a.1 ≤ b.1) :
    rank a ≤ rank b := by
  rcases Nat.lt_or_eq_of_le ht with h | h
  · exact rank_le.2 (.inl h)
  · exact rank_le.2 (.inr ⟨Time.rank_inj.1 h, hn⟩)

theorem rank_lt_of_lt {a b : Nat × Entry} (h : a.2.time < b.2.time) : rank a < rank b := by
  refine lt_of_not_ge fun hba => ?_
  rcases rank_le.1 hba with hlt | ⟨he, -⟩
  · exact Nat.lt_asymm h hlt
  · exact Nat.lt_irrefl _ (he ▸ h)

theorem noLater_byKey : ByKey noLater rank := by
  intro a b
  rw [rank_le, noLater]
  simp

end Merge

/-! ## Lanes -/

/-- Entries in order of time. -/
def Entry.Sorted (es : List Entry) : Prop := es.Pairwise fun a b => a.time ≤ b.time

namespace Lane

/-- The entries that a lane still has, its head first. -/
def pending (l : Lane) : List Entry := l.head.toList ++ l.rest

/-- A lane with its head: what is pending is sorted and not before the start, and without a
    head there is nothing. -/
structure Ready (start : Option Time) (l : Lane) : Prop where
  sorted : Entry.Sorted l.pending
  started : ∀ e ∈ l.pending, isEarly start e = false
  dry : l.head = none → l.pending = []

theorem isEarly_of_le {start : Option Time} {a b : Entry} (h : a.time ≤ b.time)
    (hb : isEarly start b) : isEarly start a := by
  cases start with
  | none => simp [isEarly] at hb
  | some s =>
    simp only [isEarly, Option.any_some, decide_eq_true_eq] at hb ⊢
    exact Nat.lt_of_le_of_lt h hb

/-- In sorted entries those before the start come first. -/
theorem dropWhile_isEarly (start : Option Time) : ∀ {es : List Entry}, Entry.Sorted es →
    es.dropWhile (isEarly start) = es.filter fun e => !isEarly start e
  | [], _ => rfl
  | e :: es, h => by
    by_cases he : isEarly start e
    · rw [List.dropWhile_cons_of_pos he, List.filter_cons_of_neg (by simp [he])]
      exact dropWhile_isEarly start h.tail
    · rw [List.dropWhile_cons_of_neg he]
      refine (List.filter_eq_self.2 fun f hf => ?_).symm
      rcases List.mem_cons.1 hf with rfl | hf
      · simpa using he
      · have := fun hb => he (isEarly_of_le (List.rel_of_pairwise_cons h hf) hb)
        simpa using this

theorem pending_advance (start : Option Time) {l : Lane} (h : Entry.Sorted l.rest) :
    (l.advance start).pending = l.rest.filter fun e => !isEarly start e := by
  rw [← dropWhile_isEarly start h, pending, advance]
  cases l.rest.dropWhile (isEarly start) <;> rfl

theorem ready_advance (start : Option Time) {l : Lane} (h : Entry.Sorted l.rest) :
    (l.advance start).Ready start := by
  refine ⟨?_, fun e he => ?_, fun hd => ?_⟩
  · rw [pending_advance start h]
    exact h.filter _
  · rw [pending_advance start h, List.mem_filter] at he
    simpa using he.2
  · simp only [advance, List.head?_eq_none_iff] at hd
    simp [pending, advance, hd]

/-- A lane moves on by its head alone: nothing behind it is before the start. -/
theorem Ready.pending_advance {start : Option Time} {l : Lane} {e : Entry} (h : l.Ready start)
    (he : l.head = some e) : l.pending = e :: (l.advance start).pending := by
  have hp : l.pending = e :: l.rest := by rw [pending, he]; rfl
  have hs : Entry.Sorted l.rest := (hp ▸ h.sorted).tail
  rw [Lane.pending_advance start hs, hp]
  refine congrArg _ (List.filter_eq_self.2 fun f hf => ?_).symm
  simpa using h.started f (by rw [hp]; exact List.mem_cons_of_mem _ hf)

theorem Ready.advance {start : Option Time} {l : Lane} {e : Entry} (h : l.Ready start)
    (he : l.head = some e) : (l.advance start).Ready start := by
  have hs : Entry.Sorted (e :: l.rest) := by
    have := h.sorted
    rwa [pending, he] at this
  exact ready_advance start hs.tail

end Lane

/-! ## Merges -/

namespace Merge

/-- What is pending in numbered lanes. -/
def pending (ls : List (Nat × Lane)) : List (Nat × Entry) :=
  ls.flatMap fun l => l.2.pending.map (l.1, ·)

theorem mem_pending {ls : List (Nat × Lane)} {x : Nat × Entry} :
    x ∈ pending ls ↔ ∃ l ∈ ls, l.1 = x.1 ∧ x.2 ∈ l.2.pending := by
  simp only [pending, List.mem_flatMap, List.mem_map]
  constructor
  · rintro ⟨l, hl, e, he, rfl⟩; exact ⟨l, hl, rfl, he⟩
  · rintro ⟨l, hl, h, he⟩; exact ⟨l, hl, x.2, he, by rw [h]⟩

theorem mem_pending_cons {n : Nat} {l : Lane} {ls : List (Nat × Lane)} {x : Nat × Entry} :
    x ∈ pending ((n, l) :: ls) ↔ (∃ e ∈ l.pending, (n, e) = x) ∨ x ∈ pending ls := by
  rw [pending, List.flatMap_cons, List.mem_append, List.mem_map]
  rfl

theorem pending_append (ls ls' : List (Nat × Lane)) :
    pending (ls ++ ls') = pending ls ++ pending ls' := List.flatMap_append

variable {start : Option Time}

/-- Nothing in a lane comes before its head. -/
theorem rank_head_le {n : Nat} {l : Lane} {e : Entry} (hr : l.Ready start) (he : l.head = some e)
    {f : Entry} (hf : f ∈ l.pending) : rank (n, e) ≤ rank (n, f) := by
  have hs := hr.sorted
  rw [hr.pending_advance he] at hs hf
  rcases List.mem_cons.1 hf with rfl | hf
  · exact le_rfl
  · exact rank_le_of_le (List.rel_of_pairwise_cons hs hf) le_rfl

theorem leastFrom_eq_none : ∀ {ls : List Lane} {i : Nat}, leastFrom i ls = none →
    ∀ l ∈ ls, l.head = none
  | [], _, _, _, hl => by simp at hl
  | l :: ls, i, h, l', hl => by
    rw [leastFrom] at h
    split at h
    · next hd =>
      rcases List.mem_cons.1 hl with rfl | hl
      · exact hd
      · exact leastFrom_eq_none h l' hl
    · simp at h
    · split at h <;> simp at h

/-- Where no lane has a head, nothing is pending. -/
theorem pending_eq_nil {ls : List (Nat × Lane)} {i : Nat} (hr : ∀ l ∈ ls, l.2.Ready start)
    (h : leastFrom i (ls.map Prod.snd) = none) : pending ls = [] := by
  refine List.eq_nil_iff_forall_not_mem.2 fun x hx => ?_
  obtain ⟨l, hl, -, hx⟩ := mem_pending.1 hx
  rw [(hr l hl).dry (leastFrom_eq_none h l.2 (List.mem_map_of_mem hl))] at hx
  cases hx

/-- **The least head comes before all that is pending**, and strictly before what is pending in
    the lanes in front of its own. -/
theorem leastFrom_eq_some : ∀ {ls : List (Nat × Lane)} {i j : Nat} {e : Entry},
    ls.Pairwise (·.1 < ·.1) → (∀ l ∈ ls, l.2.Ready start) →
      leastFrom i (ls.map Prod.snd) = some (j, e) →
        ∃ A n l B, ls = A ++ (n, l) :: B ∧ j = i + A.length ∧ l.head = some e ∧
          (∀ x ∈ pending A, rank (n, e) < rank x) ∧ ∀ x ∈ pending ((n, l) :: B), rank (n, e) ≤ rank x
  | [], _, _, _, _, _, h => by simp [leastFrom] at h
  | (n, l) :: ls, i, j, e, hn, hr, h => by
    have hl : l.Ready start := hr (n, l) List.mem_cons_self
    have hr' : ∀ l' ∈ ls, l'.2.Ready start := fun l' hl' => hr l' (List.mem_cons_of_mem _ hl')
    have hn' : ls.Pairwise (·.1 < ·.1) := (List.pairwise_cons.1 hn).2
    rw [List.map_cons, leastFrom] at h
    split at h
    · next hd =>
      obtain ⟨A, m, l', B, rfl, rfl, he, hA, hB⟩ := leastFrom_eq_some hn' hr' h
      refine ⟨(n, l) :: A, m, l', B, rfl, by simp; omega, he, fun x hx => hA x ?_, hB⟩
      simpa [pending, hl.dry hd] using hx
    · next e' hd hnone =>
      obtain ⟨rfl, rfl⟩ : i = j ∧ e' = e := by simpa using h
      refine ⟨[], n, l, ls, rfl, rfl, hd, by simp [pending], fun x hx => ?_⟩
      rcases mem_pending_cons.1 hx with ⟨g, hg, rfl⟩ | hx
      · exact rank_head_le hl hd hg
      · rw [pending_eq_nil hr' hnone] at hx
        cases hx
    · next e' j' f hd hsome =>
      obtain ⟨A, m, l', B, hls, hj, he, hA, hB⟩ := leastFrom_eq_some hn' hr' hsome
      split at h
      · -- ties go to the lane in front
        next hle =>
        obtain ⟨rfl, rfl⟩ : i = j ∧ e' = e := by simpa using h
        have hnm : n < m := List.rel_of_pairwise_cons hn (by simp [hls] : (m, l') ∈ ls)
        refine ⟨[], n, l, ls, rfl, rfl, hd, by simp [pending], fun x hx => ?_⟩
        rcases mem_pending_cons.1 hx with ⟨g, hg, rfl⟩ | hx
        · exact rank_head_le hl hd hg
        · refine (rank_le_of_le hle hnm.le : rank (n, e') ≤ rank (m, f)).trans ?_
          rw [hls, pending_append, List.mem_append] at hx
          rcases hx with hx | hx
          · exact (hA x hx).le
          · exact hB x hx
      · next hle =>
        obtain ⟨rfl, rfl⟩ : j' = j ∧ f = e := by simpa using h
        refine ⟨(n, l) :: A, m, l', B, by rw [hls]; rfl, by simp; omega, he, fun x hx => ?_, hB⟩
        rcases mem_pending_cons.1 hx with ⟨g, hg, rfl⟩ | hx
        · have hlt : f.time < e'.time := Nat.lt_of_not_le hle
          exact (rank_lt_of_lt hlt : rank (m, f) < rank (n, e')).trans_le (rank_head_le hl hd hg)
        · exact hA x hx

/-! ## What a merge gives -/

/-- Asking a merge takes the first entries by itself. -/
theorem next_prime (m : Merge) : m.prime.next = m.next := by
  have : m.prime.prime = m.prime := by
    unfold prime
    split <;> simp_all
  unfold next
  rw [this]

/-- Moving the lane of the least entry on takes this entry from what is pending. -/
theorem modify_advance (A : List (Nat × Lane)) (n : Nat) (l : Lane) (B : List (Nat × Lane)) :
    ((A ++ (n, l) :: B).map Prod.snd).modify A.length (Lane.advance start) =
      (A ++ (n, l.advance start) :: B).map Prod.snd := by
  induction A with
  | nil => rfl
  | cons a A ih => simpa using ih

variable {stop : Option Time}

/-- What is pending up to the stop, by time and lane. -/
def due (ls : List (Nat × Lane)) (stop : Option Time) : List (Nat × Entry) :=
  ((pending ls).filter fun x => stop.all fun e => x.2.time ≤ e).mergeSort noLater

/-- A head past the stop is followed by nothing that is due. -/
theorem due_eq_nil {ls : List (Nat × Lane)} {e : Entry}
    (hleast : ∀ x ∈ pending ls, e.time ≤ x.2.time) (hstop : stop.any fun s => s < e.time) :
    due ls stop = [] := by
  cases stop with
  | none => simp at hstop
  | some s =>
    rw [Option.any_some, decide_eq_true_eq] at hstop
    have : ((pending ls).filter fun x => (some s).all fun e => x.2.time ≤ e) = [] := by
      refine List.filter_eq_nil_iff.2 fun x hx => ?_
      rw [Option.all_some, decide_eq_true_eq]
      exact fun h => Nat.not_le_of_lt hstop (Nat.le_trans (hleast x hx) h)
    rw [due, this, List.mergeSort_nil]

section Step

variable {A B : List (Nat × Lane)} {n : Nat} {l : Lane} {e : Entry}

/-- All that is pending, with the head of one lane in its place. -/
theorem pending_split (hr : l.Ready start) (he : l.head = some e) :
    pending (A ++ (n, l) :: B) =
      pending A ++ (n, e) :: pending ((n, l.advance start) :: B) := by
  have hcons : pending ((n, l) :: B) = (n, e) :: pending ((n, l.advance start) :: B) := by
    simp [pending, hr.pending_advance he]
  rw [pending_append, hcons]

theorem time_le_of_least (hA : ∀ x ∈ pending A, rank (n, e) < rank x)
    (hB : ∀ x ∈ pending ((n, l) :: B), rank (n, e) ≤ rank x) :
    ∀ x ∈ pending (A ++ (n, l) :: B), e.time ≤ x.2.time := by
  intro x hx
  have hle : rank (n, e) ≤ rank x := by
    rw [pending_append, List.mem_append] at hx
    rcases hx with hx | hx
    · exact (hA x hx).le
    · exact hB x hx
  rcases rank_le.1 hle with h | h
  · exact Nat.le_of_lt h
  · exact Nat.le_of_eq (congrArg Time.rank h.1)

/-- The least head is due before all others, if it is not past the stop. -/
theorem due_least (hr : l.Ready start) (he : l.head = some e)
    (hA : ∀ x ∈ pending A, rank (n, e) < rank x)
    (hB : ∀ x ∈ pending ((n, l) :: B), rank (n, e) ≤ rank x)
    (hstop : ¬(stop.any fun s => s < e.time) = true) :
    due (A ++ (n, l) :: B) stop = (n, e) :: due (A ++ (n, l.advance start) :: B) stop := by
  have hkeep : (stop.all fun s => e.time ≤ s) = true := by
    cases stop with
    | none => rfl
    | some s =>
      rw [Option.any_some, decide_eq_true_eq] at hstop
      rw [Option.all_some, decide_eq_true_eq]
      exact Nat.le_of_not_lt hstop
  have hB' : ∀ x ∈ pending ((n, l.advance start) :: B), rank (n, e) ≤ rank x := by
    intro x hx
    refine hB x ?_
    have hcons := pending_split (A := []) (n := n) (B := B) hr he
    rw [List.nil_append] at hcons
    rw [hcons]
    exact List.mem_cons_of_mem _ hx
  rw [due, pending_split hr he, List.filter_append, List.filter_cons, if_pos hkeep,
    noLater_byKey.mergeSort_least, due, pending_append, List.filter_append]
  · exact fun x hx => hA x (List.mem_filter.1 hx).1
  · exact fun x hx => hB' x (List.mem_filter.1 hx).1

/-- The lanes stay ready when one of them moves on. -/
theorem ready_step (hr : ∀ x ∈ A ++ (n, l) :: B, x.2.Ready start) (he : l.head = some e) :
    ∀ x ∈ A ++ (n, l.advance start) :: B, x.2.Ready start := by
  intro x hx
  rcases List.mem_append.1 hx with hx | hx
  · exact hr x (List.mem_append_left _ hx)
  · rcases List.mem_cons.1 hx with rfl | hx
    · exact (hr (n, l) (by simp)).advance he
    · exact hr x (List.mem_append_right _ (List.mem_cons_of_mem _ hx))

end Step

/-- **One step**: either nothing is due and the merge ends, or the first entry that is due is
    given and the others stay. -/
theorem next_running {ls : List (Nat × Lane)} (hn : ls.Pairwise (·.1 < ·.1))
    (hr : ∀ l ∈ ls, l.2.Ready start) (stop : Option Time) :
    (due ls stop = [] ∧ next ⟨ls.map Prod.snd, start, stop, .running⟩ =
      (none, ⟨ls.map Prod.snd, start, stop, .finished⟩)) ∨
    ∃ n e ls', ls'.Pairwise (·.1 < ·.1) ∧ (∀ l ∈ ls', l.2.Ready start) ∧
      due ls stop = (n, e) :: due ls' stop ∧
      next ⟨ls.map Prod.snd, start, stop, .running⟩ =
        (some e, ⟨ls'.map Prod.snd, start, stop, .running⟩) := by
  rw [next, prime, if_neg (by simp), if_neg (by simp)]
  cases hl : leastFrom 0 (ls.map Prod.snd) with
  | none => exact .inl ⟨by simp [due, pending_eq_nil hr hl], rfl⟩
  | some je =>
    obtain ⟨j, e⟩ := je
    obtain ⟨A, n, l, B, rfl, rfl, he, hA, hB⟩ := leastFrom_eq_some hn hr hl
    by_cases hstop : stop.any fun s => s < e.time
    · -- the least head is past the stop, hence so is all that is pending
      exact .inl ⟨due_eq_nil (time_le_of_least hA hB) hstop, by simp only [if_pos hstop]⟩
    · refine .inr ⟨n, e, A ++ (n, l.advance start) :: B, ?_, ready_step hr he,
        due_least (hr (n, l) (by simp)) he hA hB hstop, ?_⟩
      · simpa [List.pairwise_append, List.pairwise_cons] using hn
      · simp only [if_neg hstop, Nat.zero_add, modify_advance]

/-- **Many steps**: a merge gives what is due, in order, and then nothing more. -/
theorem take_running : ∀ (k : Nat) {ls : List (Nat × Lane)}, ls.Pairwise (·.1 < ·.1) →
    (∀ l ∈ ls, l.2.Ready start) → take k ⟨ls.map Prod.snd, start, stop, .running⟩ =
      ((due ls stop).map Prod.snd).take k
  | 0, _, _, _ => by rw [take, List.take_zero]
  | k + 1, ls, hn, hr => by
    rcases next_running hn hr stop with ⟨hd, h⟩ | ⟨n, e, ls', hn', hr', hd, h⟩
    · rw [take, h, hd, List.map_nil, List.take_nil]
    · simp only [take, h]
      rw [hd, List.map_cons, List.take_succ_cons, take_running k hn' hr']

/-! ## Merging sorted lists -/

/-- The lanes of numbered lists, each with its head. -/
def primed (inputs : List (Nat × List Entry)) (start : Option Time) : List (Nat × Lane) :=
  inputs.map fun x => (x.1, (Lane.ofList x.2).advance start)

/-- The entries of numbered inputs, each with the number of its input. -/
def numbered (inputs : List (Nat × List Entry)) : List (Nat × Entry) :=
  inputs.flatMap fun x => x.2.map (x.1, ·)

/-- What is due at first is all that is within the bounds. -/
theorem due_primed {inputs : List (Nat × List Entry)} (hs : ∀ x ∈ inputs, Entry.Sorted x.2)
    (start stop : Option Time) : due (primed inputs start) stop =
      ((numbered inputs).filter fun x => inBounds start stop x.2.time).mergeSort noLater := by
  have hp : pending (primed inputs start) =
      (numbered inputs).filter fun x => !Lane.isEarly start x.2 := by
    rw [pending, primed, numbered, List.flatMap_map, List.filter_flatMap]
    refine List.flatMap_congr fun x hx => ?_
    rw [Lane.pending_advance start (hs x hx), List.filter_map]
    rfl
  have hb : ∀ t : Time, inBounds start stop t =
      ((stop.all fun e => t ≤ e) && !start.any fun s => t < s) := by
    intro t
    rw [inBounds, Bool.and_comm]
    cases start with
    | none => rfl
    | some s => simp [Time.le_iff_not_lt]
  rw [due, hp, List.filter_filter]
  simp only [hb, Lane.isEarly]

theorem prime_ofLists (inputs : List (Nat × List Entry)) (start stop : Option Time) :
    prime (ofLists (inputs.map Prod.snd) start stop) =
      ⟨(primed inputs start).map Prod.snd, start, stop, .running⟩ := by
  simp [prime, ofLists, primed, Function.comp_def]

theorem pairwise_primed {inputs : List (Nat × List Entry)} (hn : inputs.Pairwise (·.1 < ·.1))
    (start : Option Time) : (primed inputs start).Pairwise (·.1 < ·.1) := by
  rw [primed, List.pairwise_map]
  exact hn

theorem ready_primed {inputs : List (Nat × List Entry)} (hs : ∀ x ∈ inputs, Entry.Sorted x.2)
    (start : Option Time) : ∀ l ∈ primed inputs start, l.2.Ready start := by
  intro l hl
  obtain ⟨x, hx, rfl⟩ := List.mem_map.1 hl
  exact Lane.ready_advance start (hs x hx)

/-- **A merge of sorted lists gives all entries within its bounds, by time and number**, and then
    nothing more. -/
theorem take_ofLists {inputs : List (Nat × List Entry)} (hn : inputs.Pairwise (·.1 < ·.1))
    (hs : ∀ x ∈ inputs, Entry.Sorted x.2) (start stop : Option Time) (k : Nat) :
    take k (ofLists (inputs.map Prod.snd) start stop) = (sorted inputs start stop).take k := by
  have htake : take k (ofLists (inputs.map Prod.snd) start stop) =
      take k ⟨(primed inputs start).map Prod.snd, start, stop, .running⟩ := by
    cases k with
    | zero => rfl
    | succ k => rw [← prime_ofLists, take, take, next_prime]
  rw [htake, take_running k (pairwise_primed hn start) (ready_primed hs start), due_primed hs,
    sorted, numbered]

theorem length_sorted_le (inputs : List (Nat × List Entry)) (start stop : Option Time) :
    (sorted inputs start stop).length ≤ (ofLists (inputs.map Prod.snd) start stop).size := by
  rw [sorted, List.length_map, List.length_mergeSort]
  refine (List.length_filter_le _ _).trans (Nat.le_of_eq ?_)
  simp [size, ofLists, Lane.ofList, List.length_flatMap, Function.comp_def]

theorem toList_ofLists {inputs : List (Nat × List Entry)} (hn : inputs.Pairwise (·.1 < ·.1))
    (hs : ∀ x ∈ inputs, Entry.Sorted x.2) (start stop : Option Time) :
    (ofLists (inputs.map Prod.snd) start stop).toList = sorted inputs start stop := by
  rw [toList, take_ofLists hn hs, List.take_of_length_le (length_sorted_le inputs start stop)]

end Merge

end BagFile
