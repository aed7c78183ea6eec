/-
  What a merge takes from its inputs, and when.

  * `Merge.upcoming` is the entry that the next call gives, with the number of its input, and
    `Merge.given` are those that some calls give;
  * `Lane.Draws` is the invariant of a lane: it is fresh, or it holds back one entry, or its input
    has run dry.  `Lane.draws_advance` is the step of a lane, `Merge.Draws.next` the step of a
    merge and `Merge.Draws.after` its run, for inputs that need not be sorted;
  * `Merge.draws_lazily`: so no input is asked for more than what was passed over, what was given
    and one entry besides, none is asked again after it has run dry, and nothing is taken after
    the end of the merge or behind an entry past the stop.
-/
import BagFile.Proofs.Draining
import Mathlib.Data.List.TakeWhile

namespace BagFile

/-! ## Lanes -/

namespace Lane

variable {start stop : Option Time} {es past : List Entry} {l : Lane}

/-- Whether an entry is past the stop. -/
def isPast (stop : Option Time) (e : Entry) : Bool := stop.any fun s => s < e.time

/-- The entries that a lane has taken from its input, which has been asked for each of them. -/
def taken (l : Lane) (es : List Entry) : List Entry := es.take l.asked

/-- Where a lane of an input stands when `gs` were given of it: nothing has been taken, or the
    entry taken last is held back, or the input has said that it has run dry. -/
inductive Draws (start : Option Time) (es gs : List Entry) (l : Lane) : Prop
  | fresh : l = ofList es → gs = [] → Draws start es gs l
  | holding (past : List Entry) (e : Entry) : es = past ++ e :: l.rest → l.head = some e →
      l.asked = past.length + 1 → isEarly start e = false →
      past.filter (fun e => !isEarly start e) = gs → Draws start es gs l
  | dry : l.head = none → l.rest = [] → l.asked = es.length + 1 →
      es.filter (fun e => !isEarly start e) = gs → Draws start es gs l

theorem filter_takeWhile_isEarly (start : Option Time) (es : List Entry) :
    (es.takeWhile (isEarly start)).filter (fun e => !isEarly start e) = [] := by
  refine List.filter_eq_nil_iff.2 fun e he => ?_
  simpa using List.mem_takeWhile_imp he

/-- **A lane takes what it passes over, and one entry besides**, or its input runs dry. -/
theorem draws_advance (hes : es = past ++ l.rest) (hasked : l.asked = past.length) :
    (l.advance start).Draws start es (past.filter fun e => !isEarly start e) := by
  have hsplit : l.rest.takeWhile (isEarly start) ++ l.rest.dropWhile (isEarly start) = l.rest :=
    List.takeWhile_append_dropWhile
  have hpassed : (past ++ l.rest.takeWhile (isEarly start)).filter (fun e => !isEarly start e) =
      past.filter fun e => !isEarly start e := by
    rw [List.filter_append, filter_takeWhile_isEarly, List.append_nil]
  rcases hkept : l.rest.dropWhile (isEarly start) with - | ⟨e, kept⟩
  · rw [hkept, List.append_nil] at hsplit
    refine .dry (by rw [advance, hkept]; rfl) (by rw [advance, hkept]; rfl) ?_ ?_
    · rw [hes, advance, hsplit, hasked, List.length_append]
    · rw [← hpassed, hsplit, hes]
  · rw [hkept] at hsplit
    refine .holding (past ++ l.rest.takeWhile (isEarly start)) e ?_ (by rw [advance, hkept]; rfl)
      ?_ ?_ hpassed
    · rw [List.append_assoc, advance, hkept, List.tail_cons, hsplit, hes]
    · rw [advance, hasked, List.length_append]
    · have hhead := List.head?_dropWhile_not (isEarly start) l.rest
      rw [hkept] at hhead
      simpa using hhead

theorem asked_lt_advance (start : Option Time) (l : Lane) : l.asked < (l.advance start).asked :=
  Nat.lt_succ_of_le (Nat.le_add_right _ _)

/-- What a lane may have taken of an input `es`, if `gs` were given of it. -/
structure Lazy (start stop : Option Time) (es gs : List Entry) (l : Lane) : Prop where
  /-- one entry is taken for each time that the input is asked, and the others are left -/
  rest : l.rest = es.drop l.asked
  /-- what is taken and not passed over has been given, or is held back -/
  kept : (l.taken es).filter (fun e => !isEarly start e) = gs ++ l.head.toList
  /-- so it is what was passed over, what was given, and one entry at most -/
  length_taken_le :
    (l.taken es).length ≤ ((l.taken es).filter (isEarly start)).length + gs.length + 1
  /-- to be asked once more than it has entries is to say that there are no more, and nothing is
      asked after that -/
  asked_le : l.asked ≤ es.length + 1
  /-- nothing is taken behind an entry that is past the stop and not passed over -/
  stopped : ∀ before e behind, es = before ++ e :: behind → isPast stop e →
    isEarly start e = false → (l.taken es).length ≤ before.length + 1

namespace Draws

variable {gs : List Entry} {e : Entry}

/-- A lane gives the entry that it holds back, and takes the next. -/
theorem give (h : l.Draws start es gs) (he : l.head = some e) :
    (l.advance start).Draws start es (gs ++ [e]) := by
  cases h with
  | fresh hl =>
    subst hl
    cases he
  | holding past e' hes hhead hasked hearly hgs =>
    obtain rfl : e' = e := Option.some.inj (hhead.symm.trans he)
    have hadvance : (l.advance start).Draws start es
        ((past ++ [e']).filter fun e => !isEarly start e) :=
      draws_advance (by rw [hes, List.append_assoc]; rfl)
        (by rw [hasked, List.length_append, List.length_singleton])
    rwa [List.filter_append, hgs, List.filter_singleton, hearly] at hadvance
  | dry hhead =>
    rw [hhead] at he
    cases he

theorem rest (h : l.Draws start es gs) : l.rest = es.drop l.asked := by
  cases h with
  | fresh hl =>
    subst hl
    rfl
  | holding past e hes _ hasked =>
    rw [hasked, hes, ← List.drop_drop, List.drop_left]
    rfl
  | dry _ hrest hasked => rw [hasked, hrest, List.drop_eq_nil_of_le (Nat.le_succ _)]

theorem kept (h : l.Draws start es gs) :
    (l.taken es).filter (fun e => !isEarly start e) = gs ++ l.head.toList := by
  cases h with
  | fresh hl hgs =>
    subst hl hgs
    rfl
  | holding past e hes hhead hasked hearly hgs =>
    have htaken : l.taken es = past ++ [e] := by
      rw [taken, hasked, hes, List.take_length_add_append]
      rfl
    rw [htaken, List.filter_append, hgs, hhead, List.filter_singleton, hearly]
    rfl
  | dry hhead _ hasked hgs =>
    rw [taken, hasked, List.take_of_length_le (Nat.le_succ _), hgs, hhead, Option.toList_none,
      List.append_nil]

theorem asked_le (h : l.Draws start es gs) : l.asked ≤ es.length + 1 := by
  cases h with
  | fresh hl =>
    subst hl
    exact Nat.zero_le _
  | holding past e hes _ hasked =>
    rw [hasked, hes, List.length_append]
    omega
  | dry _ _ hasked => exact Nat.le_of_eq hasked

/-- Behind an entry that can neither be passed over nor given, nothing is taken. -/
theorem asked_le_of_mem (h : l.Draws start es gs) {before behind : List Entry}
    (hes : es = before ++ e :: behind) (hearly : isEarly start e = false) (he : e ∉ gs) :
    l.asked ≤ before.length + 1 := by
  cases h with
  | fresh hl =>
    subst hl
    exact Nat.zero_le _
  | holding past e' hes' _ hasked _ hgs =>
    refine Nat.le_of_not_lt fun hlt => he ?_
    have hpast : past[before.length]? = some e := by
      rw [← List.getElem?_append_left (by omega), ← hes', hes]
      simp
    rw [← hgs, List.mem_filter]
    exact ⟨List.mem_of_getElem? hpast, by simp [hearly]⟩
  | dry _ _ _ hgs =>
    refine absurd ?_ he
    rw [← hgs, List.mem_filter, hes]
    exact ⟨by simp, by simp [hearly]⟩

theorem lazy (h : l.Draws start es gs) (hgs : ∀ e ∈ gs, isPast stop e = false) :
    l.Lazy start stop es gs where
  rest := h.rest
  kept := h.kept
  length_taken_le := by
    have hhead : l.head.toList.length ≤ 1 := by cases l.head <;> simp
    have hlength := congrArg List.length h.kept
    rw [List.length_append, ← List.countP_eq_length_filter] at hlength
    rw [List.length_eq_countP_add_countP (isEarly start), ← List.countP_eq_length_filter]
    simp only [Bool.not_eq_true, Bool.decide_eq_false] at *
    omega
  asked_le := h.asked_le
  stopped := by
    intro before e behind hes hpast hearly
    have he : e ∉ gs := fun he => by
      rw [hgs e he] at hpast
      cases hpast
    exact (List.length_take_le _ _).trans (h.asked_le_of_mem hes hearly he)

end Draws

end Lane

/-! ## Merges -/

namespace Merge

/-- The entry that the next call gives, with the number of its input. -/
def upcoming (m : Merge) : Option (Nat × Entry) :=
  let m := m.prime
  if m.phase = .finished then none
  else (leastFrom 0 m.lanes).filter fun x => !Lane.isPast m.stop x.2

/-- The entries that some calls give, each with the number of its input. -/
def given : Nat → Merge → List (Nat × Entry)
  | 0, _ => []
  | k + 1, m => m.upcoming.toList ++ given k m.next.2

theorem next_of_upcoming {m : Merge} {i : Nat} {e : Entry} (h : m.upcoming = some (i, e)) :
    m.next = (some e,
        { m.prime with lanes := m.prime.lanes.modify i (Lane.advance m.prime.start) }) ∧
      leastFrom 0 m.prime.lanes = some (i, e) ∧ Lane.isPast m.prime.stop e = false := by
  rw [upcoming] at h
  split at h
  · cases h
  · next hphase =>
    obtain ⟨hleast, hpast⟩ := Option.filter_eq_some_iff.1 h
    have hstop : ¬Lane.isPast m.prime.stop e := by simpa using hpast
    refine ⟨?_, hleast, Bool.eq_false_iff.2 hstop⟩
    rw [Lane.isPast] at hstop
    rw [next]
    simp only [if_neg hphase, hleast, if_neg hstop]

theorem next_of_upcoming_none {m : Merge} (h : m.upcoming = none) :
    m.next = (none, { m.prime with phase := .finished }) := by
  rw [upcoming] at h
  rw [next]
  split at h
  · next hphase =>
    rw [if_pos hphase]
    simp only [← hphase]
  · next hphase =>
    simp only [if_neg hphase]
    rcases hleast : leastFrom 0 m.prime.lanes with - | ⟨i, e⟩
    · rfl
    · rw [hleast] at h
      have hpast : Lane.isPast m.prime.stop e = true := by simpa [Option.filter] using h
      simp only [Lane.isPast] at hpast
      simp only [if_pos hpast]

/-- The head of a lane with the least head is the entry that is found. -/
theorem getElem?_of_leastFrom : ∀ {ls : List Lane} {i j : Nat} {e : Entry},
    leastFrom i ls = some (j, e) → ∃ k l, j = i + k ∧ ls[k]? = some l ∧ l.head = some e
  | [], _, _, _, h => by cases h
  | l :: ls, i, j, e, h => by
    have hbehind {j : Nat} {f : Entry} (h : leastFrom (i + 1) ls = some (j, f)) :
        ∃ k l', j = i + k ∧ (l :: ls)[k]? = some l' ∧ l'.head = some f := by
      obtain ⟨k, l', hj, hl, hhead⟩ := getElem?_of_leastFrom h
      exact ⟨k + 1, l', by omega, by rwa [List.getElem?_cons_succ], hhead⟩
    have hfront {f : Entry} (hf : l.head = some f) :
        ∃ k l', i = i + k ∧ (l :: ls)[k]? = some l' ∧ l'.head = some f :=
      ⟨0, l, rfl, rfl, hf⟩
    rw [leastFrom] at h
    split at h
    · exact hbehind h
    · next f hf _ =>
      cases h
      exact hfront hf
    · next f _ _ hf hleast =>
      split at h
      · cases h
        exact hfront hf
      · cases h
        exact hbehind hleast

/-! ### Calls -/

theorem after_add : ∀ (k n : Nat) (m : Merge), after (k + n) m = after n (after k m)
  | 0, n, m => by rw [Nat.zero_add, after]
  | k + 1, n, m => by
    rw [Nat.add_right_comm, after, after]
    exact after_add k n m.next.2

theorem after_finished : ∀ (k : Nat) {m : Merge}, m.phase = .finished → after k m = m
  | 0, _, _ => rfl
  | k + 1, m, h => by
    have hnext : m.next = (none, m) := next_after_finished 0 h
    rw [after, hnext]
    exact after_finished k h

theorem next_fst (m : Merge) : m.next.1 = m.upcoming.map Prod.snd := by
  rcases hup : m.upcoming with - | ⟨i, e⟩
  · rw [next_of_upcoming_none hup]
    rfl
  · rw [(next_of_upcoming hup).1]
    rfl

/-- A merge that has nothing to give has ended. -/
theorem phase_of_next_none {m : Merge} (h : m.next.1 = none) : m.next.2.phase = .finished := by
  rw [next_fst, Option.map_eq_none_iff] at h
  rw [next_of_upcoming_none h]

/-- What some calls give, one after the other. -/
theorem map_snd_given : ∀ (k : Nat) (m : Merge), (given k m).map Prod.snd =
    (List.range k).filterMap fun j => (after j m).next.1
  | 0, _ => rfl
  | k + 1, m => by
    have hfirst : m.upcoming.toList.map Prod.snd = m.next.1.toList := by
      rw [next_fst]
      cases m.upcoming <;> rfl
    rw [given, List.map_append, hfirst, map_snd_given k, List.range_succ_eq_map,
      List.filterMap_cons, List.filterMap_map, after]
    cases m.next.1 <;> rfl

/-- A lane is asked more and more. -/
theorem asked_next_le {m : Merge} {i : Nat} {l : Lane} (hl : m.lanes[i]? = some l) :
    ∃ l', m.next.2.lanes[i]? = some l' ∧ l.asked ≤ l'.asked := by
  have hprime : ∃ l', m.prime.lanes[i]? = some l' ∧ l.asked ≤ l'.asked := by
    unfold prime
    split
    · exact ⟨_, by rw [List.getElem?_map, hl]; rfl, (l.asked_lt_advance _).le⟩
    · exact ⟨l, hl, le_rfl⟩
  obtain ⟨l', hl', hle⟩ := hprime
  rcases hup : m.upcoming with - | ⟨j, e⟩
  · rw [next_of_upcoming_none hup]
    exact ⟨l', hl', hle⟩
  · rw [(next_of_upcoming hup).1]
    by_cases hj : j = i
    · subst hj
      exact ⟨_, by rw [List.getElem?_modify_eq, hl']; rfl, hle.trans (l'.asked_lt_advance _).le⟩
    · exact ⟨l', by rwa [List.getElem?_modify_ne _ _ hj], hle⟩

theorem asked_after_le : ∀ (k : Nat) {m : Merge} {i : Nat} {l : Lane}, m.lanes[i]? = some l →
    ∃ l', (after k m).lanes[i]? = some l' ∧ l.asked ≤ l'.asked
  | 0, _, _, l, hl => ⟨l, hl, le_rfl⟩
  | k + 1, _, _, _, hl => by
    obtain ⟨l₁, hl₁, hle₁⟩ := asked_next_le hl
    obtain ⟨l₂, hl₂, hle₂⟩ := asked_after_le k hl₁
    exact ⟨l₂, hl₂, hle₁.trans hle₂⟩

/-! ### What is taken -/

/-- Where a merge stands when it has given some entries, each with the number of its input. -/
structure Draws (inputs : List (List Entry)) (start stop : Option Time) (m : Merge)
    (xs : List (Nat × Entry)) : Prop where
  bounds : m.start = start ∧ m.stop = stop
  length : m.lanes.length = inputs.length
  lanes : ∀ (i : Nat) (es : List Entry) (l : Lane), inputs[i]? = some es →
    m.lanes[i]? = some l → l.Draws start es ((xs.filter (·.1 = i)).map Prod.snd)
  /-- no entry past the stop was given -/
  within : ∀ x ∈ xs, Lane.isPast stop x.2 = false
  /-- nothing is taken before the first call -/
  waiting : m.phase = .waiting → m = ofLists inputs start stop ∧ xs = []

namespace Draws

variable {inputs : List (List Entry)} {start stop : Option Time} {m : Merge}
  {xs : List (Nat × Entry)}

theorem ofLists (inputs : List (List Entry)) (start stop : Option Time) :
    Draws inputs start stop (ofLists inputs start stop) [] where
  bounds := ⟨rfl, rfl⟩
  length := List.length_map _
  lanes := by
    intro i es l hes hl
    rw [Merge.ofLists, List.getElem?_map, hes] at hl
    cases hl
    exact .fresh rfl rfl
  within := by simp
  waiting _ := ⟨rfl, rfl⟩

theorem prime (h : Draws inputs start stop m xs) : Draws inputs start stop m.prime xs := by
  by_cases hphase : m.phase = .waiting
  · obtain ⟨rfl, rfl⟩ := h.waiting hphase
    rw [Merge.prime, if_pos hphase]
    refine ⟨⟨rfl, rfl⟩, by simpa using h.length, ?_, h.within, by rintro ⟨⟩⟩
    intro i es l hes hl
    rw [Merge.ofLists, List.map_map, List.getElem?_map, hes] at hl
    cases hl
    have hnone : es = [] ++ (Lane.ofList es).rest := rfl
    exact Lane.draws_advance hnone rfl
  · rwa [Merge.prime, if_neg hphase]

theorem phase_prime (m : Merge) : m.prime.phase ≠ .waiting := by
  unfold Merge.prime
  split
  · rintro ⟨⟩
  · assumption

/-- **One call**: what it gives comes from the lane that takes the next entry. -/
theorem next (h : Draws inputs start stop m xs) :
    Draws inputs start stop m.next.2 (xs ++ m.upcoming.toList) := by
  have hp := h.prime
  rcases hup : m.upcoming with - | ⟨i, e⟩
  · rw [next_of_upcoming_none hup, Option.toList_none, List.append_nil]
    exact ⟨hp.bounds, hp.length, hp.lanes, hp.within, by rintro ⟨⟩⟩
  · obtain ⟨hnext, hleast, hpast⟩ := next_of_upcoming hup
    obtain ⟨k, l, hk, hl, hhead⟩ := getElem?_of_leastFrom hleast
    obtain rfl : i = k := hk.trans (Nat.zero_add k)
    rw [hnext, Option.toList_some]
    refine ⟨hp.bounds, (List.length_modify _ _ _).trans hp.length, ?_, ?_,
      fun hphase => absurd hphase (phase_prime m)⟩
    · intro j es l' hes hl'
      replace hl' : (m.prime.lanes.modify i (Lane.advance m.prime.start))[j]? = some l' := hl'
      rw [List.filter_append, List.map_append]
      by_cases hj : i = j
      · subst hj
        rw [List.getElem?_modify_eq, hl, hp.bounds.1] at hl'
        cases hl'
        simpa using (hp.lanes i es l hes hl).give hhead
      · rw [List.getElem?_modify_ne _ _ hj] at hl'
        simpa [hj] using hp.lanes j es l' hes hl'
    · intro x hx
      rcases List.mem_append.1 hx with hx | hx
      · exact h.within x hx
      · rw [List.mem_singleton.1 hx, ← hp.bounds.2]
        exact hpast

/-- **Many calls.** -/
theorem after (k : Nat) (h : Draws inputs start stop m xs) :
    Draws inputs start stop (Merge.after k m) (xs ++ given k m) := by
  induction k generalizing m xs with
  | zero => rwa [given, List.append_nil]
  | succ k ih =>
    rw [given, ← List.append_assoc]
    exact ih h.next

/-- Every input has its lane. -/
theorem exists_lane (h : Draws inputs start stop m xs) {i : Nat} {es : List Entry}
    (hes : inputs[i]? = some es) :
    ∃ l, m.lanes[i]? = some l ∧
      l.Lazy start stop es ((xs.filter (·.1 = i)).map Prod.snd) := by
  have hi : i < m.lanes.length := h.length ▸ (List.getElem?_eq_some_iff.1 hes).1
  refine ⟨_, List.getElem?_eq_getElem hi,
    (h.lanes i es _ hes (List.getElem?_eq_getElem hi)).lazy fun e he => ?_⟩
  obtain ⟨x, hx, rfl⟩ := List.mem_map.1 he
  exact h.within x (List.mem_filter.1 hx).1

end Draws

/-- **A merge takes no more from its inputs than it needs**, whether they are sorted or not.
    Nothing is taken before the first call.  After any number of calls an input has been asked for
    what was passed over and what was given of it, and for one entry besides; it is not asked again
    once it has run dry, nor behind an entry past the stop.  A call that gives nothing is the last
    one that does anything. -/
theorem draws_lazily (inputs : List (List Entry)) (start stop : Option Time) :
    let m := ofLists inputs start stop
    (∀ l ∈ m.lanes, l.asked = 0) ∧
    (∀ k, (given k m).map Prod.snd = (List.range k).filterMap fun j => (after j m).next.1) ∧
    (∀ (k i : Nat) (es : List Entry), inputs[i]? = some es → ∃ l, (after k m).lanes[i]? = some l ∧
      l.Lazy start stop es (((given k m).filter (·.1 = i)).map Prod.snd) ∧
      (es.length < l.asked → ∀ n, ∃ l', (after (k + n) m).lanes[i]? = some l' ∧
        l'.asked = l.asked)) ∧
    ∀ k, (after k m).next.1 = none → ∀ n, (after (k + n) m).next.1 = none ∧
      after (k + 1 + n) m = after (k + 1) m := by
  have hdraws (k : Nat) := (Draws.ofLists inputs start stop).after k
  refine ⟨?_, fun k => map_snd_given k _, fun k i es hes => ?_, fun k hnone n => ?_⟩
  · intro l hl
    obtain ⟨es, -, rfl⟩ := List.mem_map.1 hl
    rfl
  · obtain ⟨l, hl, hlazy⟩ := (hdraws k).exists_lane hes
    refine ⟨l, hl, hlazy, fun hdry n => ?_⟩
    -- an input that has run dry has been asked as often as it ever is
    obtain ⟨l', hl', hle⟩ := asked_after_le n hl
    rw [← after_add] at hl'
    obtain ⟨l'', hl'', hlazy'⟩ := (hdraws (k + n)).exists_lane hes
    obtain rfl : l'' = l' := Option.some.inj (hl''.symm.trans hl')
    have hmost := hlazy'.asked_le
    exact ⟨l'', hl', by omega⟩
  · have hsucc : after (k + 1) (ofLists inputs start stop) =
        (after k (ofLists inputs start stop)).next.2 := by
      rw [after_add]
      rfl
    have hended : (after (k + 1) (ofLists inputs start stop)).phase = .finished := by
      rw [hsucc]
      exact phase_of_next_none hnone
    refine ⟨?_, by rw [after_add, after_finished n hended]⟩
    cases n with
    | zero => exact hnone
    | succ n =>
      rw [← Nat.add_assoc, Nat.add_right_comm, after_add, next_after_finished n hended]

/-- An input out of order and one that runs dry: after two calls the first has been asked for what
    it holds back, and the second has said that there is no more. -/
example : (after 2 (ofLists [[⟨⟨1, 0⟩, 0, 1⟩, ⟨⟨6, 0⟩, 0, 2⟩, ⟨⟨3, 0⟩, 0, 3⟩], [⟨⟨4, 0⟩, 0, 4⟩]]
    (some ⟨2, 0⟩) none)).lanes.map Lane.asked = [3, 2] := by
  decide

end Merge

end BagFile
