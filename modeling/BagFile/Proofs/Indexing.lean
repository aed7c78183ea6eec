/-
  The index that is put together entry by entry is the one that its entries should have.

  * `Draft.change` changes the list of one connection and no other (`listOf_change`), and the
    connections stay ascending;
  * `Draft.Tracks`: a draft has, latest first, the entries of each connection among the rows that
    were pushed.  Registering and pushing keep that (`Tracks.register`, `Tracks.push`);
  * `Index.build_eq`: so the index of a draft is `Index.ofRows` of the rows, whatever connections
    were registered and whichever lists had to be sorted.
-/
import BagFile.Index
import BagFile.Proofs.StableSort

namespace BagFile

/-! ## Entries in order of time -/

theorem Entry.sort_byKey :
    ByKey (fun a b : Entry => decide (a.time ≤ b.time)) fun e => e.time.rank := by
  intro a b
  rw [decide_eq_true_eq]
  exact Iff.rfl

theorem Entry.sort_eq_nil_iff {es : List Entry} : Entry.sort es = [] ↔ es = [] := by
  rw [Entry.sort, ← List.length_eq_zero_iff, List.length_mergeSort, List.length_eq_zero_iff]

theorem Index.entriesOf_eq_nil_iff {rows : List (UInt32 × Entry)} {conn : UInt32} :
    entriesOf conn rows = [] ↔ conn ∉ rows.map Prod.fst := by
  rw [entriesOf, List.map_eq_nil_iff, List.filter_eq_nil_iff]
  constructor
  · intro h hc
    obtain ⟨x, hx, rfl⟩ := List.mem_map.1 hc
    exact h x hx (by simp)
  · intro h x hx he
    rw [decide_eq_true_eq] at he
    exact h (he ▸ List.mem_map_of_mem hx)

namespace Draft

open Index

/-- Entries of which no two neighbours are out of order are sorted. -/
theorem pairwise_of_inOrder : ∀ {es : List Entry}, inOrder es →
    es.Pairwise fun a b => a.time ≤ b.time
  | [], _ => List.Pairwise.nil
  | [e], _ => List.pairwise_singleton _ e
  | e :: f :: es, h => by
    rw [inOrder, Bool.and_eq_true, decide_eq_true_eq] at h
    have hrest := pairwise_of_inOrder h.2
    refine List.pairwise_cons.2 ⟨fun g hg => ?_, hrest⟩
    rcases List.mem_cons.1 hg with rfl | hg
    · exact h.1
    · exact Nat.le_trans h.1 (List.rel_of_pairwise_cons hrest hg)

/-- **Sorting only what is out of order is sorting.** -/
theorem settle_eq (es : List Entry) : settle es = Entry.sort es := by
  unfold settle
  split
  · next h =>
    refine (List.mergeSort_of_pairwise ?_).symm
    refine (pairwise_of_inOrder h).imp ?_
    intro a b hab
    exact decide_eq_true hab
  · rfl

/-! ## Changing one list -/

/-- Connections in ascending order, each once. -/
def Ascending (ls : List (UInt32 × List Entry)) : Prop := ls.Pairwise fun a b => a.1 < b.1

/-- The list of a connection, empty if it has none. -/
def listOf (ls : List (UInt32 × List Entry)) (conn : UInt32) : List Entry :=
  ((ls.find? (·.1 = conn)).map Prod.snd).getD []

variable {ls : List (UInt32 × List Entry)} {conn c : UInt32} {f : List Entry → List Entry}

theorem listOf_cons (l : UInt32 × List Entry) (ls : List (UInt32 × List Entry)) (conn : UInt32) :
    listOf (l :: ls) conn = if l.1 = conn then l.2 else listOf ls conn := by
  by_cases h : l.1 = conn
  · simp [listOf, h]
  · simp [listOf, h]

theorem listOf_eq_nil (h : ∀ l ∈ ls, l.1 ≠ conn) : listOf ls conn = [] := by
  induction ls with
  | nil => rfl
  | cons l ls ih =>
    rw [listOf_cons, if_neg (h l (by simp))]
    exact ih fun l' hl' => h l' (by simp [hl'])

/-- In ascending lists each is the one of its connection. -/
theorem listOf_of_mem {l : UInt32 × List Entry} (h : Ascending ls) (hl : l ∈ ls) :
    listOf ls l.1 = l.2 := by
  induction ls with
  | nil => simp at hl
  | cons l' ls ih =>
    rw [listOf_cons]
    rcases List.mem_cons.1 hl with rfl | hl
    · rw [if_pos rfl]
    · have hlt := List.rel_of_pairwise_cons h hl
      rw [if_neg (UInt32.ne_of_lt hlt)]
      exact ih h.tail hl

theorem exists_mem_of_listOf (h : listOf ls conn ≠ []) : (conn, listOf ls conn) ∈ ls := by
  induction ls with
  | nil => exact absurd rfl h
  | cons l ls ih =>
    rw [listOf_cons] at h ⊢
    by_cases hl : l.1 = conn
    · rw [if_pos hl, ← hl]
      exact List.mem_cons_self
    · rw [if_neg hl] at h ⊢
      exact List.mem_cons_of_mem _ (ih h)

/-- A connection in front of all others has no list. -/
theorem listOf_of_lt {l : UInt32 × List Entry} (h : Ascending (l :: ls)) (hlt : conn < l.1) :
    listOf (l :: ls) conn = [] := by
  apply listOf_eq_nil
  intro l' hl'
  rcases List.mem_cons.1 hl' with rfl | hl'
  · exact (UInt32.ne_of_lt hlt).symm
  · exact (UInt32.ne_of_lt (UInt32.lt_trans hlt (List.rel_of_pairwise_cons h hl'))).symm

/-- **A change is one of a single list.** -/
theorem listOf_change (h : Ascending ls) :
    listOf (change f conn ls) c = if conn = c then f (listOf ls conn) else listOf ls c := by
  induction ls with
  | nil =>
    rw [change, listOf_cons]
    rfl
  | cons l ls ih =>
    rw [change]
    by_cases hlt : conn < l.1
    · rw [if_pos hlt, listOf_cons, listOf_of_lt h hlt]
    · rw [if_neg hlt]
      by_cases he : conn = l.1
      · subst he
        rw [if_pos rfl, listOf_cons, listOf_cons, listOf_cons, if_pos rfl]
        by_cases hc : l.1 = c
        · rw [if_pos hc, if_pos hc]
        · rw [if_neg hc, if_neg hc, if_neg hc]
      · rw [if_neg he, listOf_cons, ih h.tail, listOf_cons, listOf_cons, if_neg (Ne.symm he)]
        by_cases hc : conn = c
        · subst hc
          rw [if_neg (Ne.symm he), if_pos rfl, if_pos rfl]
        · rw [if_neg hc, if_neg hc]

theorem fst_of_mem_change {l : UInt32 × List Entry} (h : l ∈ change f conn ls) :
    l.1 = conn ∨ ∃ l' ∈ ls, l'.1 = l.1 := by
  induction ls with
  | nil =>
    rw [change, List.mem_singleton] at h
    exact .inl (by rw [h])
  | cons l' ls ih =>
    rw [change] at h
    split at h
    · rcases List.mem_cons.1 h with rfl | h
      · exact .inl rfl
      · exact .inr ⟨l, h, rfl⟩
    · split at h
      · rcases List.mem_cons.1 h with rfl | h
        · exact .inl rfl
        · exact .inr ⟨l, List.mem_cons_of_mem _ h, rfl⟩
      · rcases List.mem_cons.1 h with rfl | h
        · exact .inr ⟨l, List.mem_cons_self, rfl⟩
        · rcases ih h with h | ⟨l'', hl'', he⟩
          · exact .inl h
          · exact .inr ⟨l'', List.mem_cons_of_mem _ hl'', he⟩

/-- A changed list keeps its place, and a new one is put in its own. -/
theorem ascending_change (h : Ascending ls) : Ascending (change f conn ls) := by
  induction ls with
  | nil => exact List.pairwise_singleton _ _
  | cons l ls ih =>
    rw [change]
    by_cases hlt : conn < l.1
    · rw [if_pos hlt]
      refine List.pairwise_cons.2 ⟨fun l' hl' => ?_, h⟩
      rcases List.mem_cons.1 hl' with rfl | hl'
      · exact hlt
      · exact UInt32.lt_trans hlt (List.rel_of_pairwise_cons h hl')
    · rw [if_neg hlt]
      by_cases he : conn = l.1
      · rw [if_pos he, he]
        exact List.pairwise_cons.2 ⟨fun l' hl' => List.rel_of_pairwise_cons h hl', h.tail⟩
      · rw [if_neg he]
        refine List.pairwise_cons.2 ⟨fun l' hl' => ?_, ih h.tail⟩
        rcases fst_of_mem_change hl' with hc | ⟨l'', hl'', hc⟩
        · rw [hc]
          exact UInt32.lt_of_le_of_ne (UInt32.not_lt.1 hlt) (Ne.symm he)
        · rw [← hc]
          exact List.rel_of_pairwise_cons h hl''

/-! ## What a draft has -/

/-- A draft has the entries of each connection among some rows, latest first. -/
structure Tracks (d : Draft) (rows : List (UInt32 × Entry)) : Prop where
  ascending : Ascending d.lists
  listed : ∀ conn, listOf d.lists conn = (entriesOf conn rows).reverse

variable {d : Draft} {rows : List (UInt32 × Entry)}

theorem tracks_empty : Draft.empty.Tracks [] := ⟨List.Pairwise.nil, fun _ => rfl⟩

theorem Tracks.register (h : d.Tracks rows) (conn : UInt32) : (d.register conn).Tracks rows := by
  refine ⟨ascending_change h.ascending, fun c => ?_⟩
  rw [Draft.register, listOf_change h.ascending, ← h.listed]
  split
  · next he => rw [he, id]
  · rfl

theorem Tracks.push (h : d.Tracks rows) (row : UInt32 × Entry) :
    (d.push row).Tracks (rows ++ [row]) := by
  refine ⟨ascending_change h.ascending, fun c => ?_⟩
  rw [Draft.push, listOf_change h.ascending, h.listed, h.listed]
  by_cases hc : row.1 = c
  · subst hc
    simp [entriesOf]
  · simp [entriesOf, hc]

theorem Tracks.registerAll (h : d.Tracks rows) (conns : List UInt32) :
    (conns.foldl Draft.register d).Tracks rows := by
  induction conns generalizing d with
  | nil => exact h
  | cons conn conns ih => exact ih (h.register conn)

theorem Tracks.pushAll (h : d.Tracks rows) (more : List (UInt32 × Entry)) :
    (more.foldl Draft.push d).Tracks (rows ++ more) := by
  induction more generalizing d rows with
  | nil => rwa [List.append_nil]
  | cons row more ih =>
    have := ih (h.push row)
    rwa [List.append_assoc] at this

/-- The lists of the index are those of connections with rows, each the rows in order of time. -/
theorem Tracks.mem_index (h : d.Tracks rows) {l : UInt32 × List Entry} :
    l ∈ d.index.lists ↔ l.1 ∈ rows.map Prod.fst ∧ l.2 = Entry.sort (entriesOf l.1 rows) := by
  have hsettle : ∀ l ∈ d.lists, settle l.2.reverse = Entry.sort (entriesOf l.1 rows) := by
    intro l hl
    rw [settle_eq, ← listOf_of_mem h.ascending hl, h.listed, List.reverse_reverse]
  rw [index, List.mem_filter, List.mem_map]
  constructor
  · rintro ⟨⟨l', hl', rfl⟩, hne⟩
    rw [hsettle l' hl'] at hne ⊢
    refine ⟨?_, rfl⟩
    by_contra hnot
    rw [entriesOf_eq_nil_iff.2 hnot] at hne
    simp [Entry.sort] at hne
  · rintro ⟨hmem, he⟩
    have hne : entriesOf l.1 rows ≠ [] := by
      intro hnil
      exact entriesOf_eq_nil_iff.1 hnil hmem
    have hlist : listOf d.lists l.1 ≠ [] := by
      rw [h.listed]
      simpa using hne
    have hl := exists_mem_of_listOf hlist
    refine ⟨⟨_, hl, ?_⟩, ?_⟩
    · rw [hsettle _ hl, ← he]
    · rw [he, Bool.not_eq_true', List.isEmpty_eq_false_iff]
      intro hnil
      exact hne (Entry.sort_eq_nil_iff.1 hnil)

theorem Tracks.ascending_index (h : d.Tracks rows) : Ascending d.index.lists := by
  refine List.Pairwise.filter _ ?_
  exact List.pairwise_map.2 h.ascending

end Draft

namespace Index

/-- The lists that entries should have, told as those of a draft. -/
theorem mem_ofRows {rows : List (UInt32 × Entry)} {l : UInt32 × List Entry} :
    l ∈ (ofRows rows).lists ↔
      l.1 ∈ rows.map Prod.fst ∧ l.2 = Entry.sort (entriesOf l.1 rows) := by
  rw [ofRows, List.mem_map]
  constructor
  · rintro ⟨c, hc, rfl⟩
    exact ⟨mem_ascending.1 hc, rfl⟩
  · rintro ⟨hmem, he⟩
    exact ⟨l.1, mem_ascending.2 hmem, by rw [← he]⟩

theorem ascending_ofRows (rows : List (UInt32 × Entry)) : Draft.Ascending (ofRows rows).lists :=
  List.pairwise_map.2 (ascending_eraseDups _)

/-- Indexes with the same lists in ascending order are the same. -/
theorem ext_of_mem {x y : Index} (hx : Draft.Ascending x.lists) (hy : Draft.Ascending y.lists)
    (h : ∀ l, l ∈ x.lists ↔ l ∈ y.lists) : x = y := by
  have hnodup : ∀ {ls : List (UInt32 × List Entry)}, Draft.Ascending ls → ls.Nodup := by
    intro ls hls
    refine hls.imp ?_
    rintro a _ hlt rfl
    exact UInt32.lt_irrefl _ hlt
  have hperm : x.lists.Perm y.lists := (List.perm_ext_iff_of_nodup (hnodup hx) (hnodup hy)).2 h
  have hlists : x.lists = y.lists := by
    refine hperm.eq_of_pairwise ?_ hx hy
    intro a b _ _ hab hba
    exact absurd (UInt32.lt_trans hab hba) (UInt32.lt_irrefl _)
  cases x
  cases y
  exact congrArg Index.mk hlists

/-- **What is put together entry by entry is the index of the entries.** -/
theorem build_eq (conns : List UInt32) (rows : List (UInt32 × Entry)) :
    build conns rows = ofRows rows := by
  have htracks := (Draft.tracks_empty.registerAll conns).pushAll rows
  rw [List.nil_append] at htracks
  refine ext_of_mem htracks.ascending_index (ascending_ofRows rows) ?_
  intro l
  rw [mem_ofRows]
  exact htracks.mem_index

end Index

end BagFile
