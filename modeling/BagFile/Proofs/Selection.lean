/-
  What a query selects, told without halving, lanes or an early end.

  * `Query.Wants` and `Query.Within` say which topics and which points in time a query asks for,
    and the tests for both decide that (`Query.selects_iff`, `Query.containsTime_iff`);
  * `Index.getD_entries?_ofRows`: the list of a connection is its rows, stably sorted by time;
    the index of every bag that was opened is made of rows (`Bag.index_of_load`);
  * `Bag.reference` filters and sorts: the lists of the selected connections one after the other,
    what is within the bounds, by time and by position in the table;
  * `Bag.entries_eq_reference`: the entries of a query are those of the reference.
-/
import BagFile.Proofs.Loading
import BagFile.Proofs.MergeOrder

namespace BagFile

/-! ## What a query asks for -/

namespace Query

variable {q : Query}

/-- A query wants a topic: it has no set of topics, or an empty one, or the topic is in it. -/
def Wants (q : Query) (topic : String) : Prop :=
  q.topics = none ∨ q.topics = some [] ∨ ∃ ts, q.topics = some ts ∧ topic ∈ ts

/-- A point in time is within the bounds of a query, each of which may be missing. -/
def Within (q : Query) (t : Time) : Prop :=
  (∀ s, q.start = some s → s ≤ t) ∧ ∀ e, q.stop = some e → t ≤ e

theorem selects_iff {topic : String} : selects q.topics topic ↔ q.Wants topic := by
  obtain ⟨topics, start, stop⟩ := q
  cases topics with
  | none => simp [selects, Wants]
  | some ts => cases ts <;> simp [selects, Wants]

theorem containsTime_iff {t : Time} : q.containsTime t ↔ q.Within t := by
  obtain ⟨topics, start, stop⟩ := q
  cases start <;> cases stop <;> simp [containsTime, Within]

instance (q : Query) (topic : String) : Decidable (q.Wants topic) := decidable_of_iff _ selects_iff

instance (q : Query) (t : Time) : Decidable (q.Within t) := decidable_of_iff _ containsTime_iff

theorem decide_wants {topic : String} : decide (q.Wants topic) = selects q.topics topic := by
  rw [Bool.eq_iff_iff, decide_eq_true_eq, selects_iff]

theorem decide_within {t : Time} : decide (q.Within t) = q.containsTime t := by
  rw [Bool.eq_iff_iff, decide_eq_true_eq, containsTime_iff]

end Query

/-! ## Lists of the index -/

theorem Entry.sorted_sort (es : List Entry) : Entry.Sorted (Entry.sort es) :=
  Entry.sort_byKey.pairwise_mergeSort es

namespace Index

variable {rows : List (UInt32 × Entry)} {conn : UInt32}

theorem entries?_ofRows (rows : List (UInt32 × Entry)) (conn : UInt32) :
    (ofRows rows).entries? conn =
      if conn ∈ rows.map Prod.fst then some (Entry.sort (entriesOf conn rows)) else none := by
  have hfind : ∀ conns : List UInt32,
      ((conns.map fun c => (c, Entry.sort (entriesOf c rows))).find? fun x => decide (x.1 = conn)) =
        if conn ∈ conns then some (conn, Entry.sort (entriesOf conn rows)) else none := by
    intro conns
    induction conns with
    | nil => rfl
    | cons c cs ih =>
      by_cases hc : c = conn
      · simp [hc]
      · simp [hc, ih, Ne.symm hc]
  have hmem := mem_ascending (a := conn) (l := rows.map Prod.fst)
  simp only [entries?, ofRows, hfind, hmem]
  split <;> rfl

/-- The list of a connection is its rows by time; without rows it is empty. -/
theorem getD_entries?_ofRows (rows : List (UInt32 × Entry)) (conn : UInt32) :
    ((ofRows rows).entries? conn).getD [] = Entry.sort (entriesOf conn rows) := by
  rw [entries?_ofRows]
  split
  · rfl
  · next hnot =>
    rw [entriesOf_eq_nil_iff.2 hnot, Entry.sort, List.mergeSort_nil]
    rfl

theorem sorted_of_entries? {es : List Entry} (h : (ofRows rows).entries? conn = some es) :
    Entry.Sorted es := by
  rw [entries?_ofRows, Option.ite_none_right_eq_some] at h
  cases h.2
  exact Entry.sorted_sort _

end Index

namespace Bag

/-- The index of a bag that was opened is made of rows. -/
theorem index_of_load {path : String} {settings : Settings} {contents : Contents} {b : Bag}
    (h : load path settings contents = .ok b) : ∃ rows, b.index = Index.ofRows rows := by
  obtain ⟨-, rows, -, -, -, -, -, -, -, -, -, hindex⟩ := of_load h
  exact ⟨rows.flatten, hindex.trans (Index.build_eq _ _)⟩

/-! ## The reference -/

/-- The connections that a query selects, each with its position in the table. -/
def selected (b : Bag) (q : Query) : List (Nat × Connection) :=
  (b.connections.zipIdx.map Prod.swap).filter fun x => q.Wants x.2.topic

/-- The list of a connection in the index. -/
def listed (b : Bag) (c : Connection) : List Entry := (b.index.entries? c.id).getD []

/-- The entries that a query should give: those of the selected connections that are within the
    bounds, stably sorted by time and by the position of the connection. -/
def reference (b : Bag) (q : Query) : List Entry :=
  let found := (b.selected q).flatMap fun x => (b.listed x.2).map fun e => (x.1, e)
  ((found.filter fun x => q.Within x.2.time).mergeSort Merge.noLater).map Prod.snd

variable {b : Bag} {rows : List (UInt32 × Entry)}

theorem selected_ascending (b : Bag) (q : Query) :
    (b.selected q).Pairwise fun x y => x.1 < y.1 := by
  have hfst : (b.connections.zipIdx.map Prod.swap).map Prod.fst =
      List.range' 0 b.connections.length := by
    rw [List.map_map]
    exact List.zipIdx_map_snd 0 b.connections
  have hall : ((b.connections.zipIdx.map Prod.swap).map Prod.fst).Pairwise (· < ·) := by
    rw [hfst]
    exact List.pairwise_lt_range'
  exact (List.pairwise_map.1 hall).filter _

theorem mem_selected {q : Query} {i : Nat} {c : Connection} : (i, c) ∈ b.selected q ↔
    b.connections[i]? = some c ∧ q.Wants c.topic := by
  rw [selected, List.mem_filter, List.mem_map, decide_eq_true_eq]
  refine and_congr_left fun _ => ⟨?_, fun hc => ?_⟩
  · rintro ⟨⟨d, j⟩, hmem, hswap⟩
    cases hswap
    simpa using List.mem_zipIdx_iff_getElem?.1 hmem
  · exact ⟨(c, i), List.mem_zipIdx_iff_getElem?.2 (by simpa using hc), rfl⟩

/-- The connections that are looked up are those that a query wants. -/
theorem connectionsFor_eq (b : Bag) (q : Query) :
    b.connectionsFor q.topics = b.connections.filter fun c => q.Wants c.topic :=
  List.filter_congr fun _ _ => Query.decide_wants.symm

theorem map_snd_selected (b : Bag) (q : Query) :
    (b.selected q).map Prod.snd = b.connectionsFor q.topics := by
  have hsnd : (b.connections.zipIdx.map Prod.swap).map Prod.snd = b.connections := by
    rw [List.map_map]
    exact List.zipIdx_map_fst 0 b.connections
  conv_rhs => rw [connectionsFor_eq, ← hsnd, List.filter_map]
  rfl

theorem mem_reference {q : Query} {e : Entry} : e ∈ b.reference q ↔
    ∃ c ∈ b.connections, q.Wants c.topic ∧ e ∈ b.listed c ∧ q.Within e.time := by
  have hselected : ∀ c, (∃ x ∈ b.selected q, x.2 = c) ↔ c ∈ b.connections ∧ q.Wants c.topic := by
    intro c
    rw [← List.mem_map, map_snd_selected, connectionsFor_eq, List.mem_filter, decide_eq_true_eq]
  simp only [reference, List.mem_map, List.mem_mergeSort, List.mem_filter, List.mem_flatMap,
    decide_eq_true_eq]
  constructor
  · rintro ⟨-, ⟨⟨x, hx, f, hf, rfl⟩, htime⟩, rfl⟩
    obtain ⟨hc, hwants⟩ := (hselected x.2).1 ⟨x, hx, rfl⟩
    exact ⟨x.2, hc, hwants, hf, htime⟩
  · rintro ⟨c, hc, hwants, he, htime⟩
    obtain ⟨x, hx, rfl⟩ := (hselected c).2 ⟨hc, hwants⟩
    exact ⟨(x.1, e), ⟨⟨x, hx, e, he, rfl⟩, htime⟩, rfl⟩

/-- The entries of the reference are in order of time. -/
theorem sorted_reference (b : Bag) (q : Query) : Entry.Sorted (b.reference q) := by
  refine List.pairwise_map.2 ((Merge.noLater_byKey.pairwise_mergeSort _).imp fun hle => ?_)
  rcases Merge.rank_le.1 hle with hlt | ⟨heq, -⟩
  · exact Nat.le_of_lt hlt
  · exact Nat.le_of_eq (Time.rank_inj.2 heq)

/-- The lanes of a query, numbered by the positions of their connections. -/
def lanes (b : Bag) (q : Query) : List (Nat × List Entry) :=
  (b.selected q).filterMap fun x =>
    (b.index.entries? x.2.id).map fun es => (x.1, es.dropWhile (Lane.isEarly q.start))

theorem map_snd_lanes (b : Bag) (q : Query) : (b.lanes q).map Prod.snd = b.entryLists q := by
  rw [entryLists, ← map_snd_selected, lanes, List.filterMap_map, List.map_filterMap,
    List.map_filterMap]
  refine List.filterMap_congr fun x _ => ?_
  rw [Function.comp_apply, Option.map_map]
  rfl

theorem lanes_ascending (b : Bag) (q : Query) : (b.lanes q).Pairwise fun x y => x.1 < y.1 := by
  refine List.Pairwise.filterMap _ ?_ (b.selected_ascending q)
  intro x y hlt x' hx y' hy
  obtain ⟨-, -, rfl⟩ := Option.map_eq_some_iff.1 hx
  obtain ⟨-, -, rfl⟩ := Option.map_eq_some_iff.1 hy
  exact hlt

theorem sorted_lanes (h : b.index = Index.ofRows rows) (q : Query) :
    ∀ x ∈ b.lanes q, Entry.Sorted x.2 := by
  intro x hx
  obtain ⟨y, -, hy⟩ := List.mem_filterMap.1 hx
  obtain ⟨es, hes, rfl⟩ := Option.map_eq_some_iff.1 hy
  rw [h] at hes
  exact (Index.sorted_of_entries? hes).sublist (List.dropWhile_sublist _)

/-- Entries that are passed over at first are not within the bounds. -/
theorem filter_dropWhile {es : List Entry} (h : Entry.Sorted es) (q : Query) :
    (es.dropWhile (Lane.isEarly q.start)).filter (fun e => q.Within e.time) =
      es.filter fun e => q.Within e.time := by
  rw [Lane.dropWhile_isEarly q.start h, List.filter_filter]
  refine List.filter_congr fun e _ => ?_
  cases hs : q.start with
  | none => simp [Lane.isEarly]
  | some s =>
    by_cases hle : s ≤ e.time
    · have : ¬e.time < s := Nat.not_lt_of_le hle
      simp [Lane.isEarly, this]
    · simp [Query.Within, hs, hle]

/-- The lanes hold what the reference takes from the lists. -/
theorem sorted_lanes_eq (h : b.index = Index.ofRows rows) (q : Query) :
    Merge.sorted (b.lanes q) q.start q.stop = b.reference q := by
  have hfound : ∀ xs : List (Nat × Connection),
      ((xs.filterMap fun x => (b.index.entries? x.2.id).map fun es =>
        (x.1, es.dropWhile (Lane.isEarly q.start))).flatMap fun x => x.2.map (x.1, ·)).filter
          (fun x => q.Within x.2.time) =
        (xs.flatMap fun x => (b.listed x.2).map fun e => (x.1, e)).filter
          fun x => q.Within x.2.time := by
    intro xs
    induction xs with
    | nil => rfl
    | cons x xs ih =>
      rw [List.flatMap_cons, List.filter_append, ← ih]
      rcases hes : b.index.entries? x.2.id with - | es
      · simp [listed, hes]
      · have hs := Index.sorted_of_entries? (h ▸ hes)
        simp only [List.filterMap_cons, hes, Option.map_some, List.flatMap_cons,
          List.filter_append, List.filter_map, Function.comp_def, filter_dropWhile hs, listed,
          Option.getD_some]
  rw [reference, ← hfound]
  simp only [Query.decide_within]
  rfl

theorem toList_entries (h : b.index = Index.ofRows rows) (q : Query) :
    (b.entries q).toList = b.reference q := by
  rw [entries, ← map_snd_lanes, ← sorted_lanes_eq h q]
  exact Merge.toList_ofLists (b.lanes_ascending q) (sorted_lanes h q) _ _

theorem take_entries (h : b.index = Index.ofRows rows) (q : Query) (k : Nat) :
    Merge.take k (b.entries q) = (b.reference q).take k := by
  rw [entries, ← map_snd_lanes, ← sorted_lanes_eq h q]
  exact Merge.take_ofLists (b.lanes_ascending q) (sorted_lanes h q) _ _ k

/-- **The entries of a query are those of the reference**, whatever file was opened: as many as
    are asked for, and then no more. -/
theorem entries_eq_reference {path : String} {settings : Settings} {contents : Contents}
    (h : load path settings contents = .ok b) (q : Query) :
    (b.entries q).toList = b.reference q ∧
      ∀ k, Merge.take k (b.entries q) = (b.reference q).take k := by
  obtain ⟨rows, hrows⟩ := index_of_load h
  exact ⟨toList_entries hrows q, take_entries hrows q⟩

theorem entries_eq_reference_misfiled :
    ∃ b, load "" .default Image.misfiled.file = .ok b ∧
      (b.entries ⟨some ["/a"], none, some ⟨5, 0⟩⟩).toList =
        b.reference ⟨some ["/a"], none, some ⟨5, 0⟩⟩ := by
  have hload := load_image "" .default Image.misfiled_loadable Image.misfiled.bytes_file
  exact ⟨_, hload, (entries_eq_reference hload _).1⟩

end Bag

end BagFile
