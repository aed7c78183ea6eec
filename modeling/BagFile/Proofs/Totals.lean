/-
  How many messages a bag gives, and how many it says it has.

  * `Bag.reference_all`: a query for everything goes through the table of connections, and takes
    the list of each;
  * `Summary.sum_topics`: so does the summary, topic by topic;
  * `Bag.messageCount` goes through the index, and so counts each list once.  The three agree if
    and only if no connection of the index is twice in the table (`Bag.totals_iff_unambiguous`).
    Opening a file does not check that: `Bag.doubled_counts_twice`.
-/
import BagFile.Proofs.Opening
import BagFile.Summary

namespace BagFile

/-! ## Three ways to count -/

namespace Messages

variable {b : Bag} {source : Stream}

/-- A query gives a message or an error for each of its entries. -/
theorem length_take [Codec.Formats] (k : Nat) (m : Messages) :
    (take b source k m).1.length = (Merge.take k m.entries).length := by
  induction k generalizing m with
  | zero => rfl
  | succ k ih =>
    rw [take, Merge.take, next]
    rcases m.entries.next with ⟨- | e, rest⟩
    · rfl
    · simp only
      rcases (fetch b source e).run m.fetcher with ⟨message, f⟩ | ⟨error, f⟩
      · simp only [List.length_cons, ih]
      · simp only [List.length_cons, ih]

end Messages

namespace Bag

variable {b : Bag} {rows : List (UInt32 × Entry)}

/-- The ids of the table. -/
def ids (b : Bag) : List UInt32 := b.connections.map Connection.id

/-- No connection of the index is in the table more than once. -/
def Unambiguous (b : Bag) : Prop := ∀ conn ∈ b.index.connections, b.ids.count conn = 1

/-- A query for everything takes the list of each connection of the table. -/
theorem reference_all (b : Bag) :
    (b.reference .all).Perm (b.connections.flatMap b.listed) := by
  have hall : ∀ x : Nat × Entry, decide (Query.all.Within x.2.time) = true := fun _ => rfl
  have hsnd : (b.selected .all).map Prod.snd = b.connections := by
    rw [map_snd_selected, connectionsFor]
    exact List.filter_eq_self.2 fun _ _ => rfl
  rw [reference]
  refine ((List.mergeSort_perm _ _).map _).trans ?_
  rw [List.filter_eq_self.2 fun x _ => hall x, List.map_flatMap]
  conv_rhs => rw [← hsnd, List.flatMap_map]
  refine List.Perm.of_eq (List.flatMap_congr fun x _ => ?_)
  rw [List.map_map]
  exact List.map_id _

theorem listed_eq (h : b.index = Index.ofRows rows) (c : Connection) :
    b.listed c = Entry.sort (Index.entriesOf c.id rows) := by
  rw [listed, h, Index.getD_entries?_ofRows]

theorem length_listed (h : b.index = Index.ofRows rows) (c : Connection) :
    (b.listed c).length = (Index.entriesOf c.id rows).length := by
  rw [listed_eq h, Entry.sort, List.length_mergeSort]

theorem length_reference_all (h : b.index = Index.ofRows rows) :
    (b.reference .all).length = ((rows.map Prod.fst).map b.ids.count).sum := by
  rw [(reference_all b).length_eq, List.length_flatMap, ← Index.sum_lengths, ids, List.map_map]
  exact congrArg List.sum (List.map_congr_left fun c _ => length_listed h c)

end Bag

namespace Summary

variable {b : Bag}

theorem nodup_topics (b : Bag) : b.topics.Nodup :=
  (List.mergeSort_perm _ _).nodup_iff.2 (nodup_eraseDups _)

theorem mem_topics {c : Connection} (h : c ∈ b.connections) : c.topic ∈ b.topics := by
  rw [Bag.topics, Bag.distinct, List.mem_mergeSort, List.mem_eraseDups]
  exact List.mem_map_of_mem h

theorem countOf_eq (b : Bag) (c : Connection) : countOf b c = (b.listed c).length := by
  rw [countOf, Bag.listed]
  cases b.index.entries? c.id with
  | none => rfl
  | some es => rfl

/-- The topics of the summary have the messages of all connections of the table. -/
theorem sum_topics (b : Bag) : ((ofBag b).topics.map TopicSummary.messageCount).sum =
    (b.connections.flatMap b.listed).length := by
  have htopics : (ofBag b).topics.map TopicSummary.messageCount =
      b.topics.map fun t => ((b.connections.filter (·.topic = t)).map (countOf b)).sum := by
    show (b.topics.map (ofTopic b)).map _ = _
    rw [List.map_map]
    rfl
  rw [htopics, sum_grouped (nodup_topics b) Connection.topic (countOf b) fun c hc => mem_topics hc,
    List.length_flatMap]
  exact congrArg List.sum (List.map_congr_left fun c _ => countOf_eq b c)

end Summary

/-! ## When they agree -/

namespace Bag

variable {b : Bag} {rows : List (UInt32 × Entry)} {path : String} {settings : Settings}
  {contents : Contents}

/-- What a query for everything gives: a message, or an error in its place, for each entry. -/
def items [Codec.Formats] (b : Bag) (source : Stream) (cache : Cache) :
    List (Except Error Message) :=
  (Messages.toList b source (Messages.start b .all cache)).1

theorem unambiguous_iff (h : b.index = Index.ofRows rows) :
    b.Unambiguous ↔ ∀ conn ∈ rows.map Prod.fst, b.ids.count conn = 1 := by
  rw [Unambiguous, h]
  exact forall_congr' fun conn => by rw [Index.mem_connections_ofRows]

theorem length_items [Codec.Formats] (h : b.index = Index.ofRows rows) (source : Stream)
    (cache : Cache) : (b.items source cache).length = (b.reference .all).length := by
  rw [items, Messages.toList, Messages.length_take]
  exact congrArg List.length (toList_entries h .all)

/-- Passing over what has nothing to give changes nothing. -/
theorem flatMap_filter {α β : Type} {p : α → Bool} {f : α → List β} {xs : List α}
    (h : ∀ x ∈ xs, p x = false → f x = []) : (xs.filter p).flatMap f = xs.flatMap f := by
  induction xs with
  | nil => rfl
  | cons x xs ih =>
    obtain ⟨hx, hxs⟩ := List.forall_mem_cons.1 h
    cases hp : p x with
    | true => rw [List.filter_cons_of_pos hp, List.flatMap_cons, List.flatMap_cons, ih hxs]
    | false =>
      rw [List.filter_cons_of_neg (by simp [hp]), List.flatMap_cons, ih hxs, hx hp, List.nil_append]

/-- Without ambiguity the table goes through the lists of the index, in another order. -/
theorem Unambiguous.perm (hb : b.Unambiguous) (h : b.index = Index.ofRows rows) :
    (b.connections.flatMap b.listed).Perm (b.index.lists.flatMap Prod.snd) := by
  have hlisted : b.connections.flatMap b.listed =
      b.ids.flatMap fun id => Entry.sort (Index.entriesOf id rows) := by
    rw [ids, List.flatMap_map]
    exact List.flatMap_congr fun c _ => listed_eq h c
  have hlists : b.index.lists.flatMap Prod.snd =
      b.index.connections.flatMap fun id => Entry.sort (Index.entriesOf id rows) := by
    rw [Index.connections, List.flatMap_map, h]
    exact List.flatMap_congr fun l hl => (Index.mem_ofRows.1 hl).2
  have hnone : ∀ id ∈ b.ids, decide (id ∈ b.index.connections) = false →
      Entry.sort (Index.entriesOf id rows) = [] := by
    intro id _ hid
    rw [decide_eq_false_iff_not, h, Index.mem_connections_ofRows] at hid
    exact Entry.sort_eq_nil_iff.2 (Index.entriesOf_eq_nil_iff.2 hid)
  -- the ids that have entries are those of the index, each once
  rw [hlisted, hlists, ← flatMap_filter hnone]
  refine List.Perm.flatMap_right _ ?_
  have hconns : b.index.connections.Nodup := by
    rw [h]
    refine (List.pairwise_map.2 (Index.ascending_ofRows rows)).imp ?_
    rintro a _ hlt rfl
    exact UInt32.lt_irrefl _ hlt
  refine (List.perm_ext_iff_of_nodup ?_ hconns).2 fun id => ?_
  · rw [List.nodup_iff_count_le_one]
    intro id
    by_cases hid : id ∈ b.index.connections
    · exact (List.filter_sublist.count_le id).trans (Nat.le_of_eq (hb id hid))
    · have hnot : id ∉ b.ids.filter fun id => decide (id ∈ b.index.connections) := by
        intro hmem
        exact hid (of_decide_eq_true (List.mem_filter.1 hmem).2)
      rw [List.count_eq_zero.2 hnot]
      exact Nat.zero_le 1
  · rw [List.mem_filter, decide_eq_true_eq]
    constructor
    · rintro ⟨-, hid⟩
      exact hid
    · intro hid
      refine ⟨List.count_pos_iff.1 ?_, hid⟩
      rw [hb id hid]
      exact Nat.one_pos

/-- **A bag gives as many messages as it counts exactly if it is unambiguous.**  There are always
    as many as the summary says topic by topic, and never fewer than the index has entries; they
    are the entries of the index, each once, if and only if no connection of the index is in the
    table twice. -/
theorem totals_iff_unambiguous [Codec.Formats] (h : load path settings contents = .ok b)
    (source : Stream) (cache : Cache) :
    (b.items source cache).length = ((Summary.ofBag b).topics.map TopicSummary.messageCount).sum ∧
    (∀ k, (Messages.take b source k (Messages.start b .all cache)).1.length =
      min k (b.items source cache).length) ∧
    b.messageCount ≤ (b.items source cache).length ∧
    ((b.items source cache).length = b.messageCount ↔ b.Unambiguous) ∧
    ((b.entries .all).toList.Perm (b.index.lists.flatMap Prod.snd) ↔ b.Unambiguous) := by
  obtain ⟨rows, hrows⟩ := index_of_load h
  obtain ⟨listing, hreflects⟩ := exists_reflects h
  -- each row counts once in the index, and in the table once for each connection with its id
  have hitems := length_items hrows source cache
  have hcount : b.messageCount = (rows.map Prod.fst).length := by
    rw [messageCount, hrows, Index.messageCount_ofRows, List.length_map]
  have hpos : ∀ conn ∈ rows.map Prod.fst, 1 ≤ b.ids.count conn := by
    intro conn hconn
    refine List.count_pos_iff.2 (hreflects.known conn ?_)
    rw [hrows]
    exact Index.mem_connections_ofRows.2 hconn
  have hagree : (b.items source cache).length = b.messageCount ↔ b.Unambiguous := by
    rw [hitems, length_reference_all hrows, hcount, sum_eq_length_iff hpos]
    exact (unambiguous_iff hrows).symm
  refine ⟨?_, ?_, ?_, hagree, ?_⟩
  · rw [hitems, (reference_all b).length_eq, Summary.sum_topics]
  · intro k
    rw [Messages.length_take, hitems]
    exact (congrArg List.length (take_entries hrows .all k)).trans List.length_take
  · rw [hitems, length_reference_all hrows, hcount]
    exact length_le_sum hpos
  · rw [toList_entries hrows]
    constructor
    · intro hperm
      refine hagree.1 ?_
      rw [hitems, hperm.length_eq, List.length_flatMap]
      rfl
    · intro hb
      exact (reference_all b).trans (hb.perm hrows)

theorem totals_iff_unambiguous_misfiled : ∃ b, load "" .default Image.misfiled.file = .ok b ∧
    ((b.items (Stream.ofFile Image.misfiled.file) Cache.empty).length = b.messageCount ↔
      b.Unambiguous) := by
  have hload := load_image "" .default Image.misfiled_loadable Image.misfiled.bytes_file
  exact ⟨_, hload, (totals_iff_unambiguous hload _ _).2.2.2.1⟩

end Bag

/-! ## A bag that counts a message twice -/

namespace Image

/-- The only message of the sample, and in front of it the record of its connection. -/
def doubledNote : Note := ⟨some (.sample 0 "/a"), ⟨0, ⟨5, 0⟩, .ofBytes [7]⟩⟩

/-- The only chunk of the sample. -/
def doubledChunk : StoredChunk where
  compression := .none
  size := doubledNote.bytes.length
  stored := .ofBytes doubledNote.bytes
  startTime := ⟨5, 0⟩
  endTime := ⟨5, 0⟩
  index := [(0, [(⟨5, 0⟩, UInt32.ofNat doubledNote.lead)])]

/-- A bag with one message, and two connections of one id in its table. -/
def doubled : Image := ⟨[.sample 0 "/a", .sample 0 "/a"], [doubledChunk]⟩

/-- The sample is opened all the same. -/
theorem doubled_loadable : doubled.Loadable where
  tables := by decide +kernel
  chunks := by decide +kernel
  known := by decide +kernel
  conns := by decide +kernel
  connections_lt := by decide
  chunks_lt := by decide
  length_lt := by
    rw [length_bytes]
    decide +kernel

end Image

/-- Nothing compares the ids in the table: its only message comes twice. -/
theorem Bag.doubled_counts_twice : ∃ b, load "" .default Image.doubled.file = .ok b ∧
    b.messageCount = 1 ∧ ∀ source cache, (b.items source cache).length = 2 := by
  have hload := load_image "" .default Image.doubled_loadable Image.doubled.bytes_file
  refine ⟨_, hload, by decide +kernel, fun source cache => ?_⟩
  rw [length_items rfl, (reference_all _).length_eq]
  decide +kernel

end BagFile
