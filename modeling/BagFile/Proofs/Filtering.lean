/-
  When the messages of a query are those that were asked for.

  A query selects and orders entries of the index, but gives the topic and the time that stand
  in the message's own record.

  * `Bag.Filters`: the messages of a query are on its topics, within its bounds and in order;
  * `Bag.Tallies`: the index says of each message what its record says;
  * `Bag.filters_iff_tallies`: all queries of a bag filter if and only if its index tallies.
    Opening a file does not check that: `Bag.misfiled_not_filters`.
-/
import BagFile.Codec.InMemory
import BagFile.Proofs.Retrieval
import BagFile.Proofs.Selection

namespace BagFile

namespace Query

theorem wants_singleton (start stop : Option Time) (t u : String) :
    Wants ⟨some [t], start, stop⟩ u ↔ u = t := by
  simp [Wants]

theorem within_instant (ts : Option (List String)) (t u : Time) :
    Within ⟨ts, some t, some t⟩ u ↔ u = t := by
  simp only [Within, Option.some.injEq, forall_eq']
  rw [Time.le_def, Time.le_def, ← Time.rank_inj]
  exact ⟨fun h => Nat.le_antisymm h.2 h.1, fun h => ⟨Nat.le_of_eq h.symm, Nat.le_of_eq h⟩⟩

end Query

namespace Bag

theorem toOption_eq_some {ε α : Type} {x : Except ε α} {a : α} :
    x.toOption = some a ↔ x = .ok a := by
  cases x <;> simp [Except.toOption]

section
variable [Codec.Formats]

/-- The messages that a query gives, without the errors between them. -/
def found (b : Bag) (source : Stream) (cache : Cache) (q : Query) : List Message :=
  (Messages.toList b source (Messages.start b q cache)).1.filterMap Except.toOption

/-- The messages of a query are on its topics, within its bounds, and in order of time. -/
structure Filters (b : Bag) (source : Stream) (cache : Cache) (q : Query) : Prop where
  topics : ∀ m ∈ b.found source cache q, q.Wants m.connection.topic
  bounds : ∀ m ∈ b.found source cache q, q.Within m.time
  ordered : (b.found source cache q).Pairwise fun m n => m.time ≤ n.time

/-- The index says of each message what its own record says: its topic and its time. -/
def Tallies (b : Bag) (source : Stream) : Prop :=
  ∀ c ∈ b.connections, ∀ e ∈ b.listed c, ∀ m, b.messageAt source e = .ok m →
    m.connection.topic = c.topic ∧ m.time = e.time

variable {b : Bag} {path : String} {settings : Settings} {contents : Contents} {cache : Cache}

theorem found_eq (h : load path settings contents = .ok b)
    (hcache : cache.Agrees (Stream.ofFile contents) b.chunks) (q : Query) :
    b.found (Stream.ofFile contents) cache q =
      (b.reference q).filterMap fun e => (b.messageAt (Stream.ofFile contents) e).toOption := by
  obtain ⟨rows, hrows⟩ := index_of_load h
  rw [found, Messages.toList_start hcache, toList_entries hrows, List.filterMap_map,
    Function.comp_def]

theorem mem_found (h : load path settings contents = .ok b)
    (hcache : cache.Agrees (Stream.ofFile contents) b.chunks) {q : Query} {m : Message} :
    m ∈ b.found (Stream.ofFile contents) cache q ↔
      ∃ e ∈ b.reference q, b.messageAt (Stream.ofFile contents) e = .ok m := by
  rw [found_eq h hcache, List.mem_filterMap]
  exact exists_congr fun e => and_congr_right fun _ => toOption_eq_some

/-- **All queries filter if and only if the index tallies** with the records. -/
theorem filters_iff_tallies (h : load path settings contents = .ok b)
    (hcache : cache.Agrees (Stream.ofFile contents) b.chunks) :
    (∀ q, b.Filters (Stream.ofFile contents) cache q) ↔ b.Tallies (Stream.ofFile contents) := by
  constructor
  · -- a query for one topic and one point in time finds what is listed there
    intro hall c hc e he m hm
    obtain ⟨htopics, hbounds, -⟩ := hall ⟨some [c.topic], some e.time, some e.time⟩
    have hin : m ∈ b.found (Stream.ofFile contents) cache
        ⟨some [c.topic], some e.time, some e.time⟩ := by
      refine (mem_found h hcache).2 ⟨e, mem_reference.2 ⟨c, hc, ?_, he, ?_⟩, hm⟩
      · exact (Query.wants_singleton _ _ _ _).2 rfl
      · exact (Query.within_instant _ _ _).2 rfl
    exact ⟨(Query.wants_singleton _ _ _ _).1 (htopics m hin),
      (Query.within_instant _ _ _).1 (hbounds m hin)⟩
  · intro htallies q
    have hentry : ∀ e ∈ b.reference q, ∀ m, b.messageAt (Stream.ofFile contents) e = .ok m →
        q.Wants m.connection.topic ∧ q.Within e.time ∧ m.time = e.time := by
      intro e he m hm
      obtain ⟨c, hc, hwants, hlisted, htime⟩ := mem_reference.1 he
      obtain ⟨htopic, hsame⟩ := htallies c hc e hlisted m hm
      exact ⟨htopic ▸ hwants, htime, hsame⟩
    refine ⟨fun m hm => ?_, fun m hm => ?_, ?_⟩
    · obtain ⟨e, he, hat⟩ := (mem_found h hcache).1 hm
      exact (hentry e he m hat).1
    · obtain ⟨e, he, hat⟩ := (mem_found h hcache).1 hm
      obtain ⟨-, htime, hsame⟩ := hentry e he m hat
      rwa [hsame]
    · rw [found_eq h hcache, List.pairwise_filterMap]
      refine (b.sorted_reference q).imp_of_mem fun {e f} he hf hle m hm n hn => ?_
      rw [(hentry e he m (toOption_eq_some.1 hm)).2.2, (hentry f hf n (toOption_eq_some.1 hn)).2.2]
      exact hle

end

theorem filters_iff_tallies_misfiled : ∃ b, load "" .default Image.misfiled.file = .ok b ∧
    ((∀ q, b.Filters (Stream.ofFile Image.misfiled.file) Cache.empty q) ↔
      b.Tallies (Stream.ofFile Image.misfiled.file)) := by
  have hload := load_image "" .default Image.misfiled_loadable Image.misfiled.bytes_file
  exact ⟨_, hload, filters_iff_tallies hload (Cache.agrees_empty _ _)⟩

/-- The message of the sample is found under the topic of the other connection. -/
theorem mem_found_misfiled : ⟨.sample 1 "/b", ⟨5, 0⟩, .ofBytes [7]⟩ ∈
    (Image.misfiled.bag "" .default).found (Stream.ofFile Image.misfiled.file) Cache.empty
      ⟨some ["/a"], none, none⟩ := by
  have hload := load_image "" .default Image.misfiled_loadable Image.misfiled.bytes_file
  refine (mem_found hload (Cache.agrees_empty _ _)).2
    ⟨⟨⟨5, 0⟩, UInt64.ofNat Layout.dataStart, UInt32.ofNat Image.sampleNote.lead⟩, ?_, ?_⟩
  · refine mem_reference.2 ⟨.sample 0 "/a", List.mem_cons_self, by decide, ?_,
      by decide⟩
    decide +kernel
  · have hcodec : Codec.ofCompression Image.sampleChunk.compression = .ok .plain := rfl
    have hraw : Fetcher.rawAt (Stream.ofFile Image.misfiled.file)
        (Image.misfiled.bag "" .default).chunks
          ⟨⟨5, 0⟩, UInt64.ofNat Layout.dataStart, UInt32.ofNat Image.sampleNote.lead⟩ =
        .ok Image.sampleNote.message :=
      Image.rawAt_bag Image.misfiled_loadable Image.misfiled.bytes_file
        (y := (Layout.dataStart, Image.sampleChunk)) List.mem_cons_self hcodec rfl
        (by decide +kernel) (by decide +kernel) (by decide) _
    rw [messageAt, hraw]
    decide +kernel

/-- An opened bag does not always filter: nothing compares the index with the messages. -/
theorem misfiled_not_filters : ∃ b, load "" .default Image.misfiled.file = .ok b ∧
    ¬b.Filters (Stream.ofFile Image.misfiled.file) Cache.empty ⟨some ["/a"], none, none⟩ := by
  refine ⟨_, load_image "" .default Image.misfiled_loadable Image.misfiled.bytes_file, fun h => ?_⟩
  have hwants := h.topics _ mem_found_misfiled
  revert hwants
  decide

end Bag

end BagFile
