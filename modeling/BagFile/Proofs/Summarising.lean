/-
  What the summary of a recording says.

  * `Time.First`, `Time.Last`: the earliest and the latest of some points in time.  An index looks
    for them at the ends of its lists only, and that is enough since these are by time
    (`Index.first_ofRows`);
  * `Recorder.opened` are the compressions of the chunks that the calls of a session open, and
    `Follows.opened_after` says that the account has these chunks;
  * `Summary.Tells`: what a summary says is true of a recording.  `Recorder.summary_recorded`: so it
    is, of everything that was accepted.
-/
import Mathlib.Data.String.Basic
import BagFile.Proofs.Describing
import BagFile.Proofs.Lifecycle
import BagFile.Proofs.Totals

namespace BagFile

/-! ## Times -/

namespace Time

/-- One of some points in time that is related to all of them: none if there are none. -/
def Extreme (R : Time → Time → Prop) (ts : List Time) : Option Time → Prop
  | none => ts = []
  | some t => t ∈ ts ∧ ∀ u ∈ ts, R t u

/-- The earliest of some points in time. -/
def First (ts : List Time) (first : Option Time) : Prop := Extreme (fun t u => t ≤ u) ts first

/-- The latest of some points in time. -/
def Last (ts : List Time) (last : Option Time) : Prop := Extreme (fun t u => u ≤ t) ts last

theorem first_earliest? (ts : List Time) : First ts (Index.earliest? ts) := by
  rcases ts with - | ⟨t, ts⟩
  · rfl
  · exact foldl_earlier t ts

theorem last_latest? (ts : List Time) : Last ts (Index.latest? ts) := by
  rcases ts with - | ⟨t, ts⟩
  · rfl
  · exact foldl_later t ts

/-- It is enough to look at some of them if all the others are behind one of these. -/
theorem Extreme.of_ends {R : Time → Time → Prop} (htrans : ∀ {a b c}, R a b → R b c → R a c)
    {ends ts : List Time} {t : Option Time} (h : Extreme R ends t) (hends : ∀ u ∈ ends, u ∈ ts)
    (hall : ∀ u ∈ ts, ∃ v ∈ ends, R v u) : Extreme R ts t := by
  cases t with
  | none =>
    obtain rfl : ends = [] := h
    refine List.eq_nil_iff_forall_not_mem.2 fun u hu => ?_
    obtain ⟨v, ⟨⟩, -⟩ := hall u hu
  | some t =>
    refine ⟨hends t h.1, fun u hu => ?_⟩
    obtain ⟨v, hv, hvu⟩ := hall u hu
    exact htrans (h.2 v hv) hvu

end Time

/-! ## The index -/

namespace Entry

variable {es : List Entry} {e : Entry}

theorem Sorted.exists_head (h : Sorted es) (he : e ∈ es) :
    ∃ e' ∈ es.head?, e'.time ≤ e.time := by
  rcases es with - | ⟨e', es⟩
  · cases he
  · refine ⟨e', rfl, ?_⟩
    rcases List.mem_cons.1 he with rfl | he
    · exact Nat.le_refl _
    · exact List.rel_of_pairwise_cons h he

theorem Sorted.exists_getLast (h : Sorted es) (he : e ∈ es) :
    ∃ e' ∈ es.getLast?, e.time ≤ e'.time := by
  rcases List.eq_nil_or_concat es with rfl | ⟨es', e', rfl⟩
  · cases he
  · refine ⟨e', by simp, ?_⟩
    rw [List.concat_eq_append] at h he
    rcases List.mem_append.1 he with he | he
    · exact (List.pairwise_append.1 h).2.2 e he e' List.mem_cons_self
    · cases List.mem_singleton.1 he
      exact Nat.le_refl _

end Entry

namespace Index

variable {rows rows' : List (UInt32 × Entry)} {conn : UInt32} {e : Entry}

theorem mem_sort_entriesOf : e ∈ Entry.sort (entriesOf conn rows) ↔ (conn, e) ∈ rows := by
  rw [Entry.sort, List.mem_mergeSort, entriesOf, List.mem_map]
  constructor
  · rintro ⟨⟨conn', e'⟩, hmem, rfl⟩
    obtain ⟨hrow, hconn⟩ := List.mem_filter.1 hmem
    obtain rfl : conn' = conn := of_decide_eq_true hconn
    exact hrow
  · intro hrow
    exact ⟨(conn, e), List.mem_filter.2 ⟨hrow, decide_eq_true rfl⟩, rfl⟩

/-- An index is known by the list of each connection. -/
theorem ofRows_congr (h : ∀ conn, Entry.sort (entriesOf conn rows) =
    Entry.sort (entriesOf conn rows')) : ofRows rows = ofRows rows' := by
  refine ext_of_mem (ascending_ofRows rows) (ascending_ofRows rows') fun l => ?_
  have hconn : l.1 ∈ rows.map Prod.fst ↔ l.1 ∈ rows'.map Prod.fst := by
    rw [← not_iff_not, ← entriesOf_eq_nil_iff, ← entriesOf_eq_nil_iff, ← Entry.sort_eq_nil_iff, h,
      Entry.sort_eq_nil_iff]
  rw [mem_ofRows, mem_ofRows, hconn, h]

/-- The entries at one end of each list are some of all entries. -/
theorem mem_ends {pick : List Entry → Option Entry} (hpick : ∀ es, ∀ e ∈ pick es, e ∈ es)
    {t : Time} (ht : t ∈ (ofRows rows).lists.filterMap fun l => (pick l.2).map Entry.time) :
    t ∈ rows.map fun row => row.2.time := by
  obtain ⟨l, hl, hend⟩ := List.mem_filterMap.1 ht
  obtain ⟨e, he, rfl⟩ := Option.map_eq_some_iff.1 hend
  have hmem := hpick l.2 e he
  rw [(mem_ofRows.1 hl).2, mem_sort_entriesOf] at hmem
  exact List.mem_map.2 ⟨_, hmem, rfl⟩

/-- Each entry has one at the end of its list that is related to it. -/
theorem exists_end {pick : List Entry → Option Entry} {R : Time → Time → Prop}
    (hpick : ∀ es, Entry.Sorted es → ∀ e ∈ es, ∃ e' ∈ pick es, R e'.time e.time) {u : Time}
    (hu : u ∈ rows.map fun row => row.2.time) :
    ∃ t ∈ (ofRows rows).lists.filterMap fun l => (pick l.2).map Entry.time, R t u := by
  obtain ⟨⟨conn, e⟩, hrow, rfl⟩ := List.mem_map.1 hu
  have hl : (conn, Entry.sort (entriesOf conn rows)) ∈ (ofRows rows).lists :=
    mem_ofRows.2 ⟨List.mem_map_of_mem hrow, rfl⟩
  obtain ⟨e', he', hR⟩ := hpick _ (Entry.sorted_sort _) e (mem_sort_entriesOf.2 hrow)
  exact ⟨e'.time, List.mem_filterMap.2 ⟨_, hl, Option.map_eq_some_iff.2 ⟨e', he', rfl⟩⟩, hR⟩

/-- **The time of the first message** is found at the heads of the lists. -/
theorem first_ofRows (rows : List (UInt32 × Entry)) :
    Time.First (rows.map fun row => row.2.time) (ofRows rows).startTime? :=
  Time.Extreme.of_ends (R := fun t u => t ≤ u) Nat.le_trans (Time.first_earliest? _)
    (fun _ => mem_ends fun _ _ he => List.mem_of_mem_head? he)
    fun _ => exists_end (R := fun t u => t ≤ u) fun _ hes _ he => hes.exists_head he

theorem last_ofRows (rows : List (UInt32 × Entry)) :
    Time.Last (rows.map fun row => row.2.time) (ofRows rows).endTime? :=
  Time.Extreme.of_ends (R := fun t u => u ≤ t) (fun h h' => Nat.le_trans h' h)
    (Time.last_latest? _) (fun _ => mem_ends fun _ _ he => List.mem_of_mem_getLast? he)
    fun _ => exists_end (R := fun t u => u ≤ t) fun _ hes _ he => hes.exists_getLast he

end Index

/-! ## Names -/

namespace Bag

/-- Distinct texts ascend. -/
theorem ascending_distinct (texts : List String) : (distinct texts).Pairwise (· < ·) := by
  have hkey : ByKey (fun s t : String => decide (s ≤ t)) id := fun _ _ => decide_eq_true_iff
  exact hkey.ascending_eraseDups (fun _ _ h => h) texts

theorem mem_distinct {text : String} {texts : List String} :
    text ∈ distinct texts ↔ text ∈ texts := by
  rw [distinct, List.mem_mergeSort, List.mem_eraseDups]

end Bag

/-! ## Chunks that are opened -/

/-- The compression of the chunk that a call asks for: a write asks for one with that of the
    settings. -/
def Call.begins (settings : Settings) : Call → List Compression
  | .beginChunk z => [z]
  | .write _ => [settings.compression]
  | .addConnection _ | .append _ | .endChunk => []

namespace Account

/-- The compressions of the chunks so far. -/
def compressions (a : Account) : List Compression := a.batches.map Batch.compression

variable {a a' : Account} {z : Compression} {m : RawMessage}

/-- The compression of a chunk that is opened now. -/
def opening (a : Account) (z : Compression) : List Compression :=
  if (a.open? z).isSome then [z] else []

theorem compressions_open? (h : a.open? z = some a') : a'.compressions = a.compressions ++ [z] := by
  unfold open? at h
  split at h
  · next hcurrent _ =>
    cases h
    simp [compressions, batches, opened, hcurrent]
  · cases h

theorem compressions_add? (h : a.add? m = some a') : a'.compressions = a.compressions := by
  unfold add? at h
  split at h
  · next c b hconn hcurrent =>
    cases h
    simp [compressions, batches, hcurrent, Batch.add]
  · cases h

theorem compressions_close (a : Account) : a.close.compressions = a.compressions := by
  rw [compressions, batches_close, compressions]

theorem compressions_roll (a : Account) : a.roll.compressions = a.compressions := by
  unfold roll
  split
  · exact a.compressions_close
  · rfl

theorem compressions_ready (a : Account) :
    a.ready.compressions = a.compressions ++ a.opening a.settings.compression := by
  unfold ready opening
  rcases hopen : a.open? a.settings.compression with - | a'
  · simp
  · have hcurrent : a.current = none := ((a.isSome_open? _).1 (by rw [hopen]; rfl)).1
    simp [hcurrent, compressions_open? hopen]

/-- A call adds the chunk that it opens, whether it is refused or not. -/
theorem compressions_step (a : Account) (c : Call) :
    (a.step c).compressions = a.compressions ++ (c.begins a.settings).flatMap a.opening := by
  unfold step
  cases c with
  | addConnection x => exact (List.append_nil _).symm
  | beginChunk z =>
    rw [Call.begins, List.flatMap_singleton, opening, accept?]
    rcases hopen : a.open? z with - | a'
    · exact (List.append_nil _).symm
    · exact compressions_open? hopen
  | append m =>
    rw [Call.begins, List.flatMap_nil, List.append_nil, accept?]
    rcases hadd : a.add? m with - | a'
    · rfl
    · exact compressions_add? hadd
  | endChunk =>
    rw [Call.begins, List.flatMap_nil, List.append_nil, accept?]
    rcases a.current with - | b
    · rfl
    · exact a.compressions_close
  | write m =>
    rw [Call.begins, List.flatMap_singleton, ← compressions_ready, accept?]
    rcases hadd : a.ready.add? m with - | a'
    · rfl
    · exact (compressions_roll a').trans (compressions_add? hadd)

end Account

namespace Recorder

variable [Codec.Formats] {r : Recorder} {a : Account}

/-- The compression of the chunk that a recorder opens if it is asked to: none if it refuses. -/
def opening (r : Recorder) (z : Compression) : List Compression :=
  match (beginChunk z).run r with
  | .ok _ _ => [z]
  | .error _ _ => []

/-- The compressions of the chunks that some calls open, in order.  While a chunk is open, none is
    opened, and so a write opens one only if there is none. -/
def opened (r : Recorder) : List Call → List Compression
  | [] => []
  | c :: cs => (c.begins r.settings).flatMap r.opening ++ (c.after r).opened cs

theorem Follows.opening_eq (h : r.Follows a) (z : Compression) : r.opening z = a.opening z := by
  have hends := (h.run_beginChunk z).isSome_iff trivial
  unfold opening Account.opening
  rcases hrun : (beginChunk z).run r with ⟨u, r'⟩ | ⟨e, r'⟩
  · rw [if_pos (hends.1 ⟨u, r', hrun⟩)]
  · rw [if_neg fun hsome => ?_]
    obtain ⟨u, r'', hok⟩ := hends.2 hsome
    cases hrun.symm.trans hok

/-- **The chunks of an account are those that were opened.** -/
theorem Follows.opened_after (h : r.Follows a) (calls : List Call)
    (hs : (r.after calls).phase ≠ .failed) :
    (a.after calls).compressions = a.compressions ++ r.opened calls := by
  induction calls generalizing r a with
  | nil => exact (List.append_nil _).symm
  | cons c cs ih =>
    have hsound : (c.after r).phase ≠ .failed := fun hfailed => hs <|
      (congrArg phase (after_failed hfailed cs)).trans hfailed
    have hafter : a.after (c :: cs) = (a.step c).after cs := rfl
    have hopening : r.opening = a.opening := funext h.opening_eq
    rw [hafter, ih (h.after_call hsound).1 hs, a.compressions_step, opened, List.append_assoc,
      h.settings, hopening]

end Recorder

/-! ## Messages of a recording -/

namespace Account

variable [Codec.Formats] {a : Account} {path : String} {settings : Settings}

/-- The index of a recording has its messages, as they were located. -/
theorem index_bag (a : Account) (path : String) (settings : Settings) :
    (a.image.bag path settings).index =
      Index.ofRows ((locate Layout.dataStart a.chunks).map RawMessage.filed) :=
  Index.ofRows_congr (sort_entriesOf_rows Layout.dataStart a.chunks)

namespace Finished

theorem map_conn_located (h : a.Finished) :
    ((locate Layout.dataStart a.chunks).map RawMessage.filed).map Prod.fst =
      a.messages.map RawMessage.conn := by
  rw [h.messages_eq, List.map_map, List.map_map]
  rfl

theorem map_time_located (h : a.Finished) :
    ((locate Layout.dataStart a.chunks).map RawMessage.filed).map (fun row => row.2.time) =
      a.messages.map RawMessage.time := by
  rw [h.messages_eq, List.map_map, List.map_map]
  exact List.map_congr_left fun x hx => time_locate hx

theorem messageCount_bag (h : a.Finished) (path : String) (settings : Settings) :
    (a.image.bag path settings).messageCount = a.messages.length := by
  rw [Bag.messageCount, a.index_bag, Index.messageCount_ofRows, List.length_map, h.messages_eq,
    List.length_map]

theorem countOf_bag (h : a.Finished) (path : String) (settings : Settings) (c : Connection) :
    Summary.countOf (a.image.bag path settings) c =
      (a.messages.map RawMessage.conn).count c.id := by
  rw [Summary.countOf_eq, Bag.length_listed (a.index_bag path settings), Index.length_entriesOf,
    h.map_conn_located]

/-- The connections of some kind have the messages whose connection is of that kind. -/
theorem sum_count (h : a.Finished) (p : Connection → Bool) :
    ((a.connections.filter p).map fun c => (a.messages.map RawMessage.conn).count c.id).sum =
      (a.messages.filter fun m => (a.connections[m.conn.toNat]?).any p).length := by
  have hnodup : ((a.connections.filter p).map Connection.id).Nodup :=
    (List.pairwise_map.2 (h.ids_ascending.filter p)).imp UInt32.ne_of_lt
  have hkey : ∀ m ∈ a.messages.filter fun m => (a.connections[m.conn.toNat]?).any p,
      m.conn ∈ (a.connections.filter p).map Connection.id := by
    intro m hm
    obtain ⟨c, hc, hp⟩ := (Option.any_eq_true _ _).1 (List.mem_filter.1 hm).2
    refine List.mem_map.2 ⟨c, List.mem_filter.2 ⟨List.mem_of_getElem? hc, hp⟩, ?_⟩
    rw [h.ids _ c hc, UInt32.ofNat_toNat]
  have hcount : ∀ c ∈ a.connections.filter p, (a.messages.map RawMessage.conn).count c.id =
      (((a.messages.filter fun m => (a.connections[m.conn.toNat]?).any p).filter
        (·.conn = c.id)).map fun _ => 1).sum := by
    intro c hc
    obtain ⟨hmem, hp⟩ := List.mem_filter.1 hc
    have hkind (m : RawMessage) (hm : m.conn = c.id) :
        (a.connections[m.conn.toNat]?).any p = true := by
      rw [hm, h.getElem?_of_id hmem]
      exact hp
    rw [List.map_const', List.sum_replicate_nat, Nat.mul_one, List.count, List.countP_map,
      List.countP_eq_length_filter, List.filter_filter]
    refine congrArg List.length (List.filter_congr fun m _ => ?_)
    rw [Bool.eq_iff_iff]
    simpa using hkind m
  rw [List.map_congr_left hcount]
  have hgrouped := sum_grouped hnodup RawMessage.conn (fun _ => 1) hkey
  rw [List.map_map, List.map_const', List.sum_replicate_nat, Nat.mul_one] at hgrouped
  exact hgrouped

end Finished

end Account

/-! ## Summaries -/

/-- What is said of a topic is true of the connections that were registered and the messages that
    were accepted. -/
structure TopicSummary.Reports (t : TopicSummary) (registered : List Connection)
    (accepted : List RawMessage) : Prop where
  connections : t.connections = (registered.filter (·.topic = t.topic)).length
  messageCount : t.messageCount =
    (accepted.filter fun m => (registered[m.conn.toNat]?).any (·.topic = t.topic)).length
  /-- the type is that of the first connection on the topic -/
  first : ∃ c, registered.find? (·.topic = t.topic) = some c ∧
    t.typeName = c.typeName ∧ t.md5sum = c.md5sum

/-- What a summary says of the chunks that were opened with some compressions is true. -/
structure Summary.Tallies (s : Summary) (opened : List Compression) : Prop where
  chunkCount : s.chunkCount = opened.length
  /-- the names of the compressions ascend; each stands for the chunks that it was opened for -/
  ascending : (s.compression.map Prod.fst).Pairwise (· < ·)
  counted : ∀ x, x ∈ s.compression ↔ ∃ z ∈ opened, x = (z.name, opened.count z)
  sum : (s.compression.map Prod.snd).sum = s.chunkCount

/-- What a summary says is true of a recording: of the connections that were registered, and of the
    messages that were accepted, in their chunks. -/
structure Summary.Tells [Codec.Formats] (s : Summary) (registered : List Connection)
    (accepted : List RawMessage) (batches : List Batch) : Prop where
  /-- the topics ascend; they are those of the connections -/
  ascending : (s.topics.map TopicSummary.topic).Pairwise (· < ·)
  topics : ∀ topic, topic ∈ s.topics.map TopicSummary.topic ↔
    topic ∈ registered.map Connection.topic
  reports : ∀ t ∈ s.topics, t.Reports registered accepted
  startTime : Time.First (accepted.map RawMessage.time) s.startTime
  endTime : Time.Last (accepted.map RawMessage.time) s.endTime
  messageCount : s.messageCount = accepted.length
  tallies : s.Tallies (batches.map Batch.compression)
  sizeCompressed : s.sizeCompressed = (batches.map fun b => b.stored.stored.size).sum
  sizeUncompressed : s.sizeUncompressed = (batches.map fun b => b.contents.length).sum

namespace Summary

variable {b : Bag} {opened : List Compression}

/-- **Compressions are tallied by name**, and those that are understood have names of their own. -/
theorem tallies_ofBag (hopened : b.chunks.map Chunk.compression = opened)
    (hnames : ∀ z ∈ opened, Compression.ofName z.name = z) : (ofBag b).Tallies opened := by
  have hlength : b.chunks.length = opened.length := by rw [← hopened, List.length_map]
  have hall : (b.chunks.map fun c => c.compression.name) = opened.map Compression.name := by
    rw [← hopened, List.map_map]
    rfl
  have hlist : (ofBag b).compression = (Bag.distinct (opened.map Compression.name)).map fun n =>
      (n, (opened.map Compression.name).count n) := by
    rw [← hall]
    rfl
  have hcount : ∀ z ∈ opened, (opened.map Compression.name).count z.name = opened.count z := by
    intro z hz
    rw [List.count, List.countP_map, List.count]
    refine List.countP_congr fun y hy => ?_
    rw [Function.comp_apply, beq_iff_eq, beq_iff_eq]
    refine ⟨fun hname => ?_, congrArg _⟩
    rw [← hnames y hy, hname, hnames z hz]
  refine ⟨hlength, ?_, fun x => ?_, ?_⟩
  · rw [hlist, List.map_map]
    exact (List.map_id _).symm ▸ Bag.ascending_distinct _
  · rw [hlist, List.mem_map]
    constructor
    · rintro ⟨n, hn, rfl⟩
      obtain ⟨z, hz, rfl⟩ := List.mem_map.1 (Bag.mem_distinct.1 hn)
      exact ⟨z, hz, by rw [hcount z hz]⟩
    · rintro ⟨z, hz, rfl⟩
      exact ⟨z.name, Bag.mem_distinct.2 (List.mem_map_of_mem hz), by rw [hcount z hz]⟩
  · rw [hlist, List.map_map, show (ofBag b).chunkCount = opened.length from hlength,
      ← List.length_map (f := Compression.name)]
    exact sum_counts ((Bag.ascending_distinct _).imp ne_of_lt) fun _ => Bag.mem_distinct.2

end Summary

namespace Account

variable [Codec.Formats] {a : Account} {path : String} {settings : Settings}

/-- What the chunks of a bag have of those that were stored. -/
theorem map_chunks {α : Type} {f : Chunk → α} {g : Batch → α}
    (h : ∀ x : Nat × StoredChunk, ∀ b ∈ a.chunks, x.2 = b.stored →
      f (StoredChunk.toChunk x) = g b) :
    (a.image.bag path settings).chunks.map f = a.chunks.map g := by
  have hchunks := List.map_snd_zip (Nat.le_of_eq a.length_places.symm)
  have hplaces := List.map_fst_zip (Nat.le_of_eq a.length_places)
  rw [Image.bag, List.map_map]
  conv_lhs => rw [← hplaces, List.map_map]
  conv_rhs => rw [← hchunks, List.map_map]
  refine List.map_congr_left fun x hx => ?_
  obtain ⟨-, hb, hstored⟩ := mem_zip_places hx
  exact h x.1 x.2 hb hstored

namespace Finished

/-- What the summary says of a topic is true. -/
theorem reports (h : a.Finished) {topic : String}
    (ht : topic ∈ (a.image.bag path settings).topics) :
    (Summary.ofTopic (a.image.bag path settings) topic).Reports a.connections a.messages := by
  have hmem : topic ∈ a.connections.map Connection.topic := Bag.mem_distinct.1 ht
  obtain ⟨x, hx, hxt⟩ := List.mem_map.1 hmem
  have hsome : (a.connections.find? fun c => decide (c.topic = topic)).isSome :=
    List.find?_isSome.2 ⟨x, hx, decide_eq_true hxt⟩
  obtain ⟨c, hc⟩ := Option.isSome_iff_exists.1 hsome
  have hhead : (a.connections.filter fun c => decide (c.topic = topic)).head? = some c := by
    rw [List.head?_filter, hc]
  refine ⟨rfl, ?_, c, hc, ?_, ?_⟩
  · rw [← h.sum_count]
    exact congrArg List.sum (List.map_congr_left fun c _ => h.countOf_bag path settings c)
  · exact congrArg (fun x => (Option.map Connection.typeName x).getD "") hhead
  · exact congrArg (fun x => (Option.map Connection.md5sum x).getD "") hhead

/-- **The summary of a finished recording** is true of it. -/
theorem tells (h : a.Finished) (path : String) (settings : Settings) :
    (Summary.ofBag (a.image.bag path settings)).Tells a.connections a.messages a.chunks := by
  have htopics : (Summary.ofBag (a.image.bag path settings)).topics.map TopicSummary.topic =
      Bag.distinct (a.connections.map Connection.topic) := by
    show ((a.image.bag path settings).topics.map (Summary.ofTopic _)).map _ = _
    rw [List.map_map]
    exact List.map_id _
  have hindex := a.index_bag path settings
  have hcompressions : (a.image.bag path settings).chunks.map Chunk.compression =
      a.chunks.map Batch.compression :=
    map_chunks fun x b _ hstored => congrArg StoredChunk.compression hstored
  refine {
    ascending := htopics ▸ Bag.ascending_distinct _
    topics := fun topic => by rw [htopics, Bag.mem_distinct]
    reports := ?_
    startTime := ?_
    endTime := ?_
    messageCount := h.messageCount_bag path settings
    tallies := Summary.tallies_ofBag hcompressions ?_
    sizeCompressed := ?_
    sizeUncompressed := ?_ }
  · rintro t ht
    obtain ⟨topic, htopic, rfl⟩ := List.mem_map.1 ht
    exact h.reports htopic
  · show Time.First _ (a.image.bag path settings).index.startTime?
    rw [hindex, ← h.map_time_located]
    exact Index.first_ofRows _
  · show Time.Last _ (a.image.bag path settings).index.endTime?
    rw [hindex, ← h.map_time_located]
    exact Index.last_ofRows _
  · intro z hz
    obtain ⟨b, hb, rfl⟩ := List.mem_map.1 hz
    exact ofName_name (h.codecs b hb)
  · refine congrArg List.sum (map_chunks fun x b hb hstored => ?_)
    show (UInt32.ofNat x.2.stored.size).toNat = _
    rw [hstored, UInt32.toNat_ofNat_of_lt' (h.fits b hb).stored]
  · refine congrArg List.sum (map_chunks fun x b hb hstored => ?_)
    show (UInt32.ofNat x.2.size).toNat = _
    rw [hstored, UInt32.toNat_ofNat_of_lt' (h.fits b hb).size]
    rfl

end Finished

end Account

/-! ## Whole recordings -/

namespace Recorder

variable {settings : Settings} {calls : List Call} {r₀ r : Recorder} {header : FileHeader}

/-- **A summary says what was recorded.**  A finalized recording is opened, and what its summary
    says is true of the connections that were registered and the messages that were accepted.  The
    chunks that it counts are those that the calls have opened, and they are what is in the file. -/
theorem summary_recorded [Codec.Formats] (hcreate : create settings = .ok r₀)
    (hrun : finalize.run (r₀.after calls) = .ok header r)
    (hconnections : r.connections.length < 2 ^ 32) (hchunks : r.chunks.length < 2 ^ 32)
    (hsize : r.tape.size < 2 ^ 63) (path : String) (reading : Settings) :
    ∃ b, Bag.load path reading r.tape.contents = .ok b ∧
      let batches := ((Account.start settings).after calls).close.chunks
      (Summary.ofBag b).Tells (Call.registered calls) (r₀.accepted calls) batches ∧
        batches.map Batch.compression = r₀.opened calls ∧
        batches.flatMap Batch.messages = r₀.accepted calls ∧
        r.tape.contents.bytes = Image.bytes ⟨Call.registered calls, batches.map Batch.stored⟩ := by
  obtain ⟨hfinished, hbytes, hmessages, hregistered⟩ :=
    finished_of_finalize hcreate hrun hconnections hchunks hsize
  have htells := hfinished.tells path reading
  rw [hregistered, hmessages] at htells
  refine ⟨_, Bag.load_image path reading hfinished.loadable hbytes, htells, ?_, ?_, ?_⟩
  · have hsound : (r₀.after calls).phase ≠ .failed := by
      intro hfailed
      rw [finalize_failed hfailed] at hrun
      cases hrun
    have hopened := (follows_of_create hcreate).opened_after calls hsound
    rw [← Account.compressions_close, Account.compressions, Account.batches] at hopened
    exact (congrArg _ (List.append_nil _).symm).trans hopened
  · rw [← hmessages, Account.messages, hfinished.idle, Option.toList_none, List.append_nil]
  · rw [hbytes, ← hregistered]
    rfl

theorem summary_recorded_sample : ∃ (r₀ : Recorder) (header : FileHeader) (r : Recorder)
    (b : Bag), create .default = .ok r₀ ∧ finalize.run (r₀.after sampleCalls) = .ok header r ∧
      Bag.load "" .default r.tape.contents = .ok b ∧
      (Summary.ofBag b).Tells (Call.registered sampleCalls) (r₀.accepted sampleCalls)
        ((Account.start .default).after sampleCalls).close.chunks := by
  obtain ⟨r₀, header, r, hcreate, hrun, hconnections, hchunks, hsize⟩ := sample_finalized
  obtain ⟨b, hload, htells, -⟩ :=
    summary_recorded hcreate hrun (by omega) (by omega) (by omega) "" .default
  exact ⟨r₀, header, r, b, hcreate, hrun, hload, htells⟩

end Recorder

end BagFile
