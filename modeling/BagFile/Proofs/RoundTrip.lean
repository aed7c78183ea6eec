/-
  What was recorded is what is read.

  * `Account.Closed`: a recording that has ended, in a file whose positions the format can hold;
    `Account.Finished`: with counts that it can hold, which is enough for its image to be loaded;
    `Account.Recoverable`: its codecs give back what was stored as well;
  * `Account.Finished.reference_all`: the entries of all messages, by time and connection, are the
    located messages in that order;
  * `Recorder.round_trip`: a finalized recording is opened, and its messages are the accepted
    ones, stably sorted by time and connection.
-/
import BagFile.Codec.InMemory
import BagFile.Proofs.Locating
import BagFile.Proofs.Serialisation

namespace BagFile

/-! ## Messages in order -/

/-- Whether a message comes no later than another: by time, then by connection. -/
def RawMessage.noLater (m n : RawMessage) : Bool :=
  m.time < n.time || m.time = n.time && m.conn ≤ n.conn

/-- A message of a bag, with the id of its connection only. -/
def Message.raw (m : Message) : RawMessage := ⟨m.connection.id, m.time, m.data⟩

/-- If a function never fails, its results are a list. -/
theorem exists_map_ok {ε α β : Type} {f : α → Except ε β} {g : β → α} {P : β → Prop} (xs : List α)
    (h : ∀ x ∈ xs, ∃ y, f x = .ok y ∧ g y = x ∧ P y) :
    ∃ ys : List β, xs.map f = ys.map .ok ∧ ys.map g = xs ∧ ∀ y ∈ ys, P y := by
  induction xs with
  | nil => exact ⟨[], rfl, rfl, by simp⟩
  | cons x xs ih =>
    obtain ⟨y, hf, hg, hy⟩ := h x List.mem_cons_self
    obtain ⟨ys, hfs, hgs, hys⟩ := ih fun z hz => h z (List.mem_cons_of_mem _ hz)
    refine ⟨y :: ys, ?_, ?_, ?_⟩
    · rw [List.map_cons, List.map_cons, hf, hfs]
    · rw [List.map_cons, hg, hgs]
    · exact List.forall_mem_cons.2 ⟨hy, hys⟩

theorem map_filter_congr {α β : Type} {p q : α → Bool} {f g : α → β} {xs : List α}
    (hp : ∀ x ∈ xs, p x = q x) (hf : ∀ x ∈ xs, q x → f x = g x) :
    (xs.filter p).map f = (xs.filter q).map g := by
  rw [List.filter_congr hp]
  exact List.map_congr_left fun x hx => hf x (List.mem_filter.1 hx).1 (List.mem_filter.1 hx).2

section Ties

variable {α γ ε : Type} {key : ε → Nat}

theorem filter_of_ne (key : ε → Nat) {ys : List (Nat × ε)} (t : Nat) {i : Nat}
    (h : ∀ y ∈ ys, y.1 ≠ i) :
    ys.filter (fun y => toLex (key y.2, y.1) = toLex (t, i)) = [] := by
  rw [List.filter_eq_nil_iff]
  intro y hy he
  simp only [decide_eq_true_eq, toLex_inj, Prod.mk.injEq] at he
  exact h y hy he.2

/-- Of groups with different numbers, one has the ties of a number. -/
theorem filter_numbered (key : ε → Nat) {cs : List (Nat × γ)} (hcs : (cs.map Prod.fst).Nodup)
    (f : γ → List ε) {t i : Nat} {ties : List (Nat × ε)} (hties : ∀ c, (i, c) ∈ cs →
      ((f c).map (i, ·)).filter (fun y => toLex (key y.2, y.1) = toLex (t, i)) = ties)
    (hnone : i ∉ cs.map Prod.fst → ties = []) :
    (cs.flatMap fun c => (f c.2).map (c.1, ·)).filter
      (fun y => toLex (key y.2, y.1) = toLex (t, i)) = ties := by
  have hgroup : ∀ c ∈ cs, ((f c.2).map (c.1, ·)).filter
      (fun y => toLex (key y.2, y.1) = toLex (t, i)) = if c.1 = i then ties else [] := by
    rintro ⟨j, c⟩ hc
    by_cases hj : j = i
    · subst hj
      rw [if_pos rfl]
      exact hties c hc
    · rw [if_neg hj]
      refine filter_of_ne key t fun y hy => ?_
      obtain ⟨e, -, rfl⟩ := List.mem_map.1 hy
      exact hj
  rw [List.filter_flatMap, List.flatMap_congr hgroup]
  have hfst : (cs.flatMap fun c => if c.1 = i then ties else []) =
      (cs.map Prod.fst).flatMap fun j => if j = i then ties else [] := by
    rw [List.flatMap_map]
  rw [hfst, flatMap_ite_eq hcs]
  split
  · rfl
  · next hi => exact (hnone hi).symm

/-- A group of numbered elements, put in order of a key, has the ties that it has among all. -/
theorem filter_grouped {sort : List ε → List ε} (conn : α → UInt32)
    (elem : α → ε) (hsort : ∀ es t, (sort es).filter (key · = t) = es.filter (key · = t))
    (xs : List α) (t : Nat) {i : Nat} (hi : i < 2 ^ 32) :
    ((sort (((xs.map fun x => (conn x, elem x)).filter (·.1 = UInt32.ofNat i)).map Prod.snd)).map
        (i, ·)).filter (fun y => toLex (key y.2, y.1) = toLex (t, i)) =
      (xs.map fun x => ((conn x).toNat, elem x)).filter
        fun y => toLex (key y.2, y.1) = toLex (t, i) := by
  have hconn : ∀ x, conn x = UInt32.ofNat i ↔ (conn x).toNat = i := by
    intro x
    rw [← UInt32.toNat_inj, UInt32.toNat_ofNat_of_lt' hi]
  have hgroup : ((xs.map fun x => (conn x, elem x)).filter (·.1 = UInt32.ofNat i)).map Prod.snd =
      (xs.filter fun x => (conn x).toNat = i).map elem := by
    rw [List.filter_map, List.map_map]
    refine map_filter_congr (fun x _ => ?_) fun x _ _ => rfl
    simp [hconn]
  have hties : ∀ es : List ε, (es.map (i, ·)).filter
      (fun y => toLex (key y.2, y.1) = toLex (t, i)) = (es.filter (key · = t)).map (i, ·) := by
    intro es
    rw [List.filter_map]
    refine map_filter_congr (fun e _ => ?_) fun e _ _ => rfl
    simp
  rw [hties, hsort, hgroup, List.filter_map, List.map_map, List.filter_filter, List.filter_map]
  refine map_filter_congr (fun x _ => ?_) fun x _ hx => ?_
  · simp
  · have hi : (conn x).toNat = i := by simp_all
    rw [Function.comp_apply, hi]

end Ties

namespace Account

/-- Whether a message is on a topic that a query selects. -/
def onTopic (a : Account) (q : Query) (m : RawMessage) : Bool :=
  (a.connections[m.conn.toNat]?).any fun c => q.Wants c.topic

theorem onTopic_iff {a : Account} {q : Query} {m : RawMessage} :
    a.onTopic q m ↔ ∃ c, a.connections[m.conn.toNat]? = some c ∧ q.Wants c.topic := by
  simp [onTopic, Option.any_eq_true]

/-- Whether a query selects a message. -/
def selects (a : Account) (q : Query) (m : RawMessage) : Bool :=
  a.onTopic q m && q.Within m.time

/-- The messages that a query selects, in order. -/
def selection (a : Account) (q : Query) : List RawMessage :=
  (a.messages.filter (a.selects q)).mergeSort RawMessage.noLater

theorem selects_iff {a : Account} {q : Query} {m : RawMessage} : a.selects q m ↔
    (∃ c, a.connections[m.conn.toNat]? = some c ∧ q.Wants c.topic) ∧ q.Within m.time := by
  rw [selects, Bool.and_eq_true, onTopic_iff, decide_eq_true_eq]

theorem mem_selection {a : Account} {q : Query} {m : RawMessage} :
    m ∈ a.selection q ↔ m ∈ a.messages ∧ a.selects q m := by
  rw [selection, List.mem_mergeSort, List.mem_filter]

theorem ofName_name {z : Compression} {codec : Codec} (h : Codec.ofCompression z = .ok codec) :
    Compression.ofName z.name = z := by
  cases z with
  | other n => cases h
  | _ => decide

variable [Codec.Formats]

/-- A recording that has ended, in a file that can be that long. -/
structure Closed (a : Account) : Prop where
  idle : a.current = none
  known : ∀ m ∈ a.messages, m.conn.toNat < a.connections.length
  ids : ∀ i c, a.connections[i]? = some c → c.id = UInt32.ofNat i
  codecs : ∀ b ∈ a.chunks, Codec.ofCompression b.compression = .ok b.codec
  fits : ∀ b ∈ a.chunks, b.stored.Fits
  tables : a.image.TablesFit
  length_lt : a.image.bytes.length < 2 ^ 63

/-- A recording that has ended and can be opened. -/
structure Finished (a : Account) : Prop extends a.Closed where
  connections_lt : a.connections.length < 2 ^ 32
  chunks_lt : a.chunks.length < 2 ^ 32

/-- A recording that has ended and can be read back. -/
structure Recoverable (a : Account) : Prop extends Finished a where
  lossless : ∀ b ∈ a.chunks, b.codec.Lossless

variable {a : Account} {contents : Contents} {path : String} {settings : Settings}

namespace Closed

/-- A message has a connection. -/
theorem exists_connection (h : a.Closed) {m : RawMessage} (hm : m ∈ a.messages) :
    ∃ c ∈ a.connections, c.id = m.conn := by
  have hc := List.getElem?_eq_getElem (h.known m hm)
  refine ⟨_, List.getElem_mem (h.known m hm), ?_⟩
  rw [h.ids _ _ hc]
  exact UInt32.ofNat_toNat

theorem readable (h : a.Closed) : a.image.Readable where
  tables := h.tables
  chunks := by
    intro c hc
    obtain ⟨b, hb, rfl⟩ := List.mem_map.1 hc
    exact h.fits b hb
  known := by
    intro c hc
    obtain ⟨b, hb, rfl⟩ := List.mem_map.1 hc
    exact ofName_name (h.codecs b hb)
  conns := by
    intro c hc y hy
    obtain ⟨b, hb, rfl⟩ := List.mem_map.1 hc
    obtain ⟨m, hm, he⟩ := List.mem_map.1 (b.mem_index.1 (List.mem_map_of_mem hy))
    have hmem : m ∈ a.messages :=
      List.mem_flatMap.2 ⟨b, List.mem_append_left _ hb, hm⟩
    obtain ⟨x, hx, hid⟩ := h.exists_connection hmem
    exact List.mem_map.2 ⟨x, hx, hid.trans he⟩
  length_lt := h.length_lt

end Closed

namespace Finished

theorem messages_eq (h : a.Finished) :
    a.messages = (locate Layout.dataStart a.chunks).map Prod.fst := by
  rw [map_fst_locate, messages, h.idle, Option.toList_none, List.append_nil]

/-- Connections are told apart by their ids. -/
theorem getElem?_of_id (h : a.Finished) {c : Connection} (hc : c ∈ a.connections) :
    a.connections[c.id.toNat]? = some c := by
  obtain ⟨i, hi⟩ := List.mem_iff_getElem?.1 hc
  have hlt : i < 2 ^ 32 := (List.getElem?_eq_some_iff.1 hi).1.trans h.connections_lt
  rwa [h.ids i c hi, UInt32.toNat_ofNat_of_lt' hlt]

theorem ids_ascending (h : a.Finished) : a.connections.Pairwise fun c d => c.id < d.id := by
  rw [List.pairwise_iff_getElem]
  intro i j hi hj hij
  rw [h.ids i _ (List.getElem?_eq_getElem hi), h.ids j _ (List.getElem?_eq_getElem hj),
    UInt32.lt_iff_toNat_lt, UInt32.toNat_ofNat_of_lt' (hi.trans h.connections_lt),
    UInt32.toNat_ofNat_of_lt' (hj.trans h.connections_lt)]
  exact hij

/-- A query for everything selects every message. -/
theorem selects_all (h : a.Finished) {m : RawMessage} (hm : m ∈ a.messages) : a.selects .all m := by
  rw [selects, onTopic, List.getElem?_eq_getElem (h.known m hm)]
  rfl

theorem selection_all (h : a.Finished) :
    a.selection .all = a.messages.mergeSort RawMessage.noLater := by
  rw [selection, List.filter_eq_self.2 fun m hm => h.selects_all hm]

theorem loadable (h : a.Finished) : a.image.Loadable where
  toReadable := h.readable
  connections_lt := h.connections_lt
  chunks_lt := by
    rw [image, List.length_map]
    exact h.chunks_lt

/-! ### Messages -/

/-- A message of the recording has its connection in the bag. -/
theorem named_eq (h : a.Finished) {m : RawMessage} (hm : m ∈ a.messages) :
    ∃ c, a.connections[m.conn.toNat]? = some c ∧ c.id = m.conn ∧
      (a.image.bag path settings).named m = .ok ⟨c, m.time, m.data⟩ := by
  obtain ⟨c, hc, hid⟩ := h.exists_connection hm
  have hget := h.getElem?_of_id hc
  have hfind : (a.image.bag path settings).connection? m.conn = some c := by
    have hsome : (a.connections.reverse.find? (·.id = m.conn)).isSome := by
      rw [List.find?_isSome]
      exact ⟨c, List.mem_reverse.2 hc, by simpa using hid⟩
    obtain ⟨d, hd⟩ := Option.isSome_iff_exists.1 hsome
    have hdid : d.id = m.conn := by simpa using List.find?_some hd
    have hdget := h.getElem?_of_id (List.mem_reverse.1 (List.mem_of_find?_eq_some hd))
    rw [hdid, ← hid, hget] at hdget
    cases hdget
    exact hd
  refine ⟨c, hid ▸ hget, hid, ?_⟩
  rw [Bag.named, hfind]

/-! ### Order -/

/-- A located message with the position of its connection, as the merge compares it. -/
def numbered (x : RawMessage × Entry) : Nat × Entry := (x.1.conn.toNat, x.2)

theorem listed_eq (a : Account) (path : String) (settings : Settings) (c : Connection) :
    (a.image.bag path settings).listed c = Entry.sort (Index.entriesOf c.id
      ((locate Layout.dataStart a.chunks).map RawMessage.filed)) := by
  rw [← sort_entriesOf_rows, ← Index.getD_entries?_ofRows]
  rfl

omit [Codec.Formats] in
/-- The entries of a connection at a point in time, in the list of the connection and among all
    messages. -/
theorem filter_listed (xs : List (RawMessage × Entry)) (t : Nat) {i : Nat} (hi : i < 2 ^ 32) :
    ((Entry.sort (Index.entriesOf (UInt32.ofNat i) (xs.map RawMessage.filed))).map (i, ·)).filter
        (Merge.rank · = toLex (t, i)) =
      (xs.map numbered).filter (Merge.rank · = toLex (t, i)) :=
  filter_grouped (fun x : RawMessage × Entry => x.1.conn) Prod.snd
    Entry.sort_byKey.filter_mergeSort xs t hi

/-- The entries of the lists of the selected connections have the ties that they have among the
    messages of these connections. -/
theorem filter_selected (h : a.Finished) (path : String) (settings : Settings) (q : Query)
    (k : ℕ ×ₗ ℕ) :
    (((a.image.bag path settings).selected q).flatMap fun x =>
        ((a.image.bag path settings).listed x.2).map (x.1, ·)).filter (Merge.rank · = k) =
      (((locate Layout.dataStart a.chunks).filter (a.onTopic q ·.1)).map numbered).filter
        (Merge.rank · = k) := by
  obtain ⟨t, i, rfl⟩ : ∃ t i, k = toLex (t, i) := ⟨(ofLex k).1, (ofLex k).2, rfl⟩
  have hselected : ∀ {j : Nat} {c : Connection}, (j, c) ∈ (a.image.bag path settings).selected q ↔
      a.connections[j]? = some c ∧ q.Wants c.topic := by
    have hconnections : (a.image.bag path settings).connections = a.connections := rfl
    intro j c
    rw [Bag.mem_selected, hconnections]
  refine filter_numbered (fun e : Entry => e.time.rank) ?_ _ (fun c hc => ?_) fun hi => ?_
  · exact (List.pairwise_map.2 ((a.image.bag path settings).selected_ascending q)).imp Nat.ne_of_lt
  · -- the list of a connection goes by its id, which is its position in the table
    obtain ⟨hc, hwants⟩ := hselected.1 hc
    have hlt : i < 2 ^ 32 := (List.getElem?_eq_some_iff.1 hc).1.trans h.connections_lt
    rw [listed_eq, h.ids i c hc]
    refine (filter_listed _ t hlt).trans ?_
    rw [List.filter_map, List.filter_map, List.filter_filter]
    refine congrArg _ (List.filter_congr fun x _ => ?_)
    have honTopic : Merge.rank (numbered x) = toLex (t, i) → a.onTopic q x.1 = true := by
      intro hx
      have hi : x.1.conn.toNat = i := (Prod.mk.inj (toLex_inj.1 hx)).2
      exact onTopic_iff.2 ⟨c, hi ▸ hc, hwants⟩
    rw [Function.comp_apply]
    by_cases hx : Merge.rank (numbered x) = toLex (t, i)
    · rw [honTopic hx, Bool.and_true]
    · rw [decide_eq_false hx, Bool.false_and]
  · -- no message on a selected topic has a connection that is not selected
    refine filter_of_ne (fun e : Entry => e.time.rank) t fun y hy he => hi ?_
    obtain ⟨x, hx, rfl⟩ := List.mem_map.1 hy
    obtain ⟨c, hc, hwants⟩ := onTopic_iff.1 (List.mem_filter.1 hx).2
    exact List.mem_map.2 ⟨(i, c), hselected.2 ⟨he ▸ hc, hwants⟩, rfl⟩

/-- **The entries of a query**, by time and connection, are the located messages that it selects
    in that order. -/
theorem reference_eq (h : a.Finished) (q : Query) :
    (a.image.bag path settings).reference q =
      (((locate Layout.dataStart a.chunks).filter (a.selects q ·.1)).mergeSort
        fun x y => x.1.noLater y.1).map Prod.snd := by
  have hsort : (((locate Layout.dataStart a.chunks).filter (a.selects q ·.1)).mergeSort
      fun x y => x.1.noLater y.1).map numbered =
        (((locate Layout.dataStart a.chunks).filter (a.selects q ·.1)).map numbered).mergeSort
          Merge.noLater := by
    refine List.map_mergeSort fun x hx y hy => ?_
    have hconn : decide (x.1.conn ≤ y.1.conn) = decide (x.1.conn.toNat ≤ y.1.conn.toNat) :=
      decide_eq_decide.2 UInt32.le_iff_toNat_le
    rw [RawMessage.noLater, Merge.noLater, numbered, numbered,
      time_locate (List.mem_filter.1 hx).1, time_locate (List.mem_filter.1 hy).1, hconn]
  have htimes : ((locate Layout.dataStart a.chunks).filter (a.selects q ·.1)).map numbered =
      (((locate Layout.dataStart a.chunks).filter (a.onTopic q ·.1)).map numbered).filter
        fun x => q.Within x.2.time := by
    rw [List.filter_map, List.filter_filter]
    refine map_filter_congr (fun x hx => ?_) fun x _ _ => rfl
    rw [selects, Function.comp_apply, numbered, time_locate hx, Bool.and_comm]
  have hfound : ((((a.image.bag path settings).selected q).flatMap fun x =>
      ((a.image.bag path settings).listed x.2).map (x.1, ·)).filter
        fun x => q.Within x.2.time).mergeSort Merge.noLater =
      (((locate Layout.dataStart a.chunks).filter (a.selects q ·.1)).map numbered).mergeSort
        Merge.noLater := by
    refine Merge.noLater_byKey.mergeSort_congr fun k => ?_
    rw [htimes, List.filter_comm, h.filter_selected, List.filter_comm]
  rw [Bag.reference, hfound, ← hsort, List.map_map]
  rfl

/-- The entries of all messages are the located messages in order. -/
theorem reference_all (h : a.Finished) :
    (a.image.bag path settings).reference .all =
      ((locate Layout.dataStart a.chunks).mergeSort fun x y => x.1.noLater y.1).map Prod.snd := by
  rw [h.reference_eq, List.filter_eq_self.2 fun x hx => ?_]
  refine h.selects_all ?_
  rw [h.messages_eq]
  exact List.mem_map_of_mem hx

end Finished

namespace Recoverable

/-- An entry of a located message gives that message. -/
theorem messageAt_eq (h : a.Recoverable) (hc : contents.bytes = a.image.bytes)
    {x : RawMessage × Entry} (hx : x ∈ locate Layout.dataStart a.chunks) :
    (a.image.bag path settings).messageAt (Stream.ofFile contents) x.2 =
      (a.image.bag path settings).named x.1 := by
  obtain ⟨p, b, hb, hplaced, hx⟩ := mem_locate hx
  have hsize := (h.fits b hb).size
  obtain ⟨offset, hentry, hrecord⟩ := Batch.mem_located hsize hx
  have hd : (Dense.ofBytes b.contents).size = b.contents.length := Dense.size_ofBytes _
  have hdata : x.1.data.size < 2 ^ 32 := by
    have hl := hrecord.length_le
    rw [RawMessage.bytes, List.length_append, Bytes.length_sized, Dense.length_bytes,
      List.length_drop] at hl
    have hlt : b.contents.length < 2 ^ 32 := hsize
    omega
  have hraw : Fetcher.rawAt (Stream.ofFile contents) (a.image.bag path settings).chunks x.2 =
      .ok x.1 := by
    rw [hentry]
    refine Image.rawAt_bag h.loadable hc hplaced (h.codecs b hb)
      (h.lossless b hb _ _ (hd ▸ hsize)) hd ?_ hdata _
    rwa [Dense.bytes_ofBytes]
  rw [Bag.messageAt, hraw]
  rfl

/-- The messages of a query are those of the recording that it selects, in order, however many are
    asked for. -/
theorem messages_of (h : a.Recoverable) (hc : contents.bytes = a.image.bytes) (q : Query)
    (path : String) (settings : Settings) :
    ∃ ms : List Message, ms.map Message.raw = a.selection q ∧
      (∀ m ∈ ms, a.connections[m.connection.id.toNat]? = some m.connection) ∧
      ((a.image.bag path settings).reference q).map
        ((a.image.bag path settings).messageAt (Stream.ofFile contents)) = ms.map .ok := by
  have hraw : (((locate Layout.dataStart a.chunks).filter (a.selects q ·.1)).mergeSort
      fun x y => x.1.noLater y.1).map Prod.fst = a.selection q := by
    rw [selection, h.messages_eq, List.filter_map]
    exact List.map_mergeSort fun x _ y _ => rfl
  have hmem : ∀ {m : RawMessage}, m ∈ a.selection q → m ∈ a.messages :=
    fun hm => (mem_selection.1 hm).1
  obtain ⟨ms, hok, hms, hconns⟩ := exists_map_ok (f := (a.image.bag path settings).named)
    (g := Message.raw) (P := fun m => a.connections[m.connection.id.toNat]? = some m.connection)
    (a.selection q) fun m hm => by
      obtain ⟨c, hget, hid, hnamed⟩ := h.named_eq (hmem hm)
      refine ⟨_, hnamed, ?_, ?_⟩
      · show (⟨c.id, m.time, m.data⟩ : RawMessage) = m
        rw [hid]
      · show a.connections[c.id.toNat]? = some c
        rw [hid, hget]
  refine ⟨ms, hms, hconns, ?_⟩
  rw [← hok, h.reference_eq, ← hraw, List.map_map, List.map_map]
  refine List.map_congr_left fun x hx => ?_
  exact h.messageAt_eq hc (List.mem_filter.1 (List.mem_mergeSort.1 hx)).1

/-- The messages of the bag are those of the recording in order, however many are asked for. -/
theorem messages_all (h : a.Recoverable) (hc : contents.bytes = a.image.bytes) :
    ∃ ms : List Message, ms.map Message.raw = a.messages.mergeSort RawMessage.noLater ∧
      (∀ m ∈ ms, a.connections[m.connection.id.toNat]? = some m.connection) ∧
      ∀ cache : Cache, cache.Agrees (Stream.ofFile contents) (a.image.bag path settings).chunks →
        (Messages.toList (a.image.bag path settings) (Stream.ofFile contents)
          (Messages.start (a.image.bag path settings) .all cache)).1 = ms.map .ok ∧
        ∀ k, (Messages.take (a.image.bag path settings) (Stream.ofFile contents) k
          (Messages.start (a.image.bag path settings) .all cache)).1 = (ms.take k).map .ok := by
  have hindex : (a.image.bag path settings).index = Index.ofRows a.image.rows := rfl
  obtain ⟨ms, hraw, hconns, hread⟩ := h.messages_of hc .all path settings
  refine ⟨ms, hraw.trans h.selection_all, hconns, fun cache hcache => ⟨?_, fun k => ?_⟩⟩
  · rw [Messages.toList_start hcache, Bag.toList_entries hindex, hread]
  · rw [Messages.take_start hcache, Bag.take_entries hindex, List.map_take, hread, List.map_take]

end Recoverable

end Account

/-! ## Whole recordings -/

/-- What some calls have recorded is closed, if its lengths fit and the file can be that long. -/
theorem Account.closed_after [Codec.Formats] {settings : Settings} {calls : List Call}
    (hfits : ((start settings).after calls).FinishFits)
    (hlength : ((start settings).after calls).close.image.bytes.length < 2 ^ 63) :
    ((start settings).after calls).close.Closed := by
  obtain ⟨hvalid, hregistered⟩ := valid_after settings calls
  exact {
    idle := rfl
    known := hvalid.close.known
    ids := by
      intro i c hc
      have hc : (Call.registered calls)[i]? = some c := hregistered ▸ hc
      rw [Call.registered, List.getElem?_mapIdx, Option.map_eq_some_iff] at hc
      obtain ⟨x, -, rfl⟩ := hc
      rfl
    codecs := fun b hb => hvalid.close.codecs b (List.mem_append_left _ hb)
    fits := hfits.1
    tables := hfits.2
    length_lt := hlength }

/-- It is finished, if what the file has to count can be. -/
theorem Account.finished_after [Codec.Formats] {settings : Settings} {calls : List Call}
    (hfits : ((start settings).after calls).FinishFits)
    (hconnections : ((start settings).after calls).close.connections.length < 2 ^ 32)
    (hchunks : ((start settings).after calls).close.chunks.length < 2 ^ 32)
    (hlength : ((start settings).after calls).close.image.bytes.length < 2 ^ 63) :
    ((start settings).after calls).close.Finished where
  toClosed := closed_after hfits hlength
  connections_lt := hconnections
  chunks_lt := hchunks

namespace Recorder

variable {settings : Settings} {calls : List Call} {r₀ r : Recorder} {header : FileHeader}

/-- A finalized recording is finished, if what the file has to count and to address can be. -/
theorem finished_of_finalize [Codec.Formats] (hcreate : create settings = .ok r₀)
    (hrun : finalize.run (r₀.after calls) = .ok header r)
    (hconnections : r.connections.length < 2 ^ 32) (hchunks : r.chunks.length < 2 ^ 32)
    (hsize : r.tape.size < 2 ^ 63) :
    ((Account.start settings).after calls).close.Finished ∧
      r.tape.contents.bytes = ((Account.start settings).after calls).close.image.bytes ∧
      ((Account.start settings).after calls).close.messages = r₀.accepted calls ∧
      ((Account.start settings).after calls).close.connections = Call.registered calls := by
  obtain ⟨hfits, -, hholds, hmessages, hconns, hlength⟩ :=
    (follows_of_create hcreate).of_finalize calls hrun
  rw [hconns] at hconnections
  rw [hlength] at hchunks
  rw [← Tape.length_bytes, hholds.bytes_eq] at hsize
  refine ⟨Account.finished_after hfits hconnections hchunks hsize, hholds.bytes_eq, ?_,
    (Account.valid_after settings calls).2⟩
  rw [Account.messages_close, hmessages]
  rfl

/-- It is recoverable if the codecs that were used give back what they stored. -/
theorem recoverable_of_finished [Codec.Formats]
    (h : ((Account.start settings).after calls).close.Finished)
    (hcodecs : ∀ z codec, Call.Uses settings calls z → Codec.ofCompression z = .ok codec →
      codec.Lossless) :
    ((Account.start settings).after calls).close.Recoverable := by
  have hcompressions := (Account.valid_after settings calls).1.close.compressions
  exact {
    toFinished := h
    lossless := fun b hb =>
      hcodecs _ _ (hcompressions b (List.mem_append_left _ hb)) (h.codecs b hb) }

/-- **What was recorded is what is read.**  A finalized recording is opened; its messages are
    those that were accepted, each with the connection that was registered for it, by time and
    connection, and as they were recorded where these are the same.  None of them is an error,
    and none follows.  Counts are 32-bit numbers in the file, and its positions are signed 64-bit
    numbers; the codecs that were used must give back what they stored. -/
theorem round_trip [Codec.Formats] (hcreate : create settings = .ok r₀)
    (hrun : finalize.run (r₀.after calls) = .ok header r)
    (hcodecs : ∀ z codec, Call.Uses settings calls z → Codec.ofCompression z = .ok codec →
      codec.Lossless)
    (hconnections : r.connections.length < 2 ^ 32) (hchunks : r.chunks.length < 2 ^ 32)
    (hsize : r.tape.size < 2 ^ 63) (path : String) (reading : Settings) :
    ∃ (b : Bag) (ms : List Message), Bag.load path reading r.tape.contents = .ok b ∧
      ms.map Message.raw = (r₀.accepted calls).mergeSort RawMessage.noLater ∧
      (∀ m ∈ ms, (Call.registered calls)[m.connection.id.toNat]? = some m.connection) ∧
      ∀ cache : Cache, cache.Agrees (Stream.ofFile r.tape.contents) b.chunks →
        (Messages.toList b (Stream.ofFile r.tape.contents) (Messages.start b .all cache)).1 =
          ms.map .ok ∧
        ∀ k, (Messages.take b (Stream.ofFile r.tape.contents) k
          (Messages.start b .all cache)).1 = (ms.take k).map .ok := by
  obtain ⟨hfinished, hbytes, hmessages, hregistered⟩ :=
    finished_of_finalize hcreate hrun hconnections hchunks hsize
  have hrecoverable := recoverable_of_finished hfinished hcodecs
  obtain ⟨ms, hraw, hconns, hread⟩ := hrecoverable.messages_all hbytes
  refine ⟨_, ms, Bag.load_image path reading hfinished.loadable hbytes, ?_, ?_, hread⟩
  · rw [hraw, hmessages]
  · rwa [hregistered] at hconns

/-- The sample is finalized, with two connections and two chunks. -/
theorem sample_finalized : ∃ (r₀ : Recorder) (header : FileHeader) (r : Recorder),
    create .default = .ok r₀ ∧ finalize.run (r₀.after sampleCalls) = .ok header r ∧
      r.connections.length = 2 ∧ r.chunks.length = 2 ∧ r.tape.size = 5161 := by
  obtain ⟨r₀, header, r, hcreate, hrun⟩ := exists_finalize .default sampleCalls
    (by decide) (by decide +kernel) (by decide +kernel)
  obtain ⟨-, -, hholds, -, hconns, hlength⟩ :=
    (follows_of_create hcreate).of_finalize sampleCalls hrun
  refine ⟨r₀, header, r, hcreate, hrun, ?_, ?_, ?_⟩
  · rw [hconns]
    decide +kernel
  · rw [hlength]
    decide +kernel
  · have hbytes := Image.length_bytes ((Account.start .default).after sampleCalls).close.image
    rw [← Tape.length_bytes, hholds.bytes_eq]
    refine hbytes.trans ?_
    decide +kernel

theorem round_trip_sample : ∃ (r₀ : Recorder) (header : FileHeader) (r : Recorder) (b : Bag)
    (ms : List Message), create .default = .ok r₀ ∧
      finalize.run (r₀.after sampleCalls) = .ok header r ∧
      Bag.load "" .default r.tape.contents = .ok b ∧
      ms.map Message.raw = (r₀.accepted sampleCalls).mergeSort RawMessage.noLater ∧
      (Messages.toList b (Stream.ofFile r.tape.contents)
        (Messages.start b .all Cache.empty)).1 = ms.map .ok := by
  obtain ⟨r₀, header, r, hcreate, hrun, hconnections, hchunks, hsize⟩ := sample_finalized
  have hcodecs : ∀ z codec, Call.Uses .default sampleCalls z →
      Codec.ofCompression z = .ok codec → codec.Lossless := by
    rintro z codec (rfl | hz) hcodec
    · cases hcodec
      exact Codec.lossless_plain
    · simp only [sampleCalls, List.mem_cons, reduceCtorEq, Call.beginChunk.injEq, false_or,
        List.not_mem_nil, or_false] at hz
      subst hz
      cases hcodec
      exact Codec.lossless_plain
  obtain ⟨b, ms, hload, hraw, -, hread⟩ :=
    round_trip hcreate hrun hcodecs (by omega) (by omega) (by omega) "" .default
  exact ⟨r₀, header, r, b, ms, hcreate, hrun, hload, hraw, (hread _ (Cache.agrees_empty _ _)).1⟩

end Recorder

end BagFile
