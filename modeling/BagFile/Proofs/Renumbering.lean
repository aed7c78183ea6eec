/-
  The account of a copy.

  * `Account.chosen` are the connections that a query selects.  A copy gives each its position
    among them as its id (`Copy.newId?_newIds`), and these ids ascend as the old ones do;
  * so the messages of the copy are recorded in the order in which they are read again
    (`Account.Finished.moved_sorted`), and differ in the ids of their connections only
    (`Account.messages_copied`, `Account.connections_copied`);
  * copying the copy with the same query makes the same account (`Account.after_copying`), since
    all is selected, and keeps its id.
-/
import Mathlib.Data.List.Nodup
import BagFile.Proofs.Transferring

namespace BagFile

theorem RawMessage.noLater_byKey :
    ByKey noLater fun m => toLex (m.time.rank, m.conn.toNat) := by
  intro m n
  rw [Prod.Lex.toLex_le_toLex, Time.rank_inj, noLater, Bool.or_eq_true, Bool.and_eq_true,
    decide_eq_true_eq, decide_eq_true_eq, decide_eq_true_eq, Time.lt_def, UInt32.le_iff_toNat_le]

/-- A message without the number of its connection. -/
def Message.unnumbered (m : Message) : Message :=
  { m with connection := { m.connection with id := 0 } }

/-! ## New ids -/

namespace Copy

/-- Of connections with different ids, each gets its position as its new id. -/
theorem newId?_newIds {cs : List Connection} (h : (cs.map Connection.id).Nodup) {i : Nat}
    {c : Connection} (hc : cs[i]? = some c) :
    newId? (newIds 0 cs) c.id = some (UInt32.ofNat i) := by
  have hkeys : ((newIds 0 cs).map Prod.fst).Nodup := by
    have hfst : (newIds 0 cs).map Prod.fst = (cs.zipIdx.map Prod.fst).map Connection.id := by
      rw [newIds, List.map_map, List.map_map]
      rfl
    rwa [hfst, List.zipIdx_map_fst]
  have hmem : (c.id, UInt32.ofNat i) ∈ newIds 0 cs :=
    List.mem_map.2 ⟨(c, i), List.mem_zipIdx_iff_getElem?.2 hc, rfl⟩
  have hsome : ((newIds 0 cs).reverse.find? (·.1 = c.id)).isSome := by
    rw [List.find?_isSome]
    exact ⟨_, List.mem_reverse.2 hmem, by simp⟩
  obtain ⟨x, hx⟩ := Option.isSome_iff_exists.1 hsome
  have hkey : x.1 = c.id := by simpa using List.find?_some hx
  have hxmem : x ∈ newIds 0 cs := List.mem_reverse.1 (List.mem_of_find?_eq_some hx)
  rw [newId?, hx, Option.map_some, List.inj_on_of_nodup_map hkeys hxmem hmem hkey]

theorem connections_calls (cs : List Connection) (ms : List RawMessage) :
    (calls cs ms).filterMap Call.connection? = cs := by
  have hconnections : (cs.map Call.addConnection).filterMap Call.connection? = cs := by
    rw [List.filterMap_map]
    exact List.filterMap_some
  have hwrites : (writes (newIds 0 cs) ms).filterMap Call.connection? = [] := by
    rw [writes, List.filterMap_filterMap, List.filterMap_eq_nil_iff]
    intro m _
    cases newId? (newIds 0 cs) m.conn <;> rfl
  rw [calls, List.filterMap_append, hconnections, hwrites, List.append_nil]

/-- A copy leaves the opening of chunks to the recorder. -/
theorem beginChunk_notMem_calls (cs : List Connection) (ms : List RawMessage) (z : Compression) :
    .beginChunk z ∉ calls cs ms := by
  rw [calls, List.mem_append, not_or]
  constructor
  · simp
  · rw [writes, List.mem_filterMap]
    rintro ⟨m, -, hm⟩
    obtain ⟨id, -, hid⟩ := Option.map_eq_some_iff.1 hm
    cases hid

end Copy

namespace Account

variable {a : Account} {q : Query} {m n : RawMessage}

/-- The connections on the topics that a query selects. -/
def chosen (a : Account) (q : Query) : List Connection :=
  a.connections.filter fun c => q.Wants c.topic

/-- A message under the new id of its connection. -/
def moved (a : Account) (q : Query) (m : RawMessage) : RawMessage :=
  { m with conn := (Copy.newId? (Copy.newIds 0 (a.chosen q)) m.conn).getD 0 }

/-- What copying the selection of a query asks of its target. -/
def copying (a : Account) (q : Query) : List Call := Copy.calls (a.chosen q) (a.selection q)

/-- The account of the copy, with its last chunk closed. -/
def copied (settings : Settings) (a : Account) (q : Query) : Account :=
  ((start settings).after (a.copying q)).close

/-- A message of a bag with its connection, if that is known. -/
def message? (a : Account) (m : RawMessage) : Option Message :=
  a.connections[m.conn.toNat]?.map fun c => ⟨c, m.time, m.data⟩

/-- Messages with their connections are known by their ids. -/
theorem map_message? {ms : List Message}
    (h : ∀ m ∈ ms, a.connections[m.connection.id.toNat]? = some m.connection) :
    (ms.map Message.raw).map a.message? = ms.map some := by
  rw [List.map_map]
  refine List.map_congr_left fun m hm => ?_
  show (a.connections[m.connection.id.toNat]?).map _ = some m
  rw [h m hm]
  rfl

namespace Finished

variable [Codec.Formats]

theorem chosen_ascending (h : a.Finished) (q : Query) :
    (a.chosen q).Pairwise fun c d => c.id < d.id := h.ids_ascending.filter _

theorem nodup_chosen (h : a.Finished) (q : Query) : ((a.chosen q).map Connection.id).Nodup :=
  (List.pairwise_map.2 (h.chosen_ascending q)).imp UInt32.ne_of_lt

theorem length_chosen (h : a.Finished) (q : Query) : (a.chosen q).length < 2 ^ 32 :=
  (List.length_filter_le _ _).trans_lt h.connections_lt

/-- The connection of a selected message is chosen, and the message is moved to its position. -/
theorem exists_chosen (h : a.Finished) (hm : m ∈ a.selection q) :
    ∃ i c, (a.chosen q)[i]? = some c ∧ c.id = m.conn ∧
      a.connections[m.conn.toNat]? = some c ∧ (a.moved q m).conn = UInt32.ofNat i ∧
        (Copy.newId? (Copy.newIds 0 (a.chosen q)) m.conn).isSome := by
  obtain ⟨⟨c, hc, htopic⟩, -⟩ := selects_iff.1 (mem_selection.1 hm).2
  have hid : c.id = m.conn := by
    rw [h.ids _ c hc]
    exact UInt32.ofNat_toNat
  obtain ⟨i, hi⟩ := List.mem_iff_getElem?.1
    (List.mem_filter.2 ⟨List.mem_of_getElem? hc, decide_eq_true htopic⟩ : c ∈ a.chosen q)
  have hnew := Copy.newId?_newIds (h.nodup_chosen q) hi
  rw [hid] at hnew
  refine ⟨i, c, hi, hid, hc, ?_, by rw [hnew]; rfl⟩
  rw [moved, hnew, Option.getD_some]

/-- Renumbering keeps the order of messages. -/
theorem moved_noLater (h : a.Finished) (hm : m ∈ a.selection q) (hn : n ∈ a.selection q)
    (hle : m.noLater n) : (a.moved q m).noLater (a.moved q n) := by
  obtain ⟨i, c, hi, hcid, -, hmoved, -⟩ := h.exists_chosen hm
  obtain ⟨j, d, hj, hdid, -, hmoved', -⟩ := h.exists_chosen hn
  obtain ⟨hilt, rfl⟩ := List.getElem?_eq_some_iff.1 hi
  obtain ⟨hjlt, rfl⟩ := List.getElem?_eq_some_iff.1 hj
  have hlength := h.length_chosen q
  have hmono : m.conn ≤ n.conn → i ≤ j := by
    intro hconn
    refine Nat.le_of_not_lt fun hji => ?_
    have hlt := List.pairwise_iff_getElem.1 (h.chosen_ascending q) j i hjlt hilt hji
    rw [hcid, hdid] at hlt
    exact UInt32.not_le.2 hlt hconn
  have hconn : m.conn ≤ n.conn → (a.moved q m).conn ≤ (a.moved q n).conn := by
    intro hconn
    rw [hmoved, hmoved', UInt32.le_iff_toNat_le, UInt32.toNat_ofNat_of_lt' (hilt.trans hlength),
      UInt32.toNat_ofNat_of_lt' (hjlt.trans hlength)]
    exact hmono hconn
  rw [RawMessage.noLater, Bool.or_eq_true, Bool.and_eq_true, decide_eq_true_eq, decide_eq_true_eq,
    decide_eq_true_eq] at hle ⊢
  rcases hle with htime | ⟨htime, hle⟩
  · exact .inl htime
  · exact .inr ⟨htime, hconn hle⟩

/-- The messages of a copy are recorded in order. -/
theorem moved_sorted (h : a.Finished) (q : Query) :
    ((a.selection q).map (a.moved q)).Pairwise fun m n => m.noLater n := by
  rw [List.pairwise_map]
  have hsorted : (a.selection q).Pairwise fun m n => m.noLater n :=
    (RawMessage.noLater_byKey.pairwise_mergeSort _).imp fun hle =>
      (RawMessage.noLater_byKey _ _).2 hle
  exact hsorted.imp_of_mem fun hm hn hle => h.moved_noLater hm hn hle

/-- Every selected message is copied. -/
theorem writes_eq (h : a.Finished) (q : Query) :
    Copy.writes (Copy.newIds 0 (a.chosen q)) (a.selection q) =
      ((a.selection q).map (a.moved q)).map .write := by
  rw [Copy.writes, List.map_map, ← List.filterMap_eq_map]
  refine List.filterMap_congr fun m hm => ?_
  obtain ⟨-, -, -, -, -, -, hsome⟩ := h.exists_chosen hm
  obtain ⟨id, hid⟩ := Option.isSome_iff_exists.1 hsome
  simp only [hid, Option.map_some, Function.comp_apply, moved, Option.getD_some]

end Finished

/-! ## Accounts of copies -/

section Copied

variable {settings : Settings}

/-- Registering connections gives them ids in order. -/
theorem after_connections (a : Account) (cs : List Connection) :
    a.after (cs.map .addConnection) = { a with
      connections := a.connections ++
        cs.mapIdx fun i c => { c with id := UInt32.ofNat (a.connections.length + i) } } := by
  induction cs generalizing a with
  | nil => rw [List.mapIdx_nil, List.append_nil]; rfl
  | cons c cs ih =>
    have hafter : a.after ((c :: cs).map .addConnection) =
      (a.addConnection c).after (cs.map .addConnection) := rfl
    rw [hafter, ih, List.mapIdx_cons]
    simp [addConnection, Nat.add_assoc, Nat.add_comm 1]

theorem connections_copied (settings : Settings) (a : Account) (q : Query) :
    (copied settings a q).connections =
      (a.chosen q).mapIdx fun i c => { c with id := UInt32.ofNat i } := by
  have hregistered := (valid_after settings (a.copying q)).2
  rw [Call.registered, copying, Copy.connections_calls] at hregistered
  exact hregistered

theorem chosen_copied (settings : Settings) (a : Account) (q : Query) :
    (copied settings a q).chosen q = (copied settings a q).connections := by
  refine List.filter_eq_self.2 fun c hc => ?_
  rw [connections_copied, List.mem_mapIdx] at hc
  obtain ⟨i, hi, rfl⟩ := hc
  exact (List.mem_filter.1 (List.getElem_mem hi)).2

variable [Codec.Formats]

theorem messages_copied (h : a.Finished) (hadmits : (start settings).Admits (a.copying q)) :
    (copied settings a q).messages = (a.selection q).map (a.moved q) := by
  have hconnections : ((a.chosen q).map Call.addConnection).filterMap Call.message? = [] := by
    rw [List.filterMap_map, List.filterMap_eq_nil_iff]
    exact fun _ _ => rfl
  have hwrites : (((a.selection q).map (a.moved q)).map Call.write).filterMap Call.message? =
      (a.selection q).map (a.moved q) := by
    rw [List.filterMap_map]
    exact List.filterMap_some
  rw [copied, messages_close, messages_after hadmits, copying, Copy.calls, h.writes_eq,
    List.filterMap_append, hconnections, hwrites]
  rfl

/-- The connection of a message in the copy is the one that it had, but for the id. -/
theorem getElem?_copied (settings : Settings) (h : a.Finished) (hm : m ∈ a.selection q) :
    ∃ i c, a.connections[m.conn.toNat]? = some c ∧ q.Wants c.topic ∧
      (copied settings a q).connections[(a.moved q m).conn.toNat]? =
        some { c with id := UInt32.ofNat i } := by
  obtain ⟨i, c, hi, -, hc, hmoved, -⟩ := h.exists_chosen hm
  have hlt : i < 2 ^ 32 := (List.getElem?_eq_some_iff.1 hi).1.trans (h.length_chosen q)
  refine ⟨i, c, hc, of_decide_eq_true (List.mem_filter.1 (List.mem_of_getElem? hi)).2, ?_⟩
  rw [connections_copied, hmoved, UInt32.toNat_ofNat_of_lt' hlt, List.getElem?_mapIdx, hi]
  rfl

theorem message?_moved (h : a.Finished) (hm : m ∈ a.selection q) :
    ((copied settings a q).message? (a.moved q m)).map Message.unnumbered =
      (a.message? m).map Message.unnumbered := by
  obtain ⟨i, c, hc, -, hget⟩ := getElem?_copied settings h hm
  rw [message?, message?, hc, hget]
  rfl

/-- The messages of a copy are read in the order in which they were recorded. -/
theorem sorted_copied (h : a.Finished) (hadmits : (start settings).Admits (a.copying q)) :
    (copied settings a q).messages.mergeSort RawMessage.noLater =
      (copied settings a q).messages := by
  rw [messages_copied h hadmits]
  exact RawMessage.noLater_byKey.mergeSort_of_pairwise (h.moved_sorted q)

/-! ### Copies of copies -/

/-- A query that was copied selects all of the copy. -/
theorem selection_copied (h : a.Finished) (hadmits : (start settings).Admits (a.copying q)) :
    (copied settings a q).selection q = (copied settings a q).messages := by
  have hwants : ∀ m ∈ (copied settings a q).messages, (copied settings a q).selects q m := by
    rw [messages_copied h hadmits]
    intro m' hm'
    obtain ⟨m, hm, rfl⟩ := List.mem_map.1 hm'
    obtain ⟨-, htime⟩ := selects_iff.1 (mem_selection.1 hm).2
    obtain ⟨i, c, -, htopic, hget⟩ := getElem?_copied settings h hm
    exact selects_iff.2 ⟨⟨_, hget, htopic⟩, htime⟩
  rw [selection, List.filter_eq_self.2 hwants, sorted_copied h hadmits]

/-- A copy is copied under the ids that it has. -/
theorem moved_copied (hfinished : (copied settings a q).Finished)
    (hm : m ∈ (copied settings a q).selection q) : (copied settings a q).moved q m = m := by
  obtain ⟨i, c, hi, hid, -, hmoved, -⟩ := hfinished.exists_chosen hm
  rw [chosen_copied] at hi
  rw [← hfinished.ids i c hi, hid] at hmoved
  show ({ m with conn := ((copied settings a q).moved q m).conn } : RawMessage) = m
  rw [hmoved]

/-- **Copying a copy makes the same account.** -/
theorem after_copying (h : a.Finished) (hadmits : (start settings).Admits (a.copying q))
    (hfinished : (copied settings a q).Finished) :
    (start settings).Admits ((copied settings a q).copying q) ∧
      (start settings).after ((copied settings a q).copying q) =
        (start settings).after (a.copying q) := by
  have hwrites : Copy.writes (Copy.newIds 0 ((copied settings a q).chosen q))
      ((copied settings a q).selection q) =
        Copy.writes (Copy.newIds 0 (a.chosen q)) (a.selection q) := by
    have hmoved : ((copied settings a q).selection q).map ((copied settings a q).moved q) =
        (copied settings a q).selection q :=
      (List.map_congr_left fun m hm => moved_copied hfinished hm).trans (List.map_id _)
    rw [h.writes_eq, hfinished.writes_eq, hmoved, selection_copied h hadmits,
      messages_copied h hadmits]
  have hconnections : (start settings).after
      (((copied settings a q).chosen q).map .addConnection) =
        (start settings).after ((a.chosen q).map .addConnection) := by
    rw [after_connections, after_connections, chosen_copied, connections_copied,
      List.mapIdx_mapIdx]
    rfl
  have hafter : ∀ b : Account, (start settings).after (b.copying q) =
      ((start settings).after ((b.chosen q).map .addConnection)).after
        (Copy.writes (Copy.newIds 0 (b.chosen q)) (b.selection q)) := fun _ => List.foldl_append
  constructor
  · rw [copying, Copy.calls, admits_append, hconnections, hwrites]
    exact ⟨admits_connections _ _, (admits_append.1 hadmits).2⟩
  · rw [hafter, hafter, hconnections, hwrites]

end Copied

end Account

end BagFile
