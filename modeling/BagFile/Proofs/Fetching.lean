/-
  Fetching a message gives what stands in the file, whatever was kept before.

  * `Chunk.find_eq`: in a table in order, halving finds what a search from the end finds;
  * `Fetcher.contentsAt` and `Bag.messageAt` read the file each time and remember nothing;
  * `Fetcher.Agrees` is the invariant: what a fetcher keeps is what the file would give.
    Every fetch keeps it, and gives the message of `Bag.messageAt`;
  * `Messages.take_eq` and `Messages.toList_eq` say the same of whole queries.
-/
import BagFile.Messages
import BagFile.Proofs.MergeOrder
import BagFile.Proofs.Writing

namespace BagFile

/-! ## Finding a chunk -/

namespace Chunk

/-- Chunks by position. -/
def Ordered (chunks : List Chunk) : Prop := chunks.Pairwise fun a b => a.recordPos ≤ b.recordPos

variable {chunks : List Chunk} {pos : UInt64} {i j : Nat}

theorem Ordered.le (h : Ordered chunks) (hij : i ≤ j) (hi : i < chunks.length)
    (hj : j < chunks.length) : chunks[i].recordPos ≤ chunks[j].recordPos := by
  rcases Nat.lt_or_eq_of_le hij with hlt | rfl
  · exact List.pairwise_iff_getElem.1 h _ _ _ hj hlt
  · exact UInt64.le_refl _

/-- All chunks from an index on are beyond a position. -/
def BeyondFrom (chunks : List Chunk) (pos : UInt64) (i : Nat) : Prop :=
  ∀ j (hj : j < chunks.length), i ≤ j → pos < chunks[j].recordPos

/-- **Halving** ends at the last chunk of its stretch that is not beyond the position, or at the
    first of the stretch. -/
theorem narrow_spec (h : Ordered chunks) (base size : Nat) (hpos : 0 < size)
    (hsize : base + size ≤ chunks.length) (hbeyond : BeyondFrom chunks pos (base + size)) :
    ∃ i, narrow chunks.toArray pos base size = i ∧ base ≤ i ∧ i < base + size ∧
      BeyondFrom chunks pos (i + 1) ∧
        ∀ hi : i < chunks.length, base < i → chunks[i].recordPos ≤ pos := by
  induction size using Nat.strong_induction_on generalizing base with
  | _ size ih =>
    rw [narrow]
    by_cases hone : size ≤ 1
    · rw [if_pos hone]
      refine ⟨base, rfl, le_rfl, by omega, ?_, fun _ hlt => absurd hlt (Nat.lt_irrefl _)⟩
      intro j hj hle
      exact hbeyond j hj (by omega)
    · rw [if_neg hone]
      have hmid : base + size / 2 < chunks.length := by omega
      have hget : chunks.toArray[base + size / 2]? = some chunks[base + size / 2] := by
        rw [List.getElem?_toArray, List.getElem?_eq_getElem hmid]
      simp only [hget, Option.any_some, decide_eq_true_eq]
      by_cases hlt : pos < chunks[base + size / 2].recordPos
      · -- everything from the middle on is beyond the position as well
        rw [if_pos hlt]
        have hstop : BeyondFrom chunks pos (base + (size - size / 2)) := fun j hj hle =>
          UInt64.lt_of_lt_of_le hlt (h.le (by omega) hmid hj)
        obtain ⟨i, he, hle, hi, hrest, hfound⟩ := ih (size - size / 2) (by omega) base (by omega)
          (by omega) hstop
        exact ⟨i, he, hle, by omega, hrest, hfound⟩
      · rw [if_neg hlt]
        have hstop : BeyondFrom chunks pos (base + size / 2 + (size - size / 2)) := fun j hj hle =>
          hbeyond j hj (by omega)
        obtain ⟨i, he, hle, hi, hrest, hfound⟩ := ih (size - size / 2) (by omega)
          (base + size / 2) (by omega) (by omega) hstop
        refine ⟨i, he, by omega, by omega, hrest, fun hl hbase => ?_⟩
        rcases Nat.lt_or_eq_of_le hle with hlt' | rfl
        · exact hfound hl hlt'
        · exact UInt64.not_lt.1 hlt

theorem BeyondFrom.ne (h : BeyondFrom chunks pos i) : ∀ c ∈ chunks.drop i, c.recordPos ≠ pos := by
  intro c hc
  obtain ⟨j, hj, rfl⟩ := List.mem_iff_getElem.1 hc
  rw [List.length_drop] at hj
  rw [List.getElem_drop]
  exact (UInt64.ne_of_lt (h (i + j) (by omega) (by omega))).symm

/-- A chunk that is neither beyond the position nor at it has none in front that is. -/
theorem Ordered.ne_of_le (h : Ordered chunks) (hi : i < chunks.length)
    (hle : 0 < i → chunks[i].recordPos ≤ pos) (hne : chunks[i].recordPos ≠ pos) :
    ∀ c ∈ chunks.take i, c.recordPos ≠ pos := by
  intro c hc heq
  obtain ⟨j, hj, rfl⟩ := List.mem_iff_getElem.1 hc
  rw [List.length_take] at hj
  rw [List.getElem_take] at heq
  have hfront := h.le (show j ≤ i by omega) (by omega) hi
  rw [heq] at hfront
  exact hne (UInt64.le_antisymm (hle (by omega)) hfront)

/-- Searching from the end passes over what is at another position. -/
theorem find?_reverse_of_ne {front after : List Chunk} {c : Chunk}
    (h : ∀ d ∈ after, d.recordPos ≠ pos) :
    (front ++ c :: after).reverse.find? (·.recordPos = pos) =
      if c.recordPos = pos then some c else front.reverse.find? (·.recordPos = pos) := by
  have hafter : after.reverse.find? (·.recordPos = pos) = none := by
    rw [List.find?_eq_none]
    intro d hd
    rw [decide_eq_true_eq]
    exact h d (List.mem_reverse.1 hd)
  rw [List.reverse_append, List.reverse_cons, List.find?_append, List.find?_append, hafter]
  by_cases hp : c.recordPos = pos
  · simp [hp]
  · simp [hp]

/-- In a table in order, the chunk at a position is the last that is there. -/
theorem find_eq (h : Ordered chunks) (pos : UInt64) :
    find chunks pos = match chunks.reverse.find? (·.recordPos = pos) with
      | some c => .ok c
      | none => .error (.unknownChunk pos) := by
  rcases Nat.eq_zero_or_pos chunks.length with hempty | hne
  · rw [List.length_eq_zero_iff.1 hempty]
    rfl
  · have hend : BeyondFrom chunks pos (0 + chunks.length) := fun j hj hle => by omega
    obtain ⟨i, he, -, hi, hrest, hfound⟩ := narrow_spec h 0 chunks.length hne
      (Nat.zero_add _).le hend
    rw [Nat.zero_add] at hi
    have hlast : chunks.reverse.find? (·.recordPos = pos) =
        if chunks[i].recordPos = pos then some chunks[i]
        else (chunks.take i).reverse.find? (·.recordPos = pos) := by
      have hsplit : chunks = chunks.take i ++ chunks[i] :: chunks.drop (i + 1) := by
        rw [← List.drop_eq_getElem_cons hi, List.take_append_drop]
      conv_lhs => rw [hsplit]
      exact find?_reverse_of_ne hrest.ne
    have hget : chunks.toArray[i]? = some chunks[i] := by
      rw [List.getElem?_toArray, List.getElem?_eq_getElem hi]
    unfold find
    simp only [List.size_toArray, he, hget, hlast]
    by_cases hp : chunks[i].recordPos = pos
    · simp only [if_pos hp]
    · have hnone : (chunks.take i).reverse.find? (·.recordPos = pos) = none := by
        rw [List.find?_eq_none]
        intro c hc
        rw [decide_eq_true_eq]
        exact h.ne_of_le hi (hfound hi) hp c (List.mem_reverse.1 hc)
      simp only [if_neg hp, hnone]

/-- In a table with one chunk at each position, a chunk is found at its position. -/
theorem find_of_mem (h : chunks.Pairwise fun a b => a.recordPos < b.recordPos) {c : Chunk}
    (hc : c ∈ chunks) : find chunks c.recordPos = .ok c := by
  have hordered : Ordered chunks := h.imp UInt64.le_of_lt
  have hfind : chunks.reverse.find? (·.recordPos = c.recordPos) = some c := by
    obtain ⟨front, after, rfl⟩ := List.append_of_mem hc
    have hafter : ∀ d ∈ after, d.recordPos ≠ c.recordPos := by
      intro d hd
      have hlt := List.rel_of_pairwise_cons (List.pairwise_append.1 h).2.1 hd
      exact (UInt64.ne_of_lt hlt).symm
    rw [find?_reverse_of_ne hafter, if_pos rfl]
  rw [find_eq hordered, hfind]

/-- What is found is in the table, at the position. -/
theorem of_find {c : Chunk} (h : find chunks pos = .ok c) : c ∈ chunks ∧ c.recordPos = pos := by
  unfold find at h
  simp only at h
  split at h
  · next d hget =>
    split at h
    · next hpos =>
      cases h
      exact ⟨Array.mem_toList_iff.2 (Array.mem_of_getElem? hget), hpos⟩
    · cases h
  · cases h

end Chunk

/-! ## Fetchers -/

namespace Fetcher

variable [Codec.Formats]

/-- The contents of the chunk at a position, with nothing remembered. -/
def contentsAt (source : Stream) (chunks : List Chunk) (pos : UInt64) : Except Error Dense := do
  load source (← Chunk.find chunks pos)

/-- The message that an entry points at, with nothing remembered. -/
def rawAt (source : Stream) (chunks : List Chunk) (e : Entry) : Except Error RawMessage := do
  RawMessage.ofChunk (← contentsAt source chunks e.chunkPos) e.offset.toNat

end Fetcher

/-- What a cache keeps is what the source would give. -/
def Cache.Agrees [Codec.Formats] (source : Stream) (chunks : List Chunk) (c : Cache) : Prop :=
  ∀ x ∈ c.chunks, Fetcher.contentsAt source chunks x.1 = .ok x.2

theorem Cache.agrees_empty [Codec.Formats] (source : Stream) (chunks : List Chunk) :
    Cache.empty.Agrees source chunks := by
  intro x hx
  cases hx

namespace Fetcher

theorem lookUp_snd (l : Loaded) (offset : Nat) :
    (l.lookUp offset).2.pos = l.pos ∧ (l.lookUp offset).2.contents = l.contents := by
  unfold Loaded.lookUp
  split
  · split <;> exact ⟨rfl, rfl⟩
  · exact ⟨rfl, rfl⟩

variable [Codec.Formats]

/-- What a fetcher keeps is what the source would give. -/
structure Agrees (source : Stream) (chunks : List Chunk) (f : Fetcher) : Prop where
  cache : ∀ c ∈ f.cache, c.Agrees source chunks
  last : ∀ l ∈ f.last, contentsAt source chunks l.pos = .ok l.contents

variable {source : Stream} {chunks : List Chunk} {f : Fetcher}

theorem agrees_start {cache : Option Cache} (h : ∀ c ∈ cache, c.Agrees source chunks) :
    (start cache).Agrees source chunks := by
  refine ⟨h, ?_⟩
  rintro l ⟨⟩

theorem Agrees.get? (h : f.Agrees source chunks) {pos : UInt64} {contents : Dense}
    (hget : f.cache.bind (·.get? pos) = some contents) :
    contentsAt source chunks pos = .ok contents := by
  obtain ⟨c, hc, hget⟩ := Option.bind_eq_some_iff.1 hget
  obtain ⟨x, hx, rfl⟩ := Option.map_eq_some_iff.1 hget
  have hpos : x.1 = pos := by simpa using List.find?_some hx
  rw [← hpos]
  exact h.cache c hc x (List.mem_of_find?_eq_some hx)

theorem Agrees.insert (h : f.Agrees source chunks) {pos : UInt64} {contents : Dense}
    (hpos : contentsAt source chunks pos = .ok contents) :
    ({ f with cache := f.cache.map (·.insert pos contents) } : Fetcher).Agrees source chunks := by
  refine ⟨?_, h.last⟩
  rintro c hc x hx
  obtain ⟨c', hc', rfl⟩ := Option.map_eq_some_iff.1 hc
  rcases List.mem_append.1 hx with hx | hx
  · exact h.cache c' hc' x (List.mem_of_mem_filter hx)
  · rw [List.mem_singleton.1 hx]
    exact hpos

theorem Agrees.keep (h : f.Agrees source chunks) {l : Loaded}
    (hl : contentsAt source chunks l.pos = .ok l.contents) :
    ({ f with last := some l } : Fetcher).Agrees source chunks := by
  refine ⟨h.cache, ?_⟩
  rintro _ ⟨⟩
  exact hl

/-- A chunk is the one that the source would give, wherever it comes from. -/
theorem run_chunkAt (h : f.Agrees source chunks) (pos : UInt64) :
    (∃ l f', (chunkAt source chunks pos).run f = .ok l f' ∧ l.pos = pos ∧
      contentsAt source chunks pos = .ok l.contents ∧ f'.Agrees source chunks) ∨
    ∃ e, (chunkAt source chunks pos).run f = .error e f ∧
      contentsAt source chunks pos = .error e := by
  unfold chunkAt
  rw [run_get_bind]
  split
  · -- the chunk that was used last
    next l hlast =>
    obtain ⟨hl, hpos⟩ := Option.filter_eq_some_iff.1 hlast
    have hpos : l.pos = pos := by simpa using hpos
    exact .inl ⟨l, f, rfl, hpos, hpos ▸ h.last l hl, h⟩
  · split
    · -- a chunk that was kept
      next contents hget => exact .inl ⟨.start pos contents, f, rfl, rfl, h.get? hget, h⟩
    · rcases hfind : Chunk.find chunks pos with e | chunk
      · refine .inr ⟨e, run_ofExcept_error_bind rfl _ _, ?_⟩
        rw [contentsAt, hfind]
        rfl
      · have hat : contentsAt source chunks pos = load source chunk := by
          rw [contentsAt, hfind]
          rfl
        rw [run_ofExcept_ok_bind rfl]
        rcases hload : load source chunk with e | contents
        · exact .inr ⟨e, run_ofExcept_error_bind rfl _ _, hat.trans hload⟩
        · rw [run_ofExcept_ok_bind rfl]
          exact .inl ⟨.start pos contents, _, rfl, rfl, hat.trans hload,
            h.insert (hat.trans hload)⟩

/-- An entry is resolved as if nothing were remembered. -/
theorem run_resolve (h : f.Agrees source chunks) (e : Entry) :
    ∃ f', f'.Agrees source chunks ∧ (resolve source chunks e).run f =
      match rawAt source chunks e with
      | .ok m => .ok m f'
      | .error x => .error x f' := by
  rcases run_chunkAt h e.chunkPos with ⟨l, f', hrun, hpos, hat, hf⟩ | ⟨x, hrun, hat⟩
  · have hmessage := l.lookUp_fst e.offset.toNat
    obtain ⟨hpos', hcontents⟩ := lookUp_snd l e.offset.toNat
    rcases hl : l.lookUp e.offset.toNat with ⟨message, chunk⟩
    simp only [hl] at hmessage hpos' hcontents
    have hkeep : contentsAt source chunks chunk.pos = .ok chunk.contents := by
      rw [hpos', hcontents, hpos, hat]
    have hraw : rawAt source chunks e = message := by
      rw [rawAt, hat, hmessage]
      rfl
    refine ⟨_, hf.keep hkeep, ?_⟩
    rw [hraw, resolve, EStateM.run_bind, hrun]
    simp only [hl]
    rcases message with x | m <;> rfl
  · refine ⟨f, h, ?_⟩
    rw [rawAt, hat, resolve, EStateM.run_bind, hrun]
    rfl

end Fetcher

/-! ## Queries -/

namespace Bag

/-- A message with its connection, which must be one of the bag's. -/
def named (b : Bag) (raw : RawMessage) : Except Error Message :=
  match b.connection? raw.conn with
  | some c => .ok ⟨c, raw.time, raw.data⟩
  | none => .error (.unknownConnection raw.conn)

/-- The message of an entry, with nothing remembered. -/
def messageAt [Codec.Formats] (b : Bag) (source : Stream) (e : Entry) : Except Error Message := do
  b.named (← Fetcher.rawAt source b.chunks e)

end Bag

namespace Messages

variable [Codec.Formats] {b : Bag} {source : Stream} {f : Fetcher}

/-- A message is fetched as if nothing were remembered. -/
theorem run_fetch (h : f.Agrees source b.chunks) (e : Entry) :
    ∃ f', f'.Agrees source b.chunks ∧ (fetch b source e).run f =
      match b.messageAt source e with
      | .ok m => .ok m f'
      | .error x => .error x f' := by
  obtain ⟨f', hf, hrun⟩ := Fetcher.run_resolve h e
  refine ⟨f', hf, ?_⟩
  rcases hraw : Fetcher.rawAt source b.chunks e with x | raw
  · rw [hraw] at hrun
    rw [fetch, EStateM.run_bind, hrun, Bag.messageAt, hraw]
    rfl
  · rw [hraw] at hrun
    have hat : b.messageAt source e = b.named raw := by
      rw [Bag.messageAt, hraw]
      rfl
    rw [fetch, EStateM.run_bind, hrun, hat, Bag.named]
    rcases hc : b.connection? raw.conn with - | c <;> simp only [hc] <;> rfl

/-- One step of a query: an entry, and what stands in the file for it. -/
theorem next_eq (h : f.Agrees source b.chunks) (entries : Merge) :
    ∃ f', f'.Agrees source b.chunks ∧ next b source ⟨entries, f⟩ =
      (entries.next.1.map (b.messageAt source), ⟨entries.next.2, f'⟩) := by
  unfold next
  rcases hnext : entries.next with ⟨- | e, rest⟩
  · exact ⟨f, h, rfl⟩
  · obtain ⟨f', hf, hrun⟩ := run_fetch h e
    refine ⟨f', hf, ?_⟩
    rcases hat : b.messageAt source e with x | m <;> rw [hat] at hrun <;>
      simp only [hrun, Option.map_some, hat]

/-- **A query gives what stands in the file for its entries**, however many are asked for. -/
theorem take_eq (h : f.Agrees source b.chunks) (entries : Merge) (k : Nat) :
    (take b source k ⟨entries, f⟩).1 = (Merge.take k entries).map (b.messageAt source) ∧
      (take b source k ⟨entries, f⟩).2.fetcher.Agrees source b.chunks := by
  induction k generalizing entries f with
  | zero => exact ⟨rfl, h⟩
  | succ k ih =>
    obtain ⟨f', hf, hnext⟩ := next_eq h entries
    rw [take, Merge.take, hnext]
    rcases entries.next with ⟨- | e, rest⟩
    · exact ⟨rfl, hf⟩
    · exact ⟨congrArg _ (ih hf rest).1, (ih hf rest).2⟩

theorem toList_eq (h : f.Agrees source b.chunks) (entries : Merge) :
    (toList b source ⟨entries, f⟩).1 = entries.toList.map (b.messageAt source) :=
  (take_eq h entries entries.size).1

/-- A query starts with what the bag keeps. -/
theorem agrees_sharedCache {cache : Cache} (h : cache.Agrees source b.chunks) :
    (Fetcher.start (b.sharedCache cache)).Agrees source b.chunks := by
  apply Fetcher.agrees_start
  intro c hc
  rw [Bag.sharedCache, Option.mem_def, Option.ite_none_right_eq_some] at hc
  cases hc.2
  exact h

theorem toList_start {cache : Cache} (h : cache.Agrees source b.chunks) (q : Query) :
    (toList b source (start b q cache)).1 = (b.entries q).toList.map (b.messageAt source) := by
  rw [start, toList_eq (agrees_sharedCache h)]

theorem take_start {cache : Cache} (h : cache.Agrees source b.chunks) (q : Query) (k : Nat) :
    (take b source k (start b q cache)).1 =
      (Merge.take k (b.entries q)).map (b.messageAt source) := by
  rw [start, (take_eq (agrees_sharedCache h) _ k).1]

end Messages

end BagFile
