/-
  Several fetchers of one file that share a cache.

  * A `Lookup` asks a fetcher for the contents of a chunk or for a message; `Lookup.fresh` is what
    a fetcher gives that has read nothing yet and shares nothing;
  * a `Pool` is the cache, and the chunk that each fetcher read last.  `Pool.Agrees` is the
    invariant: all of it is what the file would give.  Every visit of a fetcher keeps it
    (`Pool.Agrees.visit`);
  * `Pool.caching_transparent`: so nobody can tell from the answers what was kept, whichever
    fetchers share the cache and in whatever order they are asked.
-/
import BagFile.Codec.InMemory
import BagFile.Proofs.Fetching
import BagFile.Proofs.Loading

namespace BagFile

/-! ## What is read -/

namespace Stream

open Source

/-- A length that was read stands in the source. -/
theorem of_readLength {s s' : Stream} {len : UInt32} (h : readWord.run s = .ok len s') :
    s' = move s 4 ∧ Bytes.ofNat 4 len.toNat <+: rest s := by
  rw [EStateM.run, readWord] at h
  split at h
  · next a hdecode =>
    cases h
    have hsize : (s.ahead 4).size = 4 := by
      have hle := List.length_take_le 4 (rest s)
      rw [← bytes_ahead, Dense.length_bytes] at hle
      by_contra hne
      have hshort : (s.ahead (Word.width UInt32)).size < Word.width UInt32 :=
        Nat.lt_of_le_of_ne hle hne
      rw [Word.decode_of_short hshort] at hdecode
      cases hdecode
    refine ⟨rfl, ?_⟩
    rw [← Word.bytes_of_decode hsize hdecode, bytes_ahead]
    exact List.take_prefix _ _
  · cases h

/-- A block that was read stands in the source, with its length in front. -/
theorem of_readSized {s s' : Stream} {d : Dense} (h : readSized.run s = .ok d s') :
    d.size < 2 ^ 32 ∧ Bytes.sized d.bytes <+: rest s := by
  obtain ⟨len, s₁, hlen, hbody⟩ := run_bind_eq_ok h
  obtain ⟨rfl, hlength⟩ := of_readLength hlen
  rw [EStateM.run, readBody] at hbody
  split at hbody
  · cases hbody
  · next hsize =>
    have hd : (move s 4).ahead len.toNat = d := by
      injection hbody
    have hle := List.length_take_le len.toNat (rest (move s 4))
    rw [hd] at hsize
    rw [← bytes_ahead, hd, Dense.length_bytes] at hle
    have hlen : len.toNat = d.bytes.length := by
      rw [Dense.length_bytes]
      omega
    have hdrop : (rest s).drop 4 = rest (move s 4) := (rest_move s 4).symm
    have hbytes : d.bytes <+: (rest s).drop 4 := by
      rw [hdrop, ← hd, bytes_ahead]
      exact List.take_prefix _ _
    obtain ⟨after, hafter⟩ := hbytes
    have htake : Bytes.ofNat 4 len.toNat = (rest s).take 4 := by
      have := List.prefix_iff_eq_take.1 hlength
      rwa [Bytes.length_ofNat] at this
    refine ⟨?_, after, ?_⟩
    · rw [← Dense.length_bytes, ← hlen]
      exact len.toNat_lt
    rw [Bytes.sized, ← hlen, htake, List.append_assoc, hafter, List.take_append_drop]

end Stream

/-- What the contents of a chunk are: a block stands at the position of its data, the codec makes
    of that what begins with the contents, and these have the size in the chunk's header. -/
def Chunk.Yields [Codec.Formats] (source : Stream) (chunk : Chunk) (contents : Dense) : Prop :=
  ∃ codec stored data, Codec.ofCompression chunk.compression = .ok codec ∧
    Bytes.sized stored.bytes <+: source.contents.bytes.drop chunk.dataPos.toNat ∧
    codec.decompress stored (min chunk.sizeUncompressed.toNat Fetcher.maxRoom) = .ok data ∧
    contents.bytes <+: data.bytes ∧ contents.size = chunk.sizeUncompressed.toNat

namespace Fetcher

variable [Codec.Formats] {source : Stream} {chunks : List Chunk} {f : Fetcher}

/-- What is loaded are the contents of the chunk. -/
theorem yields_of_load {chunk : Chunk} {contents : Dense} (h : load source chunk = .ok contents) :
    chunk.Yields source contents := by
  obtain ⟨codec, hcodec, hread⟩ := bind_eq_ok h
  simp only at hread
  split at hread
  · next stored s hrun =>
    obtain ⟨data, hdata, hsize⟩ := bind_eq_ok (x := codec.decompress stored _) hread
    split at hsize
    · cases hsize
    · next hle =>
      have hcontents : data.extract 0 chunk.sizeUncompressed.toNat = contents :=
        Except.ok.inj hsize
      refine ⟨codec, stored, data, hcodec, ?_, hdata, ?_, ?_⟩
      · obtain ⟨u, s₁, hseek, hblock⟩ := run_bind_eq_ok hrun
        rw [EStateM.run, Stream.seek] at hseek
        split at hseek
        · cases hseek
        · cases hseek
          exact (Stream.of_readSized hblock).2
      · rw [← hcontents, Dense.bytes_extract, List.drop_zero]
        exact List.take_prefix _ _
      · rw [← hcontents, ByteArray.size_extract]
        omega
  · cases hread

/-- It does not matter where a source stands. -/
theorem load_at (source : Stream) (pos : Nat) (chunk : Chunk) :
    load { source with pos := pos } chunk = load source chunk := by
  unfold load
  by_cases hreach : chunk.dataPos.toNat < source.reach
  · simp only [Stream.run_seek_bind (s := source) hreach,
      Stream.run_seek_bind (s := { source with pos := pos }) hreach]
  · have hfail (s : Stream) (hs : s.reach = source.reach) :
        (Stream.seek chunk.dataPos.toNat).run s = .error .io s :=
      if_pos (hs ▸ Nat.le_of_not_lt hreach)
    simp only [EStateM.run_bind, hfail source rfl, hfail { source with pos := pos } rfl]

theorem contentsAt_at (source : Stream) (pos : Nat) (chunks : List Chunk) (chunkPos : UInt64) :
    contentsAt { source with pos := pos } chunks chunkPos = contentsAt source chunks chunkPos := by
  simp only [contentsAt, load_at]

/-- What a fetcher keeps does not depend on where the source stands. -/
theorem Agrees.at (h : f.Agrees source chunks) (pos : Nat) :
    f.Agrees { source with pos := pos } chunks := by
  constructor
  · intro c hc x hx
    rw [contentsAt_at]
    exact h.cache c hc x hx
  · intro l hl
    rw [contentsAt_at]
    exact h.last l hl

/-- The contents of a chunk are given as if nothing were remembered. -/
theorem run_chunkData (h : f.Agrees source chunks) (pos : UInt64) :
    ∃ f', f'.Agrees source chunks ∧ (chunkData source chunks pos).run f =
      match contentsAt source chunks pos with
      | .ok d => .ok d f'
      | .error x => .error x f' := by
  rcases run_chunkAt h pos with ⟨l, f', hrun, hpos, hat, hf⟩ | ⟨x, hrun, hat⟩
  · refine ⟨_, hf.keep (l := l) (by rw [hpos, hat]), ?_⟩
    rw [hat, chunkData, EStateM.run_bind, hrun]
    rfl
  · refine ⟨f, h, ?_⟩
    rw [hat, chunkData, EStateM.run_bind, hrun]

end Fetcher

/-! ## Looking up -/

/-- What a fetcher may be asked for. -/
inductive Lookup where
  | contents (pos : UInt64)
  | message (e : Entry)
  deriving DecidableEq

/-- What a fetcher may give. -/
inductive Found where
  | contents (d : Dense)
  | message (m : RawMessage)
  deriving DecidableEq

namespace Lookup

variable [Codec.Formats]

/-- Asks a fetcher. -/
def run (source : Stream) (chunks : List Chunk) : Lookup → Fetcher.Op Found
  | contents pos => do return .contents (← Fetcher.chunkData source chunks pos)
  | message e => do return .message (← Fetcher.resolve source chunks e)

/-- What the caller gets, and the fetcher after that. -/
def ask (source : Stream) (chunks : List Chunk) (q : Lookup) (f : Fetcher) :
    Except Error Found × Fetcher :=
  match (q.run source chunks).run f with
  | .ok found f => (.ok found, f)
  | .error e f => (.error e, f)

/-- What a fetcher gives that has read nothing yet, and shares no cache. -/
def fresh (source : Stream) (chunks : List Chunk) (q : Lookup) : Except Error Found :=
  (q.ask source chunks (Fetcher.start none)).1

/-- What stands in the file for a look-up. -/
def answer (source : Stream) (chunks : List Chunk) : Lookup → Except Error Found
  | contents pos => Found.contents <$> Fetcher.contentsAt source chunks pos
  | message e => Found.message <$> Fetcher.rawAt source chunks e

variable {source : Stream} {chunks : List Chunk} {f : Fetcher}

/-- A fetcher gives what stands in the file, whatever it remembers. -/
theorem ask_eq (h : f.Agrees source chunks) (q : Lookup) :
    (q.ask source chunks f).1 = q.answer source chunks ∧
      (q.ask source chunks f).2.Agrees source chunks := by
  cases q with
  | contents pos =>
    obtain ⟨f', hf, hrun⟩ := Fetcher.run_chunkData h pos
    simp only [ask, run, answer, EStateM.run_bind, hrun]
    rcases Fetcher.contentsAt source chunks pos with x | d
    · exact ⟨rfl, hf⟩
    · exact ⟨rfl, hf⟩
  | message e =>
    obtain ⟨f', hf, hrun⟩ := Fetcher.run_resolve h e
    simp only [ask, run, answer, EStateM.run_bind, hrun]
    rcases Fetcher.rawAt source chunks e with x | m
    · exact ⟨rfl, hf⟩
    · exact ⟨rfl, hf⟩

theorem fresh_eq (source : Stream) (chunks : List Chunk) (q : Lookup) :
    q.fresh source chunks = q.answer source chunks := by
  refine (ask_eq (Fetcher.agrees_start ?_) q).1
  rintro c ⟨⟩

theorem answer_at (source : Stream) (pos : Nat) (chunks : List Chunk) (q : Lookup) :
    q.answer { source with pos := pos } chunks = q.answer source chunks := by
  cases q <;> simp only [answer, Fetcher.rawAt, Fetcher.contentsAt_at]

end Lookup

/-! ## Fetchers that share a cache -/

/-- A call to one of many fetchers, whose own reader stands somewhere in the file. -/
structure Visit where
  fetcher : Nat
  readerPos : Nat
  lookup : Lookup
  deriving DecidableEq

/-- What is kept between visits: the shared cache, and the chunk that each fetcher read last. -/
structure Pool where
  cache : Cache
  last : Nat → Option Loaded

namespace Pool

/-- Nothing is kept yet. -/
def start : Pool := ⟨.empty, fun _ => none⟩

/-- A fetcher of the pool, with the cache if it is one of those that share it. -/
def fetcher (p : Pool) (shares : Nat → Bool) (i : Nat) : Fetcher :=
  ⟨if shares i then some p.cache else none, p.last i⟩

/-- The pool after one of its fetchers has been asked. -/
def putBack (p : Pool) (i : Nat) (f : Fetcher) : Pool :=
  ⟨f.cache.getD p.cache, fun j => if j = i then f.last else p.last j⟩

variable [Codec.Formats] (source : Stream) (chunks : List Chunk) (shares : Nat → Bool)

/-- What a visit gives, and the pool after it. -/
def visit (p : Pool) (v : Visit) : Except Error Found × Pool :=
  let (found, f) := v.lookup.ask { source with pos := v.readerPos } chunks (p.fetcher shares v.fetcher)
  (found, p.putBack v.fetcher f)

/-- What some visits give, one after the other. -/
def answers : Pool → List Visit → List (Except Error Found)
  | _, [] => []
  | p, v :: vs => (p.visit source chunks shares v).1 :: answers (p.visit source chunks shares v).2 vs

/-- The pool after some visits. -/
def after (p : Pool) (visits : List Visit) : Pool :=
  visits.foldl (fun p v => (p.visit source chunks shares v).2) p

/-- All that is kept is what the file would give. -/
structure Agrees (p : Pool) : Prop where
  cache : p.cache.Agrees source chunks
  last : ∀ i, ∀ l ∈ p.last i, Fetcher.contentsAt source chunks l.pos = .ok l.contents

variable {source chunks shares} {p : Pool}

theorem agrees_start (source : Stream) (chunks : List Chunk) : start.Agrees source chunks := by
  refine ⟨Cache.agrees_empty source chunks, ?_⟩
  rintro i l ⟨⟩

theorem Agrees.fetcher (h : p.Agrees source chunks) (shares : Nat → Bool) (i : Nat) :
    (p.fetcher shares i).Agrees source chunks := by
  refine ⟨fun c hc => ?_, h.last i⟩
  have hc : (if shares i then some p.cache else none) = some c := hc
  split at hc
  · cases hc
    exact h.cache
  · cases hc

theorem Agrees.putBack (h : p.Agrees source chunks) {f : Fetcher} (hf : f.Agrees source chunks)
    (i : Nat) : (p.putBack i f).Agrees source chunks := by
  constructor
  · show (f.cache.getD p.cache).Agrees source chunks
    rcases hcache : f.cache with - | c
    · exact h.cache
    · exact hf.cache c hcache
  · intro j l hl
    have hl : (if j = i then f.last else p.last j) = some l := hl
    split at hl
    · exact hf.last l hl
    · exact h.last j l hl

/-- **A visit** gives what stands in the file, and leaves nothing else behind. -/
theorem Agrees.visit (h : p.Agrees source chunks) (shares : Nat → Bool) (v : Visit) :
    (p.visit source chunks shares v).1 = v.lookup.answer source chunks ∧
      (p.visit source chunks shares v).2.Agrees source chunks := by
  obtain ⟨hfound, hf⟩ := Lookup.ask_eq ((h.fetcher shares v.fetcher).at v.readerPos) v.lookup
  constructor
  · rw [← Lookup.answer_at source v.readerPos]
    exact hfound
  · exact h.putBack (hf.at source.pos) v.fetcher

/-- **Visits** give what stands in the file, one after the other. -/
theorem Agrees.answers (h : p.Agrees source chunks) (shares : Nat → Bool) (visits : List Visit) :
    p.answers source chunks shares visits = visits.map fun v => v.lookup.answer source chunks := by
  induction visits generalizing p with
  | nil => rfl
  | cons v vs ih =>
    obtain ⟨hfound, hafter⟩ := h.visit shares v
    rw [Pool.answers, List.map_cons, hfound, ih hafter]

theorem Agrees.after (h : p.Agrees source chunks) (shares : Nat → Bool) (visits : List Visit) :
    (p.after source chunks shares visits).Agrees source chunks := by
  induction visits generalizing p with
  | nil => exact h
  | cons v vs ih => exact ih (h.visit shares v).2

/-- What is kept for a position are the contents of the chunk there. -/
theorem Agrees.get? (h : p.Agrees source chunks) {pos : UInt64} {d : Dense}
    (hget : p.cache.get? pos = some d) : Fetcher.contentsAt source chunks pos = .ok d := by
  obtain ⟨x, hx, rfl⟩ := Option.map_eq_some_iff.1 hget
  have hpos : x.1 = pos := by simpa using List.find?_some hx
  rw [← hpos]
  exact h.cache x (List.mem_of_find?_eq_some hx)

end Pool

/-- The chunk that a position stands for, in a table in order. -/
theorem Fetcher.contentsAt_eq_ok [Codec.Formats] {source : Stream} {chunks : List Chunk}
    (h : Chunk.Ordered chunks) {pos : UInt64} {d : Dense} (hat : contentsAt source chunks pos = .ok d) :
    ∃ chunk, chunks.reverse.find? (·.recordPos = pos) = some chunk ∧
      load source chunk = .ok d := by
  obtain ⟨chunk, hfind, hload⟩ := bind_eq_ok hat
  rw [Chunk.find_eq h] at hfind
  split at hfind
  · next c hc =>
    cases hfind
    exact ⟨chunk, hc, hload⟩
  · cases hfind

/-- **Nobody can tell what was kept.**  Fetchers of one file, of which some share a cache, are
    asked in any order.  Each gives what one would give that has read nothing and shares nothing;
    contents that are given are those of the chunk at the position, of the size in its header; and
    what is in the cache are the contents of chunks that can be read. -/
theorem Pool.caching_transparent [Codec.Formats] (source : Stream) {chunks : List Chunk}
    (hordered : Chunk.Ordered chunks) (shares : Nat → Bool) (visits : List Visit) :
    start.answers source chunks shares visits =
        visits.map (fun v => v.lookup.fresh source chunks) ∧
      (∀ pos d, (Lookup.contents pos).fresh source chunks = .ok (.contents d) →
        ∃ chunk, chunks.reverse.find? (·.recordPos = pos) = some chunk ∧
          chunk.Yields source d) ∧
      ∀ pos d, (start.after source chunks shares visits).cache.get? pos = some d →
        ∃ chunk, chunks.reverse.find? (·.recordPos = pos) = some chunk ∧
          Fetcher.load source chunk = .ok d := by
  have hstart := agrees_start source chunks
  refine ⟨?_, ?_, ?_⟩
  · rw [hstart.answers]
    simp only [Lookup.fresh_eq]
  · intro pos d hfresh
    rw [Lookup.fresh_eq, Lookup.answer] at hfresh
    rcases hat : Fetcher.contentsAt source chunks pos with x | contents
    · rw [hat] at hfresh
      cases hfresh
    · rw [hat] at hfresh
      cases hfresh
      obtain ⟨chunk, hchunk, hload⟩ := Fetcher.contentsAt_eq_ok hordered hat
      exact ⟨chunk, hchunk, Fetcher.yields_of_load hload⟩
  · intro pos d hget
    exact Fetcher.contentsAt_eq_ok hordered ((hstart.after shares visits).get? hget)

/-- Two chunks, of which only the first has its data in `Stream.sampleBlock`. -/
def Chunk.samples : List Chunk :=
  [⟨3, 0, ⟨0, 0⟩, ⟨0, 0⟩, [], .none, 2, 2⟩, ⟨5, 9, ⟨0, 0⟩, ⟨0, 0⟩, [], .none, 1, 1⟩]

/-- A block of two bytes. -/
def Stream.sampleBlock : Stream := .ofDense (.ofBytes [2, 0, 0, 0, 7, 8])

theorem Pool.caching_transparent_samples :
    Chunk.Ordered Chunk.samples ∧
      start.answers Stream.sampleBlock Chunk.samples (fun _ => true)
          [⟨0, 0, .contents 3⟩, ⟨1, 4, .contents 5⟩, ⟨1, 6, .contents 3⟩] =
        [.ok (.contents (.ofBytes [7, 8])), .error (.truncated 4 0),
          .ok (.contents (.ofBytes [7, 8]))] ∧
      Chunk.samples.reverse.find? (·.recordPos = 3) =
        some ⟨3, 0, ⟨0, 0⟩, ⟨0, 0⟩, [], .none, 2, 2⟩ ∧
      Chunk.Yields Stream.sampleBlock ⟨3, 0, ⟨0, 0⟩, ⟨0, 0⟩, [], .none, 2, 2⟩ (.ofBytes [7, 8]) := by
  have hordered : Chunk.Ordered Chunk.samples := by
    unfold Chunk.Ordered Chunk.samples
    decide
  obtain ⟨hanswers, hcontents, -⟩ := caching_transparent Stream.sampleBlock hordered
    (fun _ => true) [⟨0, 0, .contents 3⟩, ⟨1, 4, .contents 5⟩, ⟨1, 6, .contents 3⟩]
  refine ⟨hordered, ?_, rfl, ?_⟩
  · rw [hanswers]
    decide +kernel
  · obtain ⟨chunk, hfind, hyields⟩ := hcontents 3 (.ofBytes [7, 8]) (by decide +kernel)
    cases hfind
    exact hyields

end BagFile
