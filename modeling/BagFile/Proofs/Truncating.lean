/-
  Bags whose end is missing.

  * `Stream.Cut n s t`: two streams at one position, the second over the first `n` bytes of the
    file of the first;
  * `Detects n op`: where `op` succeeds on a whole file, it does the same on the first `n` bytes of
    it, or says that input is missing.  Moving past the end is no failure, and is the same on both;
  * `EndsInside op`: what an operation read last is in the file, so that it cannot have succeeded on
    the first bytes of a file if it ends behind them;
  * `Recorder.truncated_not_opened`: no proper front part of a finalized recording is opened.
-/
import BagFile.Proofs.Opening
import BagFile.Proofs.RoundTrip

namespace BagFile

open Source

/-! ## Streams over the front of a file -/

/-- A stream over the first `n` bytes of another's file, at the same position. -/
structure Stream.Cut (n : Nat) (s t : Stream) : Prop where
  bytes : t.contents.bytes = s.contents.bytes.take n
  pos : t.pos = s.pos
  reach : t.reach = s.reach

/-- An operation fails because input is missing. -/
def FallsShort {α : Type} (op : Stream.Op α) (t : Stream) : Prop :=
  ∃ needed available t', op.run t = .error (.truncated needed available) t'

/-- On the first `n` bytes of a file, an operation does what it does on all of it, or falls
    short. -/
def Detects {α : Type} (n : Nat) (op : Stream.Op α) : Prop :=
  ∀ s t a s', Stream.Cut n s t → op.run s = .ok a s' →
    (∃ t', op.run t = .ok a t' ∧ Stream.Cut n s' t') ∨ FallsShort op t

variable {α β : Type} {n : Nat}

theorem FallsShort.bind {op : Stream.Op α} {t : Stream} (h : FallsShort op t)
    (k : α → Stream.Op β) : FallsShort (op >>= k) t := by
  obtain ⟨needed, available, t', herror⟩ := h
  refine ⟨needed, available, t', ?_⟩
  rw [EStateM.run_bind, herror]

theorem FallsShort.after {op : Stream.Op α} {k : α → Stream.Op β} {t t' : Stream} {a : α}
    (hop : op.run t = .ok a t') (h : FallsShort (k a) t') : FallsShort (op >>= k) t := by
  obtain ⟨needed, available, t'', herror⟩ := h
  refine ⟨needed, available, t'', ?_⟩
  rw [EStateM.run_bind, hop]
  exact herror

namespace Detects

theorem pure (a : α) : Detects n (Pure.pure a) := by
  intro s t b s' hcut h
  cases h
  exact .inl ⟨t, rfl, hcut⟩

theorem bind {op : Stream.Op α} {k : α → Stream.Op β} (h : Detects n op)
    (hk : ∀ a, Detects n (k a)) : Detects n (op >>= k) := by
  intro s t b s' hcut hrun
  obtain ⟨a, s₁, hop, hrest⟩ := run_bind_eq_ok hrun
  rcases h s t a s₁ hcut hop with ⟨t₁, hop', hcut₁⟩ | hshort
  · rcases hk a s₁ t₁ b s' hcut₁ hrest with ⟨t', hrest', hcut'⟩ | hshort
    · refine .inl ⟨t', ?_, hcut'⟩
      rw [EStateM.run_bind, hop']
      exact hrest'
    · exact .inr (hshort.after hop')
  · exact .inr (hshort.bind k)

theorem refuse {c : Prop} [Decidable c] {e : Error} {k : PUnit → Stream.Op α}
    (h : Detects n (k ⟨⟩)) : Detects n (if c then MonadExcept.throw e >>= k else k ⟨⟩) := by
  split
  · intro s t a s' _ hrun
    cases hrun
  · exact h

theorem ofExcept (x : Except Error α) : Detects n (MonadExcept.ofExcept x) := by
  cases x with
  | error e =>
    intro s t a s' _ hrun
    cases hrun
  | ok a => exact pure a

end Detects

/-! ## Reading operations on the front of a file -/

namespace Stream

variable {s t : Stream}

/-- What is ahead is the same, or less than what is asked for. -/
theorem Cut.ahead (h : Cut n s t) (k : Nat) : t.ahead k = s.ahead k ∨ (t.ahead k).size < k := by
  by_cases hk : k ≤ n - s.pos
  · left
    apply Dense.ext_bytes
    rw [bytes_ahead, bytes_ahead]
    show (t.contents.bytes.drop t.pos).take k = (s.contents.bytes.drop s.pos).take k
    rw [h.bytes, h.pos, List.drop_take, List.take_take, Nat.min_eq_left hk]
  · right
    rw [size_ahead, ← Contents.length_bytes, h.bytes, h.pos, List.length_take]
    omega

theorem detects_seek (pos : Nat) : Detects n (seek pos) := by
  intro s t a s' hcut h
  rw [EStateM.run, seek] at h
  split at h
  · cases h
  · next hreach =>
    cases h
    refine .inl ⟨{ t with pos := pos }, ?_, ⟨hcut.bytes, rfl, hcut.reach⟩⟩
    exact if_neg (hcut.reach ▸ hreach)

theorem detects_position : Detects n position := by
  intro s t a s' hcut h
  cases h
  exact .inl ⟨t, congrArg (EStateM.Result.ok · t) hcut.pos, hcut⟩

/-- Moving two streams by the same. -/
theorem Cut.move (h : Cut n s t) (k : Nat) : Cut n (Source.move s k) (Source.move t k) :=
  ⟨h.bytes, congrArg (· + k) h.pos, h.reach⟩

theorem detects_readWord [Word α] : Detects n (readWord : Op α) := by
  intro s t a s' hcut h
  rw [EStateM.run, readWord] at h
  split at h
  · next b hb =>
    cases h
    rcases hcut.ahead (Word.width α) with hahead | hshort
    · refine .inl ⟨_, ?_, hcut.move (Word.width α)⟩
      rw [EStateM.run, readWord, hahead, hb]
      rfl
    · refine .inr ⟨Word.width α, 0, t, ?_⟩
      rw [EStateM.run, readWord, Word.decode_of_short hshort]
  · cases h

theorem detects_readBody (k : Nat) : Detects n (readBody k) := by
  intro s t a s' hcut h
  rw [EStateM.run, readBody] at h
  split at h
  · cases h
  · next hsize =>
    cases h
    rcases hcut.ahead k with hahead | hshort
    · refine .inl ⟨_, ?_, hcut.move k⟩
      rw [EStateM.run, readBody, hahead, if_neg hsize]
      rfl
    · refine .inr ⟨k, (t.ahead k).size, { t with pos := t.pos + (t.ahead k).size }, ?_⟩
      rw [EStateM.run, readBody, if_pos hshort]

theorem detects_readSized : Detects n readSized :=
  detects_readWord.bind fun _ => detects_readBody _

theorem detects_skipSized : Detects n skipSized := by
  refine detects_readWord.bind fun len => ?_
  refine detects_position.bind fun pos => ?_
  exact (detects_seek _).bind fun _ => Detects.pure _

end Stream

open BagFile.Stream

theorem Fields.detects_read : Detects n Fields.read :=
  detects_readSized.bind fun _ => Detects.ofExcept _

theorem Fields.detects_readExpecting (kind : Kind) : Detects n (Fields.readExpecting kind) := by
  refine Fields.detects_read.bind fun f => ?_
  exact (Detects.ofExcept _).bind fun _ => Detects.pure _

theorem Header.detects_read [Header α] : Detects n (Header.read : Stream.Op α) :=
  (Fields.detects_readExpecting _).bind fun _ => Detects.ofExcept _

theorem Connection.detects_read : Detects n Connection.read := by
  refine (Fields.detects_readExpecting _).bind fun outer => ?_
  exact Fields.detects_read.bind fun inner => Detects.ofExcept _

namespace Bag

theorem detects_readMany {op : Stream.Op α} (h : Detects n op) (k : Nat) :
    Detects n (readMany op k) := by
  induction k with
  | zero => exact Detects.pure _
  | succ k ih => exact h.bind fun _ => ih.bind fun _ => Detects.pure _

theorem detects_readChunk : Detects n readChunk := by
  refine Header.detects_read.bind fun info => ?_
  refine detects_readSized.bind fun data => ?_
  refine Detects.refuse ?_
  refine detects_position.bind fun resume => ?_
  refine (detects_seek _).bind fun _ => ?_
  refine Header.detects_read.bind fun chunk => ?_
  refine detects_position.bind fun dataPos => ?_
  refine detects_readWord.bind fun size => ?_
  exact (detects_seek _).bind fun _ => Detects.pure _

theorem detects_readTables (k m : Nat) : Detects n (readTables k m) := by
  refine (detects_readMany Connection.detects_read k).bind fun connections => ?_
  exact (detects_readMany detects_readChunk m).bind fun chunks => Detects.pure _

end Bag

/-! ## Where an operation ends -/

/-- A stream in a file, or right behind it. -/
def Stream.Inside (contents : Contents) (s : Stream) : Prop :=
  s.Over contents ∧ s.pos ≤ contents.size

/-- An operation that succeeds ends inside the file, wherever it starts. -/
def EndsInside (contents : Contents) (op : Stream.Op α) : Prop :=
  ∀ s a s', op.run s = .ok a s' → s.Over contents → s'.Inside contents

variable {contents : Contents}

namespace EndsInside

theorem keeps {op : Stream.Op α} (h : EndsInside contents op) : Keeps (Inside contents) op :=
  fun s a s' hrun hs => h s a s' hrun hs.1

/-- What follows stays inside. -/
theorem bind {op : Stream.Op α} {k : α → Stream.Op β} (h : EndsInside contents op)
    (hk : ∀ a, Keeps (Inside contents) (k a)) : EndsInside contents (op >>= k) := by
  intro s b s' hrun hs
  obtain ⟨a, s₁, hop, hrest⟩ := run_bind_eq_ok hrun
  exact hk a s₁ b s' hrest (h s a s₁ hop hs)

/-- What comes last ends inside. -/
theorem last {op : Stream.Op α} {k : α → Stream.Op β} (h : Keeps (Over · contents) op)
    (hk : ∀ a, EndsInside contents (k a)) : EndsInside contents (op >>= k) := by
  intro s b s' hrun hs
  obtain ⟨a, s₁, hop, hrest⟩ := run_bind_eq_ok hrun
  exact hk a s₁ b s' hrest (h s a s₁ hop hs)

end EndsInside

namespace Stream

theorem endsInside_readWord [Word α] (h : 0 < Word.width α) :
    EndsInside contents (readWord : Op α) := by
  intro s a s' hrun hs
  refine ⟨keeps_readWord s a s' hrun hs, ?_⟩
  rw [EStateM.run, readWord] at hrun
  split at hrun
  · next b hb =>
    cases hrun
    have hsize : ¬(s.ahead (Word.width α)).size < Word.width α := by
      intro hn
      rw [Word.decode_of_short hn] at hb
      cases hb
    rw [size_ahead, hs.1] at hsize
    show s.pos + Word.width α ≤ contents.size
    omega
  · cases hrun

theorem inside_readBody (k : Nat) : Keeps (Inside contents) (readBody k) := by
  intro s a s' hrun hs
  refine ⟨keeps_readBody k s a s' hrun hs.1, ?_⟩
  rw [EStateM.run, readBody] at hrun
  split at hrun
  · cases hrun
  · next hsize =>
    cases hrun
    have hpos := hs.2
    rw [size_ahead, hs.1.1] at hsize
    show s.pos + k ≤ contents.size
    omega

theorem endsInside_readSized : EndsInside contents readSized :=
  (endsInside_readWord (by decide)).bind fun _ => inside_readBody _

end Stream

theorem Fields.endsInside_read : EndsInside contents Fields.read :=
  endsInside_readSized.bind fun _ => Keeps.ofExcept _

theorem Connection.endsInside_read : EndsInside contents Connection.read :=
  .last (Fields.keeps_readExpecting _) fun _ =>
    Fields.endsInside_read.bind fun _ => Keeps.ofExcept _

namespace Bag

theorem endsInside_readChunk : EndsInside contents readChunk := by
  refine .last Header.keeps_read fun info => ?_
  intro s c s' hrun hs
  obtain ⟨data, s₁, hdata, h₁⟩ := run_bind_eq_ok hrun
  have hinside : s₁.Inside contents := endsInside_readSized s data s₁ hdata hs
  -- the reading goes to the chunk itself, and back to where the summary ended
  obtain ⟨-, h₂⟩ := run_refuse_eq_ok h₁
  obtain ⟨resume, s₂, hposition, h₃⟩ := run_bind_eq_ok h₂
  cases hposition
  obtain ⟨u, s₂, hseek, h₃⟩ := run_bind_eq_ok h₃
  obtain ⟨chunk, s₃, hheader, h₄⟩ := run_bind_eq_ok h₃
  obtain ⟨dataPos, s₄, hdataPos, h₅⟩ := run_bind_eq_ok h₄
  obtain ⟨size, s₅, hsize, h₆⟩ := run_bind_eq_ok h₅
  obtain ⟨v, s₆, hback, h₇⟩ := run_bind_eq_ok h₆
  cases h₇
  have hs₃ := Header.keeps_read _ _ _ hheader (keeps_seek _ _ _ _ hseek hinside.1)
  have hs₅ := keeps_readWord _ _ _ hsize (keeps_position _ _ _ hdataPos hs₃)
  rw [hs₅.of_seek hback]
  exact ⟨⟨rfl, rfl⟩, hinside.2⟩

theorem inside_readMany {op : Stream.Op α} (h : EndsInside contents op) (k : Nat) :
    Keeps (Inside contents) (readMany op k) := by
  induction k with
  | zero => exact Keeps.pure _
  | succ k ih => exact h.keeps.bind fun _ => ih.bind fun _ => Keeps.pure _

theorem endsInside_readMany {op : Stream.Op α} (h : EndsInside contents op) {k : Nat}
    (hk : 0 < k) : EndsInside contents (readMany op k) := by
  obtain ⟨k, rfl⟩ := Nat.exists_eq_add_one.2 hk
  exact h.bind fun _ => (inside_readMany h k).bind fun _ => Keeps.pure _

/-- Tables with a record in them end inside. -/
theorem endsInside_readTables {k m : Nat} (h : 0 < k ∨ 0 < m) :
    EndsInside contents (readTables k m) := by
  rcases h with hk | hm
  · refine (endsInside_readMany Connection.endsInside_read hk).bind fun connections => ?_
    exact (inside_readMany endsInside_readChunk m).bind fun chunks => Keeps.pure _
  · refine .last (keeps_readMany Connection.keeps_read k) fun connections => ?_
    exact (endsInside_readMany endsInside_readChunk hm).bind fun chunks => Keeps.pure _

/-! ## Opening the front of a bag -/

variable {path : String} {settings : Settings}

/-- A file that is shorter than the version line is refused for it. -/
theorem load_of_short (h : contents.size < Layout.headerPos) :
    ∃ text, load path settings contents = .error (.unsupportedVersion text) := by
  obtain ⟨line, s, hline, hsize⟩ : ∃ line s,
      (Stream.readThrough Layout.lineFeed Layout.versionLimit).run (Stream.ofFile contents) =
        .ok line s ∧ line.size ≤ contents.size := by
    refine ⟨_, _, rfl, ?_⟩
    rw [← Dense.length_bytes, Dense.bytes_slice, List.length_take, List.drop_zero,
      Dense.length_bytes, Stream.size_ahead]
    show min _ (min _ (contents.size - 0)) ≤ _
    omega
  refine ⟨Text.trimEnd (Text.decodeLossy line), load_of_run (s := s) ?_⟩
  rw [read, EStateM.run_bind, readVersion, EStateM.run_bind, hline]
  simp only
  rw [if_pos (.inr (by omega))]
  rfl

variable {x : Image} {s t : Stream}

/-- Behind the version line, what is in front of the chunks is read, or it falls short. -/
theorem cut_front (hc : contents.bytes = x.bytes) (hs : s.Over contents) (hpos : s.pos = 0)
    (hcut : Cut n s t) (hn : Layout.headerPos ≤ n) :
    (∃ s' t', s'.Over contents ∧ readFront.run t = .ok x.header t' ∧ Cut n s' t') ∨
      FallsShort readFront t := by
  have hp : (Image.preamble x.header).flatten <+: rest s := by
    show _ <+: s.contents.bytes.drop s.pos
    rw [hs.1, hpos, List.drop_zero, hc, Image.bytes, Image.blocks, List.flatten_append,
      List.flatten_append, List.append_assoc]
    exact List.prefix_append _ _
  have hline : Layout.versionLine.bytes <+: rest s := (List.prefix_append _ _).trans hp
  have hline' : Layout.versionLine.bytes <+: rest t := by
    have hrest : rest t = (rest s).take n := by
      show t.contents.bytes.drop t.pos = (s.contents.bytes.drop s.pos).take n
      rw [hcut.bytes, hcut.pos, hpos, List.drop_zero, List.drop_zero]
    rw [hrest, List.prefix_take_iff, Dense.length_bytes]
    exact ⟨hline, hn⟩
  have hfront := reads_front x.header hs hpos hp
  obtain ⟨u, s₁, hversion, hrecords⟩ := run_bind_eq_ok hfront
  rw [reads_version s hline] at hversion
  cases hversion
  have hdetects : Detects n (Header.read >>= fun header : FileHeader =>
      Stream.skipSized >>= fun _ => pure header) :=
    Header.detects_read.bind fun _ => detects_skipSized.bind fun _ => Detects.pure _
  rcases hdetects _ _ _ _ (hcut.move Layout.versionLine.bytes.length) hrecords with
    ⟨t', hok, hcut'⟩ | hshort
  · refine .inl ⟨_, t', hs.move _, ?_, hcut'⟩
    rw [readFront, EStateM.run_bind, reads_version t hline']
    exact hok
  · exact .inr (hshort.after (reads_version t hline'))

/-- Where the end of a bag with a connection or a chunk is missing, the tables fall short. -/
theorem cut_behind (hx : x.Loadable) (hc : contents.bytes = x.bytes)
    (hsome : x.connections ≠ [] ∨ x.chunks ≠ []) (hs : s.Over contents) (hcut : Cut n s t)
    (hn : n < x.bytes.length) : FallsShort (readBehind path settings x.header) t := by
  obtain ⟨-, hconns, hchunks⟩ := (countable hx).header
  have hreach : x.indexPos < t.reach := by
    rw [hcut.reach]
    exact indexPos_lt_reach hx.toReadable hs
  have hcount : 0 < x.header.connCount.toNat ∨ 0 < x.header.chunkCount.toNat := by
    rw [hconns, hchunks]
    exact hsome.imp List.length_pos_iff.2 List.length_pos_iff.2
  have hcut₁ : Cut n { s with pos := x.indexPos } { t with pos := x.indexPos } :=
    ⟨hcut.bytes, rfl, hcut.reach⟩
  have hfull := run_tables hx (Image.standsIn_of_bytes hc).arranged hs
  have htables : FallsShort (readTables x.header.connCount.toNat x.header.chunkCount.toNat)
      { t with pos := x.indexPos } := by
    rcases detects_readTables _ _ _ _ _ _ hcut₁ hfull with ⟨t', hok, hcut'⟩ | hshort
    · -- they would have ended where the whole file does
      have hover : ({ t with pos := x.indexPos } : Stream).Over t.contents :=
        ⟨rfl, hcut.reach.trans hs.2⟩
      have hend := (endsInside_readTables hcount _ _ _ hok hover).2
      have hpos : t'.pos = x.bytes.length := hcut'.pos
      have hsize : t.contents.size ≤ n := by
        rw [← Contents.length_bytes, hcut.bytes]
        exact List.length_take_le _ _
      omega
    · exact hshort
  obtain ⟨needed, available, t', herror⟩ := htables.bind _
  refine ⟨needed, available, t', ?_⟩
  rw [readBehind, if_neg (not_lt_dataStart hx.toReadable), toNat_indexPos hx.toReadable, Stream.run_seek_bind hreach]
  exact herror

/-- The first bytes of a bag with a connection or a chunk are not opened. -/
theorem load_cut (hx : x.Loadable) (hsome : x.connections ≠ [] ∨ x.chunks ≠ [])
    (hc : contents.bytes = x.bytes.take n) (hn : n < x.bytes.length)
    (hline : Layout.headerPos ≤ n) :
    ∃ needed available, load path settings contents = .error (.truncated needed available) := by
  have hover : (Stream.ofFile x.file).Over x.file := ⟨rfl, rfl⟩
  have hcut : Cut n (Stream.ofFile x.file) (Stream.ofFile contents) := by
    refine ⟨?_, rfl, rfl⟩
    show contents.bytes = x.file.bytes.take n
    rw [x.bytes_file, hc]
  have hshort : FallsShort (read path settings) (Stream.ofFile contents) := by
    rw [read_eq]
    rcases cut_front x.bytes_file hover rfl hcut hline with ⟨s', t', hs', hfront, hcut'⟩ | hshort
    · exact (cut_behind hx x.bytes_file hsome hs' hcut' hn).after hfront
    · exact hshort.bind _
  obtain ⟨needed, available, t', herror⟩ := hshort
  exact ⟨needed, available, load_of_run herror⟩

end Bag

/-! ## Whole recordings -/

namespace Recorder

variable {settings : Settings} {calls : List Call} {r₀ r : Recorder} {header : FileHeader}

/-- **A bag whose end is missing is not opened.**  Of a finalized recording with a connection or a
    chunk, take the first `n` bytes, fewer than there are: without the whole version line they are
    of no known version, and with it they are too short, wherever they end.  The counts of the
    tables are 32-bit numbers in the file, and its positions are signed 64-bit numbers. -/
theorem truncated_not_opened [Codec.Formats] (hcreate : create settings = .ok r₀)
    (hrun : finalize.run (r₀.after calls) = .ok header r)
    (hconnections : r.connections.length < 2 ^ 32) (hchunks : r.chunks.length < 2 ^ 32)
    (hsize : r.tape.size < 2 ^ 63) (hsome : r.connections ≠ [] ∨ r.chunks ≠ []) {n : Nat}
    (hn : n < r.tape.size) {contents : Contents}
    (hcontents : contents.bytes = r.tape.contents.bytes.take n) (path : String)
    (reading : Settings) :
    (n < 13 → ∃ text, Bag.load path reading contents = .error (.unsupportedVersion text)) ∧
    (13 ≤ n → ∃ needed available,
      Bag.load path reading contents = .error (.truncated needed available)) := by
  obtain ⟨-, -, hholds, -, hconns, hlength⟩ := (follows_of_create hcreate).of_finalize calls hrun
  obtain ⟨hfinished, hbytes, -, -⟩ := finished_of_finalize hcreate hrun hconnections hchunks hsize
  have hsome' : ((Account.start settings).after calls).close.image.connections ≠ [] ∨
      ((Account.start settings).after calls).close.image.chunks ≠ [] := by
    refine hsome.imp (fun h hnil => h (hconns.trans hnil)) fun h hnil => h ?_
    apply List.length_eq_zero_iff.1
    rw [hlength, List.map_eq_nil_iff.1 hnil, List.length_nil]
  rw [hbytes] at hcontents
  rw [← Tape.length_bytes, hholds.bytes_eq] at hn
  constructor
  · intro hshort
    refine Bag.load_of_short ?_
    rw [← Contents.length_bytes, hcontents]
    exact (List.length_take_le _ _).trans_lt hshort
  · exact Bag.load_cut hfinished.loadable hsome' hcontents hn

/-- The sample without its last byte, and without most of its version line. -/
theorem truncated_not_opened_sample : ∃ (r₀ : Recorder) (header : FileHeader) (r : Recorder),
    create .default = .ok r₀ ∧ finalize.run (r₀.after sampleCalls) = .ok header r ∧
      r.tape.size = 5161 ∧
      (∃ text, Bag.load "" .default (r.tape.contents.take 5) =
        .error (.unsupportedVersion text)) ∧
      ∃ needed available, Bag.load "" .default (r.tape.contents.take 5160) =
        .error (.truncated needed available) := by
  obtain ⟨r₀, header, r, hcreate, hrun, hconnections, hchunks, hsize⟩ := sample_finalized
  have hsome : r.connections ≠ [] ∨ r.chunks ≠ [] :=
    .inl (List.length_pos_iff.1 (by omega))
  have hcut := fun n (hn : n < r.tape.size) => truncated_not_opened hcreate hrun (by omega)
    (by omega) (by omega) hsome hn (Contents.bytes_take r.tape.contents n) "" .default
  exact ⟨r₀, header, r, hcreate, hrun, hsize, (hcut 5 (by omega)).1 (by decide),
    (hcut 5160 (by omega)).2 (by decide)⟩

end Recorder

end BagFile
