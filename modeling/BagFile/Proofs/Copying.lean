/-
  What a copy does to the files of a volume.

  * `Copy.Carried P`: the steps of a copy keep `P`, which says nothing about the source.  It goes
    through everything up to the end of the copy (`Copy.Carried.transfer`), and is used for what
    the copy leaves alone (`Copy.Confined`) and for what it has not finished (`Copy.Unfinished`);
  * `copy_frame`: names of other files than the output's keep their contents;
  * `copy_ruins`: a copy onto the source itself that fails has destroyed it, and fails as soon as
    a message is selected whose chunk is behind the header (`copy_onto_source`);
  * `Cli.filter_frame` puts this together for the command line.
-/
import BagFile.Cli
import BagFile.Proofs.RoundTrip
import BagFile.Proofs.Storing

namespace BagFile

variable {α : Type}

/-! ## Steps of a copy -/

namespace Copy

/-- The copy after an operation of the target's recorder, whether it has succeeded or not. -/
def recorded (c : Copy) (op : Recorder.Op α) : Copy :=
  ⟨(c.target.run c.volume op).2.2, c.source, (c.target.run c.volume op).2.1⟩

theorem run_record (op : Recorder.Op α) (c : Copy) :
    (record op).run c = match (c.target.run c.volume op).1 with
      | .ok a => .ok a (c.recorded op)
      | .error e => .error e (c.recorded op) := by
  obtain ⟨volume, source, target⟩ := c
  show record op ⟨volume, source, target⟩ = _
  unfold record recorded
  simp only
  rcases target.run volume op with ⟨a | e, w, v⟩ <;> rfl

variable {P : Copy → Prop}

theorem upholds_record {op : Recorder.Op α} (h : ∀ c, P c → P (c.recorded op)) :
    Upholds P (fun _ => True) (record op) := by
  constructor
  · intro c a c' hrun hc
    rw [run_record] at hrun
    split at hrun
    · cases hrun
      exact ⟨trivial, h c hc⟩
    · cases hrun
  · intro c e c' hrun hc
    rw [run_record] at hrun
    split at hrun
    · cases hrun
    · cases hrun
      exact h c hc

theorem upholds_addConnections (h : ∀ x c, P c → P (c.recorded (Recorder.addConnection x)))
    (cs : List Connection) : Upholds P (fun _ => True) (addConnections cs) := by
  induction cs with
  | nil => exact Upholds.pure trivial
  | cons c cs ih =>
    refine (upholds_record (h c)).bind fun id _ => ?_
    exact ih.bind fun ids _ => Upholds.pure trivial

section
variable [Codec.Formats]

/-- What the steps of a copy keep; it says nothing about the source. -/
structure Carried (P : Copy → Prop) : Prop where
  source : ∀ c source, P c → P { c with source := source }
  addConnection : ∀ x c, P c → P (c.recorded (Recorder.addConnection x))
  write : ∀ id time data c, P c → P (c.recorded (Recorder.write id time data))

/-- Copies everything that a query selects, and does not finalize the target. -/
def transfer (q : Query) : Op Unit := do
  let ids ← addConnections ((← get).source.bag.connectionsFor q.topics)
  let c ← get
  let h ← MonadExcept.ofExcept (c.source.handle c.volume)
  let m := Messages.start c.source.bag q c.source.cache
  messages ids h m.entries.size m

theorem run_eq_transfer (q : Query) : run q = transfer q >>= fun _ => record Recorder.finalize := by
  simp only [run, transfer, bind_assoc]

namespace Carried

theorem next (h : Carried P) (handle : Handle) (m : Messages) :
    Upholds P (fun _ => True) (Copy.next handle m) := by
  refine Upholds.onGet.bind fun c hc => ?_
  refine (Upholds.onSet ?_).bind fun _ _ => Upholds.pure trivial
  exact h.source c _ hc

theorem messages (h : Carried P) (ids : List (UInt32 × UInt32)) (handle : Handle) (n : Nat)
    (m : Messages) : Upholds P (fun _ => True) (Copy.messages ids handle n m) := by
  induction n generalizing m with
  | zero => exact Upholds.pure trivial
  | succ n ih =>
    refine (h.next handle m).bind fun x _ => ?_
    obtain ⟨item, m'⟩ := x
    rcases item with - | e | message
    · exact Upholds.pure trivial
    · exact Upholds.throw _
    · simp only
      split
      · exact (upholds_record (h.write _ _ _)).bind fun _ _ => ih m'
      · exact ih m'

theorem transfer (h : Carried P) (q : Query) : Upholds P (fun _ => True) (Copy.transfer q) := by
  refine Upholds.onGet.bind fun c _ => ?_
  refine (upholds_addConnections h.addConnection _).bind fun ids _ => ?_
  refine Upholds.onGet.bind fun c _ => ?_
  refine (Upholds.ofExcept _).bind fun handle _ => ?_
  exact h.messages ids handle _ _

end Carried

end

/-! ## What a copy leaves alone -/

/-- The target is in a file, and the other files are those of a volume. -/
structure Confined (file : Nat) (v : Volume) (c : Copy) : Prop where
  inFile : c.target.file = file
  agree : Volume.AgreeBut file v c.volume

variable {file : Nat} {v : Volume}

theorem Confined.recorded {c : Copy} (h : Confined file v c) (op : Recorder.Op α) :
    Confined file v (c.recorded op) := by
  obtain ⟨-, hfile, hagree⟩ := c.target.run_agree c.volume op
  rw [h.inFile] at hfile hagree
  exact ⟨hfile, h.agree.trans hagree⟩

variable [Codec.Formats]

theorem carried_confined : Carried (Confined file v) where
  source _ _ h := ⟨h.inFile, h.agree⟩
  addConnection _ _ h := h.recorded _
  write _ _ _ _ h := h.recorded _

theorem confined_run (q : Query) : Upholds (Confined file v) (fun _ => True) (run q) := by
  rw [run_eq_transfer]
  refine (carried_confined.transfer q).bind fun _ _ => ?_
  exact upholds_record fun c h => h.recorded _

/-! ## What a copy has not finished -/

/-- The target keeps the place of its header. -/
def Unfinished (c : Copy) : Prop := c.target.Reserved c.volume

theorem carried_unfinished : Carried Unfinished where
  source _ _ h := h
  addConnection x _ h := h.run_ok (Recorder.lasts_reserved.addConnection x)
  write _ _ _ _ h := h.run_ok (Recorder.lasts_reserved.write _ _ _)

/-- A copy that fails has not finished its target. -/
theorem unfinished_run (q : Query) : Spares Unfinished (run q) := by
  rw [run_eq_transfer]
  refine Spares.bind (carried_unfinished.transfer q) fun _ _ => ?_
  intro c e c' hrun h
  rw [run_record] at hrun
  split at hrun
  · cases hrun
  · next e' he =>
    cases hrun
    exact h.run_error Recorder.spares_finalize he

end Copy

/-! ## Whole copies -/

/-- The bytes of the file with a name. -/
def Volume.bytes? (v : Volume) (name : String) : Option Bytes :=
  (v.find? name).map fun file => (v.contents file).bytes

theorem Volume.AgreeBut.bytes?_eq {file : Nat} {v v' : Volume} (h : AgreeBut file v v')
    {name : String} (hname : ∀ f, v.find? name = some f → f ≠ file) :
    v'.bytes? name = v.bytes? name := by
  rw [bytes?, bytes?, h.find? name]
  rcases hf : v.find? name with - | f
  · rfl
  · rw [Option.map_some, Option.map_some, h.contents f (hname f hf)]

variable {v v' : Volume} {input output name : String} {q : Query} {compression : Compression}

/-- Opens the source of a copy, and creates the target. -/
def Copy.start (v : Volume) (input output : String) (compression : Compression) :
    Except Error Copy := do
  let source ← Reading.load v input Settings.default
  let (target, v) ← Recording.create v output { Settings.default with compression := compression }
  return ⟨v, source, target⟩

theorem copy_eq [Codec.Formats] (v : Volume) (input output : String) (q : Query)
    (compression : Compression) :
    copy v input output q compression = match Copy.start v input output compression with
      | .error e => (.error e, v)
      | .ok c =>
        match (Copy.run q).run c with
        | .ok header c => (.ok header, c.target.close c.volume)
        | .error e c => (.error e, c.target.close c.volume) := rfl

/-- A copy that is started has created its target, and changed nothing else. -/
theorem Copy.of_start [Codec.Formats] {c : Copy} (h : start v input output compression = .ok c) :
    Reading.load v input .default = .ok c.source ∧ c.Unfinished ∧
      ∃ v₁, v.create output = .ok (c.target.file, v₁) ∧ c.Confined c.target.file v₁ := by
  obtain ⟨source, hsource, h₁⟩ := bind_eq_ok h
  obtain ⟨⟨target, v₁⟩, htarget, h₂⟩ := bind_eq_ok h₁
  cases h₂
  obtain ⟨-, hreserved⟩ := Recording.reserved_of_create htarget
  obtain ⟨file, v₂, r, hfile, -, rfl, rfl⟩ := Recording.create_eq_ok htarget
  exact ⟨hsource, hreserved, v₂, hfile, rfl, .withContents _ _ _⟩

/-- A copy ends with its target given up. -/
theorem copy_of_start [Codec.Formats] {c : Copy} (h : Copy.start v input output compression = .ok c)
    (q : Query) :
    ∃ c' : Copy, (copy v input output q compression).2 = c'.target.close c'.volume ∧
      (∀ v₁, c.Confined c.target.file v₁ → c'.Confined c.target.file v₁) ∧
      ((∃ e, (copy v input output q compression).1 = .error e) → c'.Unfinished) := by
  rw [copy_eq, h]
  simp only
  rcases hrun : (Copy.run q).run c with ⟨header, c'⟩ | ⟨e, c'⟩
  · refine ⟨c', rfl, fun v₁ hc => ((Copy.confined_run q).gives c _ c' hrun hc).2, ?_⟩
    rintro ⟨e, he⟩
    cases he
  · refine ⟨c', rfl, fun v₁ hc => (Copy.confined_run q).spares c _ c' hrun hc, fun _ => ?_⟩
    exact Copy.unfinished_run q c _ c' hrun (Copy.of_start h).2.1

/-- From the creation of its target on, a copy changes that file only. -/
theorem copy_agree [Codec.Formats] {c : Copy} (h : Copy.start v input output compression = .ok c)
    {v₁ : Volume} (hc : c.Confined c.target.file v₁) (q : Query) :
    Volume.AgreeBut c.target.file v₁ (copy v input output q compression).2 := by
  obtain ⟨c', hend, hconfined, -⟩ := copy_of_start h q
  have hc' := hconfined v₁ hc
  have hclose := c'.target.close_agree c'.volume
  rw [hc'.inFile] at hclose
  rw [hend]
  exact hc'.agree.trans hclose

/-- **A copy changes the output only.**  Names of other files, and what is in these, are as they
    were. -/
theorem copy_frame [Codec.Formats] (hne : v.find? name ≠ v.find? output) (input : String)
    (q : Query) (compression : Compression) :
    (copy v input output q compression).2.bytes? name = v.bytes? name := by
  rcases hstart : Copy.start v input output compression with e | c
  · rw [copy_eq, hstart]
  · obtain ⟨-, -, v₁, hcreate, hconfined⟩ := Copy.of_start hstart
    obtain ⟨-, hother⟩ := Volume.of_create hcreate
    obtain ⟨hfind, hcontents⟩ := hother name hne
    have hagree := copy_agree hstart hconfined q
    rw [hagree.bytes?_eq fun f hf => (hcontents f (hfind ▸ hf)).1, Volume.bytes?, Volume.bytes?,
      hfind]
    rcases hf : v.find? name with - | f
    · rfl
    · rw [Option.map_some, Option.map_some, (hcontents f hf).2]

/-- A copy whose source is not opened does nothing. -/
theorem copy_unopened [Codec.Formats] {e : Error} (h : Reading.load v input .default = .error e)
    (output : String) (q : Query) (compression : Compression) :
    copy v input output q compression = (.error e, v) := by
  have hstart : Copy.start v input output compression = .error e := by
    rw [Copy.start, h]
    rfl
  rw [copy_eq, hstart]

/-! ## Copies onto their own source -/

theorem Volume.find?_of_openFile {file : Nat} (h : v.openFile name = .ok file) :
    v.find? name = some file := by
  unfold openFile at h
  split at h
  · next f hf =>
    cases h
    exact hf
  · cases h

/-- A bag that is opened by name is the one in that file, and nothing of it is kept yet. -/
theorem Reading.of_load {settings : Settings} {r : Reading} (h : load v name settings = .ok r) :
    ∃ file, v.find? name = some file ∧
      Bag.load name settings (v.contents file) = .ok r.bag ∧ r.cache = Cache.empty := by
  obtain ⟨file, hopen, h₁⟩ := bind_eq_ok h
  obtain ⟨bag, hbag, h₂⟩ := bind_eq_ok h₁
  cases h₂
  exact ⟨file, Volume.find?_of_openFile hopen, hbag, rfl⟩

/-- The target is in a file with the name of the source, and there is no more in it than the place
    of a header. -/
structure Copy.Emptied (source : Reading) (input : String) (file : Nat) (c : Copy) : Prop where
  source : c.source = source
  inFile : c.target.file = file
  found : c.volume.find? input = some file
  size : (c.volume.contents file).size ≤ Layout.dataStart

/-- A copy onto the source itself starts with the source emptied. -/
theorem Copy.start_onto [Codec.Formats] {source : Reading} (hsame : v.find? output = v.find? input)
    (h : Reading.load v input .default = .ok source) (compression : Compression) :
    ∃ file c, v.find? input = some file ∧ start v input output compression = .ok c ∧
      c.Confined file v ∧ c.Emptied source input file := by
  obtain ⟨file, hfound, -⟩ := Reading.of_load h
  have hcreate : v.create output = .ok (file, v.withContents file .empty) := by
    unfold Volume.create
    simp only [hsame, hfound]
  have hthreshold : ({ Settings.default with compression := compression } : Settings).chunkThreshold
      ≠ 0 := show Settings.default.chunkThreshold ≠ 0 by decide
  obtain ⟨r, hr, htarget⟩ := Recording.create_eq hcreate hthreshold
  refine ⟨file, ⟨(v.withContents file .empty).withContents file r.tape.contents, source,
    ⟨output, file, r.withContents .empty⟩⟩, hfound, ?_, ⟨rfl, ?_⟩, ⟨rfl, rfl, hfound, ?_⟩⟩
  · rw [start, h]
    show (Recording.create _ _ _ >>= _) = _
    rw [htarget]
    rfl
  · exact (Volume.AgreeBut.withContents _ _ _).trans (.withContents _ _ _)
  · have hlength := congrArg List.length (Recorder.bytes_of_create hr)
    rw [Tape.length_bytes, Recorder.length_reservedFront] at hlength
    rw [Volume.withContents_withContents,
      Volume.contents_withContents (Volume.lt_of_find? hfound)]
    exact Nat.le_of_eq hlength

/-- **A copy onto its own source that fails has destroyed the source.** -/
theorem copy_ruins [Codec.Formats] {source : Reading} (hsame : v.find? output = v.find? input)
    (h : Reading.load v input .default = .ok source)
    (herror : ∃ e, (copy v input output q compression).1 = .error e) :
    (copy v input output q compression).2.bytes? input ≠ v.bytes? input := by
  obtain ⟨file, c, hfound, hstart, hconfined, hemptied⟩ := Copy.start_onto hsame h compression
  obtain ⟨c', hend, hconfined', hunfinished⟩ := copy_of_start hstart q
  rw [hemptied.inFile] at hconfined'
  have hfile := (hconfined' v hconfined).inFile
  have hagree := copy_agree hstart (hemptied.inFile ▸ hconfined) q
  have hkept := (hunfinished herror).kept_close
  rw [hfile, ← hend] at hkept
  intro hbytes
  rw [Volume.bytes?, Volume.bytes?, hagree.find? input, hfound, Option.map_some, Option.map_some]
    at hbytes
  rw [Option.some.inj hbytes] at hkept
  rw [Reading.load_reserved hfound hkept] at h
  cases h

/-! ## Messages behind the end -/

theorem Stream.readSized_beyond {s : Stream} (h : s.contents.size ≤ s.pos) :
    readSized.run s = .error (.truncated 4 0) s := by
  have hshort : (s.ahead (Word.width UInt32)).size < Word.width UInt32 := by
    rw [size_ahead, Nat.sub_eq_zero_of_le h]
    decide
  have hword : (readWord : Op UInt32).run s = .error (.truncated 4 0) s := by
    rw [EStateM.run, readWord, Word.decode_of_short hshort]
    rfl
  rw [readSized, EStateM.run_bind, hword]

theorem Fetcher.load_beyond [Codec.Formats] {source : Stream} {chunk : Chunk}
    (h : source.contents.size ≤ chunk.dataPos.toNat) : ∃ e, load source chunk = .error e := by
  obtain ⟨e, s, hrun⟩ : ∃ e s, (do
      Stream.seek chunk.dataPos.toNat
      Stream.readSized : Stream.Op Dense).run source = .error e s := by
    by_cases hreach : chunk.dataPos.toNat < source.reach
    · rw [Stream.run_seek_bind hreach, Stream.readSized_beyond h]
      exact ⟨_, _, rfl⟩
    · refine ⟨.io, source, ?_⟩
      have hseek : (Stream.seek chunk.dataPos.toNat).run source = .error .io source :=
        if_pos (Nat.le_of_not_lt hreach)
      rw [EStateM.run_bind, hseek]
  unfold load
  rcases Codec.ofCompression chunk.compression with e' | codec
  · exact ⟨e', rfl⟩
  · simp only [hrun]
    exact ⟨e, rfl⟩

/-- In a file that ends before the data of all chunks, no message is found. -/
theorem Bag.messageAt_beyond [Codec.Formats] {b : Bag} {source : Stream}
    (h : ∀ chunk ∈ b.chunks, source.contents.size ≤ chunk.dataPos.toNat) (e : Entry) :
    ∃ x, b.messageAt source e = .error x := by
  rw [messageAt, Fetcher.rawAt, Fetcher.contentsAt]
  rcases hfind : Chunk.find b.chunks e.chunkPos with x | chunk
  · exact ⟨x, rfl⟩
  · obtain ⟨x, hload⟩ := Fetcher.load_beyond (h chunk (Chunk.of_find hfind).1)
    refine ⟨x, ?_⟩
    show ((Fetcher.load source chunk >>= _) >>= _) = _
    rw [hload]
    rfl

/-- The next message of a query is what stands in the file for its next entry. -/
theorem Reading.next_eq [Codec.Formats] {r : Reading} {v : Volume} {h : Handle} {m : Messages}
    (hcache : r.cache.Agrees (source v h) r.bag.chunks)
    (hfetcher : m.fetcher.Agrees (source v h) r.bag.chunks) :
    ∃ f r', f.Agrees (source v h) r.bag.chunks ∧ r'.bag = r.bag ∧
      r'.cache.Agrees (source v h) r.bag.chunks ∧ r.next v h m =
        (m.entries.next.1.map (r.bag.messageAt (source v h)), ⟨m.entries.next.2, f⟩, r') := by
  have hshare : (r.share m.fetcher).Agrees (source v h) r.bag.chunks :=
    ⟨(Messages.agrees_sharedCache hcache).cache, hfetcher.last⟩
  obtain ⟨f, hf, hnext⟩ := Messages.next_eq hshare m.entries
  refine ⟨f, r.learn f, hf, rfl, ?_, ?_⟩
  · show (f.cache.getD r.cache).Agrees _ _
    rcases hcached : f.cache with - | cache
    · exact hcache
    · exact hf.cache cache hcached
  · unfold next
    simp only [hnext]

theorem Merge.next_of_toList {m : Merge} (h : m.toList ≠ []) :
    ∃ n e, m.size = n + 1 ∧ m.next.1 = some e := by
  rw [toList] at h
  rcases hsize : m.size with - | n
  · rw [hsize] at h
    exact absurd rfl h
  · rw [hsize, take] at h
    rcases hnext : m.next with ⟨- | e, m'⟩
    · rw [hnext] at h
      exact absurd rfl h
    · exact ⟨n, e, rfl, rfl⟩

/-- Adding a connection writes nothing. -/
theorem Recorder.addConnection_contents (x : Connection) (contents : Contents) :
    Upholds (fun r => r.tape.contents = contents) (fun _ => True) (addConnection x) := by
  refine checks_checkWritable.upholds.bind fun _ _ => ?_
  refine Upholds.onGet.bind fun r hr => ?_
  refine (Upholds.onSet ?_).bind fun _ _ => Upholds.pure trivial
  exact hr

theorem Recording.contents_run {w : Recording} {op : Recorder.Op α} {Q : α → Prop}
    (hfile : w.file < v.files.length)
    (hop : Upholds (fun r => r.tape.contents = v.contents w.file) Q op) :
    (w.run v op).2.2.contents w.file = v.contents w.file := by
  rw [run_eq]
  split
  · next a r hrun =>
    exact (Volume.contents_withContents hfile _).trans (hop.gives _ _ _ hrun rfl).2
  · next e r hrun =>
    exact (Volume.contents_withContents hfile _).trans (hop.spares _ _ _ hrun rfl)

namespace Copy

variable {source : Reading} {file : Nat} {c : Copy}

theorem Emptied.addConnection (h : c.Emptied source input file) (x : Connection) :
    (c.recorded (Recorder.addConnection x)).Emptied source input file := by
  obtain ⟨-, hfile, hagree⟩ := c.target.run_agree c.volume (Recorder.addConnection x)
  have hlt := Volume.lt_of_find? h.found
  rw [← h.inFile] at hlt
  have hcontents := Recording.contents_run hlt (Recorder.addConnection_contents x _)
  refine ⟨h.source, hfile.trans h.inFile, (hagree.find? input).trans h.found, ?_⟩
  show ((c.target.run c.volume (Recorder.addConnection x)).2.2.contents file).size ≤ _
  rw [← h.inFile, hcontents, h.inFile]
  exact h.size

variable [Codec.Formats]

theorem run_next (handle : Handle) (m : Messages) (c : Copy) :
    (next handle m).run c = .ok ((c.source.next c.volume handle m).1,
      (c.source.next c.volume handle m).2.1)
      { c with source := (c.source.next c.volume handle m).2.2 } := rfl

/-- If anything is selected, an emptied source ends the copy. -/
theorem Emptied.transfer_ne_ok (h : c.Emptied source input file)
    (hload : Bag.load input .default (v.contents file) = .ok source.bag)
    (hcache : source.cache = Cache.empty) (hsome : (source.bag.entries q).toList ≠ [])
    (hbehind : ∀ chunk ∈ source.bag.chunks, Layout.dataStart ≤ chunk.dataPos.toNat) {u : Unit}
    {c' : Copy} : (transfer q).run c ≠ .ok u c' := by
  intro hrun
  obtain ⟨c₀, c₁, hget, h₁⟩ := run_bind_eq_ok hrun
  cases hget
  obtain ⟨ids, c₂, hadd, h₂⟩ := run_bind_eq_ok h₁
  have hc₂ : c₂.Emptied source input file :=
    ((upholds_addConnections (fun x c h => h.addConnection x) _).gives _ _ _ hadd h).2
  obtain ⟨v₂, source₂, w₂⟩ := c₂
  obtain rfl : source₂ = source := hc₂.source
  obtain ⟨c₃, c₄, hget, h₃⟩ := run_bind_eq_ok h₂
  cases hget
  have hhandle : source₂.handle v₂ = .ok file := by
    rw [Reading.handle, Bag.path_of_load hload, Volume.openFile, hc₂.found]
  rw [hhandle, run_ofExcept_ok_bind rfl] at h₃
  -- the first message is looked for behind the end of the file
  obtain ⟨n, e, hsize, hfirst⟩ := Merge.next_of_toList hsome
  have hagrees : source₂.cache.Agrees (Reading.source v₂ file) source₂.bag.chunks := by
    rw [hcache]
    exact Cache.agrees_empty _ _
  have hbeyond : ∀ chunk ∈ source₂.bag.chunks,
      (Reading.source v₂ file).contents.size ≤ chunk.dataPos.toNat := fun chunk hchunk =>
    hc₂.size.trans (hbehind chunk hchunk)
  obtain ⟨x, hx⟩ := Bag.messageAt_beyond hbeyond e
  obtain ⟨f, r', -, -, -, hnext⟩ := Reading.next_eq
    (m := Messages.start source₂.bag q source₂.cache) hagrees (Messages.agrees_sharedCache hagrees)
  have hentries : (Messages.start source₂.bag q source₂.cache).entries.next.1 = some e := hfirst
  rw [hentries, Option.map_some, hx] at hnext
  have hmessages : (messages ids file (n + 1) (Messages.start source₂.bag q source₂.cache)).run
      ⟨v₂, source₂, w₂⟩ = .ok u c' := hsize ▸ h₃
  rw [messages, EStateM.run_bind, run_next] at hmessages
  simp only [hnext] at hmessages
  cases hmessages

end Copy

/-- **A copy onto its own source fails as soon as a message is selected**, whose chunk is behind
    the place of the header. -/
theorem copy_onto_source [Codec.Formats] {source : Reading} (hsame : v.find? output = v.find? input)
    (h : Reading.load v input .default = .ok source) (hsome : (source.bag.entries q).toList ≠ [])
    (hbehind : ∀ chunk ∈ source.bag.chunks, Layout.dataStart ≤ chunk.dataPos.toNat) :
    ∃ e, (copy v input output q compression).1 = .error e := by
  obtain ⟨file, c, hfound, hstart, -, hemptied⟩ := Copy.start_onto hsame h compression
  obtain ⟨file', hfound', hload, hcache⟩ := Reading.of_load h
  cases hfound.symm.trans hfound'
  rw [copy_eq, hstart]
  simp only
  rcases hrun : (Copy.run q).run c with ⟨header, c'⟩ | ⟨e, c'⟩
  · rw [Copy.run_eq_transfer] at hrun
    obtain ⟨u, c₁, htransfer, -⟩ := run_bind_eq_ok hrun
    exact absurd htransfer (hemptied.transfer_ne_ok hload hcache hsome hbehind)
  · exact ⟨e, rfl⟩

/-! ## The command line -/

namespace Cli

/-- The output names the file of the input, which is read and emptied. -/
structure Overwrites (v : Volume) (input output compression : String) : Prop where
  same : v.find? output = v.find? input
  known : ∃ z, Compression.parse compression = .ok z
  opened : ∃ r, Reading.load v input Settings.default = .ok r

theorem filter_eq [Codec.Formats] (v : Volume) (input output : String) (q : Query)
    (compression : String) :
    filter v input output q compression = match Compression.parse compression with
      | .ok z => (.ofExcept "" (copy v input output q z).1, (copy v input output q z).2)
      | .error e => (.failure "" e, v) := by
  unfold filter
  rcases Compression.parse compression with e | z <;> rfl

/-- **What a copy does to the files.**  It changes the file of the output only, so that the input
    is as it was unless both are one file.  If they are, and the copy gets as far as to create the
    output, a failure leaves the input destroyed. -/
theorem filter_frame [Codec.Formats] (v : Volume) (input output : String) (q : Query)
    (compression : String) :
    let (outcome, v') := perform v (.filter input output q compression)
    (∀ name, v.find? name ≠ v.find? output → v'.bytes? name = v.bytes? name) ∧
    (¬Overwrites v input output compression → v'.bytes? input = v.bytes? input) ∧
    (Overwrites v input output compression → outcome.code ≠ 0 →
      v'.bytes? input ≠ v.bytes? input) := by
  have hperform : perform v (.filter input output q compression) = _ :=
    filter_eq v input output q compression
  rw [hperform]
  rcases hknown : Compression.parse compression with e | z
  · refine ⟨fun _ _ => rfl, fun _ => rfl, fun h => ?_⟩
    obtain ⟨z, hz⟩ := h.known
    rw [hknown] at hz
    cases hz
  · refine ⟨fun name hne => copy_frame hne input q z, fun hn => ?_, fun h hcode => ?_⟩
    · by_cases hsame : v.find? output = v.find? input
      · rcases hload : Reading.load v input .default with e | r
        · simp only [copy_unopened hload]
        · exact absurd ⟨hsame, ⟨z, hknown⟩, r, hload⟩ hn
      · exact copy_frame (Ne.symm hsame) input q z
    · obtain ⟨r, hload⟩ := h.opened
      refine copy_ruins h.same hload ?_
      have hcode : (Outcome.ofExcept "" (copy v input output q z).1).code ≠ 0 := hcode
      rcases hresult : (copy v input output q z).1 with e | header
      · exact ⟨e, rfl⟩
      · rw [hresult] at hcode
        exact absurd rfl hcode

/-- A volume in which the sample recording is the only file. -/
def sampleVolume : Volume :=
  (Volume.empty.addFile (Path.ofText "a")).withContents 0
    ((Account.start .default).after Recorder.sampleCalls).close.image.file

/-- The sample is opened, and has a message behind the header. -/
theorem load_sampleVolume : ∃ source, Reading.load sampleVolume "a" .default = .ok source ∧
    (source.bag.entries .all).toList ≠ [] ∧
    ∀ chunk ∈ source.bag.chunks, Layout.dataStart ≤ chunk.dataPos.toNat := by
  obtain ⟨r₀, header, r, hcreate, hrun, hconnections, hchunks, hsize⟩ := Recorder.sample_finalized
  obtain ⟨hfinished, -, -, -⟩ := Recorder.finished_of_finalize hcreate hrun (by omega) (by omega)
    (by omega)
  have hfound : sampleVolume.find? "a" = some 0 :=
    (Volume.of_create Recording.create_sample).1
  have hcontents : (sampleVolume.contents 0).bytes =
      ((Account.start .default).after Recorder.sampleCalls).close.image.bytes := by
    rw [sampleVolume, Volume.contents_withContents (show 0 < 1 by decide), Image.bytes_file]
  have hmessages : ((Account.start .default).after Recorder.sampleCalls).close.messages ≠ [] := by
    decide +kernel
  generalize ((Account.start .default).after Recorder.sampleCalls).close = a
    at hfinished hcontents hmessages
  have hload := Bag.load_image "a" .default hfinished.loadable hcontents
  refine ⟨⟨a.image.bag "a" .default, Cache.empty⟩, ?_, ?_, fun chunk hchunk => ?_⟩
  · rw [Reading.load_eq hfound, hload]
    rfl
  · rw [(Bag.entries_eq_reference hload .all).1, hfinished.reference_all]
    rw [hfinished.messages_eq] at hmessages
    intro hnil
    have hlength := congrArg List.length hnil
    rw [List.length_map, List.length_mergeSort, List.length_nil] at hlength
    exact hmessages (by rw [List.length_eq_zero_iff.1 hlength, List.map_nil])
  · obtain ⟨y, hy, rfl⟩ := List.mem_map.1 hchunk
    exact Image.dataStart_le hfinished.loadable hy

/-- Copied onto itself, the sample is lost. -/
theorem filter_loses_input :
    (perform sampleVolume (.filter "a" "a" .all "none")).1.code = 1 ∧
      (perform sampleVolume (.filter "a" "a" .all "none")).2.bytes? "a" ≠
        sampleVolume.bytes? "a" := by
  obtain ⟨source, hload, hsome, hbehind⟩ := load_sampleVolume
  have hparse : Compression.parse "none" = .ok .none := by decide
  have hperform : perform sampleVolume (.filter "a" "a" .all "none") = _ :=
    filter_eq sampleVolume "a" "a" .all "none"
  have hfails : ∃ e, (copy sampleVolume "a" "a" .all .none).1 = .error e :=
    copy_onto_source rfl hload hsome hbehind
  rw [hperform, hparse]
  refine ⟨?_, copy_ruins rfl hload hfails⟩
  obtain ⟨e, herror⟩ := hfails
  show (Outcome.ofExcept "" (copy sampleVolume "a" "a" .all .none).1).code = 1
  rw [herror]
  rfl

end Cli

end BagFile
