/-
  What a copy holds.

  * `Copy.spec`: a copy of a recording that can be read back succeeds if and only if the calls of
    the copy are accepted and fit, and then its file is the account of these calls;
  * `copy_faithful`: a copy that succeeds is opened, has the selected connections under new ids,
    and gives the messages that the query gives of its source;
  * `copy_idempotent`: copying such a copy with the same query succeeds, and gives the same file.
-/
import BagFile.Proofs.Renumbering

namespace BagFile

variable {v v' : Volume} {input output : String} {q : Query} {z : Compression} {a : Account}

theorem Volume.find?_of_create {name : String} {file file' : Nat}
    (h : v.create output = .ok (file', v')) (hfound : v.find? name = some file) :
    v'.find? name = some file := by
  by_cases hsame : v.find? name = v.find? output
  · -- the name stands for the output, which was there
    have hout : v.find? output = some file := hsame ▸ hfound
    unfold create at h
    simp only [hout] at h
    cases h
    exact hfound
  · rw [((Volume.of_create h).2 name hsame).1, hfound]

/-- Names keep their files when something is copied. -/
theorem find?_copy [Codec.Formats] {name : String} {file : Nat} (hfound : v.find? name = some file)
    (input output : String) (q : Query) (z : Compression) :
    (copy v input output q z).2.find? name = some file := by
  rcases hstart : Copy.start v input output z with e | c
  · rw [copy_eq, hstart]
    exact hfound
  · obtain ⟨-, -, v₁, hcreate, hconfined⟩ := Copy.of_start hstart
    rw [(copy_agree hstart hconfined q).find?, Volume.find?_of_create hcreate hfound]

theorem Volume.create_of_find? {name : String} {file : Nat} (h : v.find? name = some file) :
    v.create name = .ok (file, v.withContents file .empty) := by
  unfold create
  simp only [h]

theorem Volume.bytes?_eq_some {name : String} {bytes : Bytes} :
    v.bytes? name = some bytes ↔
      ∃ file, v.find? name = some file ∧ (v.contents file).bytes = bytes := by
  rw [bytes?, Option.map_eq_some_iff]

/-- A bag that is stored under a name is opened. -/
theorem Reading.load_image [Codec.Formats] {file : Nat} (ha : a.Finished)
    (hfound : v.find? input = some file) (hbytes : (v.contents file).bytes = a.image.bytes)
    (settings : Settings) :
    load v input settings = .ok ⟨a.image.bag input settings, Cache.empty⟩ := by
  rw [load_eq hfound, Bag.load_image input settings ha.loadable hbytes]
  rfl

/-- What is read of a bag that is stored under a name. -/
theorem Reading.messages_image [Codec.Formats] {file : Nat} (ha : a.Recoverable)
    (hfound : v.find? input = some file) (hbytes : (v.contents file).bytes = a.image.bytes)
    (settings : Settings) (q : Query) :
    ∃ ms : List Message, (a.selection q).map a.message? = ms.map some ∧
      ((⟨a.image.bag input settings, Cache.empty⟩ : Reading).messages v q).map Prod.fst =
        .ok (ms.map .ok) := by
  obtain ⟨ms, hraw, hconns, hread⟩ := ha.messages_of hbytes q input settings
  refine ⟨ms, hraw ▸ Account.map_message? hconns, ?_⟩
  have hindex : (a.image.bag input settings).index = Index.ofRows a.image.rows := rfl
  have hhandle : v.openFile input = .ok file := by rw [Volume.openFile, hfound]
  have hlist := Messages.toList_start (q := q) (Cache.agrees_empty
    (Stream.ofFile (v.contents file)) (a.image.bag input settings).chunks)
  rw [Bag.toList_entries hindex, hread] at hlist
  show (v.openFile input >>= _ : Except Error _).map Prod.fst = _
  rw [hhandle]
  exact congrArg Except.ok hlist

namespace Copy

/-- The settings of the target of a copy. -/
def settings (z : Compression) : Settings := { Settings.default with compression := z }

variable [Codec.Formats]

/-- The bag that a copy makes has counts and positions that the format can hold. -/
def Countable (v : Volume) (input output : String) (q : Query) (z : Compression) : Prop :=
  ∀ c header c', start v input output z = .ok c → (run q).run c = .ok header c' →
    c'.target.recorder.chunks.length < 2 ^ 32 ∧ (c'.volume.contents c'.target.file).size < 2 ^ 63

/-- The calls of a copy are accepted, and all lengths fit. -/
def Succeeds (a : Account) (q : Query) (z : Compression) : Prop :=
  (Account.start (settings z)).Admits (a.copying q) ∧
    ((Account.start (settings z)).after (a.copying q)).FinishFits

instance (a : Account) (q : Query) (z : Compression) : Decidable (Succeeds a q z) :=
  inferInstanceAs (Decidable (_ ∧ _))

/-- **What a copy comes to**, once its source is read and its target can be created. -/
theorem spec (ha : a.Recoverable) (hsource : v.bytes? input = some a.image.bytes)
    (hsame : v.find? output = v.find? input → a.selection q = []) {x : Nat × Volume}
    (hcreate : v.create output = .ok x) : ∃ c, start v input output z = .ok c ∧
      ((∃ c', (run q).run c = .ok (a.copied (settings z) q).image.header c' ∧ Succeeds a q z ∧
        c'.target.path = output ∧
        c'.target.Ended c'.volume ((Account.start (settings z)).after (a.copying q))) ∨
      ((∃ e c', (run q).run c = .error e c') ∧ ¬Succeeds a q z)) := by
  obtain ⟨file, hfound, hbytes⟩ := Volume.bytes?_eq_some.1 hsource
  obtain ⟨file', v₁⟩ := x
  have hthreshold : (settings z).chunkThreshold ≠ 0 :=
    show Settings.default.chunkThreshold ≠ 0 by decide
  obtain ⟨r, -, htarget⟩ := Recording.create_eq hcreate hthreshold
  have hload := Reading.load_image ha.toFinished hfound hbytes .default
  have hfollows := (Recording.follows_of_create htarget).2
  have hagree := Volume.AgreeBut.withContents v₁ file' r.tape.contents
  generalize hv₂ : v₁.withContents file' r.tape.contents = v₂ at htarget hfollows hagree
  obtain ⟨ms, hraw, -, hread⟩ := ha.messages_of hbytes q input .default
  refine ⟨⟨v₂, ⟨a.image.bag input .default, Cache.empty⟩, ⟨output, file', r.withContents .empty⟩⟩,
    ?_, ?_⟩
  · rw [start, hload]
    show (Recording.create v output (settings z) >>= _) = _
    rw [htarget]
    rfl
  · have hhandle : v₂.openFile input = .ok file := by
      rw [Volume.openFile, hagree.find?, Volume.find?_of_create hcreate hfound]
    have hindex : (a.image.bag input .default).index = Index.ofRows a.image.rows := rfl
    have hmessages : ((a.image.bag input .default).entries q).toList.map
        ((a.image.bag input .default).messageAt (Stream.ofFile (v.contents file))) =
          ms.map .ok := by
      rw [Bag.toList_entries hindex, hread]
    have hcalls := run_calls
      (c := ⟨v₂, ⟨a.image.bag input .default, Cache.empty⟩, ⟨output, file', r.withContents .empty⟩⟩)
      hfollows hhandle hmessages (fun hne => ?_) (Cache.agrees_empty _ _)
    · rw [hraw, Bag.connectionsFor_eq] at hcalls
      refine hcalls.imp_left ?_
      rintro ⟨c', hrun, hadmits, hfits, hpath, hended⟩
      exact ⟨c', hrun, ⟨hadmits, hfits⟩, hpath, hended⟩
    · -- something is read, so the output is another file
      have hdiffers : v.find? input ≠ v.find? output := fun he => hne <| by
        rw [hsame he.symm, List.map_eq_nil_iff] at hraw
        exact hraw
      obtain ⟨hfile, hkept⟩ := ((Volume.of_create hcreate).2 input hdiffers).2 file hfound
      refine ⟨?_, hfile⟩
      rw [Reading.source, hagree.contents file hfile, hkept]

/-- A copy onto its own source that succeeds has selected nothing. -/
theorem selection_eq_nil (ha : a.Recoverable) (hsource : v.bytes? input = some a.image.bytes)
    (hsame : v.find? output = v.find? input) {header : FileHeader}
    (hcopy : (copy v input output q z).1 = .ok header) : a.selection q = [] := by
  obtain ⟨file, hfound, hbytes⟩ := Volume.bytes?_eq_some.1 hsource
  have hload := Reading.load_image ha.toFinished hfound hbytes .default
  obtain ⟨ms, hraw, -, hread⟩ := ha.messages_of hbytes q input .default
  have hindex : (a.image.bag input .default).index = Index.ofRows a.image.rows := rfl
  by_contra hne
  have hsome : ((a.image.bag input .default).entries q).toList ≠ [] := by
    rw [Bag.toList_entries hindex]
    intro hnil
    rw [hnil, List.map_nil, eq_comm, List.map_eq_nil_iff] at hread
    rw [hread] at hraw
    exact hne hraw.symm
  have hbehind : ∀ chunk ∈ (a.image.bag input .default).chunks,
      Layout.dataStart ≤ chunk.dataPos.toNat := by
    intro chunk hchunk
    obtain ⟨y, hy, rfl⟩ := List.mem_map.1 hchunk
    exact Image.dataStart_le ha.loadable hy
  obtain ⟨e, he⟩ : ∃ e, (copy v input output q z).1 = .error e :=
    copy_onto_source hsame hload hsome hbehind
  rw [hcopy] at he
  cases he

variable {header : FileHeader}

/-- **A copy that succeeds** has left the account of its calls in its file. -/
theorem of_copy (ha : a.Recoverable) (hsource : v.bytes? input = some a.image.bytes)
    (hcopy : copy v input output q z = (.ok header, v')) :
    Succeeds a q z ∧ header = (a.copied (settings z) q).image.header ∧
      v'.bytes? output = some (a.copied (settings z) q).image.bytes ∧
      (Countable v input output q z → (a.copied (settings z) q).chunks.length < 2 ^ 32 ∧
        (a.copied (settings z) q).image.bytes.length < 2 ^ 63) := by
  have hsame : v.find? output = v.find? input → a.selection q = [] := fun hsame =>
    selection_eq_nil ha hsource hsame (congrArg Prod.fst hcopy)
  rw [copy_eq] at hcopy
  rcases hstart : start v input output z with e | c <;> rw [hstart] at hcopy
  · cases hcopy
  obtain ⟨-, -, v₁, hcreate, -⟩ := of_start hstart
  obtain ⟨c', hstart', hends⟩ := spec (z := z) ha hsource hsame hcreate
  cases hstart.symm.trans hstart'
  simp only at hcopy
  rcases hends with ⟨c', hrun, hsucceeds, hpath, hended⟩ | ⟨⟨e, c', hrun⟩, -⟩ <;>
    rw [hrun] at hcopy
  · cases hcopy
    refine ⟨hsucceeds, rfl, hpath ▸ hended.closed, fun hcountable => ?_⟩
    obtain ⟨hchunks, hsize⟩ := hcountable c _ c' hstart hrun
    rw [hended.chunks, Account.length_closedChunks] at hchunks
    rw [← Contents.length_bytes, hended.contents] at hsize
    exact ⟨hchunks, hsize⟩
  · cases hcopy

/-- A copy succeeds if its target can be created and its calls fit. -/
theorem copy_of_succeeds (ha : a.Recoverable) (hsource : v.bytes? input = some a.image.bytes)
    (hsame : v.find? output = v.find? input → a.selection q = []) {x : Nat × Volume}
    (hcreate : v.create output = .ok x) (h : Succeeds a q z) :
    ∃ v', copy v input output q z = (.ok (a.copied (settings z) q).image.header, v') := by
  obtain ⟨c, hstart, hends⟩ := spec (z := z) ha hsource hsame hcreate
  rw [copy_eq, hstart]
  rcases hends with ⟨c', hrun, -⟩ | ⟨-, hn⟩
  · simp only [hrun]
    exact ⟨_, rfl⟩
  · exact absurd h hn

/-- What the account of a copy has to count and to address is what its file has. -/
theorem countable_of_lt (ha : a.Recoverable) (hsource : v.bytes? input = some a.image.bytes)
    (hsame : v.find? output = v.find? input → a.selection q = []) {x : Nat × Volume}
    (hcreate : v.create output = .ok x)
    (hchunks : (a.copied (settings z) q).chunks.length < 2 ^ 32)
    (hlength : (a.copied (settings z) q).image.bytes.length < 2 ^ 63) :
    Countable v input output q z := by
  intro c header c' hstart hrun
  obtain ⟨c₁, hstart₁, hends⟩ := spec (z := z) ha hsource hsame hcreate
  cases hstart.symm.trans hstart₁
  rcases hends with ⟨c₂, hrun₂, -, -, hended⟩ | ⟨⟨e, c₂, hrun₂⟩, -⟩ <;> rw [hrun] at hrun₂ <;>
    cases hrun₂
  rw [hended.chunks, Account.length_closedChunks, ← Contents.length_bytes, hended.contents]
  exact ⟨hchunks, hlength⟩

/-- The account of a copy can be read back as well. -/
theorem recoverable_copied (ha : a.Recoverable) (hsucceeds : Succeeds a q z)
    (hcodec : ∀ codec, Codec.ofCompression z = .ok codec → codec.Lossless)
    (hchunks : (a.copied (settings z) q).chunks.length < 2 ^ 32)
    (hlength : (a.copied (settings z) q).image.bytes.length < 2 ^ 63) :
    (a.copied (settings z) q).Recoverable := by
  have hconnections : (a.copied (settings z) q).connections.length < 2 ^ 32 := by
    rw [Account.connections_copied, List.length_mapIdx]
    exact ha.length_chosen q
  refine Recorder.recoverable_of_finished
    (Account.finished_after hsucceeds.2 hconnections hchunks hlength) ?_
  rintro z' codec (rfl | hbegin) hz'
  · exact hcodec codec hz'
  · exact absurd hbegin (beginChunk_notMem_calls _ _ _)

end Copy

/-! ## A sample -/

namespace Cli

theorem name_samples : ∀ name ∈ ["b", "c"], Path.isFileName name ∧
    Path.ofText name = ⟨false, [name]⟩ := by
  have hsplit : ∀ name ∈ ["b", "c"], name.splitOn "/" = [name] := by
    simp only [List.mem_cons, List.not_mem_nil, or_false]
    rintro name (rfl | rfl) <;>
      rw [String.splitOn, if_neg (by decide), String.splitOnAux, if_neg (by decide),
        if_neg (by decide), String.splitOnAux, if_pos (by decide)] <;> rfl
  intro name hname
  have h := hsplit name hname
  unfold Path.isFileName Path.isAllowed Path.isDirectory Path.ofText
  rw [h]
  clear h hsplit
  revert name
  decide

/-- The sample, and two empty files. -/
def sampleVolumes : Volume :=
  (sampleVolume.addFile (Path.ofText "b")).addFile (Path.ofText "c")

theorem find?_samples : sampleVolumes.find? "a" = some 0 ∧ sampleVolumes.find? "b" = some 1 ∧
    sampleVolumes.find? "c" = some 2 := by
  have hb := name_samples "b" (by decide)
  have hc := name_samples "c" (by decide)
  have hnames : sampleVolumes.names =
    [(Path.ofText "a", 0), (Path.ofText "b", 1), (Path.ofText "c", 2)] := rfl
  simp only [Volume.find?, hnames, Recording.sample_name, hb, hc, if_true]
  decide

/-- The messages of one of the topics of the sample. -/
def sampleQuery : Query := ⟨some ["/b"], none, none⟩

end Cli

/-! ## Copies of recordings -/

namespace Recorder

/-- The sample is copied, and what has to hold for it to be read back does. -/
theorem sample_copied : ∃ r₀ header r header' v', create .default = .ok r₀ ∧
    finalize.run (r₀.after sampleCalls) = .ok header r ∧
    (∀ z codec, z = .none ∨ Call.Uses .default sampleCalls z →
      Codec.ofCompression z = .ok codec → codec.Lossless) ∧
    r.connections.length < 2 ^ 32 ∧ r.chunks.length < 2 ^ 32 ∧ r.tape.size < 2 ^ 63 ∧
    Cli.sampleVolumes.bytes? "a" = some r.tape.bytes ∧
    copy Cli.sampleVolumes "a" "b" Cli.sampleQuery .none = (.ok header', v') ∧
    Copy.Countable Cli.sampleVolumes "a" "b" Cli.sampleQuery .none := by
  obtain ⟨r₀, header, r, hcreate, hrun, hconnections, hchunks, hsize⟩ := sample_finalized
  have hcodecs : ∀ z codec, z = .none ∨ Call.Uses .default sampleCalls z →
      Codec.ofCompression z = .ok codec → codec.Lossless := by
    intro z codec hz hcodec
    obtain rfl : z = .none := by
      rcases hz with rfl | rfl | hz
      · rfl
      · rfl
      · simpa [sampleCalls] using hz
    cases hcodec
    exact Codec.lossless_plain
  obtain ⟨hfinished, hbytes, -, -⟩ := finished_of_finalize hcreate hrun (by omega) (by omega)
    (by omega)
  have ha := recoverable_of_finished hfinished fun z codec hz => hcodecs z codec (.inr hz)
  have hsource : Cli.sampleVolumes.bytes? "a" =
      some ((Account.start .default).after sampleCalls).close.image.bytes :=
    Volume.bytes?_eq_some.2 ⟨0, Cli.find?_samples.1, Image.bytes_file _⟩
  have hsame : Cli.sampleVolumes.find? "b" = Cli.sampleVolumes.find? "a" →
      ((Account.start .default).after sampleCalls).close.selection Cli.sampleQuery = [] := by
    rw [Cli.find?_samples.1, Cli.find?_samples.2.1]
    decide
  have houtput := Volume.create_of_find? Cli.find?_samples.2.1
  obtain ⟨v', hcopy⟩ := Copy.copy_of_succeeds (z := .none) ha hsource hsame houtput
    (by decide +kernel)
  refine ⟨r₀, header, r, _, v', hcreate, hrun, hcodecs, by omega, by omega, by omega,
    hsource.trans (congrArg some hbytes.symm), hcopy, ?_⟩
  refine Copy.countable_of_lt ha hsource hsame houtput (by decide +kernel) ?_
  rw [Image.length_bytes]
  decide +kernel

variable {settings : Settings} {calls : List Call} {r₀ r : Recorder} {header header' : FileHeader}
  {third : String}

/-- **A copy holds what was selected.**  A copy of a finalized recording that succeeds is opened;
    its connections are the selected ones in their order, with their positions as ids and nothing
    else changed, and its messages are those that the query gives of the source, in their order,
    each with its connection but for the id.  Counts are 32-bit numbers in the files, and positions
    are signed 64-bit numbers; the codecs that are used must give back what they stored. -/
theorem copy_faithful [Codec.Formats] (hcreate : create settings = .ok r₀)
    (hrun : finalize.run (r₀.after calls) = .ok header r)
    (hcodecs : ∀ z' codec, z' = z ∨ Call.Uses settings calls z' →
      Codec.ofCompression z' = .ok codec → codec.Lossless)
    (hconnections : r.connections.length < 2 ^ 32) (hchunks : r.chunks.length < 2 ^ 32)
    (hsize : r.tape.size < 2 ^ 63) (hsource : v.bytes? input = some r.tape.bytes)
    (hcopy : copy v input output q z = (.ok header', v'))
    (hcountable : Copy.Countable v input output q z) (reading : Settings) :
    ∃ (source target : Reading) (ms ms' : List Message),
      Reading.load v input .default = .ok source ∧ Reading.load v' output reading = .ok target ∧
      target.bag.connections = (source.bag.connections.filter fun c => q.Wants c.topic).mapIdx
        (fun i c => { c with id := UInt32.ofNat i }) ∧
      (source.messages v q).map Prod.fst = .ok (ms.map .ok) ∧
      (target.messages v' .all).map Prod.fst = .ok (ms'.map .ok) ∧
      ms'.map Message.unnumbered = ms.map Message.unnumbered := by
  obtain ⟨hfinished, hbytes, -, -⟩ := finished_of_finalize hcreate hrun hconnections hchunks hsize
  have ha := recoverable_of_finished hfinished fun z' codec hz' => hcodecs z' codec (.inr hz')
  generalize ((Account.start settings).after calls).close = a at ha hbytes
  have hsource : v.bytes? input = some a.image.bytes := hsource.trans (congrArg some hbytes)
  obtain ⟨hsucceeds, -, htarget, hcounted⟩ := Copy.of_copy ha hsource hcopy
  obtain ⟨hchunks', hlength'⟩ := hcounted hcountable
  have ha' := Copy.recoverable_copied ha hsucceeds (fun codec => hcodecs z codec (.inl rfl))
    hchunks' hlength'
  obtain ⟨file, hfound, hfile⟩ := Volume.bytes?_eq_some.1 hsource
  obtain ⟨file', hfound', hfile'⟩ := Volume.bytes?_eq_some.1 htarget
  obtain ⟨ms, hms, hread⟩ := Reading.messages_image ha hfound hfile .default q
  obtain ⟨ms', hms', hread'⟩ := Reading.messages_image ha' hfound' hfile' reading .all
  refine ⟨_, _, ms, ms', Reading.load_image ha.toFinished hfound hfile .default,
    Reading.load_image ha'.toFinished hfound' hfile' reading, ?_, hread, hread', ?_⟩
  · exact Account.connections_copied _ a q
  · -- both lists are the selection, in which renumbering changes the ids only
    rw [ha'.selection_all, Account.sorted_copied ha.toFinished hsucceeds.1,
      Account.messages_copied ha.toFinished hsucceeds.1, List.map_map] at hms'
    have hsome : ∀ xs : List Message, (xs.map Message.unnumbered).map some =
        (xs.map some).map (Option.map Message.unnumbered) := by simp
    refine List.map_injective_iff.2 (fun _ _ => Option.some.inj) ?_
    rw [hsome, hsome, ← hms, ← hms', List.map_map, List.map_map]
    exact List.map_congr_left fun m hm => Account.message?_moved ha.toFinished hm

theorem copy_faithful_sample : ∃ (header' : FileHeader) (v' : Volume) (source target : Reading)
    (ms ms' : List Message),
    copy Cli.sampleVolumes "a" "b" Cli.sampleQuery .none = (.ok header', v') ∧
      Reading.load Cli.sampleVolumes "a" .default = .ok source ∧
      Reading.load v' "b" .default = .ok target ∧
      target.bag.connections =
        (source.bag.connections.filter fun c => Cli.sampleQuery.Wants c.topic).mapIdx
          (fun i c => { c with id := UInt32.ofNat i }) ∧
      (source.messages Cli.sampleVolumes Cli.sampleQuery).map Prod.fst = .ok (ms.map .ok) ∧
      (target.messages v' .all).map Prod.fst = .ok (ms'.map .ok) ∧
      ms'.map Message.unnumbered = ms.map Message.unnumbered := by
  obtain ⟨r₀, header, r, header', v', hcreate, hrun, hcodecs, hconnections, hchunks, hsize,
    hsource, hcopy, hcountable⟩ := sample_copied
  obtain ⟨source, target, ms, ms', hread⟩ :=
    copy_faithful hcreate hrun hcodecs hconnections hchunks hsize hsource hcopy hcountable .default
  exact ⟨header', v', source, target, ms, ms', hcopy, hread⟩

/-- **Copying a copy changes nothing.**  If a finalized recording is copied, the copy is copied
    with the same query and compression into a file that can be created, and that copy has the same
    bytes. -/
theorem copy_idempotent [Codec.Formats] (hcreate : create settings = .ok r₀)
    (hrun : finalize.run (r₀.after calls) = .ok header r)
    (hcodecs : ∀ z' codec, z' = z ∨ Call.Uses settings calls z' →
      Codec.ofCompression z' = .ok codec → codec.Lossless)
    (hconnections : r.connections.length < 2 ^ 32) (hchunks : r.chunks.length < 2 ^ 32)
    (hsize : r.tape.size < 2 ^ 63) (hsource : v.bytes? input = some r.tape.bytes)
    (hcopy : copy v input output q z = (.ok header', v'))
    (hcountable : Copy.Countable v input output q z) {x : Nat × Volume}
    (hthird : v'.create third = .ok x) (hapart : v'.find? third ≠ v'.find? output) :
    ∃ bytes v'', v'.bytes? output = some bytes ∧
      copy v' output third q z = (.ok header', v'') ∧ v''.bytes? third = some bytes := by
  obtain ⟨hfinished, hbytes, -, -⟩ := finished_of_finalize hcreate hrun hconnections hchunks hsize
  have ha := recoverable_of_finished hfinished fun z' codec hz' => hcodecs z' codec (.inr hz')
  generalize ((Account.start settings).after calls).close = a at ha hbytes
  have hsource : v.bytes? input = some a.image.bytes := hsource.trans (congrArg some hbytes)
  obtain ⟨hsucceeds, rfl, htarget, hcounted⟩ := Copy.of_copy ha hsource hcopy
  obtain ⟨hchunks', hlength'⟩ := hcounted hcountable
  have ha' := Copy.recoverable_copied ha hsucceeds (fun codec => hcodecs z codec (.inl rfl))
    hchunks' hlength'
  -- the calls of the second copy make the account that those of the first have made
  obtain ⟨hadmits, hafter⟩ := Account.after_copying ha.toFinished hsucceeds.1 ha'.toFinished
  have hsucceeds' : Copy.Succeeds (a.copied (Copy.settings z) q) q z :=
    ⟨hadmits, hafter ▸ hsucceeds.2⟩
  have hcopied : (a.copied (Copy.settings z) q).copied (Copy.settings z) q =
      a.copied (Copy.settings z) q := congrArg Account.close hafter
  obtain ⟨v'', hcopy'⟩ := Copy.copy_of_succeeds ha' htarget (fun he => absurd he hapart) hthird
    hsucceeds'
  obtain ⟨-, -, hthird', -⟩ := Copy.of_copy ha' htarget hcopy'
  rw [hcopied] at hcopy' hthird'
  exact ⟨_, v'', htarget, hcopy', hthird'⟩

theorem copy_idempotent_sample : ∃ header' v' v'' bytes,
    copy Cli.sampleVolumes "a" "b" Cli.sampleQuery .none = (.ok header', v') ∧
      v'.bytes? "b" = some bytes ∧
      copy v' "b" "c" Cli.sampleQuery .none = (.ok header', v'') ∧
      v''.bytes? "c" = some bytes := by
  obtain ⟨r₀, header, r, header', v', hcreate, hrun, hcodecs, hconnections, hchunks, hsize,
    hsource, hcopy, hcountable⟩ := sample_copied
  have hnames : ∀ {name : String} {file : Nat}, Cli.sampleVolumes.find? name = some file →
      v'.find? name = some file := by
    intro name file hfound
    have hkept := find?_copy hfound "a" "b" Cli.sampleQuery .none
    rwa [hcopy] at hkept
  have hb := hnames Cli.find?_samples.2.1
  have hc := hnames Cli.find?_samples.2.2
  obtain ⟨bytes, v'', hbytes, hcopy', hbytes'⟩ := copy_idempotent hcreate hrun hcodecs hconnections
    hchunks hsize hsource hcopy hcountable (Volume.create_of_find? hc) (by rw [hb, hc]; decide)
  exact ⟨header', v', v'', bytes, hcopy, hbytes, hcopy', hbytes'⟩

end Recorder

end BagFile
