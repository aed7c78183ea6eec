/-
  Recordings in the files of a volume.

  * `Volume.AgreeBut file v v'`: the volumes have the same names, and the same in all files but
    one.  A recording changes its own file only (`Recording.run_agree`, `Recording.close_agree`);
  * `Recording.Reserved`: the recording's file has a name, and starts with the place that is kept
    for the header;
  * `Recording.unfinalized_not_opened`: whatever is asked of a recording, its file is not opened
    before the bag is finalized, whether the recording goes on or has been given up.
-/
import BagFile.Session
import BagFile.Proofs.Reserving
import BagFile.Proofs.Sessions

namespace BagFile

variable {α : Type}

/-! ## Files -/

namespace Volume

variable {v v' : Volume} {name : String} {file other : Nat} {c d : Contents}

theorem lt_of_find? (h : v.find? name = some file) : file < v.files.length := by
  unfold find? at h
  split at h
  · obtain ⟨x, hx, rfl⟩ := Option.map_eq_some_iff.1 h
    exact v.named x (List.mem_of_find?_eq_some hx)
  · cases h

theorem contents_withContents (h : file < v.files.length) (c : Contents) :
    (v.withContents file c).contents file = c := by
  simp [contents, withContents, h]

theorem contents_withContents_of_ne (h : other ≠ file) (c : Contents) :
    (v.withContents file c).contents other = v.contents other := by
  simp [contents, withContents, h.symm]

theorem withContents_withContents (v : Volume) (file : Nat) (c d : Contents) :
    (v.withContents file c).withContents file d = v.withContents file d := by
  simp [withContents]

/-- The same names, and the same in all files but one. -/
structure AgreeBut (file : Nat) (v v' : Volume) : Prop where
  find? : ∀ name, v'.find? name = v.find? name
  contents : ∀ other, other ≠ file → v'.contents other = v.contents other

namespace AgreeBut

theorem trans {v'' : Volume} (h : AgreeBut file v v') (h' : AgreeBut file v' v'') :
    AgreeBut file v v'' where
  find? name := (h'.find? name).trans (h.find? name)
  contents other ho := (h'.contents other ho).trans (h.contents other ho)

theorem withContents (v : Volume) (file : Nat) (c : Contents) :
    AgreeBut file v (v.withContents file c) where
  find? _ := rfl
  contents _ ho := contents_withContents_of_ne ho c

end AgreeBut

theorem find?_addFile (hname : Path.isFileName name) (hnone : v.find? name = none) :
    (v.addFile (Path.ofText name)).find? name = some v.files.length := by
  unfold find? at hnone ⊢
  rw [if_pos hname] at hnone ⊢
  rw [addFile, List.find?_append, Option.map_eq_none_iff.1 hnone]
  simp

theorem find?_addFile_of_ne {path : Path} (hne : Path.ofText name ≠ path) :
    (v.addFile path).find? name = v.find? name := by
  unfold find?
  rw [addFile, List.find?_append]
  simp [hne.symm]

theorem contents_addFile {path : Path} (hlt : other < v.files.length) :
    (v.addFile path).contents other = v.contents other := by
  simp [contents, addFile, List.getElem?_append, hlt]

/-- **What creating a file comes to**: the name stands for it, and names of other files, as well
    as what is in these, are as they were. -/
theorem of_create (h : v.create name = .ok (file, v')) :
    v'.find? name = some file ∧ ∀ other, v.find? other ≠ v.find? name →
      v'.find? other = v.find? other ∧
        ∀ f, v.find? other = some f → f ≠ file ∧ v'.contents f = v.contents f := by
  unfold create at h
  simp only at h
  split at h
  · -- the file was there, and is emptied
    next f hf =>
    cases h
    refine ⟨hf, fun other hne => ⟨rfl, fun g hg => ?_⟩⟩
    have hgf : g ≠ file := by
      rintro rfl
      exact hne (hg.trans hf.symm)
    exact ⟨hgf, contents_withContents_of_ne hgf _⟩
  · next hnone =>
    split at h
    · cases h
    · next hok =>
      cases h
      have hname : Path.isFileName name := by
        simp only [Bool.or_eq_true, not_or, Bool.not_eq_true, Bool.not_eq_false'] at hok
        exact hok.1.1
      refine ⟨find?_addFile hname hnone, fun other hne => ⟨?_, fun g hg => ?_⟩⟩
      · refine find?_addFile_of_ne fun he => hne ?_
        unfold find? at hnone ⊢
        rw [if_pos hname] at hnone ⊢
        rw [hnone, he, Option.map_eq_none_iff.1 hnone]
        simp
      · have hlt := lt_of_find? hg
        exact ⟨Nat.ne_of_lt hlt, contents_addFile hlt⟩

end Volume

theorem Reading.load_eq {v : Volume} {path : String} {file : Nat} (h : v.find? path = some file)
    (settings : Settings) : Reading.load v path settings =
      (Bag.load path settings (v.contents file)).map fun bag => ⟨bag, Cache.empty⟩ := by
  have hopen : v.openFile path = .ok file := by rw [Volume.openFile, h]
  simp only [Reading.load, hopen, bind, Except.bind]
  cases Bag.load path settings (v.contents file) <;> rfl

/-- A file that keeps the place of its header is not opened. -/
theorem Reading.load_reserved {v : Volume} {path : String} {file : Nat}
    (h : v.find? path = some file) (hfront : Recorder.reservedFront <+: (v.contents file).bytes)
    (settings : Settings) : Reading.load v path settings = .error (.unindexed 0) := by
  have hload := Bag.load_reserved hfront path settings
  rw [load_eq h, hload, Except.map]

/-! ## Recordings -/

namespace Recording

variable {v v' : Volume} {w w' : Recording} {path : String} {settings : Settings}

/-- The recorder with what is in its file. -/
def inFile (w : Recording) (v : Volume) : Recorder := w.recorder.withContents (v.contents w.file)

/-- The recording when its recorder has come to `r`. -/
def withRecorder (w : Recording) (r : Recorder) : Recording :=
  { w with recorder := r.withContents .empty }

theorem run_eq (w : Recording) (v : Volume) (op : Recorder.Op α) :
    w.run v op = match op.run (w.inFile v) with
      | .ok a r => (.ok a, w.withRecorder r, v.withContents w.file r.tape.contents)
      | .error e r => (.error e, w.withRecorder r, v.withContents w.file r.tape.contents) := by
  have hput : ∀ r : Recorder, putBack w.path w.file r (v.withContents w.file .empty) =
      (w.withRecorder r, v.withContents w.file r.tape.contents) := by
    intro r
    rw [putBack, Volume.withContents_withContents]
    rfl
  unfold run
  simp only [Volume.takeOut, hput]
  rfl

/-- A recording keeps its file, and changes no other. -/
theorem run_agree (w : Recording) (v : Volume) (op : Recorder.Op α) :
    (w.run v op).2.1.path = w.path ∧ (w.run v op).2.1.file = w.file ∧
      Volume.AgreeBut w.file v (w.run v op).2.2 := by
  rw [run_eq]
  split
  · exact ⟨rfl, rfl, .withContents _ _ _⟩
  · exact ⟨rfl, rfl, .withContents _ _ _⟩

theorem close_eq (w : Recording) (v : Volume) :
    w.close v = v.withContents w.file (w.inFile v).release.contents :=
  Volume.withContents_withContents _ _ _ _

theorem close_agree (w : Recording) (v : Volume) : Volume.AgreeBut w.file v (w.close v) := by
  rw [close_eq]
  exact .withContents _ _ _

theorem create_eq_ok (h : create v path settings = .ok (w, v')) :
    ∃ file v₁ r, v.create path = .ok (file, v₁) ∧ Recorder.create settings = .ok r ∧
      w = ⟨path, file, r.withContents .empty⟩ ∧ v' = v₁.withContents file r.tape.contents := by
  unfold create at h
  obtain ⟨-, -, h₁⟩ := bind_eq_ok h
  obtain ⟨⟨file, v₁⟩, hfile, h₂⟩ := bind_eq_ok h₁
  obtain ⟨r, hr, h₃⟩ := bind_eq_ok h₂
  cases h₃
  exact ⟨file, v₁, r, hfile, hr, rfl, rfl⟩

/-- A recording is started if its file can be created and the settings can be used. -/
theorem create_eq [Codec.Formats] {file : Nat} (hfile : v.create path = .ok (file, v'))
    (hs : settings.chunkThreshold ≠ 0) : ∃ r, Recorder.create settings = .ok r ∧
      create v path settings =
        .ok (⟨path, file, r.withContents .empty⟩, v'.withContents file r.tape.contents) := by
  obtain ⟨r, hr, -⟩ := Recorder.create_follows hs
  have hcheck : settings.check = .ok ⟨⟩ := if_neg hs
  refine ⟨r, hr, ?_⟩
  rw [create, hcheck, hfile, hr]
  rfl

/-- The recording's file has a name, and starts with the place that is kept for the header. -/
structure Reserved (w : Recording) (v : Volume) : Prop where
  found : v.find? w.path = some w.file
  recorder : (w.inFile v).Reserved

theorem Reserved.withRecorder {r : Recorder} (h : w.Reserved v) (hr : r.Reserved) :
    (w.withRecorder r).Reserved (v.withContents w.file r.tape.contents) := by
  refine ⟨h.found, ?_⟩
  have hcontents := Volume.contents_withContents (Volume.lt_of_find? h.found) r.tape.contents
  have htape : ((w.withRecorder r).inFile (v.withContents w.file r.tape.contents)).tape.contents =
      r.tape.contents := hcontents
  refine ⟨⟨?_, hr.tape.beyond⟩, hr.unfinished, hr.chunk⟩
  rw [Tape.Starts, Tape.bytes, htape]
  exact hr.tape.kept

/-- What keeps the place of the header in a recorder keeps it in the file. -/
theorem Reserved.run_ok {op : Recorder.Op α} {Q : α → Prop} (h : w.Reserved v)
    (hop : Upholds Recorder.Reserved Q op) : (w.run v op).2.1.Reserved (w.run v op).2.2 := by
  rw [run_eq]
  split
  · next a r hrun => exact h.withRecorder (hop.gives _ _ _ hrun h.recorder).2
  · next e r hrun => exact h.withRecorder (hop.spares _ _ _ hrun h.recorder)

theorem Reserved.run_error {op : Recorder.Op α} {e : Error} (h : w.Reserved v)
    (hop : Spares Recorder.Reserved op) (he : (w.run v op).1 = .error e) :
    (w.run v op).2.1.Reserved (w.run v op).2.2 := by
  rw [run_eq] at he ⊢
  split at he
  · cases he
  · next e r hrun => exact h.withRecorder (hop _ _ _ hrun h.recorder)

/-- Giving such a recording up keeps the place of the header. -/
theorem Reserved.kept_close (h : w.Reserved v) :
    Recorder.reservedFront <+: ((w.close v).contents w.file).bytes := by
  rw [close_eq, Volume.contents_withContents (Volume.lt_of_find? h.found)]
  exact h.recorder.release.kept

/-- **The file of such a recording is not opened**, also when the recording is given up. -/
theorem Reserved.load (h : w.Reserved v) (reading : Settings) :
    Reading.load v w.path reading = .error (.unindexed 0) ∧
      Reading.load (w.close v) w.path reading = .error (.unindexed 0) := by
  refine ⟨Reading.load_reserved h.found h.recorder.tape.kept reading, ?_⟩
  exact Reading.load_reserved (((w.close_agree v).find? _).trans h.found) h.kept_close reading

theorem reserved_of_create [Codec.Formats] (h : create v path settings = .ok (w, v')) :
    w.path = path ∧ w.Reserved v' := by
  obtain ⟨file, v₁, r, hfile, hr, rfl, rfl⟩ := create_eq_ok h
  have hreserved := Recorder.reserved_of_create hr
  have hfound := (Volume.of_create hfile).1
  have hcontents := Volume.contents_withContents (Volume.lt_of_find? hfound) r.tape.contents
  refine ⟨rfl, hfound, ⟨?_, hreserved.tape.beyond⟩, hreserved.unfinished, hreserved.chunk⟩
  show _ <+: Contents.bytes ((v₁.withContents file r.tape.contents).contents file)
  rw [hcontents]
  exact hreserved.tape.kept

/-! ## Sessions -/

section
variable [Codec.Formats]

/-- The answers to some requests. -/
def transcript : Recording → Volume → List Request → List (Request × Except Error Answer)
  | _, _, [] => []
  | w, v, q :: qs =>
    let (answer, w', v') := w.run v q.run
    (q, answer) :: transcript w' v' qs

/-- The recording and the volume after some requests, whatever was answered. -/
def after : Recording → Volume → List Request → Recording × Volume
  | w, v, [] => (w, v)
  | w, v, q :: qs =>
    let (_, w', v') := w.run v q.run
    after w' v' qs

theorem path_after (w : Recording) (v : Volume) (requests : List Request) :
    (w.after v requests).1.path = w.path := by
  induction requests generalizing w v with
  | nil => rfl
  | cons q qs ih => exact (ih _ _).trans (w.run_agree v q.run).1

theorem map_fst_transcript (w : Recording) (v : Volume) (requests : List Request) :
    (w.transcript v requests).map Prod.fst = requests := by
  induction requests generalizing w v with
  | nil => rfl
  | cons q qs ih => exact congrArg (q :: ·) (ih _ _)

theorem upholds_request (c : Call) : Upholds Recorder.Reserved (fun _ => True)
    (Request.call c).run := by
  cases c with
  | addConnection c => exact (Recorder.lasts_reserved.addConnection c).bind fun _ _ => Upholds.pure trivial
  | _ => exact (Recorder.lasts_reserved.call _).bind fun _ _ => Upholds.pure trivial

theorem spares_request : Spares Recorder.Reserved Request.finalize.run :=
  Spares.bind_total Recorder.spares_finalize fun _ _ => ⟨_, _, rfl⟩

/-- As long as no bag is finalized, the place of the header is kept. -/
theorem Reserved.after (h : w.Reserved v) {requests : List Request}
    (hopen : ∀ x ∈ w.transcript v requests, x.1 = .finalize → ∃ e, x.2 = .error e) :
    (w.after v requests).1.Reserved (w.after v requests).2 := by
  induction requests generalizing w v with
  | nil => exact h
  | cons q qs ih =>
    obtain ⟨hq, hqs⟩ := List.forall_mem_cons.1 hopen
    refine ih ?_ hqs
    cases q with
    | call c => exact h.run_ok (upholds_request c)
    | finalize =>
      obtain ⟨e, he⟩ := hq rfl
      exact h.run_error spares_request he

/-- **A file that is not finalized is not taken for a bag.**  Whatever is asked of a recording,
    accepted or not, its file is not opened as long as no request to finalize it has succeeded,
    whether the recording goes on or has been given up. -/
theorem unfinalized_not_opened (h : create v path settings = .ok (w, v'))
    (requests : List Request)
    (hopen : ∀ x ∈ w.transcript v' requests, x.1 = .finalize → ∃ e, x.2 = .error e)
    (reading : Settings) :
    let (w', v'') := w.after v' requests
    Reading.load v'' path reading = .error (.unindexed 0) ∧
      Reading.load (w'.close v'') path reading = .error (.unindexed 0) := by
  obtain ⟨hpath, hreserved⟩ := reserved_of_create h
  have hload := (hreserved.after hopen).load reading
  rw [path_after, hpath] at hload
  exact hload

end

theorem splitOn_sample : "a".splitOn "/" = ["a"] := by
  -- the splitting is by well-founded recursion, which does not evaluate
  rw [String.splitOn, if_neg (by decide), String.splitOnAux, if_neg (by decide),
    if_neg (by decide), String.splitOnAux, if_pos (by decide)]
  rfl

theorem sample_name : Path.isFileName "a" ∧ Path.ofText "a" = ⟨false, ["a"]⟩ := by
  unfold Path.isFileName Path.isAllowed Path.isDirectory Path.ofText
  rw [splitOn_sample]
  decide

theorem create_sample : Volume.empty.create "a" =
    .ok (0, Volume.empty.addFile (Path.ofText "a")) := by
  unfold Volume.create Volume.find?
  rw [sample_name.2, if_pos sample_name.1, sample_name.1]
  rfl

theorem unfinalized_not_opened_sample : ∃ w v, create .empty "a" .default = .ok (w, v) ∧
    (∀ x ∈ w.transcript v (Recorder.sampleCalls.map .call),
      x.1 = .finalize → ∃ e, x.2 = .error e) ∧
    Reading.load (w.after v (Recorder.sampleCalls.map .call)).2 "a" .default =
      .error (.unindexed 0) := by
  obtain ⟨r, -, hcreate⟩ := create_eq create_sample
    (show Settings.default.chunkThreshold ≠ 0 by decide)
  refine ⟨_, _, hcreate, ?_⟩
  have hopen : ∀ x ∈ transcript ⟨"a", 0, r.withContents .empty⟩
      ((Volume.empty.addFile (Path.ofText "a")).withContents 0 r.tape.contents)
      (Recorder.sampleCalls.map .call), x.1 = .finalize → ∃ e, x.2 = .error e := by
    intro x hx hfinalize
    have hmem := List.mem_map_of_mem (f := Prod.fst) hx
    rw [map_fst_transcript, hfinalize] at hmem
    obtain ⟨c, -, hc⟩ := List.mem_map.1 hmem
    cases hc
  exact ⟨hopen, (unfinalized_not_opened hcreate _ hopen .default).1⟩

end Recording

end BagFile
