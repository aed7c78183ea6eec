/-
  A copy as a recording.

  * `Recording.Follows`: the recorder with what is in its file follows an account.  It is kept by
    each call (`Recording.Follows.call`), since what is left out between two calls is the journal
    of the tape only;
  * `Copy.calls`: what a copy asks of its target.  A copy succeeds if and only if these calls are
    accepted and all lengths fit (`Copy.run_calls`), and then the new file is the account of these
    calls, written from front to back.
-/
import BagFile.Proofs.Copying

namespace BagFile

/-! ## Calls that are accepted -/

namespace Account

variable [Codec.Formats] {a : Account} {c : Call} {calls : List Call}

/-- A call is accepted, and all lengths fit that it writes. -/
def Takes (a : Account) (c : Call) : Prop := a.Fits c ∧ (a.accept? c).isSome

instance (a : Account) (c : Call) : Decidable (a.Takes c) := inferInstanceAs (Decidable (_ ∧ _))

/-- All calls are accepted one after the other. -/
def Admits (a : Account) : List Call → Prop
  | [] => True
  | c :: cs => a.Takes c ∧ (a.step c).Admits cs

instance decidableAdmits (a : Account) : (calls : List Call) → Decidable (a.Admits calls)
  | [] => .isTrue trivial
  | c :: cs =>
    have := decidableAdmits (a.step c) cs
    inferInstanceAs (Decidable (_ ∧ _))

theorem admits_append {cs ds : List Call} :
    a.Admits (cs ++ ds) ↔ a.Admits cs ∧ (a.after cs).Admits ds := by
  induction cs generalizing a with
  | nil => exact (iff_of_eq (true_and _)).symm
  | cons c cs ih => rw [List.cons_append, Admits, Admits, ih, and_assoc]; rfl

theorem admits_connections (a : Account) (cs : List Connection) :
    a.Admits (cs.map .addConnection) := by
  induction cs generalizing a with
  | nil => trivial
  | cons c cs ih => exact ⟨⟨trivial, rfl⟩, ih _⟩

/-- Calls that are accepted add their messages. -/
theorem messages_after (h : a.Admits calls) :
    (a.after calls).messages = a.messages ++ calls.filterMap Call.message? := by
  induction calls generalizing a with
  | nil => exact (List.append_nil _).symm
  | cons c cs ih =>
    obtain ⟨⟨-, hsome⟩, hcs⟩ := h
    obtain ⟨a', ha⟩ := Option.isSome_iff_exists.1 hsome
    have hstep : a.step c = a' := by rw [step, ha, Option.getD_some]
    have hafter : (a.after (c :: cs)).messages = ((a.step c).after cs).messages := rfl
    rw [hafter, ih hcs, hstep, messages_accept? ha]
    cases hc : c.message? <;> simp [hc]

end Account

/-! ## Recordings in files -/

/-- What a recorder follows does not hang on the journal of its tape. -/
theorem Recorder.Follows.withContents [Codec.Formats] {r : Recorder} {a : Account}
    (h : r.Follows a) : (r.withContents r.tape.contents).Follows a :=
  { h with holds := ⟨h.holds.bytes_eq, by rintro w ⟨⟩⟩ }

theorem Recorder.release_of_finalized {r : Recorder} (h : r.phase = .finalized) :
    r.release = r.tape := by
  unfold release
  rw [h]

namespace Recording

variable {w : Recording} {v v' : Volume}

theorem inFile_withRecorder (hfile : w.file < v.files.length) (r : Recorder) :
    (w.withRecorder r).inFile (v.withContents w.file r.tape.contents) =
      r.withContents r.tape.contents := by
  rw [inFile, withRecorder, Volume.contents_withContents hfile]
  rfl

variable [Codec.Formats]

/-- The recorder of a recording, with what is in its file, follows an account. -/
structure Follows (w : Recording) (v : Volume) (a : Account) : Prop where
  found : v.find? w.path = some w.file
  recorder : (w.inFile v).Follows a

/-- A recording has left the bag of an account in its file. -/
structure Ended (w : Recording) (v : Volume) (a : Account) : Prop where
  chunks : w.recorder.chunks = a.close.closedChunks
  contents : (v.contents w.file).bytes = a.close.image.bytes
  closed : (w.close v).bytes? w.path = some a.close.image.bytes

variable {a a' : Account} {path : String} {settings : Settings}

namespace Follows

theorem lt (h : w.Follows v a) : w.file < v.files.length := Volume.lt_of_find? h.found

theorem withRecorder {r : Recorder} (h : w.Follows v a) (hr : r.Follows a') :
    (w.withRecorder r).Follows (v.withContents w.file r.tape.contents) a' := by
  refine ⟨h.found, ?_⟩
  rw [inFile_withRecorder h.lt]
  exact hr.withContents

theorem addConnection (h : w.Follows v a) (c : Connection) :
    (w.run v (Recorder.addConnection c)).1 = .ok (UInt32.ofNat a.connections.length) ∧
      (w.run v (Recorder.addConnection c)).2.1.Follows
        (w.run v (Recorder.addConnection c)).2.2 (a.step (.addConnection c)) := by
  obtain ⟨r, hrun, hr⟩ := h.recorder.run_addConnection c
  rw [run_eq, hrun]
  exact ⟨rfl, h.withRecorder hr⟩

/-- **What a call does** to a recording in a file. -/
theorem call (h : w.Follows v a) (c : Call) :
    ((w.run v c.run).1 = .ok ⟨⟩ ∧ a.Takes c ∧
      (w.run v c.run).2.1.Follows (w.run v c.run).2.2 (a.step c)) ∨
    ((∃ e, (w.run v c.run).1 = .error e) ∧ ¬a.Takes c) := by
  have hc := h.recorder.call c
  rw [run_eq]
  rcases hrun : c.run.run (w.inFile v) with ⟨x, r⟩ | ⟨e, r⟩ <;> rw [hrun] at hc
  · obtain ⟨hfits, a', ha, hr⟩ := hc
    refine .inl ⟨rfl, ⟨hfits, by rw [ha]; rfl⟩, ?_⟩
    rw [Account.step, ha]
    exact h.withRecorder hr
  · refine .inr ⟨⟨e, rfl⟩, fun ht => ?_⟩
    rcases hc with ⟨-, hnone, -⟩ | ⟨-, hfits, -⟩
    · rw [Account.Takes, hnone] at ht
      cases ht.2
    · exact hfits ht.1

/-- Ending a recording leaves the bag of its account in the file. -/
theorem finalize (h : w.Follows v a) :
    ((w.run v Recorder.finalize).1 = .ok a.close.image.header ∧ a.FinishFits ∧
      (w.run v Recorder.finalize).2.1.Ended (w.run v Recorder.finalize).2.2 a) ∨
    ((∃ e, (w.run v Recorder.finalize).1 = .error e) ∧ ¬a.FinishFits) := by
  rw [run_eq]
  rcases h.recorder.run_finalize with
    ⟨hfits, r, hrun, hholds, -, hchunks, hphase⟩ | ⟨hn, e, r, hrun, -⟩
  · have hcontents : (v.withContents w.file r.tape.contents).contents w.file = r.tape.contents :=
      Volume.contents_withContents h.lt _
    have hbytes : r.tape.contents.bytes = a.close.image.bytes := hholds.bytes_eq
    rw [hrun]
    refine .inl ⟨rfl, hfits, hchunks, hcontents ▸ hbytes, ?_⟩
    show ((w.withRecorder r).close (v.withContents w.file r.tape.contents)).bytes? w.path = _
    have hrelease : ((w.withRecorder r).inFile
        (v.withContents w.file r.tape.contents)).release.contents = r.tape.contents := by
      have hphase' : (r.withContents r.tape.contents).phase = .finalized := hphase
      rw [inFile_withRecorder h.lt, Recorder.release_of_finalized hphase']
      rfl
    have hclose : (w.withRecorder r).close (v.withContents w.file r.tape.contents) =
        v.withContents w.file r.tape.contents := by
      rw [close_eq, hrelease]
      exact Volume.withContents_withContents _ _ _ _
    have hfound : (v.withContents w.file r.tape.contents).find? w.path = some w.file := h.found
    simp only [hclose, Volume.bytes?, hfound, Option.map_some, hcontents, hbytes]
  · rw [hrun]
    exact .inr ⟨⟨e, rfl⟩, hn⟩

end Follows

theorem follows_of_create (h : create v path settings = .ok (w, v')) :
    w.path = path ∧ w.Follows v' (.start settings) := by
  obtain ⟨file, v₁, r, hfile, hr, rfl, rfl⟩ := create_eq_ok h
  have hfound := (Volume.of_create hfile).1
  refine ⟨rfl, hfound, ?_⟩
  show (r.withContents ((v₁.withContents file r.tape.contents).contents file)).Follows _
  rw [Volume.contents_withContents (Volume.lt_of_find? hfound)]
  exact (Recorder.follows_of_create hr).withContents

end Recording

/-! ## Reading while copying -/

/-- A query without another entry gives no message, whatever is in the file. -/
theorem Reading.next_end [Codec.Formats] {r : Reading} {v : Volume} {h : Handle} {m : Messages}
    (hend : m.entries.next.1 = none) : (r.next v h m).1 = none := by
  unfold next Messages.next
  rcases hnext : m.entries.next with ⟨- | e, rest⟩
  · rfl
  · rw [hnext] at hend
    cases hend

/-! ## Steps of a copy -/

namespace Copy

/-- A copy has gone on from another, and changed its own file only. -/
structure Onward (c c' : Copy) : Prop where
  path : c'.target.path = c.target.path
  inFile : c'.target.file = c.target.file
  agree : Volume.AgreeBut c.target.file c.volume c'.volume

/-- The target follows an account. -/
def Follows [Codec.Formats] (c : Copy) (a : Account) : Prop := c.target.Follows c.volume a

variable {c c' c'' : Copy} {a : Account} {α : Type}

namespace Onward

theorem refl (c : Copy) (source : Reading) : c.Onward { c with source := source } :=
  ⟨rfl, rfl, fun _ => rfl, fun _ _ => rfl⟩

theorem trans (h : c.Onward c') (h' : c'.Onward c'') : c.Onward c'' :=
  ⟨h'.path.trans h.path, h'.inFile.trans h.inFile, h.agree.trans (h.inFile ▸ h'.agree)⟩

theorem recorded (c : Copy) (op : Recorder.Op α) : c.Onward (c.recorded op) :=
  ⟨(c.target.run_agree c.volume op).1, (c.target.run_agree c.volume op).2.1,
    (c.target.run_agree c.volume op).2.2⟩

/-- Another file is read as before. -/
theorem source_eq (h : c.Onward c') {handle : Handle} (hne : handle ≠ c.target.file) :
    Reading.source c'.volume handle = Reading.source c.volume handle := by
  rw [Reading.source, h.agree.contents handle hne, Reading.source]

end Onward

/-- The old ids of connections with the new ones, which count from `k`. -/
def newIds (k : Nat) (cs : List Connection) : List (UInt32 × UInt32) :=
  (cs.zipIdx k).map fun x => (x.1.id, UInt32.ofNat x.2)

variable [Codec.Formats]

/-- A call on the target is carried out, or ends the copy. -/
theorem Follows.record (h : c.Follows a) (k : Call) :
    ((Copy.record k.run).run c = .ok ⟨⟩ (c.recorded k.run) ∧ a.Takes k ∧
      (c.recorded k.run).Follows (a.step k)) ∨
    ((∃ e, (Copy.record k.run).run c = .error e (c.recorded k.run)) ∧ ¬a.Takes k) := by
  rw [run_record]
  rcases h.call k with ⟨hok, htakes, hstep⟩ | ⟨⟨e, herror⟩, hn⟩
  · rw [hok]
    exact .inl ⟨rfl, htakes, hstep⟩
  · rw [herror]
    exact .inr ⟨⟨e, rfl⟩, hn⟩

theorem run_addConnections (h : c.Follows a) (cs : List Connection) :
    ∃ c', (addConnections cs).run c = .ok (newIds a.connections.length cs) c' ∧
      c'.source = c.source ∧ c.Onward c' ∧ c'.Follows (a.after (cs.map .addConnection)) := by
  induction cs generalizing c a with
  | nil => exact ⟨c, rfl, rfl, .refl c c.source, h⟩
  | cons x cs ih =>
    obtain ⟨hid, hnext⟩ := h.addConnection x
    obtain ⟨c', hrun, hsource, honward, hfollows⟩ :=
      ih (c := c.recorded (Recorder.addConnection x)) hnext
    refine ⟨c', ?_, hsource, (Onward.recorded c _).trans honward, hfollows⟩
    have hlength : (a.step (.addConnection x)).connections.length = a.connections.length + 1 :=
      List.length_append
    rw [hlength] at hrun
    rw [addConnections, EStateM.run_bind, run_record, hid]
    simp only
    rw [EStateM.run_bind, hrun]
    rfl

/-! ## Messages -/

/-- A query under way gives messages, and nothing else. -/
structure Yields (c : Copy) (handle : Handle) (s : Stream) (n : Nat) (m : Messages)
    (ms : List Message) : Prop where
  messages : (Merge.take n m.entries).map (c.source.bag.messageAt s) = ms.map .ok
  /-- what is read is not what is written, unless nothing is read -/
  apart : ms ≠ [] → Reading.source c.volume handle = s ∧ handle ≠ c.target.file
  cache : c.source.cache.Agrees s c.source.bag.chunks
  fetcher : m.fetcher.Agrees s c.source.bag.chunks

variable {handle : Handle} {s : Stream} {n : Nat} {m : Messages} {ms : List Message}

/-- A query that gives a message gives the others next, wherever the message has brought the
    target. -/
theorem Yields.next (h : c.Yields handle s (n + 1) m ms) :
    (ms = [] ∧ (c.source.next c.volume handle m).1 = none) ∨
    ∃ message ms' m' r, ms = message :: ms' ∧
      c.source.next c.volume handle m = (some (.ok message), m', r) ∧
      ∀ c', c.Onward c' → c'.source = r → c'.Yields handle s n m' ms' := by
  have hmessages := h.messages
  rw [Merge.take] at hmessages
  rcases hnext : m.entries.next with ⟨- | e, rest⟩ <;> rw [hnext] at hmessages
  · exact .inl ⟨by simpa using hmessages.symm, Reading.next_end (by rw [hnext])⟩
  · rcases ms with - | ⟨message, ms'⟩
    · cases hmessages
    obtain ⟨hat, hrest⟩ := List.cons_eq_cons.1 hmessages
    obtain ⟨rfl, hne⟩ := h.apart (List.cons_ne_nil _ _)
    obtain ⟨f, r, hf, hbag, hcache, hread⟩ := Reading.next_eq h.cache h.fetcher
    rw [hnext, Option.map_some, hat] at hread
    refine .inr ⟨message, ms', _, r, rfl, hread, ?_⟩
    rintro c' honward rfl
    exact {
      messages := hbag ▸ hrest
      apart := fun _ => ⟨honward.source_eq hne, honward.inFile ▸ hne⟩
      cache := hbag ▸ hcache
      fetcher := hbag ▸ hf }

/-- The calls that copy messages. -/
def writes (ids : List (UInt32 × UInt32)) (ms : List RawMessage) : List Call :=
  ms.filterMap fun m => (newId? ids m.conn).map fun id => .write { m with conn := id }

/-- **What copying messages does**: the target gets them all, or does not take one of them. -/
theorem run_messages (h : c.Follows a) (ids : List (UInt32 × UInt32))
    (hy : c.Yields handle s n m ms) :
    (∃ c', (messages ids handle n m).run c = .ok ⟨⟩ c' ∧
      a.Admits (writes ids (ms.map Message.raw)) ∧ c.Onward c' ∧
      c'.Follows (a.after (writes ids (ms.map Message.raw)))) ∨
    ((∃ e c', (messages ids handle n m).run c = .error e c') ∧
      ¬a.Admits (writes ids (ms.map Message.raw))) := by
  induction n generalizing c a m ms with
  | zero =>
    obtain rfl : ms = [] := by simpa [Merge.take] using hy.messages.symm
    exact .inl ⟨c, rfl, trivial, .refl c c.source, h⟩
  | succ n ih =>
    rw [messages, EStateM.run_bind, run_next]
    rcases hy.next with ⟨rfl, hend⟩ | ⟨message, ms', m', r, rfl, hread, hyields⟩
    · simp only [hend]
      exact .inl ⟨_, rfl, trivial, .refl c _, h⟩
    · simp only [hread]
      have honward : c.Onward { c with source := r } := .refl c r
      have hfollows : ({ c with source := r } : Copy).Follows a := h
      rcases hid : newId? ids message.connection.id with - | id
      · have hwrites : writes ids ((message :: ms').map Message.raw) =
            writes ids (ms'.map Message.raw) := by
          simp [writes, Message.raw, hid]
        rw [hwrites]
        refine (ih hfollows (hyields _ honward rfl)).imp_left ?_
        rintro ⟨c', hrun, hadmits, honward', hc'⟩
        exact ⟨c', hrun, hadmits, honward.trans honward', hc'⟩
      · have hwrites : writes ids ((message :: ms').map Message.raw) =
            .write ⟨id, message.time, message.data⟩ :: writes ids (ms'.map Message.raw) := by
          simp [writes, Message.raw, hid]
        rw [hwrites]
        simp only
        rw [EStateM.run_bind]
        rcases hfollows.record (.write ⟨id, message.time, message.data⟩) with
          ⟨hrun, htakes, hstep⟩ | ⟨⟨x, hrun⟩, hn⟩ <;> rw [Call.run] at hrun <;> rw [hrun]
        · have honward' := honward.trans (.recorded _ (Recorder.write id message.time message.data))
          rcases ih hstep (hyields _ honward' rfl) with
            ⟨c', hrun', hadmits, honward'', hfollows'⟩ | ⟨herror, hn⟩
          · exact .inl ⟨c', hrun', ⟨htakes, hadmits⟩, honward'.trans honward'', hfollows'⟩
          · exact .inr ⟨herror, fun hadmits => hn hadmits.2⟩
        · exact .inr ⟨⟨x, _, rfl⟩, fun hadmits => hn hadmits.1⟩

/-! ## Whole copies -/

/-- What a copy asks of its target: connections, and messages under their new ids. -/
def calls (cs : List Connection) (ms : List RawMessage) : List Call :=
  cs.map .addConnection ++ writes (newIds 0 cs) ms

section

variable {settings : Settings} {q : Query}

/-- Copying without ending the target makes the calls of the copy. -/
theorem run_transfer (h : c.Follows (.start settings))
    (hhandle : c.source.handle c.volume = .ok handle)
    (hmessages : (c.source.bag.entries q).toList.map (c.source.bag.messageAt s) = ms.map .ok)
    (hapart : ms ≠ [] → Reading.source c.volume handle = s ∧ handle ≠ c.target.file)
    (hcache : c.source.cache.Agrees s c.source.bag.chunks) :
    let calls := calls (c.source.bag.connectionsFor q.topics) (ms.map Message.raw)
    (∃ c', (transfer q).run c = .ok ⟨⟩ c' ∧ (Account.start settings).Admits calls ∧
      c.Onward c' ∧ c'.Follows ((Account.start settings).after calls)) ∨
    ((∃ e c', (transfer q).run c = .error e c') ∧ ¬(Account.start settings).Admits calls) := by
  intro calls
  obtain ⟨c₁, hadd, hsource, honward₁, hfollows₁⟩ :=
    run_addConnections h (c.source.bag.connectionsFor q.topics)
  have hhandle₁ : c₁.source.handle c₁.volume = .ok handle := by
    rw [← hhandle, hsource, Reading.handle, Reading.handle, Volume.openFile, Volume.openFile,
      honward₁.agree.find?]
  have hyields : c₁.Yields handle s (c₁.source.bag.entries q).size
      (Messages.start c₁.source.bag q c₁.source.cache) ms := by
    rw [← hsource] at hmessages hcache
    refine ⟨hmessages, fun hne => ?_, hcache, Messages.agrees_sharedCache hcache⟩
    obtain ⟨hs, hfile⟩ := hapart hne
    exact ⟨(honward₁.source_eq hfile).trans hs, honward₁.inFile ▸ hfile⟩
  have hrun : (transfer q).run c = (messages (newIds 0 (c.source.bag.connectionsFor q.topics))
      handle (c₁.source.bag.entries q).size
        (Messages.start c₁.source.bag q c₁.source.cache)).run c₁ := by
    rw [transfer, run_get_bind, EStateM.run_bind, hadd]
    simp only
    rw [run_get_bind, run_ofExcept_ok_bind hhandle₁]
    rfl
  have hadmits : (Account.start settings).Admits calls ↔ _ :=
    Account.admits_append.trans (and_iff_right (Account.admits_connections _ _))
  have hafter : (Account.start settings).after calls = _ := List.foldl_append
  rw [hrun, hadmits, hafter]
  refine (run_messages hfollows₁ _ hyields).imp_left ?_
  rintro ⟨c₂, hdone, hwrites, honward₂, hfollows₂⟩
  exact ⟨c₂, hdone, hwrites, honward₁.trans honward₂, hfollows₂⟩

/-- **A copy is the recording of its calls**: it ends with the account of these in its file, or
    one of them is not taken, or the end does not fit. -/
theorem run_calls (h : c.Follows (.start settings))
    (hhandle : c.source.handle c.volume = .ok handle)
    (hmessages : (c.source.bag.entries q).toList.map (c.source.bag.messageAt s) = ms.map .ok)
    (hapart : ms ≠ [] → Reading.source c.volume handle = s ∧ handle ≠ c.target.file)
    (hcache : c.source.cache.Agrees s c.source.bag.chunks) :
    let calls := calls (c.source.bag.connectionsFor q.topics) (ms.map Message.raw)
    let t := (Account.start settings).after calls
    (∃ c', (run q).run c = .ok t.close.image.header c' ∧ (Account.start settings).Admits calls ∧
      t.FinishFits ∧ c'.target.path = c.target.path ∧ c'.target.Ended c'.volume t) ∨
    ((∃ e c', (run q).run c = .error e c') ∧
      ¬((Account.start settings).Admits calls ∧ t.FinishFits)) := by
  intro calls t
  rw [run_eq_transfer, EStateM.run_bind]
  rcases run_transfer h hhandle hmessages hapart hcache with
    ⟨c₁, hrun, hadmits, honward, hfollows⟩ | ⟨⟨e, c₁, hrun⟩, hn⟩ <;> rw [hrun]
  · simp only
    rw [run_record]
    rcases Recording.Follows.finalize hfollows with ⟨hok, hfits, hended⟩ | ⟨⟨e, herror⟩, hn⟩
    · rw [hok]
      refine .inl ⟨_, rfl, hadmits, hfits, ?_, hended⟩
      exact (Onward.recorded c₁ _).path.trans honward.path
    · rw [herror]
      exact .inr ⟨⟨e, _, rfl⟩, fun h => hn h.2⟩
  · exact .inr ⟨⟨e, c₁, rfl⟩, fun h => hn h.1⟩

end

end Copy

end BagFile
