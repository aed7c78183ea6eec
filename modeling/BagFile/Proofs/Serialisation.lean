/-
  The end of a recording.

  * `Follows.run_finalize`: ending a recording writes the bag of its account, or a length was too
    large;
  * `Follows.not_misplaced`: a header that moved or grew is an error that nothing meets;
  * `Follows.of_finalize`: what is on the tape in the end are the blocks of the account's image;
  * `exists_finalize`: a recording succeeds if all its lengths fit.
-/
import BagFile.Proofs.Following

namespace BagFile

/-- The faults of a recorder that lost its place. -/
def Error.IsMisplaced : Error → Prop
  | .writer (.headerMoved _) | .writer (.headerTooLong _) | .writer (.behindSlot _) => True
  | _ => False

theorem Error.IsLimit.not_misplaced {e : Error} (h : e.IsLimit) : ¬e.IsMisplaced := by
  unfold IsLimit at h
  split at h <;> simp_all [IsMisplaced]

theorem Error.IsRefusal.not_misplaced {e : Error} (h : e.IsRefusal) : ¬e.IsMisplaced := by
  unfold IsRefusal at h
  split at h <;> simp_all [IsMisplaced]

/-- The chunks of an account without an open one, as a recorder keeps them. -/
def Account.closedChunks [Codec.Formats] (a : Account) : List ClosedChunk :=
  (Image.placed Layout.dataStart (a.chunks.map Batch.stored)).map Recorder.closedAt

theorem Account.length_closedChunks [Codec.Formats] (a : Account) :
    a.closedChunks.length = a.chunks.length := by
  rw [closedChunks, List.length_map, Image.length_placed, List.length_map]

namespace Recorder

theorem threshold_of_create {settings : Settings} {r₀ : Recorder}
    (h : create settings = .ok r₀) : settings.chunkThreshold ≠ 0 := by
  intro hzero
  have hcheck : settings.check = .error .zeroThreshold := if_pos hzero
  rw [create, hcheck] at h
  cases h

section
variable [Codec.Formats] {r : Recorder} {a : Account}

/-! ## The end of a recording -/

theorem Follows.run_tables (h : r.Follows a) (hidle : a.current = none) :
    (a.image.TablesFit ∧ ∃ r', (guarded do
        let r ← get
        let header ← onTape (writeTables r.connections r.chunks)
        modify fun r => { r with phase := .finalized }
        return header).run r = .ok a.image.header r' ∧ r'.tape.Holds a.image.blocks ∧
          r'.connections = a.connections ∧ r'.chunks = a.closedChunks ∧ r'.phase = .finalized) ∨
      (¬a.image.TablesFit ∧ ∃ e r', (guarded do
        let r ← get
        let header ← onTape (writeTables r.connections r.chunks)
        modify fun r => { r with phase := .finalized }
        return header).run r = .error e r' ∧ e.IsLimit) := by
  have hblocks : a.blocks = Image.preamble FileHeader.placeholder ++
      Image.chunkBlocks a.image.chunks := by simp [Account.blocks, Account.front, hidle, Account.image]
  have hholds := h.holds
  rw [hblocks] at hholds
  rw [run_guarded, run_get_bind, h.chunks, h.connections, EStateM.run_bind, run_onTape]
  rcases run_writeTables hholds with ⟨hf, t, hrun, ht⟩ | ⟨hf, e, t, hrun, he⟩
  · have hrun' : (writeTables a.connections ((Image.placed Layout.dataStart
      (a.chunks.map Batch.stored)).map closedAt)).run r.tape = .ok a.image.header t := hrun
    rw [hrun']
    exact .inl ⟨hf, _, rfl, ht, h.connections, h.chunks, rfl⟩
  · have hrun' : (writeTables a.connections ((Image.placed Layout.dataStart
      (a.chunks.map Batch.stored)).map closedAt)).run r.tape = .error e t := hrun
    rw [hrun']
    exact .inr ⟨hf, e, _, rfl, he⟩

theorem Follows.run_finalize (h : r.Follows a) :
    (a.FinishFits ∧ ∃ r', finalize.run r = .ok a.close.image.header r' ∧
        r'.tape.Holds a.close.image.blocks ∧ r'.connections = a.close.connections ∧
          r'.chunks = a.close.closedChunks ∧ r'.phase = .finalized) ∨
      (¬a.FinishFits ∧ ∃ e r', finalize.run r = .error e r' ∧ e.IsLimit) := by
  unfold finalize
  rw [h.run_checkWritable_bind, run_get_bind]
  rcases hb : a.current with - | b
  · rw [h.idle hb, if_neg (by simp), Account.FinishFits, Account.close_of_idle hb]
    refine (h.run_tables hb).imp ?_ ?_
    · exact fun ⟨hf, r', hrun⟩ => ⟨⟨h.fits, hf⟩, r', hrun⟩
    · exact fun ⟨hf, e, r', hrun, he⟩ => ⟨fun hn => hf hn.2, e, r', hrun, he⟩
  · obtain ⟨chunk, hchunk, hd⟩ := h.busy b hb
    rw [hchunk, if_pos Option.isSome_some, EStateM.run_bind]
    have hend := h.run_endChunk
    match endChunk.run r, hend with
    | .ok _ r₁, ⟨_, a', ha, h₁⟩ =>
      rw [hb] at ha
      cases ha
      refine (h₁.run_tables rfl).imp ?_ ?_
      · exact fun ⟨hf, r', hrun⟩ => ⟨⟨h₁.fits, hf⟩, r', hrun⟩
      · exact fun ⟨hf, e, r', hrun, he⟩ => ⟨fun hn => hf hn.2, e, r', hrun, he⟩
    | .error e r₁, .inl ⟨_, hnone, _⟩ =>
      rw [hb] at hnone
      cases hnone
    | .error e r₁, .inr ⟨he, hf, _⟩ =>
      refine .inr ⟨fun hn => hf fun b' hb' => hn.1 b' ?_, e, r₁, rfl, he⟩
      simp only [Account.close, List.mem_append, Option.mem_toList]
      exact .inr hb'

/-- A recorder that was given up cannot be finalized. -/
theorem finalize_failed (hr : r.phase = .failed) :
    finalize.run r = .error (.writer .abandoned) r := by
  rw [finalize, EStateM.run_bind, checkWritable, run_get_bind, hr]
  rfl

/-! ## Whole recordings -/

theorem follows_of_create {settings : Settings} {r₀ : Recorder}
    (h : create settings = .ok r₀) : r₀.Follows (.start settings) := by
  obtain ⟨r, hr, hf⟩ := create_follows (threshold_of_create h)
  rw [hr] at h
  cases h
  exact hf

/-- No call of a recording reports a misplaced recorder. -/
theorem Follows.not_misplaced (h : r.Follows a) (calls : List Call) {c : Call} {e : Error}
    {r' : Recorder} (hrun : c.run.run (r.after calls) = .error e r') : ¬e.IsMisplaced := by
  by_cases hs : (r.after calls).phase = .failed
  · rw [run_failed hs] at hrun
    cases hrun
    exact Error.IsRefusal.not_misplaced trivial
  · have hc := (h.after calls hs).1.call c
    rw [hrun] at hc
    rcases hc with ⟨he, -, -⟩ | ⟨he, -, -⟩
    · exact he.not_misplaced
    · exact he.not_misplaced

theorem Follows.finalize_not_misplaced (h : r.Follows a) (calls : List Call) {e : Error}
    {r' : Recorder} (hrun : finalize.run (r.after calls) = .error e r') : ¬e.IsMisplaced := by
  by_cases hs : (r.after calls).phase = .failed
  · rw [finalize_failed hs] at hrun
    cases hrun
    exact Error.IsRefusal.not_misplaced trivial
  · rcases (h.after calls hs).1.run_finalize with ⟨-, r', hok, -⟩ | ⟨-, e', r', herror, he⟩
    · rw [hok] at hrun
      cases hrun
    · rw [herror] at hrun
      cases hrun
      exact he.not_misplaced

/-- A recording that is finalized has followed its account up to there. -/
theorem Follows.before_finalize (h : r.Follows a) (calls : List Call) {header : FileHeader}
    {r' : Recorder} (hrun : finalize.run (r.after calls) = .ok header r') :
    (r.after calls).Follows (a.after calls) ∧
      (a.after calls).messages = a.messages ++ r.accepted calls := by
  refine h.after calls fun hs => ?_
  rw [finalize_failed hs] at hrun
  cases hrun

/-- A recording that was finalized holds the bag of its account. -/
theorem Follows.of_finalize (h : r.Follows a) (calls : List Call) {header : FileHeader}
    {r' : Recorder} (hrun : finalize.run (r.after calls) = .ok header r') :
    (a.after calls).FinishFits ∧ header = (a.after calls).close.image.header ∧
      r'.tape.Holds (a.after calls).close.image.blocks ∧
      (a.after calls).messages = a.messages ++ r.accepted calls ∧
      r'.connections = (a.after calls).close.connections ∧
      r'.chunks.length = (a.after calls).close.chunks.length := by
  obtain ⟨hf, hm⟩ := h.before_finalize calls hrun
  rcases hf.run_finalize with ⟨hfits, r'', hok, hholds, hconns, hclosed, -⟩ | ⟨-, e, r'', herror, -⟩
  · rw [hok] at hrun
    cases hrun
    exact ⟨hfits, rfl, hholds, hm, hconns, by rw [hclosed, Account.length_closedChunks]⟩
  · rw [herror] at hrun
    cases hrun

theorem Follows.chunks_of_finalize (h : r.Follows a) (calls : List Call) {header : FileHeader}
    {r' : Recorder} (hrun : finalize.run (r.after calls) = .ok header r') :
    r'.chunks = (a.after calls).close.closedChunks := by
  rcases (h.before_finalize calls hrun).1.run_finalize with
    ⟨-, r'', hok, -, -, hclosed, -⟩ | ⟨-, e, r'', herror, -⟩
  · rw [hok] at hrun
    cases hrun
    exact hclosed
  · rw [herror] at hrun
    cases hrun

theorem Follows.after_of_fits {calls : List Call} (h : r.Follows a) (hf : a.FitsAll calls) :
    (r.after calls).Follows (a.after calls) := by
  induction calls generalizing r a with
  | nil => exact h
  | cons c cs ih =>
    refine ih (h.after_call fun hs => ?_).1 hf.2
    have hc := h.call c
    rw [Call.after] at hs
    rcases hrun : c.run.run r with ⟨x, r'⟩ | ⟨e, r'⟩ <;> rw [hrun] at hc hs
    · obtain ⟨-, a', -, hr⟩ := hc
      exact hr.sound hs
    · rcases hc with ⟨-, -, hr⟩ | ⟨-, hn, -⟩
      · exact hr.sound hs
      · exact hn hf.1

/-- A recording succeeds if all its lengths fit. -/
theorem exists_finalize (settings : Settings) (calls : List Call)
    (hs : settings.chunkThreshold ≠ 0) (hf : (Account.start settings).FitsAll calls)
    (hend : ((Account.start settings).after calls).FinishFits) :
    ∃ r₀ header r, create settings = .ok r₀ ∧ finalize.run (r₀.after calls) = .ok header r := by
  obtain ⟨r₀, hcreate, h⟩ := create_follows hs
  rcases (h.after_of_fits hf).run_finalize with ⟨-, r, hrun, -⟩ | ⟨hn, -⟩
  · exact ⟨r₀, _, r, hcreate, hrun⟩
  · exact absurd hend hn

end

/-- Two chunks with messages out of order, a connection that comes late, and a message of a
    connection that never comes. -/
def sampleCalls : List Call :=
  [.addConnection (.sample 7 "/a"), .write ⟨0, ⟨5, 0⟩, .ofBytes [1, 2, 3]⟩,
    .write ⟨4, ⟨6, 0⟩, .ofBytes [4]⟩, .endChunk, .addConnection (.sample 7 "/b"),
    .beginChunk .none, .append ⟨1, ⟨3, 0⟩, .ofBytes [5]⟩]

end Recorder

end BagFile
