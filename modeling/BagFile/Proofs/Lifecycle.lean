/-
  The life of a recorder, from its header to its tables.

  * A `Course` is what the requests of a session amount to: the account of the calls, and whether
    the bag has been ended.  `Course.FitsAll` says that all lengths fit that are written;
  * `Recorder.Tracks r s` is the invariant of a session: a recorder follows the account until the
    bag is ended, and has nothing more to do from then on.  `Tracks.step` is the step lemma;
  * `Recorder.lifecycle`: so the phase of a recorder says what has happened to it, and which
    requests succeed next.
-/
import BagFile.Proofs.Lasting
import BagFile.Proofs.Sessions

namespace BagFile

/-! ## Accounts -/

/-- A compression that there is a codec for. -/
def Compression.Supported (z : Compression) : Prop := ∃ codec, Codec.ofCompression z = .ok codec

namespace Account

variable {a a' : Account} {c : Call}

theorem connections_close (a : Account) : a.close.connections = a.connections := rfl

theorem connections_roll (a : Account) : a.roll.connections = a.connections := by
  unfold roll
  split
  · exact a.connections_close
  · rfl

theorem connections_open? {z : Compression} (h : a.open? z = some a') :
    a'.connections = a.connections := by
  unfold open? at h
  split at h
  · cases h
    rfl
  · cases h

theorem connections_ready (a : Account) : a.ready.connections = a.connections := by
  unfold ready
  split
  · rcases h : a.open? a.settings.compression with - | a'
    · rfl
    · exact connections_open? h
  · rfl

theorem connections_add? {m : RawMessage} (h : a.add? m = some a') :
    a'.connections = a.connections := by
  unfold add? at h
  split at h
  · cases h
    rfl
  · cases h

/-- Only one kind of call makes connections. -/
theorem connections_step (a : Account) (hc : ∀ x, c ≠ .addConnection x) :
    (a.step c).connections = a.connections := by
  rcases haccept : a.accept? c with - | a'
  · rw [step, haccept, Option.getD_none]
    cases c with
    | write m => exact a.connections_ready
    | _ => rfl
  · rw [step, haccept, Option.getD_some]
    cases c with
    | addConnection x => exact absurd rfl (hc x)
    | beginChunk z => exact connections_open? haccept
    | append m => exact connections_add? haccept
    | endChunk =>
      rw [accept?, Option.map_eq_some_iff] at haccept
      obtain ⟨b, -, rfl⟩ := haccept
      rfl
    | write m =>
      rw [accept?, Option.map_eq_some_iff] at haccept
      obtain ⟨a₁, hadd, rfl⟩ := haccept
      rw [connections_roll, connections_add? hadd, connections_ready]

theorem isSome_open? (a : Account) (z : Compression) :
    (a.open? z).isSome ↔ a.current = none ∧ z.Supported := by
  unfold open? Compression.Supported
  rcases a.current with - | b
  · rcases Codec.ofCompression z with e | codec <;> simp
  · simp

theorem isSome_add? (a : Account) (m : RawMessage) :
    (a.add? m).isSome ↔ m.conn.toNat < a.connections.length ∧ a.current.isSome := by
  unfold add?
  by_cases hlt : m.conn.toNat < a.connections.length
  · rw [List.getElem?_eq_getElem hlt]
    rcases a.current with - | b <;> simp [hlt]
  · rw [List.getElem?_eq_none (by omega)]
    simp [hlt]

theorem isSome_current_ready (a : Account) :
    a.ready.current.isSome ↔ a.current.isSome ∨ a.settings.compression.Supported := by
  have hopen := a.isSome_open? a.settings.compression
  unfold ready
  rcases hb : a.current with - | b
  · rcases ho : a.open? a.settings.compression with - | a'
    · have hn : ¬a.settings.compression.Supported := fun hz => by
        simpa [ho] using hopen.2 ⟨hb, hz⟩
      simp [hb, hn]
    · have hz : a.settings.compression.Supported := (hopen.1 (by rw [ho]; rfl)).2
      have hcurrent : a'.current.isSome := by
        unfold open? at ho
        split at ho
        · cases ho
          rfl
        · cases ho
      simp [hcurrent, hz]
  · simp [hb]

end Account

/-! ## Courses -/

/-- What some requests amount to: the account of the calls, and whether the bag has been ended. -/
structure Course where
  account : Account
  ended : Bool
  deriving DecidableEq

namespace Course

/-- The course of a session that has just begun. -/
def start (settings : Settings) : Course := ⟨.start settings, false⟩

/-- The course after a request.  Once the bag is ended, nothing is done any more. -/
def step (s : Course) (q : Request) : Course :=
  if s.ended then s
  else
    match q with
    | .call c => ⟨s.account.step c, false⟩
    | .finalize => ⟨s.account.close, true⟩

variable [Codec.Formats]

/-- All lengths fit that a request writes. -/
def Fits (s : Course) : Request → Prop
  | .call c => s.ended ∨ s.account.Fits c
  | .finalize => s.ended ∨ s.account.FinishFits

/-- The course after a session. -/
def after (s : Course) (moves : List Move) : Course :=
  moves.foldl (fun s m => s.step m.request) s

/-- All lengths fit that a session writes. -/
def FitsAll (s : Course) : List Move → Prop
  | [] => True
  | m :: ms => s.Fits m.request ∧ (s.step m.request).FitsAll ms

instance (s : Course) : (q : Request) → Decidable (s.Fits q)
  | .call _ | .finalize => inferInstanceAs (Decidable (_ ∨ _))

instance decidableFitsAll (s : Course) : (moves : List Move) → Decidable (s.FitsAll moves)
  | [] => .isTrue trivial
  | m :: ms =>
    have := decidableFitsAll (s.step m.request) ms
    inferInstanceAs (Decidable (_ ∧ _))

end Course

/-! ## What a session has given -/

/-- The message that a request brings. -/
def Request.message? : Request → Option RawMessage
  | .call c => c.message?
  | .finalize => none

namespace Recorder

/-- The messages that were taken in a session. -/
def taken (t : List (Move × Except Error Answer)) : List RawMessage :=
  t.flatMap fun x => if x.2.isOk then x.1.request.message?.toList else []

/-- The ids that were given in a session. -/
def ids (t : List (Move × Except Error Answer)) : List UInt32 :=
  t.flatMap fun x =>
    match x.2 with
    | .ok (.id conn) => [conn]
    | _ => []

/-- Whether the bag was ended in a session. -/
def Ended (t : List (Move × Except Error Answer)) : Prop := ∃ x ∈ t, ∃ h, x.2 = .ok (.header h)

/-! ## The invariant -/

variable {α : Type} {r r' : Recorder} {s : Course}

/-- The phases without an open chunk say whether there has been one. -/
structure Staged (r : Recorder) : Prop where
  reserved : r.phase = .headerReserved → r.chunks = []
  closed : r.phase = .chunkClosed → r.chunks ≠ []

theorem upholds_staged_onTape (op : Tape.Op α) : Upholds Staged (fun _ => True) (onTape op) := by
  constructor
  · intro r a r' hrun hr
    obtain ⟨t, rfl⟩ := of_onTape_ok hrun
    exact ⟨trivial, hr.reserved, hr.closed⟩
  · intro r e r' hrun hr
    rw [run_onTape] at hrun
    split at hrun
    · cases hrun
    · cases hrun
      exact ⟨hr.reserved, hr.closed⟩

theorem lasts_staged [Codec.Formats] : Lasts Staged where
  failed r h := by constructor <;> rintro ⟨⟩
  connections r cs h := ⟨h.reserved, h.closed⟩
  reserveChunk z codec := by
    refine (upholds_staged_onTape _).bind fun pos _ => ?_
    refine (upholds_staged_onTape _).bind fun _ _ => ?_
    refine Upholds.onModify fun r h => ?_
    constructor <;> rintro ⟨⟩
  appendTo r chunk _ _ c conn time data := by
    refine Upholds.onGet.bind fun r _ => ?_
    simp only
    split
    · exact Upholds.throw _
    · refine Upholds.onSet ?_
      constructor <;> rintro ⟨⟩
  closeChunk r chunk _ _ := by
    refine (upholds_staged_onTape _).bind fun _ _ => ?_
    refine Upholds.onModify fun r h => ⟨?_, ?_⟩
    · rintro ⟨⟩
    · rintro -
      simp

/-- As many messages as before. -/
def Counts (n : Nat) (r : Recorder) : Prop := r.messageCount = n

theorem keeps_counts_onTape (n : Nat) (op : Tape.Op α) : Keeps (Counts n) (onTape op) := by
  intro r a r' hrun hr
  obtain ⟨t, rfl⟩ := of_onTape_ok hrun
  exact hr

variable [Codec.Formats]

theorem keeps_counts_endChunk (n : Nat) : Keeps (Counts n) endChunk := by
  intro r a r' hrun hr
  obtain ⟨_, r₁, hcheck, hrest⟩ := run_bind_eq_ok hrun
  obtain rfl := checks_checkWritable.of_ok hcheck
  rw [run_get_bind] at hrest
  split at hrest
  · cases hrest
  · obtain ⟨_, r₂, hwrite, hmodify⟩ := run_bind_eq_ok (of_guarded_ok hrest)
    have hcounts := keeps_counts_onTape n _ _ _ _ hwrite hr
    cases hmodify
    exact hcounts

/-- Ending a bag adds no message. -/
theorem keeps_counts_finalize (n : Nat) : Keeps (Counts n) finalize := by
  have htables : Keeps (Counts n) (guarded (do
      let r ← get
      let header ← onTape (writeTables r.connections r.chunks)
      modify fun r => { r with phase := .finalized }
      return header : Op FileHeader)) := by
    intro r a r' hrun hr
    have hstep := of_guarded_ok hrun
    rw [run_get_bind] at hstep
    obtain ⟨header, r₁, hwrite, hmodify⟩ := run_bind_eq_ok hstep
    have hcounts := keeps_counts_onTape n _ _ _ _ hwrite hr
    cases hmodify
    exact hcounts
  intro r a r' hrun hr
  obtain ⟨_, r₁, hcheck, hrest⟩ := run_bind_eq_ok hrun
  obtain rfl := checks_checkWritable.of_ok hcheck
  rw [run_get_bind] at hrest
  split at hrest
  · exact (keeps_counts_endChunk n).bind (fun _ => htables) _ _ _ hrest hr
  · exact htables _ _ _ hrest hr

/-- A recorder is where the requests of a session have brought it. -/
inductive Tracks : Recorder → Course → Prop
  | recording {r : Recorder} {a : Account} : r.Follows a → r.Staged → Tracks r ⟨a, false⟩
  | ended {r : Recorder} {a : Account} : r.phase = .finalized → a.current = none →
      r.connections = a.connections → r.chunks.length = a.chunks.length →
      r.messageCount = a.messages.length → Tracks r ⟨a, true⟩

theorem tracks_of_create {settings : Settings} (h : create settings = .ok r) :
    r.Tracks (.start settings) := by
  have hf := follows_of_create h
  have hphase : r.phase = .headerReserved := by
    obtain ⟨_, -, hrest⟩ := bind_eq_ok h
    split at hrest
    · cases hrest
      rfl
    · cases hrest
  refine .recording hf ⟨fun _ => hf.chunks, ?_⟩
  rw [hphase]
  rintro ⟨⟩

/-! ## A request -/

theorem Ends.isSome_iff {β : Type} {next : Option Account} {rest : Account} {fits : Prop}
    {result : EStateM.Result Error Recorder β} (h : Ends next rest fits result) (hf : fits) :
    (∃ x r', result = .ok x r') ↔ next.isSome := by
  rcases result with ⟨x, r'⟩ | ⟨e, r'⟩
  · obtain ⟨-, a, rfl, -⟩ := h
    exact iff_of_true ⟨x, r', rfl⟩ rfl
  · rcases h with ⟨-, rfl, -⟩ | ⟨-, hn, -⟩
    · refine iff_of_false ?_ (by simp)
      rintro ⟨x, r'', ⟨⟩⟩
    · exact absurd hf hn

end Recorder

namespace Request

variable [Codec.Formats] {r : Recorder}

/-- A call as a request, with what it gives. -/
theorem run_call (c : Call) (r : Recorder) :
    (∃ a r', (call c).run.run r = .ok a r' ∧ c.run.run r = .ok ⟨⟩ r') ∨
      ∃ e r', (call c).run.run r = .error e r' ∧ c.run.run r = .error e r' := by
  cases c with
  | addConnection x =>
    simp only [run, Call.run, EStateM.run_bind]
    rcases (Recorder.addConnection x).run r with ⟨id, r'⟩ | ⟨e, r'⟩
    · exact .inl ⟨_, _, rfl, rfl⟩
    · exact .inr ⟨_, _, rfl, rfl⟩
  | _ =>
    simp only [run, EStateM.run_bind]
    generalize EStateM.run (Call.run _) r = result
    rcases result with ⟨⟨⟩, r'⟩ | ⟨e, r'⟩
    · exact .inl ⟨_, _, rfl, rfl⟩
    · exact .inr ⟨_, _, rfl, rfl⟩

theorem after_call (c : Call) (r : Recorder) : (call c).after r = c.after r := by
  rcases run_call c r with ⟨a, r', hq, hc⟩ | ⟨e, r', hq, hc⟩
  · rw [after, hq, Call.after, hc]
  · rw [after, hq, Call.after, hc]

end Request

namespace Recorder

variable [Codec.Formats] {r : Recorder} {s : Course} {e : Error}

/-- A recorder that is done with its file refuses everything. -/
theorem run_unwritable (hcheck : checkWritable.run r = .error e r) (hidle : r.phase.chunk? = none)
    (q : Request) : q.run.run r = .error e r := by
  have hbind {α : Type} (k : Unit → Op α) : (checkWritable >>= k).run r = .error e r := by
    rw [EStateM.run_bind, hcheck]
  have hcall (c : Call) : c.run.run r = .error e r := by
    cases c with
    | addConnection x => rw [Call.run, EStateM.run_bind, addConnection, hbind]
    | beginChunk z => exact hbind _
    | append m => exact hbind _
    | endChunk => exact hbind _
    | write m =>
      rw [Call.run, write, run_get_bind, hidle, if_pos Option.isNone_none, EStateM.run_bind,
        beginChunk, hbind]
  cases q with
  | call c =>
    rcases Request.run_call c r with ⟨a, r', -, hc⟩ | ⟨e', r', hq, hc⟩
    · rw [hcall c] at hc
      cases hc
    · rw [hcall c] at hc
      cases hc
      exact hq
  | finalize => rw [Request.run, EStateM.run_bind, finalize, hbind]

theorem run_finalized (h : r.phase = .finalized) (q : Request) :
    q.run.run r = .error (.writer .finalized) r := by
  refine run_unwritable ?_ ?_ q
  · rw [checkWritable, run_get_bind, h]
    rfl
  · rw [h]
    rfl

/-- Ended bags are left alone. -/
theorem after_finalized (h : r.phase = .finalized) (q : Request) : q.after r = r := by
  rw [Request.after, run_finalized h q]

end Recorder

/-- The ids of the connections, in order. -/
def Account.ids (a : Account) : List UInt32 := (List.range a.connections.length).map UInt32.ofNat

open Recorder

/-- What a session has added to a course. -/
structure Course.Adds (s s' : Course) (t : List (Move × Except Error Answer)) : Prop where
  messages : s'.account.messages = s.account.messages ++ taken t
  ids : s'.account.ids = s.account.ids ++ ids t
  ended : s'.ended = true ↔ s.ended = true ∨ Ended t

theorem Course.adds_refl (s : Course) : s.Adds s [] where
  messages := (List.append_nil _).symm
  ids := (List.append_nil _).symm
  ended := by simp [Ended]

theorem Course.Adds.trans {s s₁ s₂ : Course} {t t₁ : List (Move × Except Error Answer)}
    (h : s.Adds s₁ t) (h₁ : s₁.Adds s₂ t₁) : s.Adds s₂ (t ++ t₁) where
  messages := by rw [h₁.messages, h.messages, taken, taken, taken, List.flatMap_append,
    List.append_assoc]
  ids := by rw [h₁.ids, h.ids, Recorder.ids, Recorder.ids, Recorder.ids, List.flatMap_append,
    List.append_assoc]
  ended := by
    rw [h₁.ended, h.ended, Ended, Ended, Ended, or_assoc]
    simp only [List.mem_append, or_and_right, exists_or]

namespace Recorder

section
variable [Codec.Formats] {r : Recorder} {s : Course} {a : Account}

theorem Follows.length_chunks (h : r.Follows a) : r.chunks.length = a.chunks.length := by
  rw [h.chunks, List.length_map, Image.length_placed, List.length_map]

/-- A call that makes no connection says no more than that it was done. -/
theorem answer_call {c : Call} (hc : ∀ x, c ≠ .addConnection x) (r : Recorder) :
    (Request.call c).answer r = .ok .done ∨ ∃ e, (Request.call c).answer r = .error e := by
  have hrun : (Request.call c).run = do
      c.run
      return .done := by
    cases c with
    | addConnection x => exact absurd rfl (hc x)
    | _ => rfl
  rw [Request.answer, hrun, EStateM.run_bind]
  rcases c.run.run r with ⟨⟨⟩, r'⟩ | ⟨e, r'⟩
  · exact .inl rfl
  · exact .inr ⟨e, rfl⟩

theorem taken_call (c : Call) (inserted : Bool) (r : Recorder) :
    taken [(⟨.call c, inserted⟩, (Request.call c).answer r)] = c.accepted r := by
  rw [taken, List.flatMap_singleton]
  unfold Request.answer Call.accepted
  rcases Request.run_call c r with ⟨x, r', hq, hc⟩ | ⟨e, r', hq, hc⟩
  · simp only [hq, hc]
    rfl
  · simp only [hq, hc]
    rfl

theorem Follows.after_call_of_fits (h : r.Follows a) {c : Call} (hfits : a.Fits c) :
    (c.after r).Follows (a.step c) := by
  have hafter : (r.after [c]).Follows (a.after [c]) := h.after_of_fits ⟨hfits, trivial⟩
  exact hafter

/-- What a call adds to an account, if its lengths fit. -/
theorem Follows.adds_call (h : r.Follows a) {c : Call} (hfits : a.Fits c) (inserted : Bool) :
    Course.Adds ⟨a, false⟩ ⟨a.step c, false⟩
      [(⟨.call c, inserted⟩, (Request.call c).answer r)] := by
  have hafter := h.after_call_of_fits hfits
  have hmessages : (a.step c).messages =
      a.messages ++ taken [(⟨.call c, inserted⟩, (Request.call c).answer r)] := by
    rw [taken_call]
    exact (h.after_call hafter.sound).2
  by_cases hc : ∃ x, c = .addConnection x
  · obtain ⟨x, rfl⟩ := hc
    obtain ⟨r', hrun, -⟩ := h.run_addConnection x
    have hanswer : (Request.call (.addConnection x)).answer r =
        .ok (.id (UInt32.ofNat a.connections.length)) := by
      simp only [Request.answer, Request.run, EStateM.run_bind, hrun]
      rfl
    refine ⟨hmessages, ?_, ?_⟩
    · rw [hanswer]
      simp [Account.ids, Account.step, Account.accept?, Account.addConnection, ids,
        List.range_succ]
    · rw [hanswer]
      simp [Ended]
  · have hc : ∀ x, c ≠ .addConnection x := fun x hx => hc ⟨x, hx⟩
    have hids : (a.step c).ids = a.ids := by
      rw [Account.ids, Account.ids, a.connections_step hc]
    refine ⟨hmessages, ?_, ?_⟩
    · rcases answer_call hc r with hanswer | ⟨e, hanswer⟩ <;> simp [hanswer, ids, hids]
    · rcases answer_call hc r with hanswer | ⟨e, hanswer⟩ <;> simp [hanswer, Ended]

/-- **A request** whose lengths fit takes the recorder where the course says. -/
theorem Tracks.step (h : r.Tracks s) (m : Move) (hfits : s.Fits m.request) :
    (m.request.after r).Tracks (s.step m.request) ∧
      s.Adds (s.step m.request) [(m, m.request.answer r)] := by
  cases h with
  | @recording a hfollows hstaged =>
    obtain ⟨⟨c⟩ | -, inserted⟩ := m
    · have hfits : a.Fits c := by simpa [Course.Fits] using hfits
      have hafter := hfollows.after_call_of_fits hfits
      have hkept : (c.after r).Staged := by
        unfold Call.after
        split
        · next hrun => exact ((lasts_staged.call c).gives _ _ _ hrun hstaged).2
        · next hrun => exact (lasts_staged.call c).spares _ _ _ hrun hstaged
      refine ⟨?_, hfollows.adds_call hfits inserted⟩
      simp only [Request.after_call]
      exact .recording hafter hkept
    · have hfits : a.FinishFits := by simpa [Course.Fits] using hfits
      rcases hfollows.run_finalize with ⟨-, r', hrun, -, hconns, hchunks, hphase⟩ | ⟨hn, -⟩
      · have hafter : Request.finalize.after r = r' := by
          simp only [Request.after, Request.run, EStateM.run_bind, hrun]
          rfl
        have hanswer : Request.finalize.answer r = .ok (.header a.close.image.header) := by
          simp only [Request.answer, Request.run, EStateM.run_bind, hrun]
          rfl
        constructor
        · rw [hafter]
          refine .ended hphase rfl hconns ?_ ?_
          · rw [hchunks, Account.length_closedChunks]
          · rw [a.messages_close, keeps_counts_finalize _ _ _ _ hrun rfl]
            exact hfollows.messageCount
        · rw [hanswer]
          refine ⟨?_, ?_, ?_⟩
          · simp [taken, Request.message?, Course.step, a.messages_close]
          · simp [ids, Course.step, Account.ids, Account.close]
          · simp [Ended, Course.step]
      · exact absurd hfits hn
  | @ended a hphase hidle hconns hchunks hcount =>
    have hanswer : m.request.answer r = .error (.writer .finalized) := by
      rw [Request.answer, run_finalized hphase]
    have hstep : (⟨a, true⟩ : Course).step m.request = ⟨a, true⟩ := rfl
    rw [after_finalized hphase, hstep, hanswer]
    refine ⟨.ended hphase hidle hconns hchunks hcount, ?_, ?_, ?_⟩
    · simp [taken, Except.isOk, Except.toBool]
    · simp [ids]
    · simp [Ended]

/-- **A session** whose lengths fit takes the recorder where the course says. -/
theorem Tracks.run (h : r.Tracks s) {moves : List Move} (hfits : s.FitsAll moves) :
    (r.afterMoves moves).Tracks (s.after moves) ∧
      s.Adds (s.after moves) (transcript r moves) := by
  induction moves generalizing r s with
  | nil => exact ⟨h, s.adds_refl⟩
  | cons m ms ih =>
    obtain ⟨hstep, hadds⟩ := h.step m hfits.1
    obtain ⟨hrun, hrest⟩ := ih hstep hfits.2
    exact ⟨hrun, hadds.trans hrest⟩

/-! ## Phases -/

/-- The phases of a recording that goes on. -/
theorem Follows.phase_of_idle (h : r.Follows a) (hs : r.Staged) (hidle : a.current = none) :
    (r.phase = .headerReserved ∧ a.chunks = []) ∨ (r.phase = .chunkClosed ∧ a.chunks ≠ []) := by
  have hchunk := h.idle hidle
  have hlength := h.length_chunks
  rcases hphase : r.phase with - | chunk | - | - | -
  · have hnone := hs.reserved hphase
    rw [hnone, List.length_nil] at hlength
    exact .inl ⟨rfl, List.length_eq_zero_iff.1 hlength.symm⟩
  · rw [hphase] at hchunk
    cases hchunk
  · refine .inr ⟨rfl, fun hnone => hs.closed hphase ?_⟩
    rw [hnone, List.length_nil] at hlength
    exact List.length_eq_zero_iff.1 hlength
  · exact absurd hphase h.unfinished
  · exact absurd hphase h.sound

theorem Tracks.phase (h : r.Tracks s) :
    (r.phase.chunk?.isSome ↔ s.account.current.isSome) ∧
      (r.phase = .headerReserved ↔
        s.account.chunks = [] ∧ s.account.current = none ∧ ¬s.ended = true) ∧
      (r.phase = .chunkClosed ↔
        s.account.chunks ≠ [] ∧ s.account.current = none ∧ ¬s.ended = true) ∧
      (r.phase = .finalized ↔ s.ended = true) := by
  cases h with
  | @recording a hfollows hstaged =>
    rcases hcurrent : a.current with - | b
    · rcases hfollows.phase_of_idle hstaged hcurrent with ⟨hphase, hchunks⟩ | ⟨hphase, hchunks⟩ <;>
        simp [hphase, hchunks, Phase.chunk?]
    · obtain ⟨chunk, hchunk, -⟩ := hfollows.busy b hcurrent
      have hphase : r.phase = .chunkOpen chunk := by
        rcases hphase : r.phase with - | chunk' | - | - | - <;> rw [hphase] at hchunk <;> cases hchunk
        rfl
      simp [hphase, Phase.chunk?]
  | @ended a hphase hidle hconns hchunks hcount => simp [hphase, hidle, Phase.chunk?]

theorem Tracks.counts (h : r.Tracks s) : r.connections = s.account.connections ∧
    r.chunks.length = s.account.chunks.length ∧ r.messageCount = s.account.messages.length := by
  cases h with
  | recording hfollows hstaged =>
    exact ⟨hfollows.connections, hfollows.length_chunks, hfollows.messageCount⟩
  | ended hphase hidle hconns hchunks hcount => exact ⟨hconns, hchunks, hcount⟩

/-! ## What succeeds -/

/-- The requests that a recorder accepts. -/
def Allows (r : Recorder) : Request → Prop
  | .call (.addConnection _) => r.phase ≠ .finalized
  | .call (.beginChunk z) => (r.phase = .headerReserved ∨ r.phase = .chunkClosed) ∧ z.Supported
  | .call (.append m) => r.phase.chunk?.isSome ∧ m.conn.toNat < r.connections.length
  | .call .endChunk => r.phase.chunk?.isSome
  | .call (.write m) => r.phase ≠ .finalized ∧ m.conn.toNat < r.connections.length ∧
      (r.phase.chunk?.isSome ∨ r.settings.compression.Supported)
  | .finalize => r.phase ≠ .finalized

theorem Follows.isSome_accept? (h : r.Follows a) (hs : r.Staged) (c : Call) :
    (a.accept? c).isSome ↔ r.Allows (.call c) := by
  obtain ⟨hopen, hreserved, hclosed, hfinalized⟩ := (Tracks.recording h hs).phase
  have hgoes := h.unfinished
  cases c with
  | addConnection x => simp [Account.accept?, Allows, hgoes]
  | beginChunk z =>
    rw [Account.accept?, Account.isSome_open?, Allows, hreserved, hclosed]
    simp only [Bool.false_eq_true, not_false_eq_true, and_true]
    tauto
  | append m =>
    rw [Account.accept?, Account.isSome_add?, Allows, hopen, h.connections]
    exact and_comm
  | endChunk => rw [Account.accept?, Option.isSome_map, Allows, hopen]
  | write m =>
    rw [Account.accept?, Option.isSome_map, Account.isSome_add?, Account.isSome_current_ready,
      Account.connections_ready, Allows, hopen, h.connections, h.settings]
    simp [hgoes]

/-- **Which requests succeed** hangs on the phase, the connections and the compression alone. -/
theorem Tracks.succeeds (h : r.Tracks s) {q : Request} (hfits : s.Fits q) :
    (∃ x, q.answer r = .ok x) ↔ r.Allows q := by
  cases h with
  | @recording a hfollows hstaged =>
    cases q with
    | call c =>
      have hfits : a.Fits c := by simpa [Course.Fits] using hfits
      rw [← hfollows.isSome_accept? hstaged, ← (hfollows.call c).isSome_iff hfits, Request.answer]
      rcases Request.run_call c r with ⟨x, r', hq, hc⟩ | ⟨e, r', hq, hc⟩ <;> simp [hq, hc]
    | finalize =>
      have hfits : a.FinishFits := by simpa [Course.Fits] using hfits
      rcases hfollows.run_finalize with ⟨-, r', hrun, -⟩ | ⟨hn, -⟩
      · have hanswer : Request.finalize.answer r = .ok (.header a.close.image.header) := by
          simp only [Request.answer, Request.run, EStateM.run_bind, hrun]
          rfl
        exact iff_of_true ⟨_, hanswer⟩ hfollows.unfinished
      · exact absurd hfits hn
  | ended hphase hidle hconns hchunks hcount =>
    refine iff_of_false ?_ ?_
    · rw [Request.answer, run_finalized hphase]
      rintro ⟨x, ⟨⟩⟩
    · cases q with
      | call c => cases c <;> simp [Allows, hphase, Phase.chunk?]
      | finalize => simp [Allows, hphase]

/-- **The life of a recorder.**  A session of any length whose lengths fit is at a place that its
    account tells.  The phase says whether a chunk is open, whether there has been one, and whether
    the bag was ended; chunks and messages are counted, and connections numbered in order.  From
    all this follows which requests succeed; and once the bag is ended, none changes anything. -/
theorem lifecycle {settings : Settings} {r₀ : Recorder} (hcreate : create settings = .ok r₀)
    {moves : List Move} (hfits : (Course.start settings).FitsAll moves) :
    let r := r₀.afterMoves moves
    let s := (Course.start settings).after moves
    let t := transcript r₀ moves
    (r.phase.chunk?.isSome ↔ s.account.current.isSome) ∧
      (r.phase = .headerReserved ↔ s.account.chunks = [] ∧ s.account.current = none ∧ ¬Ended t) ∧
      (r.phase = .chunkClosed ↔ s.account.chunks ≠ [] ∧ s.account.current = none ∧ ¬Ended t) ∧
      (r.phase = .finalized ↔ Ended t) ∧
      (∀ q, s.Fits q → ((∃ x, q.answer r = .ok x) ↔ r.Allows q)) ∧
      r.chunks.length = s.account.chunks.length ∧
      r.messageCount = (taken t).length ∧
      ids t = (List.range r.connections.length).map UInt32.ofNat ∧
      (r.phase = .finalized → ∀ q : Request, q.after r = r) := by
  intro r s t
  obtain ⟨htracks, hadds⟩ := (tracks_of_create hcreate).run hfits
  have hended : s.ended = true ↔ Ended t := hadds.ended.trans (or_iff_right Bool.false_ne_true)
  obtain ⟨hopen, hreserved, hclosed, hfinalized⟩ := htracks.phase
  obtain ⟨hconns, hchunks, hcount⟩ := htracks.counts
  rw [hended] at hreserved hclosed hfinalized
  refine ⟨hopen, hreserved, hclosed, hfinalized, fun q hq => htracks.succeeds hq, hchunks, ?_, ?_,
    after_finalized⟩
  · rw [hcount, hadds.messages]
    rfl
  · rw [hconns]
    exact hadds.ids.symm

end

/-- Two chunks, the end of the bag, and a call that comes too late. -/
def sampleSession : List Move :=
  sampleCalls.map (fun c => ⟨.call c, false⟩) ++
    [⟨.finalize, false⟩, ⟨.call (.addConnection (.sample 7 "/c")), false⟩]

theorem lifecycle_sample : ∃ r₀, create .default = .ok r₀ ∧
    (Course.start .default).FitsAll sampleSession ∧
      (r₀.afterMoves sampleSession).phase = .finalized ∧
      (r₀.afterMoves sampleSession).chunks.length = 2 ∧
      ∀ q : Request, q.after (r₀.afterMoves sampleSession) = r₀.afterMoves sampleSession := by
  obtain ⟨r₀, hcreate, -⟩ := create_follows (show Settings.default.chunkThreshold ≠ 0 by decide)
  have hfits : (Course.start .default).FitsAll sampleSession := by decide +kernel
  obtain ⟨-, -, -, -, -, hchunks, -, -, hunchanged⟩ := lifecycle hcreate hfits
  have hphase : (r₀.afterMoves sampleSession).phase = .finalized :=
    ((tracks_of_create hcreate).run hfits).1.phase.2.2.2.2 (by decide +kernel)
  refine ⟨r₀, hcreate, hfits, hphase, ?_, hunchanged hphase⟩
  rw [hchunks]
  decide +kernel

end Recorder

end BagFile
