/-
  Chunks that are opened and closed by themselves.

  * `Account.byHand` are the explicit calls in place of a call: in place of a write, a chunk is
    begun if none is open, the message appended, and the chunk ended if that has filled it.  Which
    they are is told by the account of the explicit calls themselves;
  * `Follows.after_byHand`: they leave the recorder exactly where the call itself does, even if a
    length was too large and the recorder was given up;
  * `Account.Greedy` is what holds of the chunks of writes alone, and every write keeps it
    (`Greedy.write`).  `Recorder.writes_roll_greedily` puts this together.
-/
import Mathlib.Data.List.Flatten
import BagFile.Proofs.Announcing
import BagFile.Proofs.Lifecycle

namespace BagFile

/-! ## Calls by hand -/

/-- A call that leaves chunks alone: a registration, or a write to one of so many connections. -/
def Call.IsAutomatic (n : Nat) : Call → Prop
  | .addConnection _ => True
  | .write m => m.conn.toNat < n
  | _ => False

/-- Registrations, and writes of messages whose connection is registered by then; there are so many
    connections at first. -/
def Call.Automatic : Nat → List Call → Prop
  | _, [] => True
  | n, c :: cs => c.IsAutomatic n ∧ Automatic (n + c.connection?.toList.length) cs

instance (n : Nat) : (c : Call) → Decidable (c.IsAutomatic n)
  | .addConnection _ => .isTrue trivial
  | .write m => inferInstanceAs (Decidable (m.conn.toNat < n))
  | .beginChunk _ | .append _ | .endChunk => .isFalse id

instance Call.decidableAutomatic : (n : Nat) → (calls : List Call) → Decidable (Automatic n calls)
  | _, [] => .isTrue trivial
  | n, c :: cs =>
    have := decidableAutomatic (n + c.connection?.toList.length) cs
    inferInstanceAs (Decidable (_ ∧ _))

namespace Account

/-- Whether a chunk is open that has reached the threshold. -/
def isFull (a : Account) : Bool :=
  a.current.any fun b => a.settings.chunkThreshold.toNat ≤ b.contents.length

/-- The explicit call in front of a message: a chunk is begun if none is open. -/
def beginning (a : Account) : List Call :=
  if a.current.isNone then [.beginChunk a.settings.compression] else []

/-- The explicit call behind a message: the chunk is ended if it is full. -/
def ending (a : Account) : List Call := if a.isFull then [.endChunk] else []

/-- The explicit calls in place of a call. -/
def byHand (a : Account) : Call → List Call
  | .write m => a.beginning ++ .append m :: (a.after (a.beginning ++ [.append m])).ending
  | c => [c]

/-- The explicit calls in place of some calls. -/
def allByHand (a : Account) : List Call → List Call
  | [] => []
  | c :: cs => a.byHand c ++ (a.after (a.byHand c)).allByHand cs

/-- None of some calls is refused. -/
def AcceptsAll (a : Account) : List Call → Prop
  | [] => True
  | c :: cs => (a.accept? c).isSome ∧ (a.step c).AcceptsAll cs

variable {a : Account} {b : Batch} {m : RawMessage} {c : Call} {calls : List Call}

theorem after_append (a : Account) (calls calls' : List Call) :
    a.after (calls ++ calls') = (a.after calls).after calls' := List.foldl_append

theorem fitsAll_append [Codec.Formats] (a : Account) (calls calls' : List Call) :
    a.FitsAll (calls ++ calls') ↔ a.FitsAll calls ∧ (a.after calls).FitsAll calls' := by
  induction calls generalizing a with
  | nil => exact iff_of_eq (true_and _).symm
  | cons c cs ih => exact (and_congr_right fun _ => ih _).trans and_assoc.symm

theorem acceptsAll_append (a : Account) (calls calls' : List Call) :
    a.AcceptsAll (calls ++ calls') ↔ a.AcceptsAll calls ∧ (a.after calls).AcceptsAll calls' := by
  induction calls generalizing a with
  | nil => exact iff_of_eq (true_and _).symm
  | cons c cs ih => exact (and_congr_right fun _ => ih _).trans and_assoc.symm

theorem roll_eq (a : Account) : a.roll = if a.isFull then a.close else a := rfl

theorem after_beginning (a : Account) : a.after a.beginning = a.ready := by
  unfold beginning ready
  split <;> rfl

theorem after_ending (a : Account) : a.after a.ending = a.roll := by
  rw [ending, roll_eq]
  split
  · next hfull =>
    rcases hb : a.current with - | b
    · simp [isFull, hb] at hfull
    · simp [after, step, accept?, hb]
  · rfl

/-- A chunk is begun by hand where a write would begin it. -/
theorem byHand_write (a : Account) (m : RawMessage) :
    a.byHand (.write m) = a.beginning ++ .append m :: (a.ready.step (.append m)).ending := by
  rw [byHand, after_append, after_beginning]
  rfl

theorem AcceptsAll.messages_after (h : a.AcceptsAll calls) :
    (a.after calls).messages = a.messages ++ calls.filterMap Call.message? := by
  induction calls generalizing a with
  | nil => exact (List.append_nil _).symm
  | cons c cs ih =>
    obtain ⟨a', ha⟩ := Option.isSome_iff_exists.1 h.1
    have hstep : a.step c = a' := by rw [step, ha, Option.getD_some]
    have hafter : a.after (c :: cs) = (a.step c).after cs := rfl
    rw [hafter, ih h.2, hstep, messages_accept? ha, List.append_assoc]
    rcases hm : c.message? with - | m <;> simp [hm]

theorem not_write_of_mem_byHand {c' : Call} (h : c' ∈ a.byHand c) : ∀ m, c' ≠ .write m := by
  rintro m rfl
  cases c with
  | write n =>
    rw [byHand, beginning, ending] at h
    split at h <;> split at h <;> simp at h
  | _ => simp [byHand] at h

/-- No call that is made by hand is a write. -/
theorem not_write_of_mem_allByHand {c' : Call} (h : c' ∈ a.allByHand calls) :
    ∀ m, c' ≠ .write m := by
  induction calls generalizing a with
  | nil => cases h
  | cons c cs ih => exact (List.mem_append.1 h).elim not_write_of_mem_byHand ih

/-- With a compression that is understood, a message of a known connection finds a chunk open. -/
theorem exists_added (hz : a.settings.compression.Supported)
    (hm : m.conn.toNat < a.connections.length) :
    ∃ a', a.ready.add? m = some a' ∧ a.ready.step (.append m) = a' := by
  have hsome : (a.ready.add? m).isSome := by
    rw [isSome_add?, connections_ready, isSome_current_ready]
    exact ⟨hm, .inr hz⟩
  obtain ⟨a', ha⟩ := Option.isSome_iff_exists.1 hsome
  exact ⟨a', ha, by rw [step, accept?, ha, Option.getD_some]⟩

/-- **The explicit calls make of an account what the call makes of it.** -/
theorem after_byHand (hz : a.settings.compression.Supported)
    (hc : c.IsAutomatic a.connections.length) : a.after (a.byHand c) = a.step c := by
  cases c with
  | write m =>
    obtain ⟨a', ha, happend⟩ := exists_added hz hc
    rw [byHand_write, after_append, after_beginning, after, List.foldl_cons, happend]
    rw [step, accept?, ha]
    exact a'.after_ending
  | _ => rfl

theorem acceptsAll_beginning (hz : a.settings.compression.Supported) :
    a.AcceptsAll a.beginning := by
  unfold beginning
  split
  · next h =>
    refine ⟨?_, trivial⟩
    rw [accept?, isSome_open?]
    exact ⟨Option.isNone_iff_eq_none.1 h, hz⟩
  · trivial

theorem acceptsAll_ending (a : Account) : a.AcceptsAll a.ending := by
  unfold ending
  split
  · next hfull =>
    rcases hb : a.current with - | b
    · simp [isFull, hb] at hfull
    · exact ⟨by rw [accept?, hb]; rfl, trivial⟩
  · trivial

/-- None of the explicit calls is refused. -/
theorem acceptsAll_byHand (hz : a.settings.compression.Supported)
    (hc : c.IsAutomatic a.connections.length) : a.AcceptsAll (a.byHand c) := by
  cases c with
  | write m =>
    obtain ⟨a', ha, -⟩ := exists_added hz hc
    rw [byHand_write, acceptsAll_append, after_beginning]
    refine ⟨acceptsAll_beginning hz, ?_, acceptsAll_ending _⟩
    rw [accept?, ha]
    rfl
  | addConnection x => exact ⟨rfl, trivial⟩
  | _ => cases hc

theorem fitsAll_beginning [Codec.Formats] (a : Account) : a.FitsAll a.beginning := by
  unfold beginning
  split
  · exact ⟨trivial, trivial⟩
  · trivial

theorem fitsAll_ending [Codec.Formats] (h : ∀ b ∈ a.roll.chunks, b.stored.Fits) :
    a.FitsAll a.ending := by
  unfold ending
  split
  · next hfull =>
    rw [roll_eq, if_pos hfull] at h
    refine ⟨fun b hb => h b ?_, trivial⟩
    exact List.mem_append_right _ (Option.mem_toList.2 hb)
  · trivial

/-- The explicit calls write nothing larger. -/
theorem fitsAll_byHand [Codec.Formats] (hz : a.settings.compression.Supported)
    (hc : c.IsAutomatic a.connections.length) (hfits : a.Fits c) : a.FitsAll (a.byHand c) := by
  cases c with
  | write m =>
    obtain ⟨a', ha, happend⟩ := exists_added hz hc
    obtain ⟨hnote, hroll⟩ := hfits
    rw [byHand_write, fitsAll_append, after_beginning, happend]
    refine ⟨a.fitsAll_beginning, hnote, ?_⟩
    rw [happend]
    exact fitsAll_ending (hroll a' ha)
  | _ => exact ⟨hfits, trivial⟩

/-! ## Whole sequences -/

/-- An account from which on some calls leave chunks alone, with a compression that is
    understood. -/
structure OnlyWrites (a : Account) (calls : List Call) : Prop where
  valid : a.Valid fun _ => True
  supported : a.settings.compression.Supported
  automatic : Call.Automatic a.connections.length calls

theorem OnlyWrites.start {settings : Settings} (hz : settings.compression.Supported)
    (h : Call.Automatic 0 calls) : (Account.start settings).OnlyWrites calls :=
  ⟨Valid.start settings, hz, h⟩

theorem OnlyWrites.head (h : a.OnlyWrites (c :: calls)) :
    c.IsAutomatic a.connections.length := h.automatic.1

theorem OnlyWrites.settings_step (h : a.OnlyWrites (c :: calls)) :
    (a.step c).settings = a.settings := (h.valid.step trivial fun _ _ => trivial).2.1

theorem OnlyWrites.tail (h : a.OnlyWrites (c :: calls)) : (a.step c).OnlyWrites calls := by
  have hstep := h.valid.step trivial fun z (_ : c = .beginChunk z) => trivial
  obtain ⟨hvalid, hsettings, hconnections⟩ := hstep
  refine ⟨hvalid, hsettings ▸ h.supported, ?_⟩
  rw [hconnections, List.length_append, List.length_map]
  exact h.automatic.2

theorem OnlyWrites.allByHand_cons (h : a.OnlyWrites (c :: calls)) :
    a.allByHand (c :: calls) = a.byHand c ++ (a.step c).allByHand calls := by
  rw [allByHand, after_byHand h.supported h.head]

theorem OnlyWrites.acceptsAll (h : a.OnlyWrites calls) : a.AcceptsAll calls := by
  induction calls generalizing a with
  | nil => trivial
  | cons c cs ih =>
    refine ⟨?_, ih h.tail⟩
    have hc := h.head
    cases c with
    | write m =>
      obtain ⟨a', ha, -⟩ := exists_added h.supported hc
      rw [accept?, ha]
      rfl
    | addConnection x => rfl
    | _ => cases hc

theorem OnlyWrites.acceptsAll_allByHand (h : a.OnlyWrites calls) :
    a.AcceptsAll (a.allByHand calls) := by
  induction calls generalizing a with
  | nil => trivial
  | cons c cs ih =>
    rw [h.allByHand_cons, acceptsAll_append, after_byHand h.supported h.head]
    exact ⟨acceptsAll_byHand h.supported h.head, ih h.tail⟩

theorem OnlyWrites.fitsAll_allByHand [Codec.Formats] (h : a.OnlyWrites calls)
    (hfits : a.FitsAll calls) : a.FitsAll (a.allByHand calls) := by
  induction calls generalizing a with
  | nil => trivial
  | cons c cs ih =>
    rw [h.allByHand_cons, fitsAll_append, after_byHand h.supported h.head]
    exact ⟨fitsAll_byHand h.supported h.head hfits.1, ih h.tail hfits.2⟩

end Account

/-! ## The chunks of writes -/

/-- A chunk with messages whose contents stay below a threshold up to the last message. -/
def Batch.Tight (threshold : Nat) (b : Batch) : Prop :=
  b.notes ≠ [] ∧ (b.notes.dropLast.flatMap Note.bytes).length < threshold

/-- The chunk is tight after one more message if it is below the threshold. -/
theorem Batch.tight_add {threshold : Nat} {b : Batch} (h : b.contents.length < threshold)
    (n : Note) : (b.add n).Tight threshold := by
  refine ⟨by simp [add], ?_⟩
  rw [add, List.dropLast_concat]
  exact h

namespace Account

variable {threshold : Nat} {a : Account} {m : RawMessage} {calls : List Call}

/-- What holds of the chunks of writes alone: those that are closed have reached the threshold with
    their last message, and the open one has messages, and has not reached it. -/
structure Greedy (threshold : Nat) (a : Account) : Prop where
  closed : ∀ b ∈ a.chunks, b.Tight threshold ∧ threshold ≤ b.contents.length
  current : ∀ b ∈ a.current, b.notes ≠ [] ∧ b.contents.length < threshold

theorem Greedy.start (settings : Settings) : (Account.start settings).Greedy threshold := by
  constructor <;> rintro b ⟨⟩

/-- What a write does, if its connection is known: its message is put into a chunk that has room,
    and that is closed if it is full. -/
theorem step_write (hz : a.settings.compression.Supported)
    (hm : m.conn.toNat < a.connections.length) :
    ∃ b n, (b ∈ a.current ∨ a.current = none ∧ b.notes = []) ∧
      a.step (.write m) = ({ a with current := some (b.add n) } : Account).roll := by
  have hc : a.connections[m.conn.toNat]? = some a.connections[m.conn.toNat] :=
    List.getElem?_eq_getElem hm
  rcases hcurrent : a.current with - | b
  · obtain ⟨codec, hcodec⟩ := hz
    have hready : a.ready = a.opened a.settings.compression codec := by
      simp [ready, open?, hcurrent, hcodec]
    refine ⟨⟨a.settings.compression, codec, []⟩,
      a.ready.note a.connections[m.conn.toNat] m, .inr ⟨rfl, rfl⟩, ?_⟩
    simp only [step, accept?, hready, add?, opened, hc]
    rfl
  · refine ⟨b, a.note a.connections[m.conn.toNat] m, .inl rfl, ?_⟩
    simp only [step, accept?, ready_of_current hcurrent, add?, hcurrent, hc]
    rfl

/-- **A write keeps the chunks greedy.** -/
theorem Greedy.write (h : a.Greedy threshold) (hpos : 0 < threshold)
    (hthreshold : a.settings.chunkThreshold.toNat = threshold)
    (hz : a.settings.compression.Supported) (hm : m.conn.toNat < a.connections.length) :
    (a.step (.write m)).Greedy threshold := by
  obtain ⟨b, n, hb, hstep⟩ := step_write hz hm
  have hroom : b.contents.length < threshold := by
    rcases hb with hb | ⟨-, hempty⟩
    · exact (h.current b hb).2
    · rw [Batch.contents, hempty]
      exact hpos
  have htight := Batch.tight_add hroom n
  rw [hstep, roll, Option.any_some, hthreshold]
  split
  · next hfull =>
    refine ⟨fun b' hb' => ?_, by rintro b ⟨⟩⟩
    rcases List.mem_append.1 hb' with hb' | hb'
    · exact h.closed b' hb'
    · cases List.mem_singleton.1 hb'
      exact ⟨htight, of_decide_eq_true hfull⟩
  · next hfull =>
    refine ⟨h.closed, ?_⟩
    rintro b' ⟨⟩
    exact ⟨htight.1, by simpa using hfull⟩

/-- The chunks of writes alone, all the way. -/
theorem Greedy.after (h : a.Greedy threshold) (hpos : 0 < threshold)
    (hthreshold : a.settings.chunkThreshold.toNat = threshold) (hcalls : a.OnlyWrites calls) :
    (a.after calls).Greedy threshold := by
  induction calls generalizing a with
  | nil => exact h
  | cons c cs ih =>
    have hstep : (a.step c).Greedy threshold := by
      have hc := hcalls.head
      cases c with
      | addConnection x => exact ⟨h.closed, h.current⟩
      | write m => exact h.write hpos hthreshold hcalls.supported hc
      | _ => cases hc
    exact ih hstep (by rw [hcalls.settings_step, hthreshold]) hcalls.tail

/-- All chunks are tight in the end, and all but the last have reached the threshold. -/
theorem Greedy.close (h : a.Greedy threshold) :
    (∀ b ∈ a.close.chunks, b.Tight threshold) ∧
      ∀ b ∈ a.close.chunks.dropLast, threshold ≤ b.contents.length := by
  rcases hcurrent : a.current with - | b
  · rw [close_of_idle hcurrent]
    exact ⟨fun b hb => (h.closed b hb).1, fun b hb => (h.closed b (List.dropLast_subset _ hb)).2⟩
  · have hchunks : a.close.chunks = a.chunks ++ [b] := by simp [Account.close, hcurrent]
    obtain ⟨hnotes, hroom⟩ := h.current b hcurrent
    rw [hchunks, List.dropLast_concat]
    refine ⟨fun b' hb' => ?_, fun b' hb' => (h.closed b' hb').2⟩
    rcases List.mem_append.1 hb' with hb' | hb'
    · exact (h.closed b' hb').1
    · cases List.mem_singleton.1 hb'
      refine ⟨hnotes, Nat.lt_of_le_of_lt ?_ hroom⟩
      exact ((List.dropLast_sublist _).flatMap _).length_le

end Account

namespace Recorder

variable {α : Type} {r : Recorder} {a : Account} {c : Call} {calls : List Call}

/-- The recorder after an operation, whether it failed or not. -/
def left (op : Op α) (r : Recorder) : Recorder :=
  match op.run r with
  | .ok _ r' | .error _ r' => r'

theorem left_get_bind (k : Recorder → Op α) (r : Recorder) :
    left (get >>= k) r = left (k r) r := by
  rw [left, run_get_bind]
  rfl

theorem left_bind_of_ok {β : Type} {op : Op α} {x : α} {r' : Recorder} (h : op.run r = .ok x r')
    (k : α → Op β) : left (op >>= k) r = left (k x) r' := by
  rw [left, EStateM.run_bind, h]
  rfl

theorem left_bind_of_error {β : Type} {op : Op α} {e : Error} {r' : Recorder}
    (h : op.run r = .error e r') (k : α → Op β) : left (op >>= k) r = r' := by
  rw [left, EStateM.run_bind, h]

section
variable [Codec.Formats]

/-- None of some calls fails. -/
def Accepts (r : Recorder) : List Call → Prop
  | [] => True
  | c :: cs => (∃ r', c.run.run r = .ok ⟨⟩ r') ∧ (c.after r).Accepts cs

theorem Follows.accepts (h : r.Follows a) (haccepts : a.AcceptsAll calls)
    (hfits : a.FitsAll calls) : r.Accepts calls := by
  induction calls generalizing r a with
  | nil => trivial
  | cons c cs ih =>
    obtain ⟨⟨⟩, r', hrun⟩ := ((h.call c).isSome_iff hfits.1).2 haccepts.1
    exact ⟨⟨r', hrun⟩, ih (h.after_call_of_fits hfits.1) haccepts.2 hfits.2⟩

/-! ## A write by hand -/

theorem after_cons (r : Recorder) (c : Call) (calls : List Call) :
    r.after (c :: calls) = (c.after r).after calls := rfl

theorem after_append (r : Recorder) (calls calls' : List Call) :
    r.after (calls ++ calls') = (r.after calls).after calls' := List.foldl_append

theorem left_call (c : Call) (r : Recorder) : left c.run r = c.after r := by
  rw [left, Call.after]
  rcases c.run.run r with ⟨u, r'⟩ | ⟨e, r'⟩ <;> rfl

theorem after_of_ok {u : Unit} {r' : Recorder} (h : c.run.run r = .ok u r') : c.after r = r' := by
  rw [Call.after, h]

theorem after_of_error {e : Error} {r' : Recorder} (h : c.run.run r = .error e r') :
    c.after r = r' := by
  rw [Call.after, h]

/-- A chunk is closed behind a message where the account says that it is full. -/
theorem Follows.left_roll (h : r.Follows a) : left (do
    let r ← get
    match r.phase.chunk? with
    | some chunk => if r.settings.chunkThreshold.toNat ≤ chunk.size then endChunk
    | none => return () : Op Unit) r = r.after a.ending := by
  rw [left_get_bind, h.settings]
  rcases hb : a.current with - | b
  · have hending : a.ending = [] := by simp [Account.ending, Account.isFull, hb]
    simp only [h.idle hb, hending]
    rfl
  · obtain ⟨chunk, hchunk, hd⟩ := h.busy b hb
    have hfull : a.isFull = decide (a.settings.chunkThreshold.toNat ≤ b.contents.length) := by
      simp [Account.isFull, hb]
    simp only [hchunk, hd.size, Account.ending, hfull, decide_eq_true_eq]
    split
    · exact left_call .endChunk r
    · rfl

/-- A message is appended, and its chunk closed where the account says that it is full. -/
theorem Follows.left_add (h : r.Follows a) {m : RawMessage} (hadd : (a.add? m).isSome) :
    left (do
      append m.conn m.time m.data
      let r ← get
      match r.phase.chunk? with
      | some chunk => if r.settings.chunkThreshold.toNat ≤ chunk.size then endChunk
      | none => return () : Op Unit) r =
        r.after (.append m :: (a.step (.append m)).ending) := by
  have happend := h.run_append m
  rw [after_cons]
  rcases hrun : (append m.conn m.time m.data).run r with ⟨u, r'⟩ | ⟨e, r'⟩ <;> rw [hrun] at happend
  · obtain ⟨-, a', ha, h'⟩ := happend
    have hafter : (Call.append m).after r = r' := after_of_ok hrun
    have hstep : a.step (.append m) = a' := by
      rw [Account.step, Account.accept?, ha, Option.getD_some]
    rw [left_bind_of_ok hrun, h'.left_roll, hstep, hafter]
  · -- it was too large, so the recorder is given up and refuses the call behind it
    rcases happend with ⟨-, hnone, -⟩ | ⟨-, -, hfailed⟩
    · rw [hnone] at hadd
      cases hadd
    · have hafter : (Call.append m).after r = r' := after_of_error hrun
      rw [left_bind_of_error hrun, hafter, after_failed hfailed]

theorem Follows.left_write (h : r.Follows a) (hz : a.settings.compression.Supported)
    {m : RawMessage} (hm : m.conn.toNat < a.connections.length) :
    left (write m.conn m.time m.data) r = r.after (a.byHand (.write m)) := by
  have hadd : (a.ready.add? m).isSome := by
    obtain ⟨a', ha, -⟩ := Account.exists_added hz hm
    rw [ha]
    rfl
  rw [write, left_get_bind, h.settings, a.byHand_write, after_append]
  rcases hb : a.current with - | b
  · -- no chunk is open, and beginning one succeeds
    have hbeginning : a.beginning = [.beginChunk a.settings.compression] := by
      rw [Account.beginning, hb]
      rfl
    have hopen : (a.open? a.settings.compression).isSome := (a.isSome_open? _).2 ⟨hb, hz⟩
    have hbegin := h.run_beginChunk a.settings.compression
    obtain ⟨u, r', hrun⟩ := (hbegin.isSome_iff trivial).2 hopen
    rw [hrun] at hbegin
    obtain ⟨-, a₁, ho, h₁⟩ := hbegin
    have hready : a.ready = a₁ := by simp [Account.ready, hb, ho]
    have hafter : r.after [.beginChunk a.settings.compression] = r' := after_of_ok hrun
    rw [hready] at hadd ⊢
    rw [h.idle hb, if_pos Option.isNone_none, left_bind_of_ok hrun, hbeginning, hafter]
    exact h₁.left_add hadd
  · obtain ⟨chunk, hchunk, -⟩ := h.busy b hb
    have hbeginning : a.beginning = [] := by
      rw [Account.beginning, hb]
      rfl
    rw [Account.ready_of_current hb] at hadd ⊢
    rw [hchunk, if_neg (by simp), hbeginning]
    exact h.left_add hadd

/-- **The explicit calls leave the recorder where the call itself does**, if a length was too
    large as well. -/
theorem Follows.after_byHand (h : r.Follows a) (hz : a.settings.compression.Supported)
    (hc : c.IsAutomatic a.connections.length) : r.after (a.byHand c) = c.after r := by
  cases c with
  | write m => rw [← left_call, ← h.left_write hz hc]; rfl
  | _ => rfl

/-- Explicit calls in place of all. -/
theorem Follows.after_allByHand (h : r.Follows a) (hcalls : a.OnlyWrites calls) :
    r.after (a.allByHand calls) = r.after calls := by
  induction calls generalizing r a with
  | nil => rfl
  | cons c cs ih =>
    have hc := h.after_byHand hcalls.supported hcalls.head
    rw [hcalls.allByHand_cons, after_append, hc, after_cons]
    by_cases hfailed : (c.after r).phase = .failed
    · rw [after_failed hfailed, after_failed hfailed]
    · exact ih (h.after_call hfailed).1 hcalls.tail

/-- **Writes roll their chunks greedily.**  Registrations and writes on registered connections,
    however many, leave the recorder exactly where the explicit calls do that begin a chunk for a
    message if none is open, append it, and end the chunk as soon as its contents reach the
    threshold.  If no length is too large, both sessions are accepted and end in the same file: its
    chunks divide the messages in order, each connection announced by its first message; none is
    empty, all but the last reach the threshold, and none does before its last message. -/
theorem writes_roll_greedily {settings : Settings} {r₀ : Recorder}
    (hcreate : create settings = .ok r₀) (hz : settings.compression.Supported)
    {calls : List Call} (hcalls : Call.Automatic 0 calls) :
    let explicit := (Account.start settings).allByHand calls
    let a := (Account.start settings).after calls
    let batches := a.close.chunks
    (∀ c ∈ explicit, ∀ m, c ≠ .write m) ∧
    r₀.after explicit = r₀.after calls ∧
    ((Account.start settings).FitsAll calls → a.FinishFits →
      r₀.Accepts calls ∧ r₀.Accepts explicit ∧
      ∃ header r, finalize.run (r₀.after calls) = .ok header r ∧
        finalize.run (r₀.after explicit) = .ok header r ∧
        r.tape.bytes = Image.bytes ⟨Call.registered calls, batches.map Batch.stored⟩) ∧
    batches.flatMap Batch.notes =
      Note.ofMessages (Call.registered calls) [] (calls.filterMap Call.message?) ∧
    (∀ b ∈ batches, b.Tight settings.chunkThreshold.toNat) ∧
    ∀ b ∈ batches.dropLast, settings.chunkThreshold.toNat ≤ b.contents.length := by
  intro explicit a batches
  have hf := follows_of_create hcreate
  have honly := Account.OnlyWrites.start hz hcalls
  have hsame : r₀.after explicit = r₀.after calls := hf.after_allByHand honly
  have hconnections : a.connections = Call.registered calls :=
    (Account.valid_after settings calls).2
  have hnotes : batches.flatMap Batch.notes = a.notes := by
    rw [← a.notes_close, Account.notes]
    exact congrArg (List.flatMap Batch.notes) (List.append_nil _).symm
  have hthreshold : 0 < settings.chunkThreshold.toNat :=
    Nat.pos_of_ne_zero fun hzero => threshold_of_create hcreate (UInt64.toNat_inj.1 hzero)
  obtain ⟨htight, hreached⟩ :=
    ((Account.Greedy.start settings).after hthreshold rfl honly).close
  refine ⟨fun c hc => Account.not_write_of_mem_allByHand hc, hsame, fun hfits hend => ?_, ?_,
    htight, hreached⟩
  · refine ⟨hf.accepts honly.acceptsAll hfits,
      hf.accepts honly.acceptsAll_allByHand (honly.fitsAll_allByHand hfits), ?_⟩
    rcases (hf.after_of_fits hfits).run_finalize with ⟨-, r, hrun, hholds, -⟩ | ⟨hn, -⟩
    · refine ⟨_, r, hrun, hsame ▸ hrun, ?_⟩
      rw [hholds.bytes_eq, ← hconnections]
      rfl
    · exact absurd hend hn
  · rw [hnotes, Account.announced_after settings calls, ← hconnections,
      honly.acceptsAll.messages_after]
    rfl

end

/-- A small threshold. -/
def sampleRolling : Settings := ⟨.none, 48, true⟩

/-- Three messages.  The first two fill a chunk each, the first with the record of its connection in
    front; the chunk of the last one is not filled. -/
def sampleWrites : List Call :=
  [.addConnection (.sample 7 "/a"), .write ⟨0, ⟨5, 0⟩, .ofBytes [1, 2, 3]⟩,
    .write ⟨0, ⟨3, 0⟩, .ofBytes [4, 5, 6]⟩, .write ⟨0, ⟨6, 0⟩, .ofBytes [7]⟩]

theorem writes_roll_greedily_sample : ∃ r₀ header r, create sampleRolling = .ok r₀ ∧
    finalize.run (r₀.after sampleWrites) = .ok header r ∧
      finalize.run (r₀.after ((Account.start sampleRolling).allByHand sampleWrites)) =
        .ok header r := by
  obtain ⟨r₀, hcreate, -⟩ := create_follows (show sampleRolling.chunkThreshold ≠ 0 by decide)
  have hz : sampleRolling.compression.Supported := ⟨_, rfl⟩
  have hcalls : Call.Automatic 0 sampleWrites := by decide
  have hfits : (Account.start sampleRolling).FitsAll sampleWrites := by decide +kernel
  have hend : ((Account.start sampleRolling).after sampleWrites).FinishFits := by decide +kernel
  obtain ⟨-, -, hfile, -⟩ := writes_roll_greedily hcreate hz hcalls
  obtain ⟨-, -, header, r, hrun, hrun', -⟩ := hfile hfits hend
  exact ⟨r₀, header, r, hcreate, hrun, hrun'⟩

-- with a higher threshold, the last two share a chunk, and it is filled
example : ((Account.start ⟨.none, 90, true⟩).allByHand sampleWrites).drop 1 =
    [.beginChunk .none, .append ⟨0, ⟨5, 0⟩, .ofBytes [1, 2, 3]⟩, .endChunk,
      .beginChunk .none, .append ⟨0, ⟨3, 0⟩, .ofBytes [4, 5, 6]⟩,
      .append ⟨0, ⟨6, 0⟩, .ofBytes [7]⟩, .endChunk] := by
  decide +kernel

end Recorder

end BagFile
