/-
  What a recording amounts to, told without a tape.

  * A `Call` is one of the calls that a recording may get; `Call.run` makes it, and
    `Recorder.after` makes a list of them, whatever they answer;
  * an `Account` has the connections and the messages of each chunk.  `Account.step` says what a
    call makes of it if nothing is too large (`Account.accept?`, `Account.refuse`);
  * `Account.image` is the bag that the account describes, written from front to back.
-/
import BagFile.Proofs.Records
import BagFile.Proofs.StableSort

namespace BagFile

/-! ## Calls -/

/-- A call that a recording may get. -/
inductive Call where
  | addConnection (c : Connection)
  | beginChunk (compression : Compression)
  | append (m : RawMessage)
  | endChunk
  | write (m : RawMessage)
  deriving DecidableEq

namespace Call

variable [Codec.Formats]

/-- Makes a call. -/
def run : Call → Recorder.Op Unit
  | addConnection c => do let _ ← Recorder.addConnection c
  | beginChunk compression => Recorder.beginChunk compression
  | append m => Recorder.append m.conn m.time m.data
  | endChunk => Recorder.endChunk
  | write m => Recorder.write m.conn m.time m.data

/-- The message that a call brings. -/
def message? : Call → Option RawMessage
  | append m | write m => some m
  | _ => none

/-- The recorder after a call, whether it was refused or not. -/
def after (c : Call) (r : Recorder) : Recorder :=
  match c.run.run r with
  | .ok _ r | .error _ r => r

/-- The message that a call adds to a recorder: none if it is refused. -/
def accepted (c : Call) (r : Recorder) : List RawMessage :=
  match c.run.run r with
  | .ok _ _ => c.message?.toList
  | .error _ _ => []

end Call

namespace Recorder

variable [Codec.Formats]

/-- The recorder after some calls. -/
def after (r : Recorder) (calls : List Call) : Recorder := calls.foldl (fun r c => c.after r) r

/-- The messages that some calls add to a recorder, in order. -/
def accepted (r : Recorder) : List Call → List RawMessage
  | [] => []
  | c :: cs => c.accepted r ++ (c.after r).accepted cs

end Recorder

/-! ## Chunks -/

/-- A chunk with its messages. -/
structure Batch where
  compression : Compression
  codec : Codec
  notes : List Note
  deriving DecidableEq

namespace Batch

/-- The contents of the chunk. -/
def contents (b : Batch) : Bytes := b.notes.flatMap Note.bytes

/-- The connection, time and offset of messages whose contents start at a position. -/
def rowsFrom : Nat → List Note → List (UInt32 × Time × UInt32)
  | _, [] => []
  | pos, n :: ns =>
    (n.message.conn, n.message.time, UInt32.ofNat (pos + n.lead)) ::
      rowsFrom (pos + n.bytes.length) ns

/-- The connection, time and offset of each message. -/
def rows (b : Batch) : List (UInt32 × Time × UInt32) := rowsFrom 0 b.notes

/-- What is stored of the chunk. -/
def stored [Codec.Formats] (b : Batch) : StoredChunk :=
  let times := b.rows.map fun row => row.2.1
  { compression := b.compression
    size := b.contents.length
    stored := b.codec.compress (.ofBytes b.contents)
    startTime := (Index.earliest? times).getD Time.zero
    endTime := (Index.latest? times).getD Time.zero
    index := Recorder.indexOf b.rows }

/-- The messages of the chunk. -/
def messages (b : Batch) : List RawMessage := b.notes.map Note.message

/-- The chunk after one more message. -/
def add (b : Batch) (n : Note) : Batch := { b with notes := b.notes ++ [n] }

theorem rowsFrom_append (pos : Nat) (ns ns' : List Note) :
    rowsFrom pos (ns ++ ns') =
      rowsFrom pos ns ++ rowsFrom (pos + (ns.flatMap Note.bytes).length) ns' := by
  induction ns generalizing pos with
  | nil => rfl
  | cons n ns ih =>
    rw [List.cons_append, rowsFrom, ih, rowsFrom, List.cons_append, List.flatMap_cons,
      List.length_append, ← Nat.add_assoc]

theorem contents_add (b : Batch) (n : Note) : (b.add n).contents = b.contents ++ n.bytes := by
  simp [contents, add]

theorem rows_add (b : Batch) (n : Note) : (b.add n).rows =
    b.rows ++ [(n.message.conn, n.message.time, UInt32.ofNat (b.contents.length + n.lead))] := by
  rw [rows, add, rowsFrom_append, Nat.zero_add]
  rfl

theorem map_rowsFrom (pos : Nat) (ns : List Note) :
    ((rowsFrom pos ns).map fun row => (row.1, row.2.1)) =
      ns.map fun n => (n.message.conn, n.message.time) := by
  induction ns generalizing pos with
  | nil => rfl
  | cons n ns ih => rw [rowsFrom, List.map_cons, ih, List.map_cons]

/-- A chunk has a row for each message. -/
theorem map_rows (b : Batch) : (b.rows.map fun row => (row.1, row.2.1)) =
    b.messages.map fun m => (m.conn, m.time) := by
  rw [rows, map_rowsFrom, messages, List.map_map]
  rfl

theorem map_fst_rows (b : Batch) : b.rows.map Prod.fst = b.messages.map RawMessage.conn := by
  have h := congrArg (List.map Prod.fst) b.map_rows
  rwa [List.map_map, List.map_map] at h

theorem map_time_rows (b : Batch) :
    (b.rows.map fun row => row.2.1) = b.messages.map RawMessage.time := by
  have h := congrArg (List.map Prod.snd) b.map_rows
  rwa [List.map_map, List.map_map] at h

variable [Codec.Formats]

theorem conns_index (b : Batch) : b.stored.index.map Prod.fst =
    (b.messages.map RawMessage.conn).eraseDups.mergeSort fun a b => a ≤ b := by
  simp only [stored, Recorder.indexOf, b.map_fst_rows, List.map_map]
  exact List.map_id _

/-- The connections of a chunk's index ascend. -/
theorem index_ascending (b : Batch) : (b.stored.index.map Prod.fst).Pairwise (· < ·) := by
  rw [conns_index]
  exact ascending_eraseDups _

/-- The connections of a chunk's index are those of its messages. -/
theorem mem_index (b : Batch) {conn : UInt32} :
    conn ∈ b.stored.index.map Prod.fst ↔ conn ∈ b.messages.map RawMessage.conn := by
  rw [conns_index, mem_ascending]

end Batch

/-! ## Accounts -/

/-- The connections and chunks of a recording, and the chunk that takes messages. -/
structure Account where
  settings : Settings
  connections : List Connection
  chunks : List Batch
  current : Option Batch
  deriving DecidableEq

namespace Account

/-- The account of a recording that has just begun. -/
def start (settings : Settings) : Account := ⟨settings, [], [], none⟩

/-- The messages so far. -/
def messages (a : Account) : List RawMessage :=
  (a.chunks ++ a.current.toList).flatMap Batch.messages

/-- The messages so far, each as it was put into its chunk. -/
def notes (a : Account) : List Note := (a.chunks ++ a.current.toList).flatMap Batch.notes

/-- The connections of the messages so far. -/
def mentioned (a : Account) : List UInt32 := a.messages.map RawMessage.conn

/-- The account with one more connection. -/
def addConnection (a : Account) (c : Connection) : Account :=
  { a with connections := a.connections ++ [{ c with id := UInt32.ofNat a.connections.length }] }

/-- The account with a new chunk. -/
def opened (a : Account) (compression : Compression) (codec : Codec) : Account :=
  { a with current := some ⟨compression, codec, []⟩ }

/-- The account with a new chunk, if none is open and its compression is understood. -/
def open? (a : Account) (compression : Compression) : Option Account :=
  match a.current, Codec.ofCompression compression with
  | none, .ok codec => some (a.opened compression codec)
  | _, _ => none

/-- A message as it is put into a chunk: with the record of its connection in front if it is the
    first of it. -/
def note (a : Account) (c : Connection) (m : RawMessage) : Note :=
  ⟨if m.conn ∈ a.mentioned then none else some c, m⟩

/-- The account with one more message, if a chunk is open and its connection is known. -/
def add? (a : Account) (m : RawMessage) : Option Account :=
  match a.connections[m.conn.toNat]?, a.current with
  | some c, some b => some { a with current := some (b.add (a.note c m)) }
  | _, _ => none

/-- The message's lengths fit, if it is put into the open chunk. -/
def NoteFits (a : Account) (m : RawMessage) : Prop :=
  ∀ c ∈ a.connections[m.conn.toNat]?, ∀ b ∈ a.current, (a.note c m).Fits b.contents.length

/-- The account with no chunk open. -/
def close (a : Account) : Account :=
  { a with chunks := a.chunks ++ a.current.toList, current := none }

/-- The account with its chunk closed if that has reached the threshold. -/
def roll (a : Account) : Account :=
  if a.current.any fun b => a.settings.chunkThreshold.toNat ≤ b.contents.length then a.close else a

section
variable [Codec.Formats]

/-- All lengths fit if the message is added, and the chunk closed if need be. -/
def AddFits (a : Account) (m : RawMessage) : Prop :=
  a.NoteFits m ∧ ∀ a' ∈ a.add? m, ∀ b ∈ a'.roll.chunks, b.stored.Fits

/-- The account with a chunk open, if it can be. -/
def ready (a : Account) : Account :=
  if a.current.isNone then (a.open? a.settings.compression).getD a else a

/-- The account after a call that is not refused. -/
def accept? (a : Account) : Call → Option Account
  | .addConnection c => some (a.addConnection c)
  | .beginChunk compression => a.open? compression
  | .append m => a.add? m
  | .endChunk => a.current.map fun _ => a.close
  | .write m => (a.ready.add? m).map roll

/-- The account after a call that is refused: a chunk may have been opened for the message. -/
def refuse (a : Account) : Call → Account
  | .write _ => a.ready
  | _ => a

/-- The account after a call. -/
def step (a : Account) (c : Call) : Account := (a.accept? c).getD (a.refuse c)

/-- All lengths fit that a call writes. -/
def Fits (a : Account) : Call → Prop
  | .append m => a.NoteFits m
  | .endChunk => ∀ b ∈ a.current, b.stored.Fits
  | .write m => a.ready.AddFits m
  | _ => True

/-- The account after some calls. -/
def after (a : Account) (calls : List Call) : Account := calls.foldl step a

instance (a : Account) (m : RawMessage) : Decidable (a.NoteFits m) :=
  inferInstanceAs (Decidable (∀ c ∈ _, ∀ b ∈ _, _))

instance (a : Account) (m : RawMessage) : Decidable (a.AddFits m) :=
  inferInstanceAs (Decidable (_ ∧ ∀ a' ∈ _, ∀ b ∈ _, _))

instance (a : Account) : (c : Call) → Decidable (a.Fits c)
  | .append _ | .endChunk | .write _ => by unfold Fits; infer_instance
  | .addConnection _ | .beginChunk _ => .isTrue trivial

/-- All lengths fit that some calls write. -/
def FitsAll (a : Account) : List Call → Prop
  | [] => True
  | c :: cs => a.Fits c ∧ (a.step c).FitsAll cs

instance decidableFitsAll (a : Account) : (calls : List Call) → Decidable (a.FitsAll calls)
  | [] => .isTrue trivial
  | c :: cs =>
    have := decidableFitsAll (a.step c) cs
    inferInstanceAs (Decidable (_ ∧ _))

/-- The bag of an account without an open chunk, as it is stored. -/
def image (a : Account) : Image := ⟨a.connections, a.chunks.map Batch.stored⟩

/-- All lengths fit that ending the recording writes. -/
def FinishFits (a : Account) : Prop :=
  (∀ b ∈ a.close.chunks, b.stored.Fits) ∧ a.close.image.TablesFit

instance (a : Account) : Decidable a.FinishFits := inferInstanceAs (Decidable (_ ∧ _))

/-- What stands on the tape in front of the open chunk, while the header is not known yet. -/
def front (a : Account) : List Bytes :=
  Image.preamble FileHeader.placeholder ++ Image.chunkBlocks (a.chunks.map Batch.stored)

/-- What stands on the tape: of the open chunk there is the header only. -/
def blocks (a : Account) : List Bytes :=
  a.front ++ a.current.toList.map fun b => Recorder.openHeader b.compression

theorem length_front (a : Account) : a.front.flatten.length = a.image.indexPos := by
  rw [front, List.flatten_append, List.length_append, Image.length_preamble]
  rfl

theorem front_close {a : Account} {b : Batch} (h : a.current = some b) :
    a.close.front = a.front ++ b.stored.blocks := by
  simp [front, close, h, Image.chunkBlocks]

theorem blocks_close {a : Account} {b : Batch} (h : a.current = some b) :
    a.close.blocks = a.front ++ b.stored.blocks := by
  rw [blocks, front_close h]
  simp [close]

/-- The chunk that is closed stands where the tables would have started. -/
theorem placed_close {a : Account} {b : Batch} (h : a.current = some b) :
    Image.placed Layout.dataStart (a.close.chunks.map Batch.stored) =
      Image.placed Layout.dataStart (a.chunks.map Batch.stored) ++ [(a.image.indexPos, b.stored)] := by
  rw [close, h, List.map_append, Image.placed_append]
  rfl

end

theorem close_of_idle {a : Account} (h : a.current = none) : a.close = a := by
  cases a
  cases h
  simp [close]

theorem ready_of_current {a : Account} {b : Batch} (h : a.current = some b) : a.ready = a := by
  simp [ready, h]

/-- Without an open chunk, a message is added behind opening one. -/
theorem add?_ready {a : Account} (h : a.current = none) (m : RawMessage) :
    a.ready.add? m = (a.open? a.settings.compression).bind fun a' => a'.add? m := by
  rw [ready, h, if_pos Option.isNone_none]
  cases ho : a.open? a.settings.compression with
  | none => simp [add?, h]
  | some a' => rfl

theorem addFits_of_idle [Codec.Formats] {a : Account} (h : a.current = none) (m : RawMessage) :
    a.AddFits m := by
  refine ⟨fun c b _ hb => ?_, fun a' ha => ?_⟩
  · rw [h] at hb
    cases hb
  · simp [add?, h] at ha

/-! ### Messages -/

theorem messages_eq (a : Account) : a.messages = a.notes.map Note.message := by
  rw [notes, List.map_flatMap]
  rfl

theorem messages_congr {a a' : Account} (h : a'.notes = a.notes) : a'.messages = a.messages := by
  rw [messages_eq, h, messages_eq]

theorem notes_close (a : Account) : a.close.notes = a.notes := by
  simp [notes, close]

theorem messages_close (a : Account) : a.close.messages = a.messages := messages_congr a.notes_close

theorem notes_roll (a : Account) : a.roll.notes = a.notes := by
  unfold roll
  split
  · exact a.notes_close
  · rfl

theorem messages_roll (a : Account) : a.roll.messages = a.messages := messages_congr a.notes_roll

theorem notes_opened {a : Account} (h : a.current = none) (z : Compression) (codec : Codec) :
    (a.opened z codec).notes = a.notes := by
  simp [notes, opened, h]

theorem messages_opened {a : Account} (h : a.current = none) (z : Compression) (codec : Codec) :
    (a.opened z codec).messages = a.messages := messages_congr (notes_opened h z codec)

theorem notes_open? {a a' : Account} {z : Compression} (h : a.open? z = some a') :
    a'.notes = a.notes := by
  unfold open? at h
  split at h
  · next hcurrent _ =>
    cases h
    exact notes_opened hcurrent z _
  · cases h

theorem messages_open? {a a' : Account} {z : Compression} (h : a.open? z = some a') :
    a'.messages = a.messages := messages_congr (notes_open? h)

theorem notes_ready (a : Account) : a.ready.notes = a.notes := by
  unfold ready
  split
  · cases h : a.open? a.settings.compression with
    | none => rfl
    | some a' => exact notes_open? h
  · rfl

theorem messages_ready (a : Account) : a.ready.messages = a.messages := messages_congr a.notes_ready

theorem notes_add? {a a' : Account} {m : RawMessage} (h : a.add? m = some a') :
    ∃ c ∈ a.connections[m.conn.toNat]?, a'.notes = a.notes ++ [a.note c m] := by
  unfold add? at h
  split at h
  · next c b hconn hcurrent =>
    cases h
    exact ⟨c, hconn, by simp [notes, hcurrent, Batch.add]⟩
  · cases h

theorem messages_add? {a a' : Account} {m : RawMessage} (h : a.add? m = some a') :
    a'.messages = a.messages ++ [m] := by
  obtain ⟨c, -, hnotes⟩ := notes_add? h
  rw [messages_eq, hnotes, List.map_append, messages_eq]
  rfl

/-- A call that is not refused adds its message. -/
theorem messages_accept? {a a' : Account} {c : Call} (h : a.accept? c = some a') :
    a'.messages = a.messages ++ c.message?.toList := by
  cases c with
  | addConnection c =>
    cases h
    simp [messages, addConnection, Call.message?]
  | beginChunk z => simpa [Call.message?] using messages_open? h
  | append m => exact messages_add? h
  | endChunk =>
    rw [accept?, Option.map_eq_some_iff] at h
    obtain ⟨-, -, rfl⟩ := h
    simpa [Call.message?] using a.messages_close
  | write m =>
    rw [accept?, Option.map_eq_some_iff] at h
    obtain ⟨b, hb, rfl⟩ := h
    rw [messages_roll, messages_add? hb, messages_ready]
    rfl

theorem messages_refuse (a : Account) (c : Call) : (a.refuse c).messages = a.messages := by
  cases c with
  | write m => exact a.messages_ready
  | _ => rfl

end Account

end BagFile
