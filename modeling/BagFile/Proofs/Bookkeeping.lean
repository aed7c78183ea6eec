/-
  What holds of the account of every recording.

  * `Call.registered`: the connections that some calls add, each with its id;
  * `Account.Valid`: messages belong to connections of the account, and each chunk has the codec
    of its compression.  Every call keeps that (`Valid.step`);
  * `Account.valid_after`: so it holds of every recording, and the connections of its account are
    the registered ones.
-/
import BagFile.Proofs.Account

namespace BagFile

namespace Call

/-- The connection that a call adds. -/
def connection? : Call → Option Connection
  | addConnection c => some c
  | _ => none

/-- The connections that some calls add, with ids in order from zero. -/
def registered (calls : List Call) : List Connection :=
  (calls.filterMap connection?).mapIdx fun i c => { c with id := UInt32.ofNat i }

/-- The compressions that some calls may use. -/
def Uses (settings : Settings) (calls : List Call) (z : Compression) : Prop :=
  z = settings.compression ∨ beginChunk z ∈ calls

end Call

namespace Account

/-- The chunks of an account, the open one last. -/
def batches (a : Account) : List Batch := a.chunks ++ a.current.toList

/-- What holds of every account; `P` are the compressions that its chunks may have. -/
structure Valid (P : Compression → Prop) (a : Account) : Prop where
  known : ∀ m ∈ a.messages, m.conn.toNat < a.connections.length
  codecs : ∀ b ∈ a.batches, Codec.ofCompression b.compression = .ok b.codec
  compressions : ∀ b ∈ a.batches, P b.compression

variable {a a' : Account} {P : Compression → Prop} {z : Compression} {m : RawMessage}

theorem batches_close (a : Account) : a.close.batches = a.batches := by
  simp [batches, close]

namespace Valid

theorem start (settings : Settings) : (Account.start settings).Valid P := by
  refine ⟨?_, ?_, ?_⟩ <;> intro x hx <;> cases hx

theorem addConnection (h : a.Valid P) (c : Connection) : (a.addConnection c).Valid P := by
  refine ⟨fun m hm => ?_, h.codecs, h.compressions⟩
  have hlt := h.known m hm
  simp only [Account.addConnection, List.length_append, List.length_singleton]
  omega

theorem open? (h : a.Valid P) (hz : P z) (ho : a.open? z = some a') :
    a'.Valid P ∧ a'.settings = a.settings ∧ a'.connections = a.connections := by
  have hmessages := messages_open? ho
  unfold Account.open? at ho
  split at ho
  · next hcurrent hcodec =>
    cases ho
    refine ⟨⟨fun m hm => h.known m (hmessages ▸ hm), fun b hb => ?_, fun b hb => ?_⟩, rfl, rfl⟩
    · rcases List.mem_append.1 hb with hb | hb
      · exact h.codecs b (List.mem_append_left _ hb)
      · cases List.mem_singleton.1 hb
        exact hcodec
    · rcases List.mem_append.1 hb with hb | hb
      · exact h.compressions b (List.mem_append_left _ hb)
      · cases List.mem_singleton.1 hb
        exact hz
  · cases ho

theorem add? (h : a.Valid P) (ha : a.add? m = some a') :
    a'.Valid P ∧ a'.settings = a.settings ∧ a'.connections = a.connections := by
  have hmessages := messages_add? ha
  unfold Account.add? at ha
  split at ha
  · next c b hconn hcurrent =>
    cases ha
    have hb : b ∈ a.batches := List.mem_append_right _ (by rw [hcurrent]; exact List.mem_cons_self)
    refine ⟨⟨fun n hn => ?_, fun b' hb' => ?_, fun b' hb' => ?_⟩, rfl, rfl⟩
    · rw [hmessages, List.mem_append, List.mem_singleton] at hn
      rcases hn with hn | rfl
      · exact h.known n hn
      · exact (List.getElem?_eq_some_iff.1 hconn).1
    · rcases List.mem_append.1 hb' with hb' | hb'
      · exact h.codecs b' (List.mem_append_left _ hb')
      · cases List.mem_singleton.1 hb'
        exact h.codecs b hb
    · rcases List.mem_append.1 hb' with hb' | hb'
      · exact h.compressions b' (List.mem_append_left _ hb')
      · cases List.mem_singleton.1 hb'
        exact h.compressions b hb
  · cases ha

theorem close (h : a.Valid P) : a.close.Valid P := by
  refine ⟨fun m hm => h.known m (a.messages_close ▸ hm), ?_, ?_⟩
  · rw [batches_close]
    exact h.codecs
  · rw [batches_close]
    exact h.compressions

theorem roll (h : a.Valid P) :
    a.roll.Valid P ∧ a.roll.settings = a.settings ∧ a.roll.connections = a.connections := by
  unfold Account.roll
  split
  · exact ⟨h.close, rfl, rfl⟩
  · exact ⟨h, rfl, rfl⟩

theorem ready (h : a.Valid P) (hP : P a.settings.compression) :
    a.ready.Valid P ∧ a.ready.settings = a.settings ∧ a.ready.connections = a.connections := by
  unfold Account.ready
  split
  · cases ho : a.open? a.settings.compression with
    | none => exact ⟨h, rfl, rfl⟩
    | some a' => exact h.open? hP ho
  · exact ⟨h, rfl, rfl⟩

/-- A call that is not refused keeps all that, and adds its connection. -/
theorem accept? {c : Call} (h : a.Valid P) (hP : P a.settings.compression)
    (hc : ∀ z, c = .beginChunk z → P z) (ha : a.accept? c = some a') :
    a'.Valid P ∧ a'.settings = a.settings ∧ a'.connections = a.connections ++
      c.connection?.toList.map fun x => { x with id := UInt32.ofNat a.connections.length } := by
  cases c with
  | addConnection x =>
    cases ha
    exact ⟨h.addConnection x, rfl, rfl⟩
  | beginChunk z =>
    obtain ⟨hv, hs, hconns⟩ := h.open? (hc z rfl) ha
    exact ⟨hv, hs, by simp [hconns, Call.connection?]⟩
  | append m =>
    obtain ⟨hv, hs, hconns⟩ := h.add? ha
    exact ⟨hv, hs, by simp [hconns, Call.connection?]⟩
  | endChunk =>
    rw [Account.accept?, Option.map_eq_some_iff] at ha
    obtain ⟨-, -, rfl⟩ := ha
    exact ⟨h.close, rfl, by simp [Account.close, Call.connection?]⟩
  | write m =>
    rw [Account.accept?, Option.map_eq_some_iff] at ha
    obtain ⟨b, hb, rfl⟩ := ha
    obtain ⟨hready, hs₁, hconns₁⟩ := h.ready hP
    obtain ⟨hadd, hs₂, hconns₂⟩ := hready.add? hb
    obtain ⟨hroll, hs₃, hconns₃⟩ := hadd.roll
    refine ⟨hroll, hs₃.trans (hs₂.trans hs₁), ?_⟩
    simp [hconns₃, hconns₂, hconns₁, Call.connection?]

theorem refuse {c : Call} (h : a.Valid P) (hP : P a.settings.compression) :
    (a.refuse c).Valid P ∧ (a.refuse c).settings = a.settings ∧
      (a.refuse c).connections = a.connections := by
  cases c with
  | write m => exact h.ready hP
  | _ => exact ⟨h, rfl, rfl⟩

/-- **Every call keeps an account valid**, and adds its connection if it has one. -/
theorem step {c : Call} (h : a.Valid P) (hP : P a.settings.compression)
    (hc : ∀ z, c = .beginChunk z → P z) :
    (a.step c).Valid P ∧ (a.step c).settings = a.settings ∧
      (a.step c).connections = a.connections ++
        c.connection?.toList.map fun x => { x with id := UInt32.ofNat a.connections.length } := by
  unfold Account.step
  cases ha : a.accept? c with
  | some a' => exact h.accept? hP hc ha
  | none =>
    have hnone : c.connection? = none := by
      cases c with
      | addConnection x => cases ha
      | _ => rfl
    obtain ⟨hv, hs, hconns⟩ := h.refuse (c := c) hP
    refine ⟨hv, hs, ?_⟩
    rw [hnone, Option.toList_none, List.map_nil, List.append_nil]
    exact hconns

theorem after {calls : List Call} (h : a.Valid P) (hP : P a.settings.compression)
    (hc : ∀ z, .beginChunk z ∈ calls → P z) :
    (a.after calls).Valid P ∧ (a.after calls).connections = a.connections ++
      (calls.filterMap Call.connection?).mapIdx fun i x =>
        { x with id := UInt32.ofNat (a.connections.length + i) } := by
  induction calls generalizing a with
  | nil => exact ⟨h, by simp [Account.after]⟩
  | cons c cs ih =>
    obtain ⟨hv, hs, hconns⟩ := h.step hP fun z hz => hc z (hz ▸ List.mem_cons_self)
    obtain ⟨hv', hconns'⟩ := ih hv (hs ▸ hP) fun z hz => hc z (List.mem_cons_of_mem _ hz)
    refine ⟨hv', ?_⟩
    have hafter : (a.after (c :: cs)).connections = ((a.step c).after cs).connections := rfl
    rw [hafter, hconns', hconns]
    cases hx : c.connection? with
    | none => simp [hx]
    | some x => simp [hx, List.mapIdx_cons, Nat.add_assoc, Nat.add_comm 1]

end Valid

/-- The account of a recording is valid, and has the connections that were registered. -/
theorem valid_after (settings : Settings) (calls : List Call) :
    ((start settings).after calls).Valid (Call.Uses settings calls) ∧
      ((start settings).after calls).connections = Call.registered calls := by
  obtain ⟨hv, hconns⟩ := (Valid.start settings).after (P := Call.Uses settings calls) (.inl rfl)
    fun z hz => .inr hz
  refine ⟨hv, hconns.trans ?_⟩
  simp [start, Call.registered]

end Account

end BagFile
