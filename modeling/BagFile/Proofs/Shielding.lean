/-
  What is written behind a position leaves what is in front of it.

  * `Tape.Shields n P`: no write behind position `n` changes `P`, and no move does; where `P` holds,
    the tape reaches that far;
  * `Tape.Behind n P t`: the tape is as `P` says, and stands behind `n`;
  * operations that move no further to the front uphold that, up to `Recorder.upholds_writeChunk`:
    places that are kept stand behind `n`, and so they are filled in behind it.
-/
import BagFile.Proofs.Refusals

namespace BagFile

variable {α β : Type}

/-! ## Tapes -/

namespace Tape

/-- What is left as it is by everything that is written behind a position. -/
structure Shields (n : Nat) (P : Tape → Prop) : Prop where
  written : ∀ t d, P t → n ≤ t.pos → P (t.written d)
  moved : ∀ t pos, P t → P { t with pos := pos }
  le_size : ∀ t, P t → n ≤ t.size

/-- A tape that is as it should be, and stands behind a position. -/
structure Behind (n : Nat) (P : Tape → Prop) (t : Tape) : Prop where
  kept : P t
  beyond : n ≤ t.pos

/-- A tape starts with certain bytes. -/
def Starts (front : Bytes) (t : Tape) : Prop := front <+: t.bytes

theorem shields_starts (front : Bytes) : Shields front.length (Starts front) where
  written t d h hpos := by
    have hfront : front <+: t.bytes.take t.pos := List.prefix_take_iff.2 ⟨h, hpos⟩
    show front <+: (t.contents.overwrite t.pos d).bytes
    rw [Contents.bytes_overwrite, List.append_assoc, List.append_assoc]
    exact hfront.trans (List.prefix_append _ _)
  moved t pos h := h
  le_size t h := by
    rw [← length_bytes]
    exact h.length_le

variable {n : Nat} {P : Tape → Prop}

theorem upholds_write (hP : Shields n P) (d : Dense) :
    Upholds (Behind n P) (fun _ => True) (write d) :=
  Upholds.total fun t => ⟨⟨⟩, t.written d, rfl, fun h =>
    ⟨trivial, hP.written t d h.kept h.beyond, Nat.le_trans h.beyond (Nat.le_add_right _ _)⟩⟩

theorem upholds_seek (hP : Shields n P) {pos : Nat} (hpos : n ≤ pos) :
    Upholds (Behind n P) (fun _ => True) (seek pos) :=
  Upholds.total fun t => ⟨_, _, rfl, fun h => ⟨trivial, hP.moved t pos h.kept, hpos⟩⟩

theorem upholds_position : Upholds (Behind n P) (n ≤ ·) position :=
  Upholds.total fun _ => ⟨_, _, rfl, fun h => ⟨h.beyond, h⟩⟩

theorem upholds_toEnd (hP : Shields n P) : Upholds (Behind n P) (n ≤ ·) toEnd :=
  Upholds.total fun t => ⟨_, _, rfl, fun h =>
    ⟨hP.le_size t h.kept, hP.moved t t.size h.kept, hP.le_size t h.kept⟩⟩

end Tape

open Tape

variable {n : Nat} {P : Tape → Prop}

/-! ## Blocks -/

namespace Slot

theorem upholds_reserve (hP : Shields n P) :
    Upholds (Behind n P) (fun slot => n ≤ slot.pos) reserve := by
  refine upholds_position.bind fun pos hpos => ?_
  exact (upholds_write hP _).bind fun _ _ => Upholds.pure hpos

theorem upholds_commit (hP : Shields n P) {s : Slot} (hs : n ≤ s.pos) :
    Upholds (Behind n P) (fun _ => True) s.commit := by
  refine upholds_position.bind fun stop hstop => ?_
  refine Upholds.refuse (Upholds.refuse ?_)
  refine (upholds_seek hP hs).bind fun _ _ => ?_
  refine (upholds_write hP _).bind fun _ _ => ?_
  exact (upholds_seek hP hstop).bind fun _ _ => Upholds.pure trivial

/-- A place in front of what is written. -/
theorem upholds_around (hP : Shields n P) {body : Tape.Op PUnit} {k : Slot → UInt32 → Tape.Op α}
    {Q : α → Prop} (h : Upholds (Behind n P) (fun _ => True) body)
    (hk : ∀ slot len, n ≤ slot.pos → Upholds (Behind n P) Q (k slot len)) :
    Upholds (Behind n P) Q (reserve >>= fun slot => body >>= fun _ => slot.commit >>= k slot) := by
  refine (upholds_reserve hP).bind fun slot hslot => ?_
  refine h.bind fun _ _ => ?_
  exact (upholds_commit hP hslot).bind fun len _ => hk slot len hslot

end Slot

theorem Fields.upholds_entries (hP : Shields n P) (entries : List (String × Dense)) :
    Upholds (Behind n P) (fun _ => True) (entries.forM writeEntry) := by
  refine Upholds.forM (fun e => ?_) entries
  refine (Tape.upholds_write hP _).bind fun _ _ => ?_
  refine (Tape.upholds_write hP _).bind fun _ _ => ?_
  exact (Tape.upholds_write hP _).bind fun _ _ => Tape.upholds_write hP _

theorem Fields.upholds_write (hP : Shields n P) (f : Fields) :
    Upholds (Behind n P) (fun _ => True) f.write := by
  refine (Slot.upholds_reserve hP).bind fun slot hslot => ?_
  exact (Fields.upholds_entries hP f.entries).bind fun _ _ => Slot.upholds_commit hP hslot

theorem Header.upholds_write (hP : Shields n P) [Header α] (h : α) :
    Upholds (Behind n P) (fun _ => True) (Header.write h) := Fields.upholds_write hP _

theorem Connection.upholds_write (hP : Shields n P) (c : Connection) :
    Upholds (Behind n P) (fun _ => True) c.write := by
  refine (Header.upholds_write hP _).bind fun _ _ => ?_
  exact (Fields.upholds_write hP _).bind fun _ _ => Upholds.pure trivial

/-! ## Records -/

namespace Recorder

theorem upholds_writeTable (hP : Shields n P) (parts : List Dense) :
    Upholds (Behind n P) (fun _ => True) (writeTable parts) := by
  refine Slot.upholds_around hP (Upholds.forM (Tape.upholds_write hP) parts) fun _ _ _ => ?_
  exact Upholds.pure trivial

theorem upholds_writeSummary (hP : Shields n P) (chunk : ClosedChunk) :
    Upholds (Behind n P) (fun _ => True) (writeSummary chunk) :=
  (Header.upholds_write hP _).bind fun _ _ => upholds_writeTable hP _

/-- A chunk that stands behind a position is closed behind it. -/
theorem upholds_writeChunk [Codec.Formats] (hP : Shields n P) {chunk : OpenChunk}
    (hchunk : n ≤ chunk.recordPos) : Upholds (Behind n P) (fun _ => True) (writeChunk chunk) := by
  simp only [writeChunk, ofExcept_store, pure_bind]
  refine Upholds.refuse ?_
  refine Slot.upholds_around hP (Tape.upholds_write hP _) fun slot _ _ => ?_
  refine upholds_position.bind fun stop hstop => ?_
  refine (upholds_seek hP hchunk).bind fun _ _ => ?_
  refine (Header.upholds_write hP _).bind fun _ _ => ?_
  refine upholds_position.bind fun pos _ => ?_
  refine Upholds.refuse ?_
  refine (upholds_seek hP hstop).bind fun _ _ => ?_
  refine Upholds.forM (fun x => ?_) _
  exact (Header.upholds_write hP _).bind fun _ _ => upholds_writeTable hP _

end Recorder

end BagFile
