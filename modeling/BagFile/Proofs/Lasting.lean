/-
  What lasts through every call of a recorder.

  * `Recorder.Lasts P` says which steps have to keep `P`: writing the header of a chunk, putting a
    message into the open chunk, closing it, noting a connection, and giving up;
  * `Recorder.Lasts.call`: all calls are made of these, and so `P` lasts, whether a call succeeds,
    is refused or fails.
-/
import BagFile.Proofs.Refusals

namespace BagFile
namespace Recorder

variable {α : Type} {P : Recorder → Prop} {Q : α → Prop}

/-- What changes nothing keeps everything. -/
theorem Checks.upholds {op : Op α} (h : Checks op) : Upholds P (fun _ => True) op := by
  constructor
  · intro r a r' hrun hr
    rw [h.of_ok hrun]
    exact ⟨trivial, hr⟩
  · intro r e r' hrun hr
    rcases h r with ⟨a, hok⟩ | ⟨e₁, herror, -⟩
    · rw [hok] at hrun
      cases hrun
    · rw [herror] at hrun
      cases hrun
      exact hr

variable [Codec.Formats]

/-- Steps that keep a property of recorders, from which all calls are made. -/
structure Lasts (P : Recorder → Prop) : Prop where
  failed : ∀ r, P r → P { r with phase := .failed }
  connections : ∀ r cs, P r → P { r with connections := cs }
  reserveChunk : ∀ z codec, Upholds P (fun _ => True) (reserveChunk z codec)
  appendTo : ∀ r chunk, P r → r.phase.chunk? = some chunk → ∀ c conn time data,
    Upholds P (fun _ => True) (appendTo chunk c conn time data)
  closeChunk : ∀ r chunk, P r → r.phase.chunk? = some chunk →
    Upholds P (fun _ => True) (closeChunk chunk)

namespace Lasts

theorem spares_guarded (h : Lasts P) {step : Op α} (hstep : Spares P step) :
    Spares P (guarded step) := by
  intro r e r' hrun hr
  rw [run_guarded] at hrun
  rcases hok : step.run r with ⟨a, r₁⟩ | ⟨e₁, r₁⟩
  · rw [hok] at hrun
    cases hrun
  · rw [hok] at hrun
    cases hrun
    exact h.failed r₁ (hstep r _ _ hok hr)

theorem upholds_guarded (h : Lasts P) {step : Op α} (hstep : Upholds P Q step) :
    Upholds P Q (guarded step) :=
  ⟨fun r a r' hrun hr => hstep.gives r a r' (of_guarded_ok hrun) hr,
    h.spares_guarded hstep.spares⟩

theorem addConnection (h : Lasts P) (c : Connection) :
    Upholds P (fun _ => True) (addConnection c) := by
  refine checks_checkWritable.upholds.bind fun _ _ => ?_
  refine Upholds.onGet.bind fun r hr => ?_
  exact (Upholds.onSet (h.connections r _ hr)).bind fun _ _ => Upholds.pure trivial

theorem beginChunk (h : Lasts P) (z : Compression) : Upholds P (fun _ => True) (beginChunk z) := by
  refine checks_checkWritable.upholds.bind fun _ _ => ?_
  refine Upholds.onGet.bind fun r _ => ?_
  refine Upholds.refuse ?_
  refine (Upholds.ofExcept _).bind fun codec _ => ?_
  exact h.upholds_guarded (h.reserveChunk z codec)

theorem append (h : Lasts P) (conn : UInt32) (time : Time) (data : Dense) :
    Upholds P (fun _ => True) (append conn time data) := by
  refine checks_checkWritable.upholds.bind fun _ _ => ?_
  refine Upholds.onGet.bind fun r hr => ?_
  split
  · exact Upholds.throw _
  · split
    · exact Upholds.throw _
    · next chunk hchunk => exact h.upholds_guarded (h.appendTo r chunk hr hchunk _ _ _ _)

theorem endChunk (h : Lasts P) : Upholds P (fun _ => True) endChunk := by
  refine checks_checkWritable.upholds.bind fun _ _ => ?_
  refine Upholds.onGet.bind fun r hr => ?_
  split
  · exact Upholds.throw _
  · next chunk hchunk => exact h.upholds_guarded (h.closeChunk r chunk hr hchunk)

theorem write (h : Lasts P) (conn : UInt32) (time : Time) (data : Dense) :
    Upholds P (fun _ => True) (write conn time data) := by
  have hclose : Upholds P (fun _ => True) closeIfFull := by
    refine Upholds.onGet.bind fun r _ => ?_
    split
    · split
      · exact h.endChunk
      · exact Upholds.pure trivial
    · exact Upholds.pure trivial
  have hadd : Upholds P (fun _ => True)
      (Recorder.append conn time data >>= fun _ => closeIfFull) :=
    (h.append conn time data).bind fun _ _ => hclose
  refine Upholds.onGet.bind fun r _ => ?_
  simp only
  split
  · exact (h.beginChunk _).bind fun _ _ => hadd
  · exact hadd

/-- **A call keeps what lasts**, whether it succeeds, is refused or fails. -/
theorem call (h : Lasts P) (c : Call) : Upholds P (fun _ => True) c.run := by
  cases c with
  | addConnection c => exact (h.addConnection c).bind fun _ _ => Upholds.pure trivial
  | beginChunk z => exact h.beginChunk z
  | append m => exact h.append _ _ _
  | endChunk => exact h.endChunk
  | write m => exact h.write _ _ _

end Lasts
end Recorder

end BagFile
