/-
  Sessions into which requests are put that are refused.

  * A `Request` is a call or the end of the bag; `Request.answer` is what the caller gets;
  * a session with more requests in it is a list of `Move`s, of which some are `inserted`;
  * `Recorder.refused_unseen`: a primitive request that is refused changes nothing, and so those
    that were put in leave all other answers and the recorder as they are.
-/
import BagFile.Proofs.Refusals

namespace BagFile

/-! ## Requests -/

/-- What may be asked of a recorder. -/
inductive Request where
  | call (c : Call)
  | finalize
  deriving DecidableEq

/-- What a recorder may give back. -/
inductive Answer where
  | done
  | id (conn : UInt32)
  | header (h : FileHeader)
  deriving DecidableEq

namespace Request

variable [Codec.Formats]

def run : Request → Recorder.Op Answer
  | call (.addConnection c) => do return .id (← Recorder.addConnection c)
  | call c => do
    c.run
    return .done
  | finalize => do return .header (← Recorder.finalize)

/-- Whether a request is a single operation; a write is made of several. -/
def IsPrimitive : Request → Prop
  | call (.write _) => False
  | _ => True

/-- What the caller gets. -/
def answer (q : Request) (r : Recorder) : Except Error Answer :=
  match q.run.run r with
  | .ok a _ => .ok a
  | .error e _ => .error e

/-- The recorder after a request, whatever was answered. -/
def after (q : Request) (r : Recorder) : Recorder :=
  match q.run.run r with
  | .ok _ r' | .error _ r' => r'

/-- Whether a request is refused. -/
def Refused (q : Request) (r : Recorder) : Prop := ∃ e, q.answer r = .error e ∧ e.IsRefusal

end Request

/-- A request of a session, which may have been put in later. -/
structure Move where
  request : Request
  inserted : Bool
  deriving DecidableEq

namespace Recorder

theorem Settles.bind_pure {α β : Type} {op : Op α} (h : Settles op) (f : α → β) :
    Settles (op >>= fun a => pure (f a)) := by
  intro r e r' he
  rw [EStateM.run_bind] at he
  split at he
  · cases he
  · next e₁ r₁ hop =>
    cases he
    exact h _ _ _ hop

section
variable [Codec.Formats] {r : Recorder}

/-- The requests of a session, each with its answer. -/
def transcript : Recorder → List Move → List (Move × Except Error Answer)
  | _, [] => []
  | r, m :: ms => (m, m.request.answer r) :: transcript (m.request.after r) ms

/-- The recorder after a session. -/
def afterMoves (r : Recorder) (moves : List Move) : Recorder :=
  moves.foldl (fun r m => m.request.after r) r

/-- All that was put into a session are primitive requests, refused where they are made. -/
def OnlyRefused : Recorder → List Move → Prop
  | _, [] => True
  | r, m :: ms => (m.inserted → m.request.IsPrimitive ∧ m.request.Refused r) ∧
      OnlyRefused (m.request.after r) ms

/-- A primitive request is refused without effect, or given up. -/
theorem settles_request {q : Request} (hq : q.IsPrimitive) : Settles q.run := by
  cases q with
  | call c =>
    cases c with
    | addConnection c => exact (settles_addConnection c).bind_pure _
    | beginChunk z => exact (settles_beginChunk z).bind_pure _
    | append m => exact (settles_append _ _ _).bind_pure _
    | endChunk => exact settles_endChunk.bind_pure _
    | write m => exact absurd hq id
  | finalize => exact settles_finalize.bind_pure _

theorem after_of_refused {q : Request} (hq : q.IsPrimitive) (h : q.Refused r) : q.after r = r := by
  obtain ⟨e, hanswer, he⟩ := h
  unfold Request.answer at hanswer
  unfold Request.after
  split at hanswer
  · cases hanswer
  · next e₁ r₁ hrun =>
    cases hanswer
    rcases settles_request hq _ _ _ hrun with ⟨-, hsame⟩ | ⟨hfault, -⟩
    · exact hsame
    · exact absurd he hfault.not_refusal

/-- What the account does not accept is refused. -/
theorem Follows.refused {a : Account} {c : Call} (h : r.Follows a) (hc : a.accept? c = none)
    (hfits : a.Fits c) : (Request.call c).Refused r := by
  have hends := h.call c
  rw [hc] at hends
  rcases hrun : c.run.run r with ⟨u, r'⟩ | ⟨e, r'⟩
  · rw [hrun] at hends
    obtain ⟨-, a', hnone, -⟩ := hends
    cases hnone
  · rw [hrun] at hends
    rcases hends with ⟨he, -⟩ | ⟨-, hlimit, -⟩
    · refine ⟨e, ?_, he⟩
      cases c with
      | addConnection c => cases hc
      | _ => simp only [Request.answer, Request.run, EStateM.run_bind, hrun]
    · exact absurd hfits hlimit

/-- What was put in is not seen by the rest of a session. -/
theorem OnlyRefused.unseen {moves : List Move} (h : OnlyRefused r moves) :
    (transcript r moves).filter (!·.1.inserted) =
        transcript r (moves.filter (!·.inserted)) ∧
      r.afterMoves moves = r.afterMoves (moves.filter (!·.inserted)) := by
  induction moves generalizing r with
  | nil => exact ⟨rfl, rfl⟩
  | cons m ms ih =>
    obtain ⟨hm, hms⟩ := h
    obtain ⟨htranscript, hafter⟩ := ih hms
    rw [transcript, afterMoves, List.foldl_cons]
    cases hi : m.inserted with
    | true =>
      -- it was refused, so the rest starts where this request was made
      obtain ⟨hprimitive, hrefused⟩ := hm hi
      rw [after_of_refused hprimitive hrefused] at htranscript hafter ⊢
      rw [List.filter_cons_of_neg (by simp [hi]), List.filter_cons_of_neg (by simp [hi])]
      exact ⟨htranscript, hafter⟩
    | false =>
      rw [List.filter_cons_of_pos (by simp [hi]), List.filter_cons_of_pos (by simp [hi]),
        transcript, htranscript]
      exact ⟨rfl, hafter⟩

/-- **Requests that are refused are not seen by anyone.**  A primitive request that is refused
    leaves the whole recorder as it was; every other error is met in writing, and the recorder is
    given up.  So refused requests may be put into a session wherever one likes: the answers to
    its own requests are the same, and so is the recorder in the end. -/
theorem refused_unseen (r : Recorder) :
    (∀ q : Request, q.IsPrimitive → ∀ e r', q.run.run r = .error e r' →
      (e.IsRefusal ∧ r' = r) ∨ (e.IsFault ∧ ¬e.IsRefusal ∧ r'.phase = .failed)) ∧
    ∀ moves, OnlyRefused r moves →
      (transcript r moves).filter (!·.1.inserted) = transcript r (moves.filter (!·.inserted)) ∧
      r.afterMoves moves = r.afterMoves (moves.filter (!·.inserted)) := by
  refine ⟨fun q hq e r' hrun => ?_, fun moves h => h.unseen⟩
  rcases settles_request hq _ _ _ hrun with hrefused | ⟨hfault, hphase⟩
  · exact .inl hrefused
  · exact .inr ⟨hfault, hfault.not_refusal, hphase⟩

end

/-- A session into which two requests are put that come too early. -/
def sampleMoves : List Move :=
  [⟨.call .endChunk, true⟩, ⟨.call (.append ⟨4, ⟨6, 0⟩, .ofBytes [4]⟩), true⟩,
    ⟨.call (.addConnection (.sample 7 "/a")), false⟩, ⟨.finalize, false⟩]

theorem refused_unseen_sample : ∃ r₀, create .default = .ok r₀ ∧ OnlyRefused r₀ sampleMoves ∧
    r₀.afterMoves sampleMoves = r₀.afterMoves (sampleMoves.filter (!·.inserted)) := by
  obtain ⟨r₀, hcreate, hf⟩ := create_follows (show Settings.default.chunkThreshold ≠ 0 by decide)
  have hend : (Request.call .endChunk).Refused r₀ := hf.refused rfl (by rintro b ⟨⟩)
  have happend : (Request.call (.append ⟨4, ⟨6, 0⟩, .ofBytes [4]⟩)).Refused r₀ :=
    hf.refused rfl (by rintro c ⟨⟩)
  have honly : OnlyRefused r₀ sampleMoves := by
    have hsame : (Request.call .endChunk).after r₀ = r₀ := after_of_refused trivial hend
    refine ⟨fun _ => ⟨trivial, hend⟩, ?_⟩
    rw [hsame]
    refine ⟨fun _ => ⟨trivial, happend⟩, ?_⟩
    refine ⟨?_, ?_, trivial⟩
    · rintro ⟨⟩
    · rintro ⟨⟩
  exact ⟨r₀, hcreate, honly, ((refused_unseen r₀).2 _ honly).2⟩

end Recorder

end BagFile
