/-
  The outer run-length code of bzip2 gives back what was written.

  * `RunLength.Passes`: where some written bytes stand, the reader takes them, adds their text to
    what it has, and goes on in another state.  A state is the byte read last and how many bytes
    were equal to it;
  * a run passes whatever was in front of it, if that was not the same byte (`passes_encodeRun`,
    `Passes.fresh`), and so do all runs of a text (`passes_encodeFrom`);
  * `RunLength.decode_encode` is the round trip, and `RunLength.length_encode` a bound.
-/
import BagFile.Codec.Bzip2.RunLength
import BagFile.Proofs.Stretches

namespace BagFile.Bzip2.RunLength

/-! ## Reading on -/

/-- Where the bytes `written` stand, the reader adds `text` and goes from one state to another. -/
def Passes (written text : Bytes) (b : UInt8) (run : Nat) (b' : UInt8) (run' : Nat) : Prop :=
  ∀ (d out : Dense) (pos : Nat), written <+: d.bytes.drop pos →
    ∃ out' : Dense, out'.bytes = out.bytes ++ text ∧
      decodeFrom d out b run pos = decodeFrom d out' b' run' (pos + written.length)

variable {b b' b'' c : UInt8} {run run' run'' : Nat} {written written' text text' : Bytes}

namespace Passes

theorem refl (b : UInt8) (run : Nat) : Passes [] [] b run b run :=
  fun _ out _ _ => ⟨out, (List.append_nil _).symm, rfl⟩

theorem trans (h : Passes written text b run b' run')
    (h' : Passes written' text' b' run' b'' run'') :
    Passes (written ++ written') (text ++ text') b run b'' run'' := by
  intro d out pos hp
  obtain ⟨out', hout', heq⟩ := h d out pos ((List.prefix_append _ _).trans hp)
  obtain ⟨out'', hout'', heq'⟩ := h' d out' _ (prefix_drop_add hp)
  refine ⟨out'', ?_, ?_⟩
  · rw [hout'', hout', List.append_assoc]
  · rw [heq, heq', List.length_append, Nat.add_assoc]

end Passes

/-- A byte that is not a count. -/
theorem decodeFrom_push {d : Dense} {pos : Nat} (out : Dense) (hp : [c] <+: d.bytes.drop pos)
    (hrun : run ≠ 4) : decodeFrom d out b run pos =
      decodeFrom d (out.push c) c (if c = b then run + 1 else 1) (pos + 1) := by
  obtain ⟨rest, hrest⟩ := hp
  obtain ⟨hpos, rfl, -⟩ := Dense.of_drop_eq_cons hrest.symm
  conv_lhs => rw [decodeFrom]
  rw [dif_pos hpos, if_neg hrun]

theorem passes_push (hrun : run ≠ 4) : Passes [c] [c] b run c (if c = b then run + 1 else 1) :=
  fun _ out _ hp => ⟨out.push c, Dense.bytes_push _ _, decodeFrom_push out hp hrun⟩

/-- A count, behind four equal bytes. -/
theorem passes_count (b c : UInt8) : Passes [c] (List.replicate c.toNat b) b 4 b 0 := by
  intro d out pos hp
  refine ⟨out ++ .replicate c.toNat b, ?_, ?_⟩
  · rw [Dense.bytes_append, Dense.bytes_replicate]
  · obtain ⟨rest, hrest⟩ := hp
    obtain ⟨hpos, rfl, -⟩ := Dense.of_drop_eq_cons hrest.symm
    conv_lhs => rw [decodeFrom]
    rw [dif_pos hpos, if_pos rfl]
    rfl

/-- The byte read last does not count if another one follows it. -/
theorem Passes.fresh (h : Passes (c :: written) text c 0 b' run') (hrun : run ≠ 4)
    (hc : c = b → run = 0) : Passes (c :: written) text b run b' run' := by
  intro d out pos hp
  have hfirst : [c] <+: d.bytes.drop pos := (List.prefix_append [c] written).trans hp
  have hsame : decodeFrom d out b run pos = decodeFrom d out c 0 pos := by
    rw [decodeFrom_push out hfirst hrun, decodeFrom_push out hfirst (by decide : 0 ≠ 4), if_pos rfl]
    by_cases hcb : c = b
    · rw [if_pos hcb, hc hcb]
    · rw [if_neg hcb]
  rw [hsame]
  exact h d out pos hp

/-! ## Runs -/

/-- At most four equal bytes. -/
theorem passes_replicate (b : UInt8) (run : Nat) {n : Nat} (h : run + n ≤ 4) :
    Passes (List.replicate n b) (List.replicate n b) b run b (run + n) := by
  induction n generalizing run with
  | zero => exact Passes.refl b run
  | succ n ih =>
    have hfirst : Passes [b] [b] b run b (if b = b then run + 1 else 1) := passes_push (by omega)
    rw [if_pos rfl] at hfirst
    have hrest := ih (run + 1) (by omega)
    rw [Nat.add_right_comm] at hrest
    exact hfirst.trans hrest

/-- A written run, with nothing of it in front. -/
theorem passes_encodeRun (b : UInt8) (n : Nat) :
    ∃ run < 4, Passes (encodeRun b n) (List.replicate n b) b 0 b run := by
  fun_induction encodeRun b n with
  | case1 n h => exact ⟨0 + n, by omega, passes_replicate b 0 (by omega)⟩
  | case2 n h m ih =>
    obtain ⟨run, hrun, hrest⟩ := ih
    have hfour := passes_replicate b 0 (n := 4) (Nat.le_refl 4)
    have hcount := passes_count b (UInt8.ofNat (m - 4))
    have hlt : m - 4 < 256 := by omega
    have htext : List.replicate 4 b ++ List.replicate (m - 4) b ++ List.replicate (n - m) b =
        List.replicate n b := by
      rw [List.replicate_append_replicate, List.replicate_append_replicate]
      congr 1
      omega
    rw [UInt8.toNat_ofNat_of_lt' hlt] at hcount
    exact ⟨run, hrun, htext ▸ (hfour.trans hcount).trans hrest⟩

theorem encodeRun_eq_cons (b : UInt8) {n : Nat} (h : 0 < n) : ∃ bs, encodeRun b n = b :: bs := by
  rw [encodeRun]
  split
  · obtain ⟨n, rfl⟩ := Nat.exists_eq_add_one.2 h
    exact ⟨_, List.replicate_succ⟩
  · exact ⟨_, rfl⟩

theorem length_encodeRun (b : UInt8) (n : Nat) : (encodeRun b n).length ≤ 5 * n := by
  fun_induction encodeRun b n with
  | case1 n h =>
    rw [List.length_replicate]
    omega
  | case2 n h m ih =>
    simp only [List.length_append, List.length_replicate, List.length_singleton]
    omega

/-! ## Texts -/

/-- The bytes of a run, and what stops it. -/
theorem drop_runAt (d : Dense) (b : UInt8) (pos : Nat) :
    d.bytes.drop pos = List.replicate (runAt d b pos) b ++ d.bytes.drop (pos + runAt d b pos) ∧
      ∀ h : pos + runAt d b pos < d.size, d[pos + runAt d b pos] ≠ b := by
  fun_induction runAt d b pos with
  | case1 pos h hb ih =>
    have hsum : pos + (runAt d b (pos + 1) + 1) = pos + 1 + runAt d b (pos + 1) := by omega
    simp only [hsum]
    refine ⟨?_, ih.2⟩
    rw [Dense.drop_bytes h, hb, List.replicate_succ, List.cons_append, ← ih.1]
  | case2 pos h hb => exact ⟨rfl, fun _ => hb⟩
  | case3 pos h => exact ⟨rfl, fun hlt => absurd hlt h⟩

/-- The written form of a text, if what stands in front of it does not go on in it. -/
theorem passes_encodeFrom (d : Dense) (pos : Nat) : ∀ {b : UInt8} {run : Nat}, run < 4 →
    (∀ h : pos < d.size, d[pos] = b → run = 0) →
      ∃ b' run', run' < 4 ∧ Passes (encodeFrom d pos) (d.bytes.drop pos) b run b' run' := by
  fun_induction encodeFrom d pos with
  | case1 pos h n =>
    rename_i ih
    intro b run hrun hfresh
    obtain ⟨hbytes, hstop⟩ := drop_runAt d d[pos] (pos + 1)
    obtain ⟨written, hwritten⟩ := encodeRun_eq_cons d[pos] (Nat.succ_pos (runAt d d[pos] (pos + 1)))
    obtain ⟨run₁, hrun₁, hfirst⟩ := passes_encodeRun d[pos] n
    have hnext : pos + n = pos + 1 + runAt d d[pos] (pos + 1) := by omega
    obtain ⟨b', run', hrun', hrest⟩ := ih (b := d[pos]) hrun₁ fun hlt heq => by
      simp only [hnext] at heq hlt
      exact absurd heq (hstop hlt)
    have htext : List.replicate n d[pos] ++ d.bytes.drop (pos + n) = d.bytes.drop pos := by
      rw [Dense.drop_bytes h, hbytes, hnext, List.replicate_succ, List.cons_append]
    have hfirst' : Passes (encodeRun d[pos] n) (List.replicate n d[pos]) b run d[pos] run₁ := by
      rw [hwritten] at hfirst ⊢
      exact hfirst.fresh (Nat.ne_of_lt hrun) (hfresh h)
    exact ⟨b', run', hrun', htext ▸ hfirst'.trans hrest⟩
  | case2 pos h =>
    intro b run hrun _
    rw [Dense.drop_bytes_of_le (Nat.le_of_not_lt h)]
    exact ⟨b, run, hrun, Passes.refl b run⟩

/-- **What was written run by run is read back.** -/
theorem decode_encode (text : Dense) {d : Dense} (hd : d.bytes = encode text) :
    decode d = some text := by
  obtain ⟨b, run, hrun, hpasses⟩ := passes_encodeFrom text 0 (b := 0) (by decide : 0 < 4)
    fun _ _ => rfl
  have hstart : encodeFrom text 0 <+: d.bytes.drop 0 := by
    rw [List.drop_zero, hd]
    exact List.prefix_rfl
  obtain ⟨out, hout, hdecode⟩ := hpasses d .empty 0 hstart
  have hend : ¬0 + (encodeFrom text 0).length < d.size := by
    rw [← Dense.length_bytes, hd, encode]
    omega
  rw [decode, hdecode, decodeFrom, dif_neg hend, if_neg (Nat.ne_of_lt hrun)]
  rw [List.drop_zero] at hout
  exact congrArg some (Dense.ext_bytes hout)

theorem length_encodeFrom (d : Dense) (pos : Nat) :
    (encodeFrom d pos).length ≤ 5 * (d.size - pos) := by
  fun_induction encodeFrom d pos with
  | case1 pos h n ih =>
    have hrun := length_encodeRun d[pos] n
    have hbytes := congrArg List.length (drop_runAt d d[pos] (pos + 1)).1
    rw [List.length_append, List.length_replicate, List.length_drop, List.length_drop,
      Dense.length_bytes] at hbytes
    rw [List.length_append]
    omega
  | case2 pos h => exact Nat.zero_le _

/-- A written form is not much longer than the text. -/
theorem length_encode (d : Dense) : (encode d).length ≤ 5 * d.size := length_encodeFrom d 0

theorem encode_ne_nil {d : Dense} (h : 0 < d.size) : encode d ≠ [] := by
  obtain ⟨bs, hbs⟩ := encodeRun_eq_cons d[0] (Nat.succ_pos (runAt d d[0] (0 + 1)))
  rw [encode, encodeFrom, dif_pos h]
  simp only [← Nat.succ_eq_add_one, hbs, List.cons_append]
  exact List.cons_ne_nil _ _

end BagFile.Bzip2.RunLength
