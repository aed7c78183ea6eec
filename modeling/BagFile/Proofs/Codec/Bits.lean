/-
  Bits that were packed are read again.

  * `Dense.bits` are the bits of some bytes; `Packed.bits` those that have been packed so far, to
    which `Packed.append` adds at the end (`Packed.Valid.append`);
  * `BitReader.Reads r bits a`: wherever some bytes have these bits, `r` reads them and gives `a`.
    `Reads.bind`, `Reads.repeated` and `Reads.mapM` follow the ways in which readings are made of
    others, so that the formats above never look at positions.
-/
import BagFile.Codec.Bits
import BagFile.Proofs.Stretches
import Mathlib.Data.List.Infix

namespace BagFile

/-! ## Numbers as bits -/

namespace Bits

@[simp] theorem length_ofNat (w n : Nat) : (ofNat w n).length = w := by
  induction w with
  | zero => rfl
  | succ w ih => rw [ofNat, List.length_cons, ih]

/-- One bit more at the end. -/
theorem ofNat_double (w n : Nat) (b : Bool) :
    ofNat (w + 1) (2 * n + b.toNat) = ofNat w n ++ [b] := by
  induction w with
  | zero =>
    have hlow : (2 * n + b.toNat).testBit 0 = b := by
      rw [Nat.testBit_zero]
      cases b <;> simp
    rw [ofNat, ofNat, ofNat, hlow, List.nil_append]
  | succ w ih =>
    have hhalf : (2 * n + b.toNat) / 2 = n := by
      cases b
      · simp
      · simp
        omega
    have hhigh : (2 * n + b.toNat).testBit (w + 1) = n.testBit w := by rw [Nat.testBit_succ, hhalf]
    rw [ofNat, hhigh, ih, ofNat, List.cons_append]

/-- More bits at the end, all of them zero. -/
theorem ofNat_shift (w n k : Nat) :
    ofNat (w + k) (n * 2 ^ k) = ofNat w n ++ List.replicate k false := by
  induction k with
  | zero => simp
  | succ k ih =>
    have hdouble : n * 2 ^ (k + 1) = 2 * (n * 2 ^ k) + false.toNat := by
      rw [Nat.pow_succ, ← Nat.mul_assoc, Nat.mul_comm _ 2]
      rfl
    rw [← Nat.add_assoc, hdouble, ofNat_double, ih, List.append_assoc, ← List.replicate_succ']

/-- A number, and more bits behind those of it. -/
theorem value_succ (w n m : Nat) : (2 * n + (m.testBit w).toNat) * 2 ^ w + m % 2 ^ w =
    n * 2 ^ (w + 1) + m % 2 ^ (w + 1) := by
  rw [Nat.mod_pow_succ, Nat.toNat_testBit, Nat.pow_succ, Nat.add_mul, Nat.mul_comm 2 n,
    Nat.mul_assoc, Nat.mul_comm 2, Nat.add_assoc, Nat.mul_comm _ (2 ^ w), Nat.add_comm (m % 2 ^ w)]

/-- Only the low bits are left behind the first ones. -/
theorem drop_ofNat (k w n : Nat) : (ofNat (k + w) n).drop k = ofNat w n := by
  induction k with
  | zero => rw [Nat.zero_add, List.drop_zero]
  | succ k ih => rw [Nat.add_right_comm, ofNat, List.drop_succ_cons, ih]

end Bits

namespace Dense

/-- The bits of some bytes. -/
def bits (d : Dense) : List Bool := d.bytes.flatMap fun b => Bits.ofNat 8 b.toNat

theorem length_bits (d : Dense) : d.bits.length = 8 * d.size := by
  rw [bits, List.length_flatMap, ← length_bytes]
  simp [Nat.mul_comm]

theorem bits_push (d : Dense) {n : Nat} (h : n < 256) :
    bits (d.push (UInt8.ofNat n)) = d.bits ++ Bits.ofNat 8 n := by
  rw [bits, bytes_push, List.flatMap_append, List.flatMap_singleton, UInt8.toNat_ofNat_of_lt' h]
  rfl

end Dense

/-! ## Packed bits -/

namespace Packed

/-- The bits that have been packed. -/
def bits (p : Packed) : List Bool := p.whole.bits ++ Bits.ofNat p.count p.rest

/-- Fewer than eight bits are left over. -/
structure Valid (p : Packed) : Prop where
  count_lt : p.count < 8
  rest_lt : p.rest < 2 ^ p.count

theorem valid_empty : empty.Valid := ⟨by decide, by decide⟩

theorem Valid.push {p : Packed} (h : p.Valid) (b : Bool) :
    (p.push b).Valid ∧ (p.push b).bits = p.bits ++ [b] := by
  have hrest : 2 * p.rest + b.toNat < 2 ^ (p.count + 1) := by
    have hlt := h.rest_lt
    have hb : b.toNat < 2 := Bool.toNat_lt b
    rw [Nat.pow_succ]
    omega
  unfold Packed.push
  by_cases hcount : p.count = 7
  · -- a byte is full
    rw [hcount] at hrest
    rw [if_pos hcount]
    refine ⟨⟨Nat.zero_lt_succ 7, Nat.zero_lt_one⟩, ?_⟩
    have hbyte := Bits.ofNat_double 7 p.rest b
    rw [bits, bits, Dense.bits_push _ hrest, hbyte, hcount, Bits.ofNat, List.append_nil,
      List.append_assoc]
  · rw [if_neg hcount]
    refine ⟨⟨?_, hrest⟩, ?_⟩
    · have hlt := h.count_lt
      show p.count + 1 < 8
      omega
    · rw [bits, Bits.ofNat_double, ← List.append_assoc]
      rfl

theorem Valid.append {p : Packed} (h : p.Valid) (bits : List Bool) :
    (p.append bits).Valid ∧ (p.append bits).bits = p.bits ++ bits := by
  induction bits generalizing p with
  | nil => exact ⟨h, (List.append_nil _).symm⟩
  | cons b bits ih =>
    obtain ⟨hvalid, hbits⟩ := h.push b
    obtain ⟨hvalid', hbits'⟩ := ih hvalid
    refine ⟨hvalid', ?_⟩
    refine hbits'.trans ?_
    rw [hbits, List.append_assoc, List.singleton_append]

/-- The bytes have the bits that were packed, and perhaps some zeros behind them. -/
theorem Valid.toDense {p : Packed} (h : p.Valid) : p.bits <+: p.toDense.bits := by
  unfold Packed.toDense
  by_cases hcount : p.count = 0
  · rw [if_pos hcount, bits, hcount, Bits.ofNat, List.append_nil]
  · have hcount_lt := h.count_lt
    have hrest : p.rest * 2 ^ (8 - p.count) < 256 := by
      have hpow : 2 ^ p.count * 2 ^ (8 - p.count) = 256 := by
        rw [← Nat.pow_add, Nat.add_sub_of_le (Nat.le_of_lt hcount_lt)]
      rw [← hpow]
      exact Nat.mul_lt_mul_of_pos_right h.rest_lt (Nat.two_pow_pos _)
    have hshift := Bits.ofNat_shift p.count p.rest (8 - p.count)
    rw [Nat.add_sub_of_le (Nat.le_of_lt hcount_lt)] at hshift
    rw [if_neg hcount, bits, Dense.bits_push _ hrest, hshift, ← List.append_assoc]
    exact List.prefix_append _ _

end Packed

/-! ## Reading -/

namespace BitReader

variable {α β : Type}

/-- Wherever these bits stand, a reading takes them and gives `a`. -/
def Reads (r : BitReader α) (bits : List Bool) (a : α) : Prop :=
  ∀ (d : Dense) (pos : Nat), bits <+: d.bits.drop pos → r d pos = some (a, pos + bits.length)

namespace Reads

theorem pure (a : α) : Reads (Pure.pure a) [] a := fun _ _ _ => rfl

theorem bind {r : BitReader α} {k : α → BitReader β} {bits bits' : List Bool} {a : α} {b : β}
    (h : Reads r bits a) (hk : Reads (k a) bits' b) : Reads (r >>= k) (bits ++ bits') b := by
  intro d pos hp
  have hr := h d pos ((List.prefix_append _ _).trans hp)
  show (r d pos).bind (fun x => k x.1 d x.2) = _
  rw [hr]
  show k a d (pos + bits.length) = _
  rw [hk d _ (prefix_drop_add hp), List.length_append, Nat.add_assoc]

/-- The bits that are read may be split up differently. -/
theorem cast {r : BitReader α} {bits bits' : List Bool} {a : α} (h : Reads r bits a)
    (hb : bits = bits') : Reads r bits' a := hb ▸ h

/-- Only the value is changed. -/
theorem map {r : BitReader α} {bits : List Bool} {a : α} (h : Reads r bits a) (f : α → β) :
    Reads (r >>= fun a => Pure.pure (f a)) bits (f a) :=
  (h.bind (Reads.pure (f a))).cast (List.append_nil bits)

end Reads

/-- A condition that holds. -/
theorem Reads.guard_bind {p : Bool} {k : Unit → BitReader β} {bits : List Bool} {b : β}
    (hp : p = true) (hk : Reads (k ⟨⟩) bits b) : Reads (guard p >>= k) bits b := by
  subst hp
  exact (Reads.pure ()).bind hk

/-- The bits of a byte from a position on. -/
theorem drop_bits {d : Dense} {pos : Nat} (h : pos / 8 < d.size) :
    d.bits.drop pos = d[pos / 8].toNat.testBit (7 - pos % 8) :: d.bits.drop (pos + 1) := by
  have hdrop : ∀ k ≤ 8, d.bits.drop (8 * (pos / 8) + k) =
      Bits.ofNat (8 - k) d[pos / 8].toNat ++ d.bits.drop (8 * (pos / 8 + 1)) := by
    intro k hk
    have hbyte := Bits.drop_ofNat k (8 - k) d[pos / 8].toNat
    rw [Nat.add_sub_of_le hk] at hbyte
    have hblocks := drop_flatMap (fun b : UInt8 => Bits.length_ofNat 8 b.toNat) d.bytes
    rw [← List.drop_drop, Dense.bits, hblocks, hblocks, Dense.drop_bytes h, List.flatMap_cons,
      List.drop_append_of_le_length (by rwa [Bits.length_ofNat]), hbyte]
  have hmod : pos % 8 < 8 := Nat.mod_lt _ (by decide)
  have hpos : 8 * (pos / 8) + pos % 8 = pos := Nat.div_add_mod pos 8
  have hcount : 8 - pos % 8 = 7 - pos % 8 + 1 := by omega
  have hhere := hdrop (pos % 8) (Nat.le_of_lt hmod)
  have hnext := hdrop (pos % 8 + 1) hmod
  rw [hpos, hcount, Bits.ofNat] at hhere
  rw [← Nat.add_assoc, hpos, Nat.sub_add_eq, Nat.sub_right_comm] at hnext
  rw [hhere, hnext]
  rfl

theorem reads_bit (b : Bool) : Reads bit [b] b := by
  intro d pos hp
  have hpos : pos / 8 < d.size := by
    have hlength : 1 ≤ d.bits.length - pos := by
      rw [← List.length_drop]
      exact hp.length_le
    have hbits := d.length_bits
    omega
  rw [drop_bits hpos, List.cons_prefix_cons] at hp
  unfold bit
  rw [dif_pos hpos, ← hp.1]
  rfl

theorem reads_numberFrom (w n m : Nat) :
    Reads (numberFrom n w) (Bits.ofNat w m) (n * 2 ^ w + m % 2 ^ w) := by
  induction w generalizing n with
  | zero =>
    have hzero : n * 2 ^ 0 + m % 2 ^ 0 = n := by rw [Nat.pow_zero, Nat.mul_one, Nat.mod_one]; rfl
    rw [hzero]
    exact Reads.pure n
  | succ w ih =>
    rw [← Bits.value_succ]
    exact (reads_bit (m.testBit w)).bind (ih _)

/-- A number that has room in its bits. -/
theorem reads_number {w n : Nat} (h : n < 2 ^ w) : Reads (number w) (Bits.ofNat w n) n := by
  have hread := reads_numberFrom w 0 n
  rwa [Nat.zero_mul, Nat.zero_add, Nat.mod_eq_of_lt h] at hread

variable {r : BitReader α} {g : β → List Bool} {f : β → α} {xs : List β}

theorem reads_repeatFrom (done : List α) (h : ∀ x ∈ xs, Reads r (g x) (f x)) :
    Reads (repeatFrom r done xs.length) (xs.flatMap g) (done.reverse ++ xs.map f) := by
  induction xs generalizing done with
  | nil =>
    rw [List.map_nil, List.append_nil]
    exact Reads.pure _
  | cons x xs ih =>
    have hrest := ih (f x :: done) fun y hy => h y (List.mem_cons_of_mem _ hy)
    rw [List.reverse_cons, List.append_assoc] at hrest
    exact (h x List.mem_cons_self).bind hrest

/-- A reading for each of some values. -/
theorem reads_repeated (h : ∀ x ∈ xs, Reads r (g x) (f x)) :
    Reads (repeated xs.length r) (xs.flatMap g) (xs.map f) := reads_repeatFrom [] h

/-- Readings one after the other. -/
theorem reads_mapM {r : β → BitReader α} (h : ∀ x ∈ xs, Reads (r x) (g x) (f x)) :
    Reads (xs.mapM r) (xs.flatMap g) (xs.map f) := by
  induction xs with
  | nil => exact Reads.pure _
  | cons x xs ih =>
    rw [List.mapM_cons]
    have hrest := ih fun y hy => h y (List.mem_cons_of_mem _ hy)
    exact (h x List.mem_cons_self).bind (hrest.map _)

end BitReader

end BagFile
