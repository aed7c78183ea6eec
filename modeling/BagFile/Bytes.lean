/-
  Byte strings and the little-endian reading of them.

  * `Bytes.ofNat w n` are the `w` bytes of `n`, least significant first;
  * `Bytes.toNat bs` is the number those bytes stand for;
  * `toNat_ofNat`: reading back gives the number modulo `256 ^ w`, hence the number itself
    when it fits (`toNat_ofNat_of_lt`).
-/

namespace BagFile

/-! ## Numbers

Powers, zero and the equality of byte strings are the core library's: they outrank the instances
that an algebraic hierarchy brings, so an expression means the same in every module. -/

instance (priority := high) corePow {α : Type} [NatPow α] : Pow α Nat := instPowNat

attribute [default_instance 20000] corePow

instance (priority := high) natZero : Zero Nat := Zero.ofOfNat0

instance (priority := high) denseDecidableEq : DecidableEq ByteArray := ByteArray.instDecidableEq

/-- A byte string. -/
abbrev Bytes := List UInt8

namespace Bytes

/-! ## Little-endian numbers -/

/-- The `w` bytes of `n`, least significant first; bits above `8 * w` are dropped. -/
def ofNat : Nat → Nat → Bytes
  | 0, _ => []
  | w + 1, n => UInt8.ofNat (n % 256) :: ofNat w (n / 256)

/-- The number whose little-endian bytes these are. -/
def toNat : Bytes → Nat
  | [] => 0
  | b :: bs => b.toNat + 256 * toNat bs

@[simp] theorem length_ofNat (w n : Nat) : (ofNat w n).length = w := by
  induction w generalizing n with
  | zero => rfl
  | succ w ih => simp [ofNat, ih]

theorem toNat_ofNat (w n : Nat) : toNat (ofNat w n) = n % 256 ^ w := by
  induction w generalizing n with
  | zero => simp [ofNat, toNat, Nat.mod_one]
  | succ w ih =>
    have h : n % 256 % 2 ^ 8 = n % 256 := by omega
    rw [ofNat, toNat, ih, UInt8.toNat_ofNat', h, Nat.pow_succ', Nat.mod_mul]

theorem toNat_ofNat_of_lt {w n : Nat} (h : n < 256 ^ w) : toNat (ofNat w n) = n := by
  rw [toNat_ofNat, Nat.mod_eq_of_lt h]

theorem toNat_lt (bs : Bytes) : toNat bs < 256 ^ bs.length := by
  induction bs with
  | nil => simp [toNat]
  | cons b bs ih =>
    have hb := b.toNat_lt
    rw [toNat, List.length_cons, Nat.pow_succ]
    omega

/-! ## Whole byte strings -/

/-- `n` copies of the zero byte. -/
def zeros (n : Nat) : Bytes := List.replicate n 0

end Bytes

end BagFile
