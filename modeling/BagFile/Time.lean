/-
  Points in time and spans of time.

  * `Time` counts seconds and nanoseconds since the epoch, both unsigned; `Duration` is a
    signed span.  Both are stored as two 32-bit words and may be read with any values in
    them: only the constructors `Time.new` and `ofNanos` bring the nanoseconds below a second;
  * they are ordered by seconds, then nanoseconds;
  * a difference saturates at what 32 bits of seconds can hold, a sum at zero and `Time.max`.
-/
import BagFile.Word
import BagFile.Decimal.Fixed

namespace BagFile

/-- Nanoseconds in a second. -/
def nanosPerSec : Nat := 1000000000

/-! ## Points in time -/

/-- A point in time: seconds and nanoseconds since the epoch. -/
structure Time where
  secs : UInt32
  nsecs : UInt32
  deriving DecidableEq, Inhabited

namespace Time

/-- The epoch. -/
def zero : Time := ⟨0, 0⟩

/-- The last point in time. -/
def max : Time := ⟨4294967295, 999999999⟩

/-- A number that orders points in time: seconds above, nanoseconds below. -/
def rank (t : Time) : Nat := t.secs.toNat * 2 ^ 32 + t.nsecs.toNat

instance : LE Time := ⟨fun a b => a.rank ≤ b.rank⟩
instance : LT Time := ⟨fun a b => a.rank < b.rank⟩

theorem le_def {a b : Time} : a ≤ b ↔ a.rank ≤ b.rank := Iff.rfl

theorem lt_def {a b : Time} : a < b ↔ a.rank < b.rank := Iff.rfl

/-- Points in time are compared by seconds, and by nanoseconds within one second. -/
theorem lt_iff {a b : Time} : a < b ↔ a.secs < b.secs ∨ a.secs = b.secs ∧ a.nsecs < b.nsecs := by
  have ha := a.nsecs.toNat_lt
  have hb := b.nsecs.toNat_lt
  rw [lt_def, rank, rank, UInt32.lt_iff_toNat_lt, UInt32.lt_iff_toNat_lt, ← UInt32.toNat_inj]
  omega

theorem le_iff_not_lt {a b : Time} : a ≤ b ↔ ¬b < a := Nat.not_lt.symm

instance (a b : Time) : Decidable (a < b) := decidable_of_iff _ lt_iff.symm
instance (a b : Time) : Decidable (a ≤ b) := decidable_of_iff _ le_iff_not_lt.symm

/-- No two points in time have the same rank. -/
theorem rank_inj {a b : Time} : a.rank = b.rank ↔ a = b := by
  constructor
  · intro h
    have ha := a.nsecs.toNat_lt
    have hb := b.nsecs.toNat_lt
    unfold rank at h
    have hs : a.secs = b.secs := UInt32.toNat_inj.mp (by omega)
    have hn : a.nsecs = b.nsecs := UInt32.toNat_inj.mp (by omega)
    cases a; cases b; simp_all
  · rintro rfl; rfl

/-- The earlier of two points in time. -/
def earlier (a b : Time) : Time := if a ≤ b then a else b

/-- The later of two points in time. -/
def later (a b : Time) : Time := if a ≤ b then b else a

/-- A point in time, with whole seconds among the nanoseconds carried over.  The seconds
    saturate; the nanoseconds left over stay. -/
def new (secs nsecs : UInt32) : Time :=
  let carried := secs.toNat + nsecs.toNat / nanosPerSec
  ⟨UInt32.ofNat (min carried 4294967295), UInt32.ofNat (nsecs.toNat % nanosPerSec)⟩

/-- Nanoseconds since the epoch. -/
def nanos (t : Time) : UInt64 := t.secs.toUInt64 * 1000000000 + t.nsecs.toUInt64

/-- The point in time so many nanoseconds after the epoch, at most `max`. -/
def ofNanos (n : UInt64) : Time :=
  let secs := n / 1000000000
  if 4294967295 < secs then max else ⟨secs.toUInt32, (n % 1000000000).toUInt32⟩

/-- The point in time so many seconds after the epoch, to the nearest nanosecond; negative
    numbers and what is not a number give the epoch. -/
def ofSeconds (s : Float) : Time :=
  if s ≤ 0 || s.isNaN then zero else ofNanos (s * 1000000000).round.toUInt64

/-- Seconds since the epoch. -/
def seconds (t : Time) : Float := t.secs.toFloat + t.nsecs.toFloat / 1000000000

/-- Seconds, a point, and at least nine digits of nanoseconds. -/
def text (t : Time) : String := s!"{t.secs}." ++ Decimal.padded 9 t.nsecs.toNat

/-- Seconds, then nanoseconds, as words. -/
def encode (t : Time) : Dense := Word.encode t.secs ++ Word.encode t.nsecs

/-- The point in time at the start of `d`. -/
def decode (d : Dense) : Except Error Time := do
  let secs ← Word.decode d
  let nsecs ← Word.decodeAt d 4
  return ⟨secs, nsecs⟩

end Time

/-! ## Spans of time -/

/-- A signed span of time: seconds and nanoseconds. -/
structure Duration where
  secs : Int32
  nsecs : Int32
  deriving DecidableEq, Inhabited

namespace Duration

/-- No time at all. -/
def zero : Duration := ⟨0, 0⟩

/-- A number that orders spans: seconds above, nanoseconds below. -/
def rank (d : Duration) : Int := d.secs.toInt * 2 ^ 32 + d.nsecs.toInt

instance : LE Duration := ⟨fun a b => a.rank ≤ b.rank⟩
instance : LT Duration := ⟨fun a b => a.rank < b.rank⟩
instance (a b : Duration) : Decidable (a ≤ b) := inferInstanceAs (Decidable (a.rank ≤ b.rank))
instance (a b : Duration) : Decidable (a < b) := inferInstanceAs (Decidable (a.rank < b.rank))

/-- The span in nanoseconds. -/
def nanos (d : Duration) : Int64 := d.secs.toInt64 * 1000000000 + d.nsecs.toInt64

/-- The span of `n` nanoseconds.  Seconds and nanoseconds both carry the sign of `n`; seconds
    that do not fit saturate. -/
def ofNanos (n : Int64) : Duration :=
  let secs := n / 1000000000
  let clamped :=
    if secs < -2147483648 then -2147483648
    else if 2147483647 < secs then 2147483647
    else secs
  ⟨clamped.toInt32, (n % 1000000000).toInt32⟩

/-- The span in seconds. -/
def seconds (d : Duration) : Float := d.nanos.toFloat / 1000000000

/-- Seconds with three decimals, and the unit. -/
def text (d : Duration) : String := (Binary.ofBits d.seconds.toBits).fixed 3 ++ "s"

/-- Seconds, then nanoseconds, as words. -/
def encode (d : Duration) : Dense := Word.encode d.secs ++ Word.encode d.nsecs

/-- The span at the start of `d`. -/
def decode (d : Dense) : Except Error Duration := do
  let secs ← Word.decode d
  let nsecs ← Word.decodeAt d 4
  return ⟨secs, nsecs⟩

end Duration

/-! ## Arithmetic -/

/-- The span from one point in time to another. -/
instance : HSub Time Time Duration :=
  ⟨fun a b => Duration.ofNanos (a.nanos.toInt64 - b.nanos.toInt64)⟩

/-- The point in time a span later, not before the epoch. -/
instance : HAdd Time Duration Time where
  hAdd t d :=
    let total := t.nanos.toInt64 + d.nanos
    Time.ofNanos (if total < 0 then 0 else total).toUInt64

end BagFile
