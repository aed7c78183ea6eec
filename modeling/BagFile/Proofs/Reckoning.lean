/-
  Arithmetic on points in time is that of numbers.

  * `Time.count` and `Duration.count` are the nanoseconds of a point and of a span as numbers,
    whatever values their words have; `Time.Normal` are the points whose nanoseconds are less than
    a second, and `Normal.ext` tells them apart by their counts;
  * `Time.toNat_nanos`, `Time.toInt_nanos` and `Duration.toInt_nanos`: so are they as machine words.
    The first is below `2 ^ 62` and the second within `2 ^ 61`, so that a sum or difference of two
    stays within 64 bits;
  * `Duration.secs_ofNanos`, `Duration.nsecs_ofNanos` and `Time.count_ofNanos` say what the
    constructors make of a number;
  * `Time.arithmetic_exact` puts all that together.
-/
import BagFile.Time
import Mathlib.Algebra.Order.Group.Unbundled.Int
import Mathlib.Data.Int.Basic

namespace BagFile

/-! ## Machine words -/

/-- A number within 64 bits is not wrapped. -/
theorem bmod_of_within {n : Int} (hl : -2 ^ 63 ≤ n) (hu : n < 2 ^ 63) : n.bmod (2 ^ 64) = n :=
  Int.bmod_eq_of_le (by omega) (by omega)

/-- A word in the lower half stays the same number when it gets a sign. -/
theorem toInt_toInt64_of_lt {n : UInt64} (h : n.toNat < 2 ^ 63) : n.toInt64.toInt = n.toNat := by
  conv_lhs => rw [← UInt64.ofNat_toNat (x := n)]
  rw [UInt64.toInt64_ofNat', Int64.toInt_ofNat_of_lt h]

/-- A word without a negative sign stays the same number when it loses the sign. -/
theorem toNat_toUInt64_of_nonneg {n : Int64} (h : 0 ≤ n.toInt) :
    (n.toUInt64.toNat : Int) = n.toInt := by
  have hn : (0 : Int64) ≤ n := Int64.le_iff_toInt_le.2 h
  rw [Int64.toNat_toUInt64_of_le hn, Int64.toNatClampNeg, Int.toNat_of_nonneg h]

/-! ## Points in time -/

namespace Time

/-- Nanoseconds since the epoch, as a number. -/
def count (t : Time) : Nat := t.secs.toNat * nanosPerSec + t.nsecs.toNat

/-- A point in time whose nanoseconds are less than a second. -/
def Normal (t : Time) : Prop := t.nsecs.toNat < nanosPerSec

instance (t : Time) : Decidable t.Normal := inferInstanceAs (Decidable (_ < _))

theorem count_lt (t : Time) : t.count < 2 ^ 62 := by
  have hs := t.secs.toNat_lt
  have hn := t.nsecs.toNat_lt
  simp only [count, nanosPerSec]
  omega

theorem toNat_seconds (t : Time) :
    (t.secs.toUInt64 * 1000000000).toNat = t.secs.toNat * nanosPerSec := by
  have hs := t.secs.toNat_lt
  have hlt : t.secs.toNat * 1000000000 < 2 ^ 64 := by omega
  rw [UInt64.toNat_mul, UInt32.toNat_toUInt64]
  exact Nat.mod_eq_of_lt hlt

/-- Nanoseconds since the epoch fit a word. -/
theorem toNat_nanos (t : Time) : t.nanos.toNat = t.count := by
  have hlt := t.count_lt
  rw [nanos, UInt64.toNat_add, toNat_seconds, UInt32.toNat_toUInt64]
  exact Nat.mod_eq_of_lt (Nat.lt_trans hlt (by decide))

/-- They fit a word with a sign, too. -/
theorem toInt_nanos (t : Time) : t.nanos.toInt64.toInt = t.count := by
  have hlt := t.count_lt
  rw [toInt_toInt64_of_lt (by rw [toNat_nanos]; omega), toNat_nanos]

/-- Normal points in time with one count are the same. -/
theorem Normal.ext {a b : Time} (ha : a.Normal) (hb : b.Normal) (h : a.count = b.count) :
    a = b := by
  simp only [Normal, count, nanosPerSec] at ha hb h
  have hs : a.secs = b.secs := UInt32.toNat_inj.mp (by omega)
  have hn : a.nsecs = b.nsecs := UInt32.toNat_inj.mp (by omega)
  cases a
  cases b
  simp_all

/-- Normal points in time are in the order of their counts. -/
theorem Normal.lt_iff {a b : Time} (ha : a.Normal) (hb : b.Normal) :
    a < b ↔ a.count < b.count := by
  simp only [Normal, nanosPerSec] at ha hb
  rw [Time.lt_iff, UInt32.lt_iff_toNat_lt, UInt32.lt_iff_toNat_lt, ← UInt32.toNat_inj, count, count,
    nanosPerSec]
  omega

theorem count_max : Time.max.count = 4294967295999999999 := rfl

/-- A number of nanoseconds with too many seconds gives the last point. -/
theorem ofNanos_of_lt {n : UInt64} (h : 4294967295 < n.toNat / nanosPerSec) :
    ofNanos n = Time.max :=
  if_pos (UInt64.lt_iff_toNat_lt.2 (by rw [UInt64.toNat_div]; exact h))

/-- Any other is taken apart into seconds and nanoseconds. -/
theorem ofNanos_of_le {n : UInt64} (h : n.toNat / nanosPerSec ≤ 4294967295) :
    (ofNanos n).secs.toNat = n.toNat / nanosPerSec ∧
      (ofNanos n).nsecs.toNat = n.toNat % nanosPerSec := by
  have hdiv : (n / 1000000000).toNat = n.toNat / nanosPerSec := UInt64.toNat_div _ _
  have hmod : (n % 1000000000).toNat = n.toNat % nanosPerSec := UInt64.toNat_mod _ _
  have hlt : n.toNat % nanosPerSec < nanosPerSec := Nat.mod_lt _ (by decide)
  have hn : ofNanos n = ⟨(n / 1000000000).toUInt32, (n % 1000000000).toUInt32⟩ := by
    refine if_neg fun hover => ?_
    have hover' := UInt64.lt_iff_toNat_lt.1 hover
    rw [hdiv] at hover'
    exact absurd hover' (Nat.not_lt.2 h)
  simp only [hn, UInt64.toNat_toUInt32, hdiv, hmod]
  simp only [nanosPerSec] at h hlt ⊢
  constructor <;> omega

/-- **A point in time from a number** of nanoseconds is normal. -/
theorem normal_ofNanos (n : UInt64) : (ofNanos n).Normal := by
  by_cases h : n.toNat / nanosPerSec ≤ 4294967295
  · rw [Normal, (ofNanos_of_le h).2]
    exact Nat.mod_lt _ (by decide)
  · rw [ofNanos_of_lt (Nat.not_le.1 h)]
    decide

/-- It has that number, unless it is the last point. -/
theorem count_ofNanos (n : UInt64) : (ofNanos n).count = min n.toNat Time.max.count := by
  rw [count_max]
  by_cases h : n.toNat / nanosPerSec ≤ 4294967295
  · obtain ⟨hsecs, hnsecs⟩ := ofNanos_of_le h
    rw [count, hsecs, hnsecs]
    simp only [nanosPerSec] at h ⊢
    omega
  · rw [ofNanos_of_lt (Nat.not_le.1 h), count_max]
    simp only [nanosPerSec] at h
    omega

end Time

/-! ## Spans of time -/

namespace Duration

/-- Nanoseconds of a span, as a number. -/
def count (d : Duration) : Int := d.secs.toInt * nanosPerSec + d.nsecs.toInt

theorem count_within (d : Duration) : -2 ^ 61 < d.count ∧ d.count < 2 ^ 61 := by
  have hs := d.secs.le_toInt
  have hs' := d.secs.toInt_lt
  have hn := d.nsecs.le_toInt
  have hn' := d.nsecs.toInt_lt
  simp only [count, nanosPerSec]
  omega

theorem toInt_seconds (d : Duration) :
    (d.secs.toInt64 * 1000000000).toInt = d.secs.toInt * nanosPerSec := by
  have hs := d.secs.le_toInt
  have hs' := d.secs.toInt_lt
  rw [Int64.toInt_mul, Int32.toInt_toInt64]
  change (d.secs.toInt * 1000000000).bmod (2 ^ 64) = d.secs.toInt * 1000000000
  exact bmod_of_within (by omega) (by omega)

/-- The nanoseconds of a span fit a word. -/
theorem toInt_nanos (d : Duration) : d.nanos.toInt = d.count := by
  have hd := d.count_within
  rw [nanos, Int64.toInt_add, toInt_seconds, Int32.toInt_toInt64]
  exact bmod_of_within (by rw [← count]; omega) (by rw [← count]; omega)

/-- What the constructor makes of the whole seconds: no less and no more than 32 bits hold. -/
def clamp (secs : Int64) : Int64 :=
  if secs < -2147483648 then -2147483648 else if 2147483647 < secs then 2147483647 else secs

theorem toInt_clamp (secs : Int64) :
    (clamp secs).toInt = max (-2 ^ 31) (min secs.toInt (2 ^ 31 - 1)) := by
  have hmin : (-2147483648 : Int64).toInt = -2 ^ 31 := by decide
  have hmax : (2147483647 : Int64).toInt = 2 ^ 31 - 1 := by decide
  rw [clamp]
  split
  · next h =>
    rw [Int64.lt_iff_toInt_lt] at h
    omega
  · next h =>
    rw [Int64.lt_iff_toInt_lt] at h
    split
    · next h' =>
      rw [Int64.lt_iff_toInt_lt] at h'
      omega
    · next h' =>
      rw [Int64.lt_iff_toInt_lt] at h'
      omega

/-- **The seconds of a span from a number** of nanoseconds are its whole seconds, as far as 32
    bits hold them. -/
theorem secs_ofNanos (n : Int64) : (ofNanos n).secs.toInt =
    max (-2 ^ 31) (min (n.toInt.tdiv nanosPerSec) (2 ^ 31 - 1)) := by
  have hdiv : (n / 1000000000).toInt = n.toInt.tdiv nanosPerSec :=
    Int64.toInt_div_of_ne_right _ _ (by decide)
  change (clamp (n / 1000000000)).toInt32.toInt = _
  rw [Int64.toInt_toInt32, toInt_clamp, hdiv]
  exact Int.bmod_eq_of_le (by omega) (by omega)

/-- The nanoseconds are what is left over, with its sign. -/
theorem nsecs_ofNanos (n : Int64) : (ofNanos n).nsecs.toInt = n.toInt.tmod nanosPerSec := by
  have hmod : (n % 1000000000).toInt = n.toInt.tmod nanosPerSec := Int64.toInt_mod _ _
  change (n % 1000000000).toInt32.toInt = _
  rw [Int64.toInt_toInt32, hmod]
  have hl := Int.tmod_lt_of_pos n.toInt (b := nanosPerSec) (by decide)
  have hu := Int.lt_tmod_of_pos n.toInt (b := nanosPerSec) (by decide)
  simp only [nanosPerSec] at hl hu ⊢
  exact Int.bmod_eq_of_le (by omega) (by omega)

/-- The whole seconds among `n` nanoseconds fit 32 bits. -/
def Fits (n : Int) : Prop := -2 ^ 31 ≤ n.tdiv nanosPerSec ∧ n.tdiv nanosPerSec < 2 ^ 31

instance (n : Int) : Decidable (Fits n) := inferInstanceAs (Decidable (_ ∧ _))

/-- Neither word of a span goes against the sign of `n`, and its nanoseconds are less than a
    second. -/
structure Carries (d : Duration) (n : Int) : Prop where
  secs : (0 ≤ n → 0 ≤ d.secs.toInt) ∧ (n ≤ 0 → d.secs.toInt ≤ 0)
  nsecs : (0 ≤ n → 0 ≤ d.nsecs.toInt) ∧ (n ≤ 0 → d.nsecs.toInt ≤ 0)
  less : |d.nsecs.toInt| < nanosPerSec

/-- A number whose seconds fit is the number of its span. -/
theorem count_ofNanos {n : Int64} (h : Fits n.toInt) : (ofNanos n).count = n.toInt := by
  have hfit : max (-2 ^ 31) (min (n.toInt.tdiv nanosPerSec) (2 ^ 31 - 1)) =
      n.toInt.tdiv nanosPerSec := by
    have := h.1
    have := h.2
    omega
  rw [count, secs_ofNanos, nsecs_ofNanos, hfit]
  exact Int.tdiv_mul_add_tmod n.toInt nanosPerSec

theorem carries_ofNanos (n : Int64) : (ofNanos n).Carries n.toInt where
  secs := by
    rw [secs_ofNanos]
    constructor
    · intro h
      have := Int.tdiv_nonneg h (b := nanosPerSec) (by decide)
      omega
    · intro h
      have := Int.tdiv_nonneg (Int.neg_nonneg_of_nonpos h) (b := nanosPerSec) (by decide)
      rw [Int.neg_tdiv] at this
      omega
  nsecs := by
    rw [nsecs_ofNanos]
    constructor
    · intro h
      exact Int.tmod_nonneg _ h
    · intro h
      have := Int.tmod_nonneg nanosPerSec (Int.neg_nonneg_of_nonpos h)
      rw [Int.neg_tmod] at this
      omega
  less := by
    rw [nsecs_ofNanos, abs_lt]
    exact ⟨Int.lt_tmod_of_pos _ (by decide), Int.tmod_lt_of_pos _ (by decide)⟩

/-- One second and a half before. -/
example : ofNanos (-1500000000) = ⟨-1, -500000000⟩ := by decide

end Duration

/-! ## Differences and sums -/

namespace Time

theorem Normal.count_le {t : Time} (h : t.Normal) : t.count ≤ Time.max.count := by
  have hs := t.secs.toNat_lt
  simp only [Normal, nanosPerSec] at h
  rw [count_max, count, nanosPerSec]
  omega

theorem toInt_sub (a b : Time) :
    (a.nanos.toInt64 - b.nanos.toInt64).toInt = a.count - b.count := by
  have ha := a.count_lt
  have hb := b.count_lt
  rw [Int64.toInt_sub, toInt_nanos, toInt_nanos]
  exact bmod_of_within (by omega) (by omega)

theorem toInt_add (t : Time) (d : Duration) :
    (t.nanos.toInt64 + d.nanos).toInt = t.count + d.count := by
  have ht := t.count_lt
  have hd := d.count_within
  rw [Int64.toInt_add, toInt_nanos, Duration.toInt_nanos]
  exact bmod_of_within (by omega) (by omega)

/-- A sum is the point in time the sum of the numbers stands for, not before the epoch. -/
theorem add_eq (t : Time) (d : Duration) :
    t + d = ofNanos (UInt64.ofNat (t.count + d.count).toNat) := by
  have hsum := t.toInt_add d
  change ofNanos (if t.nanos.toInt64 + d.nanos < 0 then 0
    else t.nanos.toInt64 + d.nanos).toUInt64 = _
  congr 1
  split
  · next h =>
    rw [Int64.lt_iff_toInt_lt, hsum] at h
    have hzero : (t.count + d.count).toNat = 0 := Int.toNat_of_nonpos (Int.le_of_lt h)
    rw [hzero]
    decide
  · next h =>
    rw [Int64.lt_iff_toInt_lt, hsum] at h
    have hnonneg : 0 ≤ (t.nanos.toInt64 + d.nanos).toInt := by
      rw [hsum]
      exact Int.not_lt.1 h
    have hnat := toNat_toUInt64_of_nonneg hnonneg
    rw [hsum] at hnat
    rw [← UInt64.ofNat_toNat (x := (t.nanos.toInt64 + d.nanos).toUInt64), ← hnat, Int.toNat_natCast]

theorem toNat_add_lt (t : Time) (d : Duration) : (t.count + d.count).toNat < 2 ^ 64 := by
  have ht := t.count_lt
  have hd := d.count_within
  omega

/-- A sum has the sum of the numbers, kept between the epoch and the last point. -/
theorem count_add (t : Time) (d : Duration) :
    (t + d).count = min (t.count + d.count).toNat Time.max.count := by
  rw [add_eq, count_ofNanos, UInt64.toNat_ofNat_of_lt' (toNat_add_lt t d)]

theorem normal_add (t : Time) (d : Duration) : (t + d).Normal := by
  rw [add_eq]
  exact normal_ofNanos _

/-- A difference whose seconds fit is exact. -/
theorem toInt_nanos_sub {a b : Time} (h : Duration.Fits (a.count - b.count)) :
    (a - b).nanos.toInt = a.count - b.count := by
  rw [Duration.toInt_nanos, ← toInt_sub]
  rw [← toInt_sub] at h
  exact Duration.count_ofNanos h

/-- The words of a difference carry its sign. -/
theorem carries_sub (a b : Time) : (a - b).Carries (a.count - b.count) := by
  rw [← toInt_sub]
  exact Duration.carries_ofNanos _

/-- Adding a difference whose seconds fit goes back to the point it was taken from. -/
theorem add_sub {a b : Time} (ha : a.Normal) (h : Duration.Fits (a.count - b.count)) :
    b + (a - b) = a := by
  refine Normal.ext (normal_add _ _) ha ?_
  have hle := ha.count_le
  rw [count_add, ← Duration.toInt_nanos, toInt_nanos_sub h]
  omega

/-- No word made on the way to a difference or a sum is wrapped: each is the number it is meant
    to be. -/
structure Unwrapped (a b : Time) (d : Duration) : Prop where
  seconds : (a.secs.toUInt64 * 1000000000).toNat = a.secs.toNat * nanosPerSec
  nanos : a.nanos.toNat = a.count
  signed : a.nanos.toInt64.toInt = a.count
  spanSeconds : (d.secs.toInt64 * 1000000000).toInt = d.secs.toInt * nanosPerSec
  span : d.nanos.toInt = d.count
  difference : (a.nanos.toInt64 - b.nanos.toInt64).toInt = a.count - b.count
  sum : (a.nanos.toInt64 + d.nanos).toInt = a.count + d.count

theorem unwrapped (a b : Time) (d : Duration) : Unwrapped a b d where
  seconds := a.toNat_seconds
  nanos := a.toNat_nanos
  signed := a.toInt_nanos
  spanSeconds := d.toInt_seconds
  span := d.toInt_nanos
  difference := a.toInt_sub b
  sum := a.toInt_add d

/-- Normal points in time are in the order of their nanoseconds as words. -/
theorem Normal.nanos_lt_iff {a b : Time} (ha : a.Normal) (hb : b.Normal) :
    a.nanos < b.nanos ↔ a < b := by
  rw [UInt64.lt_iff_toNat_lt, toNat_nanos, toNat_nanos, ha.lt_iff hb]

/-- **Arithmetic on points in time is exact.**  For all points in time and every span, whatever
    is in their words: no word on the way is wrapped; a sum is the point of the numbers' sum, cut
    off at the epoch, and so at most the last point; a difference whose seconds fit is exact, its
    words carry its sign, and adding it to the one gives the other if that is normal.  Normal
    points are in the order of their nanoseconds. -/
theorem arithmetic_exact (a b : Time) (d : Duration) :
    Unwrapped a b d ∧
    ((a.count + d.count).toNat < 2 ^ 64 ∧
      a + d = ofNanos (UInt64.ofNat (a.count + d.count).toNat) ∧
      (Time.max.count ≤ a.count + d.count → a + d = Time.max)) ∧
    (Duration.Fits (a.count - b.count) →
      (a - b).nanos.toInt = a.count - b.count ∧ (a - b).Carries (a.count - b.count) ∧
      (a.Normal → b + (a - b) = a)) ∧
    (a.Normal → b.Normal → (a < b ↔ a.nanos < b.nanos) ∧ (a ≤ b ↔ a.nanos ≤ b.nanos)) := by
  refine ⟨unwrapped a b d, ⟨toNat_add_lt a d, add_eq a d, ?_⟩, ?_, ?_⟩
  · intro hlate
    refine Normal.ext (normal_add _ _) (by decide) ?_
    rw [count_add]
    omega
  · intro hfits
    exact ⟨toInt_nanos_sub hfits, carries_sub a b, fun ha => add_sub ha hfits⟩
  · intro ha hb
    refine ⟨(ha.nanos_lt_iff hb).symm, ?_⟩
    rw [le_iff_not_lt, ← hb.nanos_lt_iff ha, UInt64.not_lt]

end Time

end BagFile
