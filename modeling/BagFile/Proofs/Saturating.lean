/-
  Seconds that do not fit their words.

  * Both `Duration.ofNanos` and `Time.new` cut off the seconds and keep the nanoseconds that are
    left over; `Time.ofNanos` gives the last point instead.  `cut_le_cut_iff` says when seconds cut
    off at two ends, with nanoseconds beside them, stay in order;
  * `Duration.ofNanos_le_iff`: spans of counts in order are in order, unless the seconds of both
    stand at one end and the nanoseconds left over go the other way.  A difference of points in
    time is such a span (`Time.spans_ordered_iff`);
  * `Time.secs_new` and `Time.nsecs_new` are what `Time.new` makes of two words, beside
    `Time.secs_ofNanos` and `Time.nsecs_ofNanos` for a count.  They make the same point of the same
    count, unless the seconds are cut off and the nanoseconds are not the last
    (`Time.constructors_agree_iff`).
-/
import BagFile.Proofs.Reckoning

namespace BagFile

/-- Seconds that are kept between two ends, with nanoseconds that are kept as they are: order is
    lost only where both seconds stand at the same end. -/
theorem cut_le_cut_iff {lo hi q q' r r' : Int} (hends : lo < hi) (hq : q ≤ q')
    (hr : q = q' → r ≤ r') :
    (max lo (min q hi) < max lo (min q' hi) ∨
      max lo (min q hi) = max lo (min q' hi) ∧ r ≤ r') ↔ (hi ≤ q ∨ q' ≤ lo → r ≤ r') := by
  by_cases hend : hi ≤ q ∨ q' ≤ lo
  · have heq : max lo (min q hi) = max lo (min q' hi) := by omega
    simp [hend, heq]
  · -- the seconds of neither are moved past those of the other
    have hcut : q < q' → max lo (min q hi) < max lo (min q' hi) := by omega
    rcases Int.lt_or_eq_of_le hq with hlt | heq
    · simp [hend, hcut hlt]
    · simp [heq, hr heq]

/-! ## Spans of time -/

namespace Duration

/-- Spans are compared by seconds, and by nanoseconds within one second. -/
theorem le_iff {a b : Duration} : a ≤ b ↔ a.secs.toInt < b.secs.toInt ∨
    a.secs.toInt = b.secs.toInt ∧ a.nsecs.toInt ≤ b.nsecs.toInt := by
  have ha := a.nsecs.le_toInt
  have ha' := a.nsecs.toInt_lt
  have hb := b.nsecs.le_toInt
  have hb' := b.nsecs.toInt_lt
  change a.rank ≤ b.rank ↔ _
  rw [rank, rank]
  omega

/-- Within one second counts are in the order of what is left over. -/
theorem tmod_le_tmod {m n : Int} (h : m ≤ n) (hsecs : m.tdiv nanosPerSec = n.tdiv nanosPerSec) :
    m.tmod nanosPerSec ≤ n.tmod nanosPerSec := by
  have hm := Int.tdiv_mul_add_tmod m nanosPerSec
  have hn := Int.tdiv_mul_add_tmod n nanosPerSec
  rw [hsecs] at hm
  omega

/-- The seconds of `m` are at the upper end or beyond, or those of `n` at the lower one: with
    `m ≤ n`, nothing but the nanoseconds tells their spans apart. -/
def AtOneEnd (m n : Int) : Prop :=
  2 ^ 31 - 1 ≤ m.tdiv nanosPerSec ∨ n.tdiv nanosPerSec ≤ -2 ^ 31

/-- How far the spans `d` and `e` of the counts `m` and `n` are in order. -/
structure Ordered (m n : Int) (d e : Duration) : Prop where
  secs : d.secs ≤ e.secs
  le_iff : d ≤ e ↔ (AtOneEnd m n → m.tmod nanosPerSec ≤ n.tmod nanosPerSec)
  fits : Fits m → Fits n → d ≤ e

variable {m n : Int64}

theorem secs_ofNanos_mono (h : m ≤ n) : (ofNanos m).secs ≤ (ofNanos n).secs := by
  have hdiv := Int.tdiv_le_tdiv (c := nanosPerSec) (by decide) (Int64.le_iff_toInt_le.1 h)
  rw [Int32.le_iff_toInt_le, secs_ofNanos, secs_ofNanos]
  omega

/-- **Spans of counts in order are in order**, unless the seconds of both stand at one end and the
    nanoseconds left over go the other way. -/
theorem ofNanos_le_iff (h : m ≤ n) : ofNanos m ≤ ofNanos n ↔ (AtOneEnd m.toInt n.toInt →
    m.toInt.tmod nanosPerSec ≤ n.toInt.tmod nanosPerSec) := by
  have hle : m.toInt ≤ n.toInt := Int64.le_iff_toInt_le.1 h
  rw [le_iff, secs_ofNanos, secs_ofNanos, nsecs_ofNanos, nsecs_ofNanos]
  exact cut_le_cut_iff (by decide) (Int.tdiv_le_tdiv (by decide) hle) (tmod_le_tmod hle)

/-- Where the seconds of both fit, they stand at one end only if they are the same. -/
theorem ofNanos_le_of_fits (h : m ≤ n) (hm : Fits m.toInt) (hn : Fits n.toInt) :
    ofNanos m ≤ ofNanos n := by
  have hle : m.toInt ≤ n.toInt := Int64.le_iff_toInt_le.1 h
  have hdiv := Int.tdiv_le_tdiv (c := nanosPerSec) (by decide) hle
  rw [ofNanos_le_iff h]
  intro hend
  refine tmod_le_tmod hle ?_
  simp only [AtOneEnd, Fits] at hend hm hn
  omega

theorem ordered_ofNanos (h : m ≤ n) : Ordered m.toInt n.toInt (ofNanos m) (ofNanos n) :=
  ⟨secs_ofNanos_mono h, ofNanos_le_iff h, ofNanos_le_of_fits h⟩

end Duration

/-! ## Differences -/

namespace Time

/-- Normal points in time are in the order of their counts. -/
theorem Normal.le_iff {a b : Time} (ha : a.Normal) (hb : b.Normal) :
    a ≤ b ↔ a.count ≤ b.count := by
  rw [le_iff_not_lt, hb.lt_iff ha, Nat.not_lt]

theorem ordered_sub {a b : Time} (h : a.count ≤ b.count) (c : Time) :
    Duration.Ordered (a.count - c.count) (b.count - c.count) (a - c) (b - c) := by
  have hle : a.nanos.toInt64 - c.nanos.toInt64 ≤ b.nanos.toInt64 - c.nanos.toInt64 := by
    rw [Int64.le_iff_toInt_le, toInt_sub, toInt_sub]
    omega
  rw [← toInt_sub, ← toInt_sub]
  exact Duration.ordered_ofNanos hle

/-- **Spans are in order as far as their seconds are not cut off.**  Of counts in order, and of
    differences to one point from normal points in order: the seconds never go back; the spans are
    in order if the seconds of both fit, and in general exactly if the seconds of both do not stand
    at one end with the nanoseconds left over the other way. -/
theorem spans_ordered_iff {m n : Int64} (hmn : m ≤ n) {a b : Time} (ha : a.Normal) (hb : b.Normal)
    (hab : a ≤ b) (c : Time) :
    Duration.Ordered m.toInt n.toInt (Duration.ofNanos m) (Duration.ofNanos n) ∧
    Duration.Ordered (a.count - c.count) (b.count - c.count) (a - c) (b - c) :=
  ⟨Duration.ordered_ofNanos hmn, ordered_sub ((ha.le_iff hb).1 hab) c⟩

/-- The last nanosecond whose seconds fit, and the one after it. -/
theorem spans_ordered_iff_limit :
    ((2147483647999999999 : Int64) ≤ 2147483648000000000 ∧
      Normal ⟨2147483647, 999999999⟩ ∧ Normal ⟨2147483648, 0⟩ ∧
      (⟨2147483647, 999999999⟩ : Time) ≤ ⟨2147483648, 0⟩) ∧
    Duration.Ordered (2147483647999999999 : Int64).toInt (2147483648000000000 : Int64).toInt
      (Duration.ofNanos 2147483647999999999) (Duration.ofNanos 2147483648000000000) ∧
    Duration.Ordered ((⟨2147483647, 999999999⟩ : Time).count - zero.count)
      ((⟨2147483648, 0⟩ : Time).count - zero.count)
      ((⟨2147483647, 999999999⟩ : Time) - zero) ((⟨2147483648, 0⟩ : Time) - zero) :=
  ⟨by decide, spans_ordered_iff (by decide) (by decide) (by decide) (by decide) zero⟩

/-- One nanosecond more makes the span shorter by almost a second. -/
theorem spans_out_of_order :
    (¬∀ m n : Int64, m ≤ n → Duration.ofNanos m ≤ Duration.ofNanos n) ∧
    ¬∀ a b c : Time, a.Normal → b.Normal → c.Normal → a ≤ b → a - c ≤ b - c := by
  constructor
  · intro h
    exact absurd (h 2147483647999999999 2147483648000000000 (by decide)) (by decide)
  · intro h
    exact absurd (h ⟨2147483647, 999999999⟩ ⟨2147483648, 0⟩ zero (by decide) (by decide)
      (by decide) (by decide)) (by decide)

/-! ## The two constructors -/

/-- Seconds and nanoseconds as one count. -/
def given (secs nsecs : UInt32) : UInt64 := secs.toUInt64 * 1000000000 + nsecs.toUInt64

/-- That count fits a word. -/
theorem toNat_given (secs nsecs : UInt32) :
    (given secs nsecs).toNat = secs.toNat * nanosPerSec + nsecs.toNat :=
  toNat_nanos ⟨secs, nsecs⟩

/-- Seconds with those among the nanoseconds carried over. -/
def carried (secs nsecs : UInt32) : Nat := secs.toNat + nsecs.toNat / nanosPerSec

/-- The nanoseconds that are left over. -/
def leftOver (nsecs : UInt32) : Nat := nsecs.toNat % nanosPerSec

theorem given_div (secs nsecs : UInt32) :
    (given secs nsecs).toNat / nanosPerSec = carried secs nsecs := by
  rw [toNat_given, carried, nanosPerSec]
  omega

theorem given_mod (secs nsecs : UInt32) :
    (given secs nsecs).toNat % nanosPerSec = leftOver nsecs := by
  rw [toNat_given, leftOver, Nat.mul_add_mod_self_right]

theorem secs_new (secs nsecs : UInt32) :
    (new secs nsecs).secs.toNat = min (carried secs nsecs) 4294967295 :=
  UInt32.toNat_ofNat_of_lt' (Nat.lt_of_le_of_lt (Nat.min_le_right _ _) (by decide))

theorem nsecs_new (secs nsecs : UInt32) : (new secs nsecs).nsecs.toNat = leftOver nsecs :=
  UInt32.toNat_ofNat_of_lt' (Nat.lt_trans (Nat.mod_lt _ (by decide)) (by decide))

theorem normal_new (secs nsecs : UInt32) : (new secs nsecs).Normal := by
  rw [Normal, nsecs_new]
  exact Nat.mod_lt _ (by decide)

theorem secs_ofNanos (n : UInt64) :
    (ofNanos n).secs.toNat = min (n.toNat / nanosPerSec) 4294967295 := by
  by_cases h : n.toNat / nanosPerSec ≤ 4294967295
  · rw [(ofNanos_of_le h).1, Nat.min_eq_left h]
  · rw [ofNanos_of_lt (Nat.not_le.1 h), Nat.min_eq_right (Nat.le_of_not_le h)]
    rfl

theorem nsecs_ofNanos (n : UInt64) : (ofNanos n).nsecs.toNat =
    if n.toNat / nanosPerSec ≤ 4294967295 then n.toNat % nanosPerSec else 999999999 := by
  split
  · next h => exact (ofNanos_of_le h).2
  · next h =>
    rw [ofNanos_of_lt (Nat.not_le.1 h)]
    rfl

/-- Both constructors carry whole seconds over, and cut them off at the same end. -/
theorem secs_new_eq (secs nsecs : UInt32) :
    (new secs nsecs).secs = (ofNanos (given secs nsecs)).secs := by
  rw [← UInt32.toNat_inj, secs_new, secs_ofNanos, given_div]

/-- They make one point of it, unless the seconds are cut off without the last nanosecond. -/
theorem new_eq_ofNanos_iff (secs nsecs : UInt32) : new secs nsecs = ofNanos (given secs nsecs) ↔
    carried secs nsecs ≤ 4294967295 ∨ leftOver nsecs = 999999999 := by
  have hnsecs : new secs nsecs = ofNanos (given secs nsecs) ↔
      (new secs nsecs).nsecs = (ofNanos (given secs nsecs)).nsecs := by
    constructor
    · intro h
      rw [h]
    · intro h
      have hsecs := secs_new_eq secs nsecs
      cases hn : new secs nsecs
      cases ho : ofNanos (given secs nsecs)
      simp_all
  rw [hnsecs, ← UInt32.toNat_inj, nsecs_new, nsecs_ofNanos, given_div, given_mod]
  split <;> simp_all

/-- Points in time are compared by seconds, and by nanoseconds within one second. -/
theorem le_iff {a b : Time} : a ≤ b ↔ a.secs.toNat < b.secs.toNat ∨
    a.secs.toNat = b.secs.toNat ∧ a.nsecs.toNat ≤ b.nsecs.toNat := by
  rw [le_iff_not_lt, lt_iff, UInt32.lt_iff_toNat_lt, UInt32.lt_iff_toNat_lt, ← UInt32.toNat_inj]
  omega

section

variable {secs nsecs secs' nsecs' : UInt32}

theorem carried_le_carried (h : given secs nsecs ≤ given secs' nsecs') :
    carried secs nsecs ≤ carried secs' nsecs' := by
  rw [← given_div, ← given_div]
  exact Nat.div_le_div_right (UInt64.le_iff_toNat_le.1 h)

theorem leftOver_le_leftOver (h : given secs nsecs ≤ given secs' nsecs')
    (hsecs : carried secs nsecs = carried secs' nsecs') : leftOver nsecs ≤ leftOver nsecs' := by
  have hle := UInt64.le_iff_toNat_le.1 h
  rw [← Nat.div_add_mod (given secs nsecs).toNat nanosPerSec,
    ← Nat.div_add_mod (given secs' nsecs').toNat nanosPerSec, given_div, given_div, given_mod,
    given_mod, hsecs] at hle
  exact Nat.le_of_add_le_add_left hle

/-- **Points made of counts in order are in order**, unless the seconds of both stand at the end
    and the nanoseconds left over go the other way. -/
theorem new_le_new_iff (h : given secs nsecs ≤ given secs' nsecs') :
    new secs nsecs ≤ new secs' nsecs' ↔
      (4294967295 ≤ carried secs nsecs → leftOver nsecs ≤ leftOver nsecs') := by
  have hcarried : (carried secs nsecs : Int) ≤ carried secs' nsecs' :=
    Int.ofNat_le.2 (carried_le_carried h)
  have hleft (hsecs : (carried secs nsecs : Int) = carried secs' nsecs') :
      (leftOver nsecs : Int) ≤ leftOver nsecs' :=
    Int.ofNat_le.2 (leftOver_le_leftOver h (Int.ofNat_inj.1 hsecs))
  -- no seconds stand at the lower end, which is put below all of them
  have hends : (-1 : Int) < 4294967295 := by decide
  have hcut := cut_le_cut_iff hends hcarried hleft
  rw [le_iff, secs_new, secs_new, nsecs_new, nsecs_new]
  omega

end

/-- **When the two constructors agree.**  The count of all seconds and nanoseconds fits a word;
    both constructors give a normal point with the same seconds.  The points are the same exactly
    if the seconds with those carried over fit, or the nanoseconds left over are the last; and
    `Time.new` keeps the order of counts exactly if not both seconds stand at the end with the
    nanoseconds left over the other way. -/
theorem constructors_agree_iff (secs nsecs : UInt32) :
    (given secs nsecs).toNat = secs.toNat * nanosPerSec + nsecs.toNat ∧
    ((new secs nsecs).Normal ∧ (ofNanos (given secs nsecs)).Normal ∧
      (new secs nsecs).secs = (ofNanos (given secs nsecs)).secs) ∧
    (new secs nsecs = ofNanos (given secs nsecs) ↔
      carried secs nsecs ≤ 4294967295 ∨ leftOver nsecs = 999999999) ∧
    ∀ secs' nsecs', given secs nsecs ≤ given secs' nsecs' →
      (new secs nsecs ≤ new secs' nsecs' ↔
        (4294967295 ≤ carried secs nsecs → leftOver nsecs ≤ leftOver nsecs')) :=
  ⟨toNat_given secs nsecs,
    ⟨normal_new secs nsecs, normal_ofNanos _, secs_new_eq secs nsecs⟩,
    new_eq_ofNanos_iff secs nsecs, fun _ _ h => new_le_new_iff h⟩

/-- The last point, and the nanosecond after it. -/
theorem constructors_agree_iff_last :
    given 4294967295 999999999 ≤ given 4294967295 1000000000 ∧
      (new 4294967295 999999999 ≤ new 4294967295 1000000000 ↔
        (4294967295 ≤ carried 4294967295 999999999 →
          leftOver 999999999 ≤ leftOver 1000000000)) :=
  ⟨by decide, (constructors_agree_iff 4294967295 999999999).2.2.2 _ _ (by decide)⟩

/-- One nanosecond more makes the last point earlier by almost a second. -/
theorem constructors_disagree :
    (¬∀ secs nsecs, new secs nsecs = ofNanos (given secs nsecs)) ∧
    ¬∀ secs nsecs secs' nsecs', given secs nsecs ≤ given secs' nsecs' →
      new secs nsecs ≤ new secs' nsecs' := by
  constructor
  · intro h
    exact absurd (h 4294967295 1000000000) (by decide)
  · intro h
    exact absurd (h 4294967295 999999999 4294967295 1000000000 (by decide)) (by decide)

end Time

end BagFile
