import Mathlib.Order.Monotone.Basic
import Mathlib.Tactic.Ring
import Shading.Binary64.Basic

/-!
# Rounding to the nearest number

The bits of a number that is not negative are a natural number, and the magnitudes in units
grow with it.  Between `2 ^ d` times `2 ^ 52` and `2 ^ d` times `2 ^ 53` the magnitudes are
the multiples of `2 ^ d`, so that the bits of `q * 2 ^ d` are `d * 2 ^ 52 + q`, also for
`q = 2 ^ 53`, where the next range starts.

* `rounded_eq`: the bits to which a count of units rounds, from its quotient by `2 ^ d`.
* `IsNearest`: the number nearest to a natural number, said without bits or quotients.
* `isNearest_iff`: there is exactly one such number, and `ofNat` gives it.
-/

namespace Shading.Binary64

/-! ## Magnitudes by bits -/

/-- The magnitude, in units, of the number with these bits, for bits without a sign and for larger
ones in the same way. -/
def magnitude (bits : Nat) : Nat :=
  if bits < hiddenBit then bits
  else (hiddenBit + bits % hiddenBit) * 2 ^ (bits / hiddenBit - 1)

theorem hiddenBit_eq : hiddenBit = 4503599627370496 := rfl

theorem infinityBits_eq : infinityBits = 9218868437227405312 := rfl

/-- A significand and the number of bits dropped behind it. -/
structure Scaled (d q : Nat) : Prop where
  normal : d = 0 ∨ hiddenBit ≤ q
  lt : q < 2 * hiddenBit

theorem exists_scaled (bits : Nat) : ∃ d q, bits = d * hiddenBit + q ∧ Scaled d q := by
  by_cases hsmall : bits < hiddenBit
  · exact ⟨0, bits, by simp, .inl rfl, by omega⟩
  · have hpositive : 0 < bits / hiddenBit := Nat.div_pos (by omega) (by decide)
    have hmod : bits % hiddenBit < hiddenBit := Nat.mod_lt _ (by decide)
    refine ⟨bits / hiddenBit - 1, hiddenBit + bits % hiddenBit, ?_, .inr (by omega), by omega⟩
    rw [hiddenBit_eq] at *
    omega

/-- The end of a range of significands is the start of the next. -/
theorem magnitude_of_le {d q : Nat} (hnormal : d = 0 ∨ hiddenBit ≤ q) (hq : q ≤ 2 * hiddenBit) :
    magnitude (d * hiddenBit + q) = q * 2 ^ d := by
  by_cases hsmall : d * hiddenBit + q < hiddenBit
  · obtain rfl : d = 0 := by
      rw [hiddenBit_eq] at *
      omega
    rw [magnitude, if_pos hsmall]
    simp
  rw [magnitude, if_neg hsmall]
  rcases Nat.lt_or_eq_of_le hq with hlt | rfl
  · have hge : hiddenBit ≤ q := by
      rw [hiddenBit_eq] at *
      omega
    have hdiv : (d * hiddenBit + q) / hiddenBit = d + 1 := by
      rw [hiddenBit_eq] at *
      omega
    have hmod : (d * hiddenBit + q) % hiddenBit = q - hiddenBit := by
      rw [hiddenBit_eq] at *
      omega
    rw [hdiv, hmod, Nat.add_sub_cancel, Nat.add_sub_cancel' hge]
  · have hdiv : (d * hiddenBit + 2 * hiddenBit) / hiddenBit = d + 2 := by
      rw [hiddenBit_eq]
      omega
    have hmod : (d * hiddenBit + 2 * hiddenBit) % hiddenBit = 0 := by
      rw [hiddenBit_eq]
      omega
    rw [hdiv, hmod, show d + 2 - 1 = d + 1 by omega]
    ring

theorem magnitude_scaled {d q : Nat} (h : Scaled d q) :
    magnitude (d * hiddenBit + q) = q * 2 ^ d :=
  magnitude_of_le h.normal (Nat.le_of_lt h.lt)

theorem magnitude_succ {d q : Nat} (h : Scaled d q) :
    magnitude (d * hiddenBit + q + 1) = (q + 1) * 2 ^ d := by
  rw [Nat.add_assoc]
  exact magnitude_of_le (h.normal.imp_right fun hge => by omega) h.lt

theorem strictMono_magnitude : StrictMono magnitude := by
  refine strictMono_nat_of_lt_succ fun bits => ?_
  obtain ⟨d, q, rfl, h⟩ := exists_scaled bits
  rw [magnitude_scaled h, magnitude_succ h]
  exact Nat.mul_lt_mul_of_pos_right (Nat.lt_succ_self q) (Nat.two_pow_pos d)

/-! ## Rounding a count of units -/

/-- The bits to which a count of units rounds, if there were no largest number. -/
def rounded (units : Nat) : Nat :=
  (units.log2 - 52) * hiddenBit + nearestEven units (2 ^ (units.log2 - 52))

theorem nearestBits_one (units : Nat) : nearestBits units 1 = min (rounded units) infinityBits := by
  rw [nearestBits, Nat.div_one, Nat.one_mul]
  rfl

theorem two_pow_hiddenBit (d : Nat) : 2 ^ (d + 52) = hiddenBit * 2 ^ d := by
  rw [Nat.pow_add, Nat.mul_comm]
  rfl

/-- The number of bits to be dropped is that which leaves a significand. -/
theorem log2_sub_eq {d q r : Nat} (h : Scaled d q) (hr : r < 2 ^ d) :
    (q * 2 ^ d + r).log2 - 52 = d := by
  by_cases hzero : q * 2 ^ d + r = 0
  · have hd : d = 0 := by
      refine h.normal.resolve_right fun hge => ?_
      have hq : q = 0 := by simpa using (Nat.add_eq_zero_iff.mp hzero).1
      rw [hiddenBit_eq] at hge
      omega
    rw [hzero, hd]
    rfl
  have hupper : (q * 2 ^ d + r).log2 < d + 53 := by
    rw [Nat.log2_lt hzero]
    calc q * 2 ^ d + r < (q + 1) * 2 ^ d := by
          rw [Nat.add_mul, Nat.one_mul]
          omega
      _ ≤ 2 * hiddenBit * 2 ^ d := Nat.mul_le_mul_right _ h.lt
      _ = 2 ^ (d + 53) := by
          rw [Nat.mul_assoc, ← two_pow_hiddenBit]
          ring
  rcases h.normal with rfl | hge
  · omega
  · have hlower : d + 52 ≤ (q * 2 ^ d + r).log2 := by
      rw [Nat.le_log2 hzero, two_pow_hiddenBit]
      exact Nat.le_add_right_of_le (Nat.mul_le_mul_right _ hge)
    omega

/-- Every count of units is a significand with bits dropped behind it. -/
theorem exists_quotient (units : Nat) :
    ∃ d q r, units = q * 2 ^ d + r ∧ r < 2 ^ d ∧ Scaled d q := by
  let d := units.log2 - 52
  have hpositive : 0 < 2 ^ d := Nat.two_pow_pos d
  refine ⟨d, units / 2 ^ d, units % 2 ^ d, (Nat.div_add_mod' units (2 ^ d)).symm,
    Nat.mod_lt _ hpositive, ?_, ?_⟩
  · by_cases hd : d = 0
    · exact .inl hd
    · have hlog : d + 52 = units.log2 := by omega
      have hne : units ≠ 0 := by
        rintro rfl
        exact hd rfl
      refine .inr ((Nat.le_div_iff_mul_le hpositive).mpr ?_)
      rw [← two_pow_hiddenBit, hlog]
      exact Nat.log2_self_le hne
  · rw [Nat.div_lt_iff_lt_mul hpositive, Nat.mul_assoc, ← two_pow_hiddenBit, ← Nat.pow_succ']
    refine Nat.lt_of_lt_of_le Nat.lt_log2_self (Nat.pow_le_pow_right (by decide) ?_)
    omega

/-- More bits are dropped behind a larger count of units. -/
theorem dropped_le_iff {d q r : Nat} (h : Scaled d q) (hr : r < 2 ^ d) {t : Nat} :
    d ≤ t ↔ q * 2 ^ d + r < 2 * hiddenBit * 2 ^ t := by
  constructor
  · intro hle
    calc q * 2 ^ d + r < (q + 1) * 2 ^ d := by
          rw [Nat.add_mul, Nat.one_mul]
          omega
      _ ≤ 2 * hiddenBit * 2 ^ t := Nat.mul_le_mul h.lt (Nat.pow_le_pow_right (by decide) hle)
  · intro hlt
    by_contra! hdropped
    have hge : hiddenBit ≤ q := h.normal.resolve_left (by omega)
    have hpow : hiddenBit * 2 ^ (t + 1) ≤ q * 2 ^ d :=
      Nat.mul_le_mul hge (Nat.pow_le_pow_right (by decide) hdropped)
    rw [Nat.pow_succ', ← Nat.mul_assoc, Nat.mul_comm hiddenBit] at hpow
    omega

/-- A remainder is rounded up if it is more than half, or half behind an odd significand. -/
theorem rounded_eq {d q r : Nat} (h : Scaled d q) (hr : r < 2 ^ d) :
    rounded (q * 2 ^ d + r) = d * hiddenBit +
      if 2 ^ d < 2 * r ∨ (2 ^ d = 2 * r ∧ q % 2 = 1) then q + 1 else q := by
  have hdiv : (q * 2 ^ d + r) / 2 ^ d = q := by
    rw [Nat.add_comm, Nat.add_mul_div_right _ _ (Nat.two_pow_pos d), Nat.div_eq_of_lt hr,
      Nat.zero_add]
  have hmod : (q * 2 ^ d + r) % 2 ^ d = r := by
    rw [Nat.add_comm, Nat.add_mul_mod_self_right, Nat.mod_eq_of_lt hr]
  rw [rounded, log2_sub_eq h hr, nearestEven, hdiv, hmod]

/-- A remainder of less than half is dropped. -/
theorem rounded_of_lt {d q r : Nat} (h : Scaled d q) (hr : 2 * r < 2 ^ d) :
    rounded (q * 2 ^ d + r) = d * hiddenBit + q := by
  rw [rounded_eq h (by omega), if_neg (by omega)]

/-- A magnitude rounds to its own bits. -/
theorem rounded_magnitude (bits : Nat) : rounded (magnitude bits) = bits := by
  obtain ⟨d, q, rfl, h⟩ := exists_scaled bits
  rw [magnitude_scaled h, ← Nat.add_zero (q * 2 ^ d)]
  exact rounded_of_lt h (Nat.two_pow_pos d)

/-- Doubling a count of units of full precision adds to the exponent only. -/
theorem rounded_mul_two_pow {units : Nat} (h : hiddenBit ≤ units) (j : Nat) :
    rounded (units * 2 ^ j) = rounded units + j * hiddenBit := by
  obtain ⟨d, q, r, rfl, hr, hscaled⟩ := exists_quotient units
  have hge : hiddenBit ≤ q := by
    refine hscaled.normal.elim (fun hd => ?_) id
    subst hd
    simp only [Nat.pow_zero, Nat.mul_one] at h hr
    omega
  have hshifted : Scaled (d + j) q := ⟨.inr hge, hscaled.lt⟩
  have hr' : r * 2 ^ j < 2 ^ (d + j) := by
    rw [Nat.pow_add]
    exact Nat.mul_lt_mul_of_pos_right hr (Nat.two_pow_pos j)
  have hless : 2 ^ (d + j) < 2 * (r * 2 ^ j) ↔ 2 ^ d < 2 * r := by
    rw [Nat.pow_add, ← Nat.mul_assoc, Nat.mul_lt_mul_right (Nat.two_pow_pos j)]
  have hhalf : 2 ^ (d + j) = 2 * (r * 2 ^ j) ↔ 2 ^ d = 2 * r := by
    rw [Nat.pow_add, ← Nat.mul_assoc, Nat.mul_left_inj (Nat.two_pow_pos j).ne']
  have hsplit : (q * 2 ^ d + r) * 2 ^ j = q * 2 ^ (d + j) + r * 2 ^ j := by ring
  rw [hsplit, rounded_eq hshifted hr', rounded_eq hscaled hr]
  simp only [hless, hhalf]
  ring

/-! ## Distances -/

/-- How far the magnitude of some bits is from a count of units. -/
def gap (bits units : Nat) : Nat :=
  (magnitude bits - units : Int).natAbs

/-- No magnitude is nearer than that of the rounded bits, and no other is as near unless the rounded
bits are even. -/
theorem gap_rounded (units bits : Nat) :
    gap (rounded units) units ≤ gap bits units ∧
      (gap bits units = gap (rounded units) units →
        bits = rounded units ∨ rounded units % 2 = 0) := by
  obtain ⟨d, q, r, rfl, hr, h⟩ := exists_quotient units
  have hfloor := magnitude_scaled h
  have hceiling : magnitude (d * hiddenBit + q + 1) = q * 2 ^ d + 2 ^ d := by
    rw [magnitude_succ h]
    ring
  have hparity : (d * hiddenBit + q) % 2 = q % 2 := by
    rw [hiddenBit_eq]
    omega
  -- The bits are those of the quotient or the next ones, or their magnitude is farther away.
  have hcases : magnitude bits < q * 2 ^ d ∨ bits = d * hiddenBit + q ∨
      bits = d * hiddenBit + q + 1 ∨ q * 2 ^ d + 2 ^ d < magnitude bits := by
    rw [← hceiling, ← hfloor, strictMono_magnitude.lt_iff_lt, strictMono_magnitude.lt_iff_lt]
    omega
  rw [rounded_eq h hr]
  unfold gap
  split
  next hup =>
    rw [← Nat.add_assoc, hceiling]
    generalize q * 2 ^ d = floor at *
    generalize 2 ^ d = step at *
    rcases hcases with hlt | rfl | rfl | hlt <;> omega
  next hdown =>
    rw [hfloor]
    generalize q * 2 ^ d = floor at *
    generalize 2 ^ d = step at *
    rcases hcases with hlt | rfl | rfl | hlt <;> omega

/-- What rounds beyond infinity is beyond it. -/
theorem magnitude_infinityBits_le {units : Nat} (h : infinityBits < rounded units) :
    magnitude infinityBits ≤ units := by
  have hlt := strictMono_magnitude h
  obtain ⟨hnearest, -⟩ := gap_rounded units infinityBits
  unfold gap at hnearest
  omega

/-- Up to infinity, no magnitude is nearer than that of the rounded bits or infinity. -/
theorem gap_clamped (units : Nat) {bits : Nat} (hbits : bits ≤ infinityBits) :
    let clamped := min (rounded units) infinityBits
    gap clamped units ≤ gap bits units ∧
      (gap bits units = gap clamped units → bits = clamped ∨ clamped % 2 = 0) := by
  intro clamped
  rcases Nat.lt_or_ge infinityBits (rounded units) with hlt | hle
  · have hclamped : clamped = infinityBits := Nat.min_eq_right (Nat.le_of_lt hlt)
    have hunits := magnitude_infinityBits_le hlt
    have hmono := strictMono_magnitude.monotone hbits
    rw [hclamped]
    unfold gap
    refine ⟨by omega, fun hsame => .inl ?_⟩
    exact strictMono_magnitude.injective (by omega)
  · have hclamped : clamped = rounded units := Nat.min_eq_left hle
    rw [hclamped]
    exact gap_rounded units bits

/-- Of two magnitudes that are equally far, the lower is farther than the next above it, unless that
is the other one. -/
theorem gap_between {units low high : Nat} (hlt : low + 1 < high)
    (hsame : gap high units = gap low units) : gap (low + 1) units < gap low units := by
  have habove : magnitude low < magnitude (low + 1) := strictMono_magnitude (Nat.lt_succ_self low)
  have hbelow := strictMono_magnitude hlt
  unfold gap at *
  omega

/-- Two magnitudes of even bits are not both nearest: there is one between them. -/
theorem eq_of_nearest {units first second : Nat}
    (hfirst : ∀ bits ≤ infinityBits, gap first units ≤ gap bits units)
    (hsecond : gap second units = gap first units) (hle : first ≤ infinityBits)
    (hle' : second ≤ infinityBits) (heven : first % 2 = 0) (heven' : second % 2 = 0) :
    first = second := by
  rcases Nat.lt_trichotomy first second with hlt | heq | hlt
  · have hnearer := gap_between (show first + 1 < second by omega) hsecond
    have hnearest := hfirst (first + 1) (by omega)
    omega
  · exact heq
  · have hnearer := gap_between (show second + 1 < first by omega) hsecond.symm
    have hnearest := hfirst (second + 1) (by omega)
    omega

/-! ## Numbers that are not negative -/

/-- The number with these bits. -/
def ofBits (bits : Nat) : Binary64 :=
  ⟨UInt64.ofNat bits⟩

theorem toNat_ofBits {bits : Nat} (h : bits ≤ infinityBits) : (ofBits bits).bits.toNat = bits := by
  rw [infinityBits_eq] at h
  exact UInt64.toNat_ofNat_of_lt' (by rw [UInt64.size]; omega)

theorem eq_of_toNat_bits {x y : Binary64} (h : x.bits.toNat = y.bits.toNat) : x = y := by
  cases x
  cases y
  exact congrArg mk (UInt64.toNat_inj.mp h)

theorem ofUnits_eq (num den : Nat) : ofUnits num den = ofBits (nearestBits num den) := rfl

/-- The bits up to those of infinity are those of the numbers without a sign. -/
theorem le_infinityBits_iff {x : Binary64} :
    x.bits.toNat ≤ infinityBits ↔ x.isNegative = false ∧ x.isNaN = false := by
  have hlt := UInt64.toNat_lt x.bits
  have hsign : x.isNegative = false ↔ x.bits.toNat < 9223372036854775808 := by
    simp [isNegative]
  have hnan : x.isNaN = false ↔
      (x.bits.toNat / 4503599627370496 % 2048 = 2047 → x.bits.toNat % 4503599627370496 = 0) := by
    simp [isNaN, exponentField, fractionField, hiddenBit_eq]
  rw [hsign, hnan, infinityBits_eq]
  omega

/-- The fields of a number without a sign, from its bits. -/
theorem fields_of_le {x : Binary64} (h : x.bits.toNat ≤ infinityBits) :
    x.units = magnitude x.bits.toNat ∧ x.significand % 2 = x.bits.toNat % 2 := by
  have hfield : x.exponentField = x.bits.toNat / hiddenBit := by
    rw [infinityBits_eq] at h
    rw [exponentField, hiddenBit_eq]
    omega
  have hzero : x.exponentField = 0 ↔ x.bits.toNat < hiddenBit := by
    rw [hfield, hiddenBit_eq]
    omega
  by_cases hsmall : x.bits.toNat < hiddenBit
  · have hsignificand : x.significand = x.bits.toNat := by
      rw [significand, if_pos (hzero.mpr hsmall), fractionField, Nat.mod_eq_of_lt hsmall]
    have hscale : x.scale = 0 := by rw [scale, hzero.mpr hsmall]
    rw [units, hsignificand, hscale, magnitude, if_pos hsmall]
    exact ⟨Nat.mul_one _, rfl⟩
  · have hsignificand : x.significand = hiddenBit + x.bits.toNat % hiddenBit := by
      rw [significand, if_neg fun hz => hsmall (hzero.mp hz), fractionField]
    rw [units, hsignificand, scale, hfield, magnitude, if_neg hsmall]
    refine ⟨rfl, ?_⟩
    rw [hiddenBit_eq]
    omega

/-! ## The nearest number -/

/-- The distance between a number that is not negative and a natural number, in units; infinity
stands for `2 ^ 1024`. -/
def distance (x : Binary64) (n : Nat) : Nat :=
  (x.units - (n * unitsInOne : Nat) : Int).natAbs

/-- The number nearest to a natural number, a tie going to the even significand. -/
structure IsNearest (n : Nat) (x : Binary64) : Prop where
  isNegative : x.isNegative = false
  isNaN : x.isNaN = false
  nearest : ∀ y : Binary64, y.isNegative = false → y.isNaN = false → x.distance n ≤ y.distance n
  even : ∀ y : Binary64, y.isNegative = false → y.isNaN = false → y ≠ x →
    y.distance n = x.distance n → x.significand % 2 = 0

theorem distance_of_le {x : Binary64} (h : x.bits.toNat ≤ infinityBits) (n : Nat) :
    x.distance n = gap x.bits.toNat (n * unitsInOne) := by
  rw [distance, (fields_of_le h).1, gap]

/-- The number that a natural number is taken to, and its bits. -/
theorem ofNat_eq (n : Nat) :
    ofNat n = ofBits (min (rounded (n * unitsInOne)) infinityBits) := by
  rw [ofNat, ofUnits_eq, nearestBits_one]

theorem toNat_bits_ofNat (n : Nat) :
    (ofNat n).bits.toNat = min (rounded (n * unitsInOne)) infinityBits := by
  rw [ofNat_eq, toNat_ofBits (Nat.min_le_right _ _)]

theorem isNearest_ofNat (n : Nat) : IsNearest n (ofNat n) := by
  have hbits := toNat_bits_ofNat n
  have hle : (ofNat n).bits.toNat ≤ infinityBits := hbits.trans_le (Nat.min_le_right _ _)
  obtain ⟨hnegative, hnan⟩ := le_infinityBits_iff.mp hle
  refine ⟨hnegative, hnan, fun y hy hy' => ?_, fun y hy hy' hne hsame => ?_⟩
  · have hley := le_infinityBits_iff.mpr ⟨hy, hy'⟩
    rw [distance_of_le hle, distance_of_le hley, hbits]
    exact (gap_clamped (n * unitsInOne) hley).1
  · have hley := le_infinityBits_iff.mpr ⟨hy, hy'⟩
    rw [distance_of_le hle, distance_of_le hley, hbits] at hsame
    rw [(fields_of_le hle).2, hbits]
    refine ((gap_clamped (n * unitsInOne) hley).2 hsame).resolve_left fun heq => hne ?_
    exact eq_of_toNat_bits (heq.trans hbits.symm)

/-- There is exactly one nearest number. -/
theorem isNearest_iff {n : Nat} {x : Binary64} : IsNearest n x ↔ x = ofNat n := by
  constructor
  swap
  · rintro rfl
    exact isNearest_ofNat n
  intro h
  by_contra hne
  have hother := isNearest_ofNat n
  have hle := le_infinityBits_iff.mpr ⟨h.isNegative, h.isNaN⟩
  have hle' := le_infinityBits_iff.mpr ⟨hother.isNegative, hother.isNaN⟩
  have hsame : (ofNat n).distance n = x.distance n :=
    Nat.le_antisymm (hother.nearest x h.isNegative h.isNaN)
      (h.nearest _ hother.isNegative hother.isNaN)
  have heven := h.even _ hother.isNegative hother.isNaN (Ne.symm hne) hsame
  have heven' := hother.even x h.isNegative h.isNaN hne hsame.symm
  rw [(fields_of_le hle).2] at heven
  rw [(fields_of_le hle').2] at heven'
  rw [distance_of_le hle, distance_of_le hle'] at hsame
  have hbits : x.bits.toNat = (ofNat n).bits.toNat := by
    refine eq_of_nearest (fun bits hbits => ?_) hsame hle hle' heven heven'
    have hnumber : (ofBits bits).bits.toNat ≤ infinityBits := (toNat_ofBits hbits).trans_le hbits
    obtain ⟨hnegative, hnan⟩ := le_infinityBits_iff.mp hnumber
    have hnearest := h.nearest _ hnegative hnan
    rw [distance_of_le hle, distance_of_le hnumber, toNat_ofBits hbits] at hnearest
    exact hnearest
  exact hne (eq_of_toNat_bits hbits)

end Shading.Binary64
