import Shading.Proofs.Nearest
import Shading.Proofs.Token

/-!
# Integers that do not fit

An integer that its type cannot hold becomes a float.  A decimal one, and one below
`2 ^ 64`, is rounded once.  A longer hexadecimal one is read digit by digit, rounding at
each: up to the digit with which the number reaches `2 ^ 53` nothing is lost before the last
rounding, and from then on a digit is less than half of what the sum can resolve, so the
remaining digits only multiply by sixteen.  The number is read as if these digits were zero.

That is the nearest number but for one case: the digits up to there are halfway between two
numbers of which the lower is even, and a later digit, which should have tipped the scales,
is not zero.

* `read_exact`, `read_absorbed`: what reading a digit does before and after `2 ^ 53`.
* `foldHex_eq`: what reading all digits does.
* `rounded_cutShort`: when that makes a difference.
* `ofToken?_oversized`: every oversized integer.
-/

namespace Shading

namespace Binary64

/-! ## Exact numbers -/

-- The exponent is kept apart from its value, so that no power of this size is computed.
theorem exists_unitsInOne : ∃ s, s = 1074 ∧ unitsInOne = 2 ^ s := by
  unfold unitsInOne
  generalize 1074 = s
  exact ⟨s, rfl, rfl⟩

theorem unitsInOne_pos : 0 < unitsInOne := by
  obtain ⟨s, -, hone⟩ := exists_unitsInOne
  rw [hone]
  exact Nat.two_pow_pos s

theorem units_ofBits {bits : Nat} (h : bits ≤ infinityBits) :
    (ofBits bits).units = magnitude bits := by
  have hbits := toNat_ofBits h
  rw [(fields_of_le (hbits.trans_le h)).1, hbits]

/-- A number of at most fifty-three bits, scaled, is a magnitude. -/
theorem exists_magnitude {v : Nat} (hv : v < 2 * hiddenBit) {s : Nat} (hs : s ≤ 2045) :
    ∃ bits ≤ infinityBits, magnitude bits = v * 2 ^ s := by
  obtain ⟨d, q, r, hsplit, hr, h⟩ := exists_quotient (v * 2 ^ s)
  have hd : d ≤ s := by
    rw [dropped_le_iff h hr, ← hsplit]
    exact Nat.mul_lt_mul_of_pos_right hv (Nat.two_pow_pos s)
  obtain rfl : r = 0 := by
    have hdvd : 2 ^ d ∣ v * 2 ^ s := Dvd.dvd.mul_left (Nat.pow_dvd_pow 2 hd) v
    rw [hsplit, Nat.dvd_add_right (Nat.dvd_mul_left _ _)] at hdvd
    exact Nat.eq_zero_of_dvd_of_lt hdvd hr
  refine ⟨d * hiddenBit + q, ?_, ?_⟩
  · have hlt := h.lt
    rw [hiddenBit_eq] at hlt
    rw [hiddenBit_eq, infinityBits_eq]
    omega
  · rw [magnitude_scaled h, hsplit, Nat.add_zero]

/-- A number of at most fifty-three bits is kept exactly. -/
theorem units_ofUnits {v : Nat} (hv : v < 2 * hiddenBit) {s : Nat} (hs : s ≤ 2045) :
    (ofUnits (v * 2 ^ s) 1).units = v * 2 ^ s := by
  obtain ⟨bits, hle, hmagnitude⟩ := exists_magnitude hv hs
  rw [ofUnits_eq, nearestBits_one, ← hmagnitude, rounded_magnitude, Nat.min_eq_left hle,
    units_ofBits hle]

theorem units_ofNat {v : Nat} (hv : v < 2 * hiddenBit) : (ofNat v).units = v * unitsInOne := by
  obtain ⟨s, hs, hone⟩ := exists_unitsInOne
  rw [ofNat, hone]
  exact units_ofUnits hv (by omega)

/-! ## Reading a digit -/

/-- Numerator and denominator may have a factor in common. -/
theorem nearestBits_mul {den : Nat} (h : 0 < den) (units : Nat) :
    nearestBits (units * den) den = nearestBits units 1 := by
  have heven : ∀ step, nearestEven (units * den) (den * step) = nearestEven units step := by
    intro step
    have hless : den * step < 2 * (units % step * den) ↔ step < 2 * (units % step) := by
      rw [Nat.mul_comm den, ← Nat.mul_assoc, Nat.mul_lt_mul_right h]
    have hhalf : den * step = 2 * (units % step * den) ↔ step = 2 * (units % step) := by
      rw [Nat.mul_comm den, ← Nat.mul_assoc, Nat.mul_left_inj h.ne']
    simp only [nearestEven, ← hless, ← hhalf]
    rw [Nat.mul_comm den, Nat.mul_div_mul_right _ _ h, Nat.mul_mod_mul_right]
  simp only [nearestBits, Nat.mul_div_cancel _ h, heven, Nat.div_one, Nat.one_mul]

theorem mul_sixteen (x : Binary64) : x.mul (ofNat 16) = ofUnits (x.units * 2 ^ 4) 1 := by
  rw [mul, units_ofNat (by decide), ← Nat.mul_assoc, ofUnits_eq, nearestBits_mul unitsInOne_pos]
  rfl

/-- A digit is read exactly, with one rounding at the end, if the number before it has at most
fifty-three bits. -/
theorem read_exact {v c : Nat} (hv : v < 2 * hiddenBit) (hc : c < 16) :
    ((ofNat v).mul (ofNat 16)).add (ofNat c) = ofNat (v * 16 + c) := by
  have hproduct : ((ofNat v).mul (ofNat 16)).units = v * 16 * unitsInOne := by
    obtain ⟨s, hs, hone⟩ := exists_unitsInOne
    rw [mul_sixteen, units_ofNat hv, hone, Nat.mul_assoc, ← Nat.pow_add,
      units_ofUnits hv (by omega)]
    ring
  have hdigit : (ofNat c).units = c * unitsInOne :=
    units_ofNat (Nat.lt_trans hc (by decide))
  rw [add, hproduct, hdigit, ← Nat.add_mul, ofNat]

/-- The bits of a number of more than fifty-three bits. -/
theorem le_rounded {w : Nat} (hw : 2 * hiddenBit ≤ w) :
    1076 * hiddenBit ≤ rounded (w * unitsInOne) := by
  obtain ⟨s, hs, hone⟩ := exists_unitsInOne
  obtain ⟨d, q, r, hsplit, hr, h⟩ := exists_quotient (w * unitsInOne)
  have hd : s < d := by
    rw [← Nat.not_le, dropped_le_iff h hr, ← hsplit, hone, Nat.not_lt]
    exact Nat.mul_le_mul_right _ hw
  have hge : hiddenBit ≤ q := h.normal.resolve_left (by omega)
  rw [hsplit, rounded_eq h hr]
  rw [hiddenBit_eq] at *
  split <;> omega

/-- A digit is absorbed, if the number before it has more than fifty-three bits. -/
theorem read_absorbed {w c : Nat} (hw : 2 * hiddenBit ≤ w) (hc : c < 16) :
    ((ofNat w).mul (ofNat 16)).add (ofNat c) = ofNat (w * 16) := by
  let bits := min (rounded (w * unitsInOne)) infinityBits
  let product := min (bits + 4 * hiddenBit) infinityBits
  have hbits : 1076 * hiddenBit ≤ bits := Nat.le_min.mpr ⟨le_rounded hw, by decide⟩
  have hle : bits ≤ infinityBits := Nat.min_le_right _ _
  have hle' : product ≤ infinityBits := Nat.min_le_right _ _
  have hproduct : (ofNat w).mul (ofNat 16) = ofBits product := by
    have hlarge : hiddenBit ≤ magnitude bits :=
      strictMono_magnitude.monotone (show hiddenBit ≤ bits by omega)
    rw [mul_sixteen, ofNat_eq, units_ofBits hle, ofUnits_eq, nearestBits_one,
      rounded_mul_two_pow hlarge, rounded_magnitude]
  -- What is added is less than half of what the bits dropped behind the product are worth.
  have hsum : rounded (magnitude product + c * unitsInOne) = product := by
    obtain ⟨s, hs, hone⟩ := exists_unitsInOne
    obtain ⟨d, q, heq, h⟩ := exists_scaled product
    have hd : s + 5 ≤ d := by
      have hge : 1080 * hiddenBit ≤ product :=
        Nat.le_min.mpr ⟨by omega, by decide⟩
      have hlt := h.lt
      rw [hiddenBit_eq] at *
      omega
    have hhalf : 2 * (c * unitsInOne) < 2 ^ d := by
      calc 2 * (c * unitsInOne) = 2 * c * 2 ^ s := by rw [hone, Nat.mul_assoc]
        _ < 2 ^ 5 * 2 ^ s := Nat.mul_lt_mul_of_pos_right (by omega) (Nat.two_pow_pos s)
        _ = 2 ^ (s + 5) := by rw [Nat.pow_add, Nat.mul_comm]
        _ ≤ 2 ^ d := Nat.pow_le_pow_right (by decide) hd
    rw [heq, magnitude_scaled h]
    exact rounded_of_lt h hhalf
  have hwhole : rounded (w * 16 * unitsInOne) = rounded (w * unitsInOne) + 4 * hiddenBit := by
    have hlarge : hiddenBit ≤ w * unitsInOne :=
      Nat.le_trans (by omega) (Nat.le_mul_of_pos_right w unitsInOne_pos)
    rw [Nat.mul_right_comm]
    exact rounded_mul_two_pow hlarge 4
  have hdigit : (ofNat c).units = c * unitsInOne :=
    units_ofNat (Nat.lt_trans hc (by decide))
  have hclamped : min product infinityBits =
      min (rounded (w * unitsInOne) + 4 * hiddenBit) infinityBits := by
    have hmin : ∀ a b top : Nat, min (min (min a top + b) top) top = min (a + b) top := by omega
    exact hmin _ _ _
  rw [hproduct, add, units_ofBits hle', hdigit, ofUnits_eq, nearestBits_one, hsum, ofNat_eq, hwhole,
    hclamped]

/-! ## Reading all digits -/

/-- The number of hexadecimal digits that follow the one with which a number reaches `2 ^ 53`. -/
def spareDigits (n : Nat) : Nat :=
  (n.log2 - 53) / 4

/-- What the digits denote that are not spare. -/
def leading (n : Nat) : Nat :=
  n / 16 ^ spareDigits n

/-- A number with zeros for its spare digits. -/
def cutShort (n : Nat) : Nat :=
  leading n * 16 ^ spareDigits n

theorem le_log2 {n : Nat} (h : 2 * hiddenBit ≤ n) : 53 ≤ n.log2 := by
  rw [hiddenBit_eq] at h
  rw [Nat.le_log2 (by omega)]
  omega

theorem spareDigits_of_lt {n : Nat} (h : n < 32 * hiddenBit) : spareDigits n = 0 := by
  have hlog : n.log2 < 57 := by
    by_cases hzero : n = 0
    · subst hzero
      decide
    · rw [Nat.log2_lt hzero]
      exact h
  rw [spareDigits]
  omega

theorem cutShort_of_lt {n : Nat} (h : n < 32 * hiddenBit) : cutShort n = n := by
  rw [cutShort, leading, spareDigits_of_lt h, Nat.pow_zero, Nat.div_one, Nat.mul_one]

/-- If a number has more than fifty-three bits, its leading digits have as well. -/
theorem le_leading {n : Nat} (h : 2 * hiddenBit ≤ n) : 2 * hiddenBit ≤ leading n := by
  have hlog := le_log2 h
  rw [leading, Nat.le_div_iff_mul_le (Nat.pow_pos (by decide))]
  calc 2 * hiddenBit * 16 ^ spareDigits n = 2 ^ 53 * (2 ^ 4) ^ spareDigits n := rfl
    _ = 2 ^ (53 + 4 * spareDigits n) := by rw [← Nat.pow_mul, ← Nat.pow_add]
    _ ≤ 2 ^ n.log2 := by
        refine Nat.pow_le_pow_right (by decide) ?_
        rw [spareDigits]
        omega
    _ ≤ n := Nat.log2_self_le (by rintro rfl; cases hlog)

theorem le_cutShort {n : Nat} (h : 2 * hiddenBit ≤ n) : 2 * hiddenBit ≤ cutShort n :=
  Nat.le_trans (le_leading h) (Nat.le_mul_of_pos_right _ (Nat.pow_pos (by decide)))

/-- One more digit is one more spare digit. -/
theorem cutShort_digit {n c : Nat} (h : 2 * hiddenBit ≤ n) (hc : c < 16) :
    cutShort (n * 16 + c) = cutShort n * 16 := by
  have hlog := le_log2 h
  have hne : n ≠ 0 := by
    rintro rfl
    cases hlog
  have hlog' : (n * 16 + c).log2 = n.log2 + 4 := by
    have hlower := Nat.log2_self_le hne
    have hupper : n < 2 ^ (n.log2 + 1) := Nat.lt_log2_self
    rw [Nat.log2_eq_iff (by omega)]
    constructor
    · rw [Nat.pow_add]
      omega
    · rw [show n.log2 + 4 + 1 = n.log2 + 1 + 4 by omega, Nat.pow_add]
      omega
  have hspare : spareDigits (n * 16 + c) = spareDigits n + 1 := by
    rw [spareDigits, spareDigits, hlog']
    omega
  have hdiv : (n * 16 + c) / 16 = n := by omega
  have hleading : leading (n * 16 + c) = leading n := by
    rw [leading, leading, hspare, Nat.pow_succ', ← Nat.div_div_eq_div_mul, hdiv]
  rw [cutShort, cutShort, hleading, hspare, Nat.pow_succ, Nat.mul_assoc]

/-- Reading a digit: from a number cut short to a number cut short. -/
theorem read_digit (n : Nat) {c : Nat} (hc : c < 16) :
    ((ofNat (cutShort n)).mul (ofNat 16)).add (ofNat c) = ofNat (cutShort (n * 16 + c)) := by
  by_cases h : 2 * hiddenBit ≤ n
  · rw [read_absorbed (le_cutShort h) hc, cutShort_digit h hc]
  · have hlt : n < 2 * hiddenBit := by omega
    rw [cutShort_of_lt (by omega), read_exact hlt hc, cutShort_of_lt (by omega)]

end Binary64

/-- Hexadecimal digits are read as the number nearest to the one they denote, cut short. -/
theorem Literal.foldHex_eq {digits : Text} (h : ∀ c ∈ digits, digitValue c < 16) :
    foldHex digits = .ofNat (Binary64.cutShort (digitsValue 16 digits)) := by
  have hfold : ∀ n, digits.foldl (fun x c => (x.mul (.ofNat 16)).add (.ofNat (digitValue c)))
        (Binary64.ofNat (Binary64.cutShort n)) =
      .ofNat (Binary64.cutShort (digits.foldl (fun n c => n * 16 + digitValue c) n)) := by
    induction digits with
    | nil => exact fun n => rfl
    | cons c rest ih =>
        intro n
        rw [List.foldl_cons, List.foldl_cons, Binary64.read_digit n (h c (List.mem_cons_self ..))]
        exact ih (fun d hd => h d (List.mem_cons_of_mem _ hd)) _
  exact hfold 0

namespace Binary64

/-! ## What the spare digits are worth -/

/-- The leading digits are halfway between two numbers, the lower of them even, and what the spare
digits denote is not zero. -/
structure Tipped (n : Nat) : Prop where
  halfway : 2 * (leading n % 2 ^ ((leading n).log2 - 52)) = 2 ^ ((leading n).log2 - 52)
  even : leading n / 2 ^ ((leading n).log2 - 52) % 2 = 0
  spare : n % 16 ^ spareDigits n ≠ 0

/-- Whether a remainder `s` with more bits `r` behind it is more than half, compared with whether
`s` alone is: `r` counts if `s` is half. -/
theorem half_iff {e r t : Nat} (he : 0 < e) (hr : r < t) (s : Nat) :
    (2 ^ e * t < 2 * (s * t + r) ↔ 2 ^ e < 2 * s ∨ (2 ^ e = 2 * s ∧ r ≠ 0)) ∧
      (2 ^ e * t = 2 * (s * t + r) ↔ 2 ^ e = 2 * s ∧ r = 0) := by
  obtain ⟨half, hhalf⟩ : ∃ half, 2 ^ e = 2 * half :=
    ⟨2 ^ (e - 1), by rw [← Nat.pow_succ', Nat.succ_eq_add_one, Nat.sub_add_cancel he]⟩
  rw [hhalf, Nat.mul_assoc]
  rcases Nat.lt_trichotomy half s with hlt | rfl | hlt
  · have hle := Nat.mul_le_mul_right t hlt
    rw [Nat.succ_mul] at hle
    omega
  · omega
  · have hle := Nat.mul_le_mul_right t hlt
    rw [Nat.succ_mul] at hle
    omega

/-- A number of more than fifty-three bits: a significand `q`, the rest `s` of the leading digits,
and the spare digits `r`. -/
theorem exists_parts {n : Nat} (hn : 2 * hiddenBit ≤ n) :
    ∃ e q s r j, 0 < e ∧ Scaled e q ∧ s < 2 ^ e ∧ r < 2 ^ j ∧
      cutShort n * unitsInOne = (q * 2 ^ e + s) * 2 ^ j ∧
      n * unitsInOne = (q * 2 ^ e + s) * 2 ^ j + r ∧
      (Tipped n ↔ 2 ^ e = 2 * s ∧ q % 2 = 0 ∧ r ≠ 0) := by
  obtain ⟨u, -, hone⟩ := exists_unitsInOne
  obtain ⟨e, q, s, hsplit, hs, h⟩ := exists_quotient (leading n)
  have he : 0 < e := by
    rw [← Nat.not_le, dropped_le_iff h hs, ← hsplit, Nat.pow_zero, Nat.mul_one, Nat.not_lt]
    exact le_leading hn
  have hpow : 16 ^ spareDigits n * unitsInOne = 2 ^ (4 * spareDigits n + u) := by
    rw [hone, Nat.pow_add, Nat.pow_mul]
  let r := n % 16 ^ spareDigits n * unitsInOne
  have hr : r < 2 ^ (4 * spareDigits n + u) := by
    rw [← hpow]
    exact Nat.mul_lt_mul_of_pos_right (Nat.mod_lt n (Nat.pow_pos (by decide))) unitsInOne_pos
  have hcut : cutShort n * unitsInOne = leading n * 2 ^ (4 * spareDigits n + u) := by
    rw [cutShort, Nat.mul_assoc, hpow]
  have hwhole : n * unitsInOne = leading n * 2 ^ (4 * spareDigits n + u) + r := by
    rw [← hpow, ← Nat.mul_assoc, ← Nat.add_mul, leading, Nat.div_add_mod']
  have htipped : Tipped n ↔ 2 ^ e = 2 * s ∧ q % 2 = 0 ∧ r ≠ 0 := by
    have hdropped : (leading n).log2 - 52 = e := by rw [hsplit, log2_sub_eq h hs]
    have hquotient : leading n / 2 ^ e = q ∧ leading n % 2 ^ e = s := by
      rw [Nat.div_mod_unique (Nat.two_pow_pos e)]
      exact ⟨by rw [hsplit]; ring, hs⟩
    have hspare : r ≠ 0 ↔ n % 16 ^ spareDigits n ≠ 0 := by simp [r, unitsInOne_pos.ne']
    rw [hspare]
    constructor
    · rintro ⟨hhalfway, heven, hne⟩
      rw [hdropped, hquotient.2] at hhalfway
      rw [hdropped, hquotient.1] at heven
      exact ⟨hhalfway.symm, heven, hne⟩
    · rintro ⟨hhalfway, heven, hne⟩
      rw [← hquotient.2, ← hdropped] at hhalfway
      rw [← hquotient.1, ← hdropped] at heven
      exact ⟨hhalfway.symm, heven, hne⟩
  rw [hsplit] at hcut hwhole
  exact ⟨e, q, s, r, _, he, h, hs, hr, hcut, hwhole, htipped⟩

/-- Cutting a number short makes no difference to what it rounds to, unless the number is tipped:
then it rounds down instead of up. -/
theorem rounded_cutShort {n : Nat} (hn : 2 * hiddenBit ≤ n) :
    (¬ Tipped n → rounded (n * unitsInOne) = rounded (cutShort n * unitsInOne)) ∧
    (Tipped n → rounded (n * unitsInOne) = rounded (cutShort n * unitsInOne) + 1 ∧
      magnitude (rounded (cutShort n * unitsInOne)) ≤ n * unitsInOne ∧
      n * unitsInOne < magnitude (rounded (n * unitsInOne))) := by
  obtain ⟨e, q, s, r, j, he, h, hs, hr, hcut, hwhole, htipped⟩ := exists_parts hn
  have hge : hiddenBit ≤ q := h.normal.resolve_left he.ne'
  have hlarge : hiddenBit ≤ q * 2 ^ e + s :=
    Nat.le_add_right_of_le (Nat.le_trans hge (Nat.le_mul_of_pos_right q (Nat.two_pow_pos e)))
  have hshifted : Scaled (e + j) q := ⟨.inr hge, h.lt⟩
  have hrest : s * 2 ^ j + r < 2 ^ (e + j) := by
    have hle := Nat.mul_le_mul_right (2 ^ j) hs
    rw [Nat.succ_mul] at hle
    rw [Nat.pow_add]
    omega
  have hsplit : (q * 2 ^ e + s) * 2 ^ j + r = q * 2 ^ (e + j) + (s * 2 ^ j + r) := by ring
  have hroundedCut : rounded (cutShort n * unitsInOne) = (e + j) * hiddenBit +
      if 2 ^ e < 2 * s ∨ (2 ^ e = 2 * s ∧ q % 2 = 1) then q + 1 else q := by
    rw [hcut, rounded_mul_two_pow hlarge, rounded_eq h hs]
    ring
  have hrounded : rounded (n * unitsInOne) = (e + j) * hiddenBit +
      if (2 ^ e < 2 * s ∨ (2 ^ e = 2 * s ∧ r ≠ 0)) ∨ ((2 ^ e = 2 * s ∧ r = 0) ∧ q % 2 = 1)
        then q + 1 else q := by
    obtain ⟨hless, hhalf⟩ := half_iff he hr s
    rw [hwhole, hsplit, rounded_eq hshifted hrest]
    simp only [Nat.pow_add, hless, hhalf]
  rw [htipped]
  -- The two differ only at a half of which the digits cut off are more than zero: it is rounded
  -- up, and without them it is rounded to even.
  constructor
  · intro hnot
    have hsame : (2 ^ e < 2 * s ∨ (2 ^ e = 2 * s ∧ r ≠ 0)) ∨ ((2 ^ e = 2 * s ∧ r = 0) ∧ q % 2 = 1) ↔
        2 ^ e < 2 * s ∨ (2 ^ e = 2 * s ∧ q % 2 = 1) := by
      omega
    rw [hrounded, hroundedCut, if_congr hsame rfl rfl]
  · rintro ⟨hhalf, heven, hne⟩
    rw [if_neg (by omega)] at hroundedCut
    rw [if_pos (.inl (.inr ⟨hhalf, hne⟩)), ← Nat.add_assoc] at hrounded
    rw [hrounded, hroundedCut, magnitude_succ hshifted,
      magnitude_scaled hshifted, hwhole, hsplit]
    refine ⟨rfl, Nat.le_add_right _ _, ?_⟩
    rw [Nat.add_mul, Nat.one_mul]
    omega

/-- The least number for which infinity stands. -/
def overflowBound : Nat :=
  Nat.pow 2 1024

theorem magnitude_infinityBits : magnitude infinityBits = overflowBound * unitsInOne := by
  obtain ⟨u, hu, hone⟩ := exists_unitsInOne
  obtain ⟨t, ht, hover⟩ : ∃ t, t = 1024 ∧ overflowBound = 2 ^ t := by
    unfold overflowBound
    generalize 1024 = t
    exact ⟨t, rfl, rfl⟩
  have hbits : infinityBits = (t + u - 52) * hiddenBit + hiddenBit := by
    rw [ht, hu]
    rfl
  have hsum : t + u - 52 + 52 = t + u := by omega
  rw [hbits, magnitude_of_le (.inr (Nat.le_refl _)) (by decide), hone, hover, ← two_pow_hiddenBit,
    hsum, Nat.pow_add]

/-- Cut short, a number is taken to the number just below the nearest if it is tipped and not out
of reach, and else to the nearest. -/
theorem ofNat_cutShort {n : Nat} (hn : 2 * hiddenBit ≤ n) :
    (¬ (Tipped n ∧ n < overflowBound) → ofNat (cutShort n) = ofNat n) ∧
    (Tipped n ∧ n < overflowBound →
      (ofNat n).bits.toNat = (ofNat (cutShort n)).bits.toNat + 1) := by
  obtain ⟨hsame, hdown⟩ := rounded_cutShort hn
  have hclamped : ∀ {low high top : Nat}, high = low + 1 →
      (top < high → min low top = min high top) ∧ (low < top → min high top = min low top + 1) := by
    omega
  constructor
  · intro hnot
    refine eq_of_toNat_bits ?_
    rw [toNat_bits_ofNat, toNat_bits_ofNat]
    by_cases htipped : Tipped n
    · obtain ⟨hsucc, -, hlt⟩ := hdown htipped
      have hlarge : magnitude infinityBits ≤ n * unitsInOne := by
        rw [magnitude_infinityBits]
        exact Nat.mul_le_mul_right _ (Nat.le_of_not_lt fun hlt => hnot ⟨htipped, hlt⟩)
      have hbits : infinityBits < rounded (n * unitsInOne) :=
        strictMono_magnitude.lt_iff_lt.mp (Nat.lt_of_le_of_lt hlarge hlt)
      exact (hclamped hsucc).1 hbits
    · rw [hsame htipped]
  · rintro ⟨htipped, hfinite⟩
    obtain ⟨hsucc, hle, -⟩ := hdown htipped
    have hsmall : n * unitsInOne < magnitude infinityBits := by
      rw [magnitude_infinityBits]
      exact Nat.mul_lt_mul_of_pos_right hfinite unitsInOne_pos
    have hbits : rounded (cutShort n * unitsInOne) < infinityBits :=
      strictMono_magnitude.lt_iff_lt.mp (Nat.lt_of_le_of_lt hle hsmall)
    rw [toNat_bits_ofNat, toNat_bits_ofNat]
    exact (hclamped hsucc).2 hbits

end Binary64

/-! ## Tokens -/

namespace Literal

/-- A number that is not read as the nearest: written in hexadecimal digits, of more than sixty-four
bits but not out of reach, and tipped. -/
structure Lost (radix : Radix) (n : Nat) : Prop where
  isHexadecimal : radix = .hexadecimal
  isLarge : unsignedBound ≤ n
  inReach : n < Binary64.overflowBound
  tipped : Binary64.Tipped n

/-- The float that an oversized integer becomes. -/
theorem ofOversized_spec {radix : Radix} {digits : Text} {n : Nat} (h : Spells radix.base digits n)
    (isUnsigned : Bool) :
    (¬ Lost radix n → ofOversized ⟨radix, digits, isUnsigned⟩ = .ofNat n) ∧
    (Lost radix n → (Binary64.ofNat n).bits.toNat =
      (ofOversized ⟨radix, digits, isUnsigned⟩).bits.toNat + 1) := by
  have hvalue := IntegerNumeral.value_eq_of_spells h isUnsigned
  cases radix with
  | decimal =>
      refine ⟨fun _ => by rw [ofOversized, hvalue], fun hlost => ?_⟩
      cases hlost.isHexadecimal
  | hexadecimal =>
      by_cases hlarge : unsignedBound ≤ n
      · have hdigits : ∀ c ∈ digits, digitValue c < 16 := by
          intro c hc
          obtain ⟨d, hd⟩ := (spells_iff.mp h).2.1 c hc
          rw [digitValue_of_isDigitOf hd]
          exact hd.1
        have hfold : ofOversized ⟨.hexadecimal, digits, isUnsigned⟩ =
            .ofNat (Binary64.cutShort n) := by
          simp only [ofOversized, hvalue]
          rw [if_neg (Nat.not_lt.mpr hlarge), foldHex_eq hdigits]
          exact congrArg (fun n => Binary64.ofNat (Binary64.cutShort n)) h.digitsValue_eq
        have hbits : 2 * Binary64.hiddenBit ≤ n := Nat.le_trans (by decide) hlarge
        obtain ⟨hsame, hbelow⟩ := Binary64.ofNat_cutShort hbits
        rw [hfold]
        refine ⟨fun hnot => hsame fun hboth => hnot ?_, fun hlost => hbelow ?_⟩
        · exact ⟨rfl, hlarge, hboth.2, hboth.1⟩
        · exact ⟨hlost.tipped, hlost.inReach⟩
      · refine ⟨fun _ => ?_, fun hlost => absurd hlost.isLarge hlarge⟩
        simp only [ofOversized, hvalue]
        rw [if_pos (Nat.lt_of_not_le hlarge)]

/-- An integer that its type cannot hold is read as a float, in either radix as the nearest one,
unless the number is lost: then as the one just below. -/
theorem ofToken?_oversized {radix : Radix} {token : Text} {n : Nat} {isUnsigned : Bool}
    (h : IntegerToken radix token n isUnsigned)
    (hn : (if isUnsigned then Nat.pow 2 64 else Nat.pow 2 63) ≤ n) :
    ∃ x y, ofToken? token = some (.float x) ∧ (∀ z, Binary64.IsNearest n z ↔ z = y) ∧
      (¬ Lost radix n → x = y) ∧ (Lost radix n → y.bits.toNat = x.bits.toNat + 1) := by
  obtain ⟨digits, hread, hdigits⟩ := IntegerNumeral.read?_of_integerToken h
  have hvalue := IntegerNumeral.value_eq_of_spells hdigits isUnsigned
  refine ⟨ofOversized ⟨radix, digits, isUnsigned⟩, .ofNat n, ?_, fun z => Binary64.isNearest_iff,
    ofOversized_spec hdigits isUnsigned⟩
  rw [ofToken?_of_integer hread, ofInteger_eq, hvalue]
  exact congrArg some (if_neg (Nat.not_lt.mpr hn))

/-- A number written in both radices: the decimal token is read as the nearest, the hexadecimal one
as the one just below. -/
theorem ofToken?_oversized_radices :
    let n := 18446744073709553665
    IntegerToken .decimal "18446744073709553665".toList n false ∧
    IntegerToken .hexadecimal "0x10000000000000801".toList n false ∧
    ∃ x y, ofToken? "18446744073709553665".toList = some (.float y) ∧ Binary64.IsNearest n y ∧
      ofToken? "0x10000000000000801".toList = some (.float x) ∧
      y.bits.toNat = x.bits.toNat + 1 := by
  intro n
  have hdecimal : IntegerToken .decimal "18446744073709553665".toList n false := by
    have hread : IntegerNumeral.read? "18446744073709553665".toList =
        some ⟨.decimal, "18446744073709553665".toList, false⟩ := by
      decide +kernel
    exact IntegerNumeral.integerToken_of_read? hread
  have hhexadecimal : IntegerToken .hexadecimal "0x10000000000000801".toList n false := by
    have hread : IntegerNumeral.read? "0x10000000000000801".toList =
        some ⟨.hexadecimal, "10000000000000801".toList, false⟩ := by
      decide +kernel
    exact IntegerNumeral.integerToken_of_read? hread
  have hlost : Lost .hexadecimal n :=
    ⟨rfl, by decide +kernel, by decide +kernel, by decide +kernel, by decide +kernel,
      by decide +kernel⟩
  have hkept : ¬ Lost .decimal n := fun h => by cases h.isHexadecimal
  obtain ⟨y, nearest, hread, hnearest, hsame, -⟩ :=
    ofToken?_oversized hdecimal (by decide +kernel)
  obtain ⟨x, nearest', hread', hnearest', -, hbelow⟩ :=
    ofToken?_oversized hhexadecimal (by decide +kernel)
  obtain rfl := hsame hkept
  have hy := (hnearest y).mpr rfl
  obtain rfl := (hnearest' y).mp hy
  exact ⟨hdecimal, hhexadecimal, x, y, hread, hy, hread', hbelow hlost⟩

/-- The hexadecimal token is not read as the nearest number, nor as the decimal one is. -/
theorem ofToken?_oversized_lost :
    let n := 18446744073709553665
    let x : Binary64 := ⟨0x43F0000000000000⟩
    ofToken? "0x10000000000000801".toList = some (.float x) ∧ ¬ Binary64.IsNearest n x ∧
    ofToken? "18446744073709553665".toList = some (.float ⟨0x43F0000000000001⟩) := by
  refine ⟨by decide +kernel, fun h => ?_, by decide +kernel⟩
  have hne : (⟨0x43F0000000000000⟩ : Binary64) ≠ .ofNat 18446744073709553665 := by decide +kernel
  exact hne (Binary64.isNearest_iff.mp h)

end Literal

end Shading
