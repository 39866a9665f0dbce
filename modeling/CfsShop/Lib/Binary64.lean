/-
Doubles against exact numbers. Lean's `Float` has a model, a sign, a mantissa
and an exponent, and its division is defined there bit by bit; this file says
what is needed of it: the quotient of two naturals, rounded, does not jump over
a double. So a double is below the rounded quotient only if it is below the
exact one, or it is what the quotient was rounded to.
-/
import Mathlib

namespace Binary64

open Float.Model Float.Model.UnpackedFloat

/-! ## The target exponent -/

theorem log2_eq {m n : Nat} (h : 2 ^ n ≤ m) (h' : m < 2 ^ (n + 1)) : m.log2 = n := by
  have hm : m ≠ 0 := by
    have := Nat.two_pow_pos n
    omega
  exact (Nat.log2_eq_iff hm).2 ⟨h, h'⟩

theorem targetExponent_eq {m n : Nat} {e : Int} (h : 2 ^ (52 + n) ≤ m) (h' : m < 2 ^ (52 + n + 1))
    (he : -1074 ≤ e + n) : Format.binary64.targetExponent (totalExponent m e) = e + n := by
  have hlog := log2_eq h h'
  simp only [Format.targetExponent, totalExponent, Format.mantissaBits, Format.minExponent, hlog]
  omega

/-! ## Rounding -/

/-- Rounding a mantissa moves it up by one at most. -/
theorem roundedMantissa_cases (em : ExtendedMantissa) :
    em.roundedMantissa = em.mantissa ∨ em.roundedMantissa = em.mantissa + 1 := by
  obtain ⟨m, round, sticky⟩ := em
  cases round with
  | false => cases sticky <;> exact .inl rfl
  | true =>
    cases sticky with
    | false =>
      show m + m % 2 = m ∨ m + m % 2 = m + 1
      omega
    | true => exact .inr rfl

theorem mantissa_ofMantissaAndAccuracy (m : Nat) (acc : Accuracy) :
    (ExtendedMantissa.ofMantissaAndAccuracy m acc).mantissa = m := by
  cases acc with
  | exact => rfl
  | inexact o => cases o <;> rfl

/-- A mantissa of 53 bits has its exponent already. -/
theorem shiftToTargetExponent_of_lt {m : Nat} {e : Int} (acc : Accuracy) (hm : 2 ^ 52 ≤ m)
    (hm' : m < 2 ^ 53) (he : -1074 ≤ e) :
    shiftToTargetExponent Format.binary64 m e acc = (.ofMantissaAndAccuracy m acc, e) := by
  have htarget := targetExponent_eq (n := 0) (e := e) hm hm' (by omega)
  have hshift : (e + (0 : Nat) - e).toNat = 0 := by omega
  rw [shiftToTargetExponent, htarget, shiftToExponent, hshift]
  simp [HShiftRight.hShiftRight, Nat.repeat]

/-- One of 54 loses its last. -/
theorem shiftToTargetExponent_of_le {m : Nat} {e : Int} (acc : Accuracy) (hm : 2 ^ 53 ≤ m)
    (hm' : m < 2 ^ 54) (he : -1074 ≤ e) :
    shiftToTargetExponent Format.binary64 m e acc =
      ((ExtendedMantissa.ofMantissaAndAccuracy m acc).shiftRightOne, e + 1) := by
  have htarget := targetExponent_eq (n := 1) (e := e) hm hm' (by omega)
  have hshift : (e + (1 : Nat) - e).toNat = 1 := by omega
  rw [shiftToTargetExponent, htarget, shiftToExponent, hshift]
  simp [HShiftRight.hShiftRight, Nat.repeat]

theorem shiftToTargetExponent_cases {m : Nat} {e : Int} (acc : Accuracy) (hm : 2 ^ 52 ≤ m)
    (hm' : m < 2 ^ 54) (he : -1074 ≤ e) :
    ∃ em E, shiftToTargetExponent Format.binary64 m e acc = (em, E) ∧
      2 ^ 52 ≤ em.mantissa ∧ em.mantissa < 2 ^ 53 ∧
      ((em.mantissa = m ∧ E = e) ∨ (em.mantissa = m / 2 ∧ E = e + 1)) := by
  have hof := mantissa_ofMantissaAndAccuracy m acc
  by_cases hlt : m < 2 ^ 53
  · exact ⟨_, _, shiftToTargetExponent_of_lt acc hm hlt he, by omega, by omega, .inl ⟨hof, rfl⟩⟩
  · have hhalf : (ExtendedMantissa.ofMantissaAndAccuracy m acc).shiftRightOne.mantissa = m / 2 := by
      rw [ExtendedMantissa.shiftRightOne, hof]
    exact ⟨_, _, shiftToTargetExponent_of_le acc (by omega) hm' he, by omega, by omega,
      .inr ⟨hhalf, rfl⟩⟩

theorem roundWithAccuracy_exact {m : Nat} {e : Int} (h : 0 < m) (hm : 2 ^ 52 ≤ m) (hm' : m < 2 ^ 53)
    (he : -1074 ≤ e) :
    roundWithAccuracy Format.binary64 .positive m e .exact = .finite .positive m e h := by
  have hround : (ExtendedMantissa.ofMantissaAndAccuracy m .exact).roundedMantissa = m := rfl
  simp only [roundWithAccuracy, shiftToTargetExponent_of_lt .exact hm hm' he, hround,
    mantissa_ofMantissaAndAccuracy]
  rw [dif_neg (by omega)]

/-- Rounding, with the mantissa cut to 53 bits on the way. -/
theorem roundWithAccuracy_cases {m : Nat} {e : Int} (acc : Accuracy) (hm : 2 ^ 52 ≤ m)
    (hm' : m < 2 ^ 54) (he : -1074 ≤ e) :
    ∃ q E q' E' h, roundWithAccuracy Format.binary64 .positive m e acc = .finite .positive q' E' h ∧
      2 ^ 52 ≤ q ∧ q < 2 ^ 53 ∧ ((q = m ∧ E = e) ∨ (q = m / 2 ∧ E = e + 1)) ∧
      ((q ≤ q' ∧ q' ≤ q + 1 ∧ q' < 2 ^ 53 ∧ E' = E) ∨ (q + 1 = 2 ^ 53 ∧ q' = 2 ^ 52 ∧ E' = E + 1)) := by
  obtain ⟨em, E, hfirst, hq, hq', hcut⟩ := shiftToTargetExponent_cases acc hm hm' he
  have hE : -1074 ≤ E := by omega
  have hr := roundedMantissa_cases em
  obtain ⟨em', E', hsecond, hlo, hhi, hcut'⟩ :=
    shiftToTargetExponent_cases (m := em.roundedMantissa) .exact (by omega) (by omega) hE
  have hne : em'.mantissa ≠ 0 := by omega
  refine ⟨em.mantissa, E, em'.mantissa, E', Nat.pos_of_ne_zero hne, ?_, hq, hq', hcut, ?_⟩
  · rw [roundWithAccuracy, hfirst]
    simp only [hsecond]
    rw [dif_neg hne]
  · omega

/-! ## Packing -/

/-- The biased exponent of a normal number is neither that of a subnormal nor that of an
infinity. -/
theorem ofNat_exponent {b : Nat} (hb : 0 < b) (hb' : b < 2047) :
    (BitVec.ofNat 11 b).toNat = b ∧ BitVec.ofNat 11 b ≠ -1#11 ∧ BitVec.ofNat 11 b ≠ 0#11 := by
  have htoNat : (BitVec.ofNat 11 b).toNat = b := by
    rw [BitVec.toNat_ofNat]
    omega
  refine ⟨htoNat, ?_, ?_⟩ <;> intro heq <;> rw [heq] at htoNat
  · have : (-1#11).toNat = 2047 := by decide
    omega
  · have : (0#11).toNat = 0 := by decide
    omega

/-- The implicit bit put back. -/
theorem toNat_implicit (v : BitVec 52) : (1#1 ++ v).toNat = 2 ^ 52 + v.toNat := by
  rw [BitVec.toNat_append, ← Nat.shiftLeft_add_eq_or_of_lt v.isLt]
  rfl

/-- A mantissa of 53 bits, within the exponents of a double, is packed without loss. -/
theorem unpack_pack {m : Nat} {e : Int} (h : 0 < m) (hm : 2 ^ 52 ≤ m) (hm' : m < 2 ^ 53)
    (he : -1074 ≤ e) (he' : e ≤ 971) :
    (Float.Model.pack (.finite .positive m e h)).unpack = .finite .positive m e h := by
  have hbias : (Format.binary64.exponentBias : Int) = 1023 := rfl
  obtain ⟨b, hb⟩ : ∃ b : Nat, (b : Int) = e + 1075 := ⟨(e + 1075).toNat, by omega⟩
  obtain ⟨htoNat, hall, hzero⟩ := ofNat_exponent (b := b) (by omega) (by omega)
  have hbits : UnpackedFloat.pack Format.binary64 (.finite .positive m e h) =
      packComponents Format.binary64 .positive (BitVec.ofNat 11 b) (BitVec.ofNat 52 m) := by
    have hexp : (e + Format.binary64.exponentBias + (52 : Nat)).toNat = b := by omega
    have hfit : ¬ 2 ^ 11 ≤ b + 1 := by omega
    simp only [UnpackedFloat.pack, hexp, hfit, if_false, log2_eq hm hm', Format.mantissaBits, if_true]
  have hmant : (1#1 ++ BitVec.ofNat 52 m).toNat = m := by
    rw [toNat_implicit, BitVec.toNat_ofNat]
    omega
  show UnpackedFloat.unpack Format.binary64 (UnpackedFloat.pack Format.binary64 _) = _
  rw [hbits, UnpackedFloat.unpack]
  simp only [unpackExponent_packComponents, unpackMantissa_packComponents, unpackSign_packComponents,
    Sign.ofBitVec_toBitVec, if_neg hall, if_neg hzero, hmant, htoNat]
  congr 1
  omega

/-! ## The quotient of two naturals -/

/-- A natural brought to 53 bits. -/
theorem shiftLeft_bounds {n : Nat} (hn : 0 < n) (hn' : n < 2 ^ 53) :
    n.log2 ≤ 52 ∧ 2 ^ 52 ≤ n <<< (52 - n.log2) ∧ n <<< (52 - n.log2) < 2 ^ 53 := by
  have hne : n ≠ 0 := by omega
  have hlog : n.log2 ≤ 52 := Nat.le_of_lt_succ ((Nat.log2_lt hne).2 hn')
  have hlo := Nat.log2_self_le hne
  have hhi : n < 2 ^ (n.log2 + 1) := Nat.lt_log2_self
  have hpow : 2 ^ n.log2 * 2 ^ (52 - n.log2) = 2 ^ 52 := by
    rw [← Nat.pow_add]
    congr 1
    omega
  have hpos := Nat.two_pow_pos (52 - n.log2)
  rw [Nat.shiftLeft_eq]
  refine ⟨hlog, ?_, ?_⟩
  · rw [← hpow]
    exact Nat.mul_le_mul_right _ hlo
  · calc n * 2 ^ (52 - n.log2)
      _ < 2 ^ (n.log2 + 1) * 2 ^ (52 - n.log2) := Nat.mul_lt_mul_of_pos_right hhi hpos
      _ = 2 ^ 52 * 2 := by rw [Nat.pow_succ, Nat.mul_right_comm, hpow]

/-- A natural below 2^53 is a double. -/
theorem unpack_ofNat {n : Nat} (hn : 0 < n) (hn' : n < 2 ^ 53) :
    ∃ h, (Float.Model.ofNat n).unpack =
      .finite .positive (n <<< (52 - n.log2)) ((n.log2 : Int) - 52) h := by
  obtain ⟨hlog, hlo, hhi⟩ := shiftLeft_bounds hn hn'
  have hcmp : compare (n : Int) 0 = .gt := Int.compare_eq_gt.2 (by omega)
  have htarget : Format.binary64.targetExponent (totalExponent n 0) = (n.log2 : Int) - 52 := by
    simp only [Format.targetExponent, totalExponent, Format.mantissaBits, Format.minExponent]
    omega
  have hshift : (0 - ((n.log2 : Int) - 52)).toNat = 52 - n.log2 := by omega
  have hround : UnpackedFloat.ofNat Format.binary64 n =
      roundWithAccuracy Format.binary64 .positive (n <<< (52 - n.log2)) ((n.log2 : Int) - 52) .exact := by
    have he : (0 : Int) - (52 - n.log2 : Nat) = (n.log2 : Int) - 52 := by omega
    simp only [UnpackedFloat.ofNat, UnpackedFloat.ofInt, UnpackedFloat.normalize, hcmp,
      Int.toNat_natCast, UnpackedFloat.round, htarget, decreaseExponent, hshift, he]
  have hpos : 0 < n <<< (52 - n.log2) := by omega
  refine ⟨hpos, ?_⟩
  rw [Float.Model.ofNat, hround, roundWithAccuracy_exact hpos hlo hhi (by omega)]
  exact unpack_pack hpos hlo hhi (by omega) (by omega)

/-- Shifting zeros out loses nothing. -/
theorem shiftRight_exact (m k : Nat) :
    (⟨m * 2 ^ k, false, false⟩ : ExtendedMantissa) >>> k = ⟨m, false, false⟩ := by
  induction k generalizing m with
  | zero => simp [HShiftRight.hShiftRight, Nat.repeat]
  | succ k ih =>
    have hsucc : m * 2 ^ (k + 1) = m * 2 * 2 ^ k := by rw [Nat.pow_succ', Nat.mul_assoc]
    show ((⟨m * 2 ^ (k + 1), false, false⟩ : ExtendedMantissa) >>> k).shiftRightOne = _
    rw [hsucc, ih]
    simp [ExtendedMantissa.shiftRightOne]

/-- A double of 53 bits times 1. -/
theorem mul_one {m : Nat} {e : Int} (h : 0 < m) (hm : 2 ^ 52 ≤ m) (hm' : m < 2 ^ 53)
    (he : -1074 ≤ e) :
    UnpackedFloat.mul Format.binary64 (.finite .positive m e h)
      (.finite .positive (2 ^ 52) (-52) (by decide)) = .finite .positive m e h := by
  have htarget := targetExponent_eq (m := m * 2 ^ 52) (n := 52) (e := e + -52)
    (by omega) (by omega) (by omega)
  have hshift : (e + -52 + (52 : Nat) - (e + -52)).toNat = 52 := by omega
  have hfirst : shiftToTargetExponent Format.binary64 (m * 2 ^ 52) (e + -52) .exact =
      (⟨m, false, false⟩, e) := by
    rw [shiftToTargetExponent, htarget, shiftToExponent, hshift]
    refine Prod.ext (shiftRight_exact m 52) ?_
    show e + -52 + (52 : Nat) = e
    omega
  have hround : ExtendedMantissa.roundedMantissa ⟨m, false, false⟩ = m := rfl
  have hsign : Sign.positive * Sign.positive = Sign.positive := rfl
  simp only [UnpackedFloat.mul, hsign, roundWithAccuracy, hfirst, hround,
    shiftToTargetExponent_of_lt .exact hm hm' he, mantissa_ofMantissaAndAccuracy]
  rw [dif_neg (by omega)]

/-- `Float.ofNat` goes through 64 bits and a multiplication by 1. -/
theorem unpack_float_ofNat {n : Nat} (hn : 0 < n) (hn' : n < 2 ^ 53) :
    ∃ h, (Float.ofNat n).toModel.unpack =
      .finite .positive (n <<< (52 - n.log2)) ((n.log2 : Int) - 52) h := by
  obtain ⟨hlog, hlo, hhi⟩ := shiftLeft_bounds hn hn'
  obtain ⟨hpos, hunpack⟩ := unpack_ofNat hn hn'
  have hfloat : Float.ofNat n = n.toUInt64.toFloat * Float.ofBits 0x3FF0000000000000 := by
    show Float.ofScientific n false 0 = _
    unfold Float.ofScientific
    rw [dif_pos ⟨hn', by omega⟩]
    rfl
  have hword : n.toUInt64.toFloat.toModel = Float.Model.ofNat n := by
    have : n.toUInt64.toNat = n := UInt64.toNat_ofNat_of_lt' (hn'.trans (by decide))
    show Float.Model.pack (UnpackedFloat.ofNat Format.binary64 n.toUInt64.toNat) = _
    rw [this]
    rfl
  have hone : (Float.ofBits 0x3FF0000000000000).toModel.unpack =
      .finite .positive (2 ^ 52) (-52) (by decide) := rfl
  refine ⟨hpos, ?_⟩
  rw [hfloat]
  show (Float.Model.pack (UnpackedFloat.mul Format.binary64 n.toUInt64.toFloat.toModel.unpack
    (Float.ofBits 0x3FF0000000000000).toModel.unpack)).unpack = _
  rw [hword, hone, hunpack, mul_one hpos hlo hhi (by omega)]
  exact unpack_pack hpos hlo hhi (by omega) (by omega)

/-- The quotient before rounding: 53 more bits of the dividend leave 53 or 54 of the quotient. -/
theorem divCore_eq {m n : Nat} {d e : Int} (h₁ : 2 ^ 52 ≤ m) (h₁' : m < 2 ^ 53)
    (h₂ : 2 ^ 52 ≤ n) (h₂' : n < 2 ^ 53) (he : -1074 ≤ d - e - 53) :
    ∃ acc, divCore Format.binary64 m d n e = (m * 2 ^ 53 / n, d - e - 53, acc) ∧
      2 ^ 52 ≤ m * 2 ^ 53 / n ∧ m * 2 ^ 53 / n < 2 ^ 54 := by
  have htarget : min (d - e)
      (Format.binary64.targetExponent (totalExponent m d - totalExponent n e)) = d - e - 53 := by
    simp only [Format.targetExponent, totalExponent, Format.mantissaBits, Format.minExponent,
      log2_eq h₁ h₁', log2_eq h₂ h₂']
    omega
  have hshift : (d - e - (d - e - 53)).toNat = 53 := by omega
  refine ⟨_, by rw [divCore, htarget, hshift, Nat.shiftLeft_eq], ?_, ?_⟩
  · rw [Nat.le_div_iff_mul_le (by omega)]
    omega
  · rw [Nat.div_lt_iff_lt_mul (by omega)]
    omega

/-! ## Comparing exactly -/

/-- A double is at most a rational, both taken exactly. -/
def AtMost : UnpackedFloat → ℚ → Prop
  | .notANumber, _ | .infinity .positive, _ => False
  | .infinity .negative, _ => True
  | .zero _, x => 0 ≤ x
  | .finite .positive m e _, x => m * 2 ^ e ≤ x
  | .finite .negative m e _, x => -(m * 2 ^ e) ≤ x

/-- The pairs that doubles unpack to. -/
structure Canonical (m : Nat) (e : Int) : Prop where
  lt : m < 2 ^ 53
  normal : 2 ^ 52 ≤ m ∨ e = -1074

theorem canonical_unpack {r : Float.Model} {s : Sign} {m : Nat} {e : Int} {h : 0 < m}
    (hr : r.unpack = .finite s m e h) : Canonical m e := by
  have hbias : (Format.binary64.exponentBias : Int) = 1023 := rfl
  have hmant : (@unpackMantissa Format.binary64 r.toBits.toBitVec).toNat < 2 ^ 52 :=
    BitVec.isLt _
  unfold Float.Model.unpack UnpackedFloat.unpack at hr
  dsimp only at hr
  split at hr
  · split at hr <;> simp at hr
  · split at hr
    · split at hr
      · simp at hr
      · -- A subnormal.
        rename_i hzero _
        simp only [UnpackedFloat.finite.injEq] at hr
        refine ⟨by omega, .inr ?_⟩
        rw [← hr.2.2, hzero, hbias]
        rfl
    · simp only [UnpackedFloat.finite.injEq] at hr
      have hm := toNat_implicit (@unpackMantissa Format.binary64 r.toBits.toBitVec)
      have hm' : m = 2 ^ 52 + _ := hr.2.1.symm.trans hm
      exact ⟨by omega, .inl (by omega)⟩

/-- Of two pairs the one that stands for the smaller number has the smaller exponent, or the
same and a smaller mantissa. -/
theorem lex_of_lt {q m : Nat} {E e : Int} (hq : 2 ^ 52 ≤ q) (hc : Canonical m e)
    (hlt : (q : ℚ) * 2 ^ E < m * 2 ^ e) : E < e ∨ (E = e ∧ q < m) := by
  have hpos : ∀ i : Int, (0 : ℚ) < 2 ^ i := fun i => by positivity
  rcases lt_trichotomy E e with h | rfl | h
  · exact .inl h
  · exact .inr ⟨rfl, by exact_mod_cast lt_of_mul_lt_mul_right hlt (hpos E).le⟩
  · have hup : (m : ℚ) * 2 ^ e < 2 ^ 53 * 2 ^ e :=
      mul_lt_mul_of_pos_right (by exact_mod_cast hc.lt) (hpos e)
    have hstep : (2 : ℚ) ^ 53 * 2 ^ e = 2 ^ 52 * 2 ^ (e + 1) := by
      rw [zpow_add₀ (by norm_num), zpow_one]
      ring
    have hexp : (2 : ℚ) ^ 52 * 2 ^ (e + 1) ≤ 2 ^ 52 * 2 ^ E :=
      mul_le_mul_of_nonneg_left (zpow_le_zpow_right₀ (by norm_num) (by omega)) (by positivity)
    have hlow : (2 : ℚ) ^ 52 * 2 ^ E ≤ q * 2 ^ E :=
      mul_le_mul_of_nonneg_right (by exact_mod_cast hq) (hpos E).le
    linarith

theorem shiftLeft_value {n : Nat} (hlog : n.log2 ≤ 52) :
    ((n <<< (52 - n.log2) : Nat) : ℚ) * 2 ^ ((n.log2 : Int) - 52) = n := by
  have hexp : (n.log2 : Int) - 52 = -((52 - n.log2 : Nat) : Int) := by omega
  rw [Nat.shiftLeft_eq, hexp, zpow_neg, zpow_natCast, Nat.cast_mul, Nat.cast_pow, Nat.cast_ofNat]
  field_simp

/-- Cutting the quotient, and its last bit, takes nothing away from below. -/
theorem cut_value {m n q : Nat} {d e E : Int} (hn : 0 < n)
    (hcut : (q = m * 2 ^ 53 / n ∧ E = d - e - 53) ∨
      (q = m * 2 ^ 53 / n / 2 ∧ E = d - e - 53 + 1)) :
    (q : ℚ) * 2 ^ E ≤ m * 2 ^ d / (n * 2 ^ e) := by
  have hpos : (0 : ℚ) < 2 ^ (d - e - 53) := by positivity
  have hquot : (m * 2 ^ d / (n * 2 ^ e) : ℚ) =
      (m * 2 ^ 53 : Nat) / n * 2 ^ (d - e - 53) := by
    have : (0 : ℚ) < n := by exact_mod_cast hn
    rw [zpow_sub₀ (by norm_num), zpow_sub₀ (by norm_num)]
    push_cast
    field_simp
  have hfloor : ((m * 2 ^ 53 / n : Nat) : ℚ) * 2 ^ (d - e - 53) ≤ m * 2 ^ d / (n * 2 ^ e) := by
    rw [hquot]
    exact mul_le_mul_of_nonneg_right Nat.cast_div_le hpos.le
  rcases hcut with ⟨rfl, rfl⟩ | ⟨rfl, rfl⟩
  · exact hfloor
  · refine le_trans ?_ hfloor
    rw [zpow_add₀ (by norm_num), zpow_one, mul_comm _ (2 : ℚ), ← mul_assoc]
    refine mul_le_mul_of_nonneg_right ?_ hpos.le
    exact_mod_cast Nat.div_mul_le_self _ 2

/-- What the quotient of two naturals is rounded to is not above a double that the quotient is
below. -/
theorem unpack_div {a b : Nat} (ha : 0 < a) (ha' : a < 2 ^ 53) (hb : 0 < b) (hb' : b < 2 ^ 53) :
    ∃ q' E' h, (Float.ofNat a / Float.ofNat b).toModel.unpack = .finite .positive q' E' h ∧
      ∀ m e, Canonical m e → (a : ℚ) / b < m * 2 ^ e → E' < e ∨ (E' = e ∧ q' ≤ m) := by
  obtain ⟨hlog, hlo, hhi⟩ := shiftLeft_bounds ha ha'
  obtain ⟨hlog', hlo', hhi'⟩ := shiftLeft_bounds hb hb'
  obtain ⟨_, hua⟩ := unpack_float_ofNat ha ha'
  obtain ⟨_, hub⟩ := unpack_float_ofNat hb hb'
  obtain ⟨acc, hdiv, hn, hn'⟩ := divCore_eq (d := (a.log2 : Int) - 52) (e := (b.log2 : Int) - 52)
    hlo hhi hlo' hhi' (by omega)
  obtain ⟨q, E, q', E', hpos, hround, hq, hq', hcut, hlast⟩ :=
    roundWithAccuracy_cases acc hn hn' (e := (a.log2 : Int) - 52 - ((b.log2 : Int) - 52) - 53)
      (by omega)
  have hbelow := cut_value (d := (a.log2 : Int) - 52) (e := (b.log2 : Int) - 52) (by omega) hcut
  rw [shiftLeft_value hlog, shiftLeft_value hlog'] at hbelow
  refine ⟨q', E', hpos, ?_, ?_⟩
  · have hsign : Sign.positive / Sign.positive = Sign.positive := rfl
    show (Float.Model.pack (UnpackedFloat.div Format.binary64 (Float.ofNat a).toModel.unpack
      (Float.ofNat b).toModel.unpack)).unpack = _
    rw [hua, hub]
    simp only [UnpackedFloat.div, hdiv, hsign, hround]
    exact unpack_pack hpos (by omega) (by omega) (by omega) (by omega)
  · intro m e hc hlt
    have hlex := lex_of_lt hq hc (lt_of_le_of_lt hbelow hlt)
    have hm := hc.lt
    have hnormal := hc.normal
    omega

theorem unpack_zero_div {b : Nat} (hb : 0 < b) (hb' : b < 2 ^ 53) :
    (Float.ofNat 0 / Float.ofNat b).toModel.unpack = .zero .positive := by
  obtain ⟨_, hub⟩ := unpack_float_ofNat hb hb'
  have hzero : (Float.ofNat 0).toModel.unpack = .zero .positive := rfl
  show (Float.Model.pack (UnpackedFloat.div Format.binary64 (Float.ofNat 0).toModel.unpack
    (Float.ofNat b).toModel.unpack)).unpack = _
  rw [hub, hzero]
  simp only [UnpackedFloat.div]
  rfl

theorem le_iff {x y : Float} :
    x ≤ y ↔ (x.toModel.unpack.compare y.toModel.unpack).any (·.isLE) = true := by
  show decide (x.toModel ≤ y.toModel) = true ↔ _
  rw [decide_eq_true_iff]
  rfl

theorem beq_iff {x y : Float} :
    (x == y) = true ↔ x.toModel.unpack.compare y.toModel.unpack = some .eq := by
  show (x.toModel.unpack.compare y.toModel.unpack == some .eq) = true ↔ _
  exact beq_iff_eq

theorem le_of_beq {x y : Float} (h : (x == y) = true) : x ≤ y := by
  rw [le_iff, beq_iff.1 h]
  rfl

theorem compare_finite_le {m m' : Nat} {e e' : Int} {h : 0 < m} {h' : 0 < m'} :
    ((UnpackedFloat.finite .positive m e h).compare (.finite .positive m' e' h')).any (·.isLE) = true ↔
      e < e' ∨ (e = e' ∧ m ≤ m') := by
  show ((compare e e').then (compare m m')).isLE = true ↔ _
  rcases lt_trichotomy e e' with he | rfl | he
  · simp [Int.compare_eq_lt.2 he, he]
  · simp [Nat.isLE_compare]
  · simp [Int.compare_eq_gt.2 he]
    omega

/-- What is not at most a rational that is not negative. -/
theorem not_atMost {u : UnpackedFloat} {x : ℚ} (hx : 0 ≤ x) (hu : ¬ AtMost u x) :
    u = .notANumber ∨ u = .infinity .positive ∨
      ∃ m e h, u = .finite .positive m e h ∧ x < m * 2 ^ e := by
  cases u with
  | notANumber => exact .inl rfl
  | infinity s =>
    cases s with
    | negative => exact absurd trivial hu
    | positive => exact .inr (.inl rfl)
  | zero s => exact absurd hx hu
  | finite s m e h =>
    cases s with
    | negative =>
      have hneg : -((m : ℚ) * 2 ^ e) ≤ 0 := neg_nonpos.2 (by positivity)
      exact absurd (hneg.trans hx) hu
    | positive => exact .inr (.inr ⟨m, e, h, rfl, not_le.1 hu⟩)

/-- A double is at most the rounded quotient of two naturals only if it is at most the exact
quotient, or the quotient was rounded to it. -/
theorem atMost_of_le_div {a b : Nat} (ha : a < 2 ^ 53) (hb : 0 < b) (hb' : b < 2 ^ 53) {r : Float}
    (hr : r ≤ Float.ofNat a / Float.ofNat b) :
    AtMost r.toModel.unpack (a / b) ∨ (r == Float.ofNat a / Float.ofNat b) = true := by
  rw [or_iff_not_imp_left]
  intro hnot
  have hquot : (0 : ℚ) ≤ a / b := by positivity
  rw [le_iff] at hr
  rw [beq_iff]
  rcases Nat.eq_zero_or_pos a with rfl | hpos
  · -- 0 is rounded to 0, and nothing above it is at most that.
    rw [unpack_zero_div hb hb'] at hr
    rcases not_atMost hquot hnot with hu | hu | ⟨m, e, h, hu, -⟩ <;>
      simp [hu, UnpackedFloat.compare] at hr
  · obtain ⟨q, E, h', hdiv, hlex⟩ := unpack_div hpos ha hb hb'
    rw [hdiv] at hr ⊢
    rcases not_atMost hquot hnot with hu | hu | ⟨m, e, h, hu, hlt⟩
    · simp [hu, UnpackedFloat.compare] at hr
    · simp [hu, UnpackedFloat.compare] at hr
    · rw [hu, compare_finite_le] at hr
      have hle := hlex m e (canonical_unpack hu) hlt
      obtain ⟨rfl, rfl⟩ : E = e ∧ q = m := by omega
      rw [hu]
      show some ((compare E E).then (compare q q)) = some .eq
      simp

/-- A quotient below 1 is not rounded to 1: there is a double between. -/
theorem le_of_one_le_div {a b : Nat} (ha : a < 2 ^ 53) (hb : 0 < b) (hb' : b < 2 ^ 53)
    (h : 1 ≤ Float.ofNat a / Float.ofNat b) : b ≤ a := by
  have hone : (1 : Float).toModel.unpack = .finite .positive (2 ^ 52) (-52) (by decide) := rfl
  rw [le_iff, hone] at h
  rcases Nat.eq_zero_or_pos a with rfl | hpos
  · rw [unpack_zero_div hb hb'] at h
    simp [UnpackedFloat.compare] at h
  · obtain ⟨q, E, h', hdiv, hlex⟩ := unpack_div hpos ha hb hb'
    rw [hdiv, compare_finite_le] at h
    by_contra hlt
    have hbelow : (a : ℚ) / b < ((2 ^ 53 - 1 : Nat) : ℚ) * 2 ^ (-53 : Int) := by
      have hbq : (0 : ℚ) < b := by exact_mod_cast hb
      have hab : (a : ℚ) + 1 ≤ b := by exact_mod_cast not_le.1 hlt
      have hbq' : (b : ℚ) < 9007199254740992 := by exact_mod_cast hb'
      rw [div_lt_iff₀ hbq, zpow_neg, ← div_eq_mul_inv, div_mul_eq_mul_div, lt_div_iff₀ (by positivity)]
      norm_num only [Nat.cast_sub]
      linarith
    have := hlex _ _ ⟨by omega, .inl (by omega)⟩ hbelow
    omega

end Binary64
