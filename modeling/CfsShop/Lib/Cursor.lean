/-
Cursors that are incremented from their highest bit down, over power-of-two
tables of changing size.

A bucket of a table of `2^k` is a set of words with the same low `k` bits.
Reversed, these are the words with the same high `k` bits, an interval; so in
the order of the reversed words (`rank`) a cursor only ever moves up, whatever
size the table has at each move, and passes nothing but the buckets it was at.
-/
import Mathlib.Tactic.Common
import Mathlib.Algebra.Order.Ring.Nat
import Mathlib.Algebra.Order.Ring.Int

namespace Cursor

variable {w k : Nat}

/-! ## Masks -/

/-- The low `k` bits. -/
def mask (w k : Nat) : BitVec w := BitVec.ofNat w (2 ^ k - 1)

theorem toNat_mask (hk : k ≤ w) : (mask w k).toNat = 2 ^ k - 1 := by
  have hle : 2 ^ k ≤ 2 ^ w := Nat.pow_le_pow_right (by omega) hk
  have hpos : 0 < 2 ^ k := Nat.two_pow_pos k
  rw [mask, BitVec.toNat_ofNat, Nat.mod_eq_of_lt (by omega)]

theorem toNat_and_mask (v : BitVec w) (hk : k ≤ w) : (v &&& mask w k).toNat = v.toNat % 2 ^ k := by
  rw [BitVec.toNat_and, toNat_mask hk, Nat.and_two_pow_sub_one_eq_mod]

theorem getLsbD_mask (hk : k ≤ w) (i : Nat) : (mask w k).getLsbD i = decide (i < k) := by
  rw [← BitVec.testBit_toNat, toNat_mask hk, Nat.testBit_two_pow_sub_one]

/-! ## The order of the reversed words -/

/-- Where a word comes when the words are taken in the order of their reversals. -/
def rank (v : BitVec w) : Nat := v.reverse.toNat

theorem rank_lt (v : BitVec w) : rank v < 2 ^ w := v.reverse.isLt

@[simp] theorem rank_zero : rank (0 : BitVec w) = 0 := by
  have h : (0 : BitVec w).reverse = 0 := BitVec.reverse_eq_zero_iff.2 rfl
  rw [rank, h]
  rfl

theorem eq_zero_of_rank {v : BitVec w} (h : rank v = 0) : v = 0 :=
  BitVec.reverse_eq_zero_iff.1 (BitVec.eq_of_toNat_eq h)

theorem testBit_rank (v : BitVec w) {i : Nat} (hi : i < w) :
    (rank v).testBit i = v.getLsbD (w - 1 - i) := by
  rw [rank, BitVec.testBit_toNat, BitVec.getLsbD_reverse, BitVec.getMsbD]
  simp [hi]

/-- The words of one bucket are an interval. -/
theorem and_mask_eq_iff (u v : BitVec w) (hk : k ≤ w) :
    u &&& mask w k = v &&& mask w k ↔ rank u / 2 ^ (w - k) = rank v / 2 ^ (w - k) := by
  constructor
  · intro h
    apply Nat.eq_of_testBit_eq
    intro i
    rw [Nat.testBit_div_two_pow, Nat.testBit_div_two_pow]
    by_cases hi : i + (w - k) < w
    · have hbit := congrArg (fun x => x.getLsbD (w - 1 - (i + (w - k)))) h
      have hlow : w - 1 - (i + (w - k)) < k := by omega
      simp only [BitVec.getLsbD_and, getLsbD_mask hk, hlow, decide_true, Bool.and_true] at hbit
      rw [testBit_rank _ hi, testBit_rank _ hi, hbit]
    · have hge : 2 ^ w ≤ 2 ^ (i + (w - k)) := Nat.pow_le_pow_right (by omega) (by omega)
      rw [Nat.testBit_lt_two_pow ((rank_lt u).trans_le hge),
        Nat.testBit_lt_two_pow ((rank_lt v).trans_le hge)]
  · intro h
    apply BitVec.eq_of_getLsbD_eq
    intro i hi
    rw [BitVec.getLsbD_and, BitVec.getLsbD_and, getLsbD_mask hk]
    by_cases hik : i < k
    · have hbit := congrArg (·.testBit (k - 1 - i)) h
      have hlow : k - 1 - i + (w - k) = w - 1 - i := by omega
      simp only [Nat.testBit_div_two_pow, hlow, testBit_rank u (by omega : w - 1 - i < w),
        testBit_rank v (by omega : w - 1 - i < w)] at hbit
      have hback : w - 1 - (w - 1 - i) = i := by omega
      rw [hback] at hbit
      rw [hbit]
    · simp [hik]

/-! ## Moving on -/

/-- The cursor after a table of `2^k`: the reversed word is incremented at its `k`th bit. -/
def next (k : Nat) (v : BitVec w) : BitVec w := ((v ||| ~~~mask w k).reverse + 1).reverse

/-- The bits out of the mask set, the reversed word is the last of its interval. -/
theorem rank_or_not_mask (v : BitVec w) (hk : k ≤ w) :
    rank (v ||| ~~~mask w k) = 2 ^ (w - k) * (rank v / 2 ^ (w - k)) + (2 ^ (w - k) - 1) := by
  have hpos : 0 < 2 ^ (w - k) := Nat.two_pow_pos _
  apply Nat.eq_of_testBit_eq
  intro i
  rw [Nat.two_pow_add_eq_or_of_lt (by omega), Nat.testBit_or, Nat.testBit_two_pow_sub_one,
    Nat.testBit_two_pow_mul, Nat.testBit_div_two_pow]
  by_cases hi : i < w
  · rw [testBit_rank _ hi, BitVec.getLsbD_or, BitVec.getLsbD_not, getLsbD_mask hk]
    by_cases hik : w - k ≤ i
    · have hin : i - (w - k) + (w - k) = i := by omega
      have hlow : w - 1 - i < k := by omega
      have hnot : ¬ i < w - k := by omega
      rw [hin, testBit_rank _ hi]
      simp [hik, hlow, hnot]
    · have hhigh : ¬ w - 1 - i < k := by omega
      have hlt : i < w - k := by omega
      have hw : w - 1 - i < w := by omega
      simp [hik, hhigh, hlt, hw]
  · have hge : 2 ^ w ≤ 2 ^ i := Nat.pow_le_pow_right (by omega) (by omega)
    have hin : i - (w - k) + (w - k) = i := by omega
    have hnot : ¬ i < w - k := by omega
    rw [Nat.testBit_lt_two_pow ((rank_lt _).trans_le hge), hin,
      Nat.testBit_lt_two_pow ((rank_lt _).trans_le hge)]
    simp [hnot]

theorem rank_next (v : BitVec w) (hk : k ≤ w) :
    rank (next k v) = 2 ^ (w - k) * (rank v / 2 ^ (w - k) + 1) % 2 ^ w := by
  have hpos : 0 < 2 ^ (w - k) := Nat.two_pow_pos _
  have hor := rank_or_not_mask v hk
  rw [rank] at hor
  rw [rank, next, BitVec.reverse_reverse_eq, BitVec.toNat_add, hor, Nat.mul_add, Nat.mul_one]
  rcases Nat.eq_zero_or_pos w with rfl | hw
  · simp [Nat.mod_one]
  · have hone : (1 : BitVec w).toNat = 1 := by
      have : 1 < 2 ^ w := Nat.one_lt_two_pow (by omega)
      simpa using Nat.mod_eq_of_lt this
    rw [hone, Nat.add_assoc, Nat.sub_add_cancel hpos]

/-- Unless it is back at 0, the cursor has come to the end of the interval it was in. -/
theorem rank_next_of_ne_zero {v : BitVec w} (hk : k ≤ w) (h : next k v ≠ 0) :
    rank (next k v) = 2 ^ (w - k) * (rank v / 2 ^ (w - k) + 1) := by
  have hrank := rank_next v hk
  have hquot : rank v / 2 ^ (w - k) < 2 ^ k := by
    rw [Nat.div_lt_iff_lt_mul (Nat.two_pow_pos _), ← Nat.pow_add, Nat.add_sub_cancel' hk]
    exact rank_lt v
  have hle : 2 ^ (w - k) * (rank v / 2 ^ (w - k) + 1) ≤ 2 ^ w := by
    calc 2 ^ (w - k) * (rank v / 2 ^ (w - k) + 1) ≤ 2 ^ (w - k) * 2 ^ k :=
          Nat.mul_le_mul_left _ hquot
      _ = 2 ^ w := by rw [← Nat.pow_add, Nat.sub_add_cancel hk]
  rcases Nat.lt_or_eq_of_le hle with hlt | heq
  · rw [hrank, Nat.mod_eq_of_lt hlt]
  · rw [heq, Nat.mod_self] at hrank
    exact absurd (eq_zero_of_rank hrank) h

/-- The words of the bucket a cursor was at are behind it once it has moved on. -/
theorem rank_lt_rank_next {u v : BitVec w} (hk : k ≤ w) (hat : u &&& mask w k = v &&& mask w k)
    (h : next k v ≠ 0) : rank u < rank (next k v) := by
  rw [rank_next_of_ne_zero hk h, ← (and_mask_eq_iff u v hk).1 hat]
  exact Nat.lt_mul_div_succ _ (Nat.two_pow_pos _)

/-- A word that is still ahead is in the bucket the cursor is at, or still ahead after the move;
and then the move was not the last. -/
theorem visit_or_ahead {u v : BitVec w} (hk : k ≤ w) (hu : rank v ≤ rank u) :
    u &&& mask w k = v &&& mask w k ∨ next k v ≠ 0 ∧ rank (next k v) ≤ rank u := by
  by_cases hat : rank u / 2 ^ (w - k) = rank v / 2 ^ (w - k)
  · exact .inl ((and_mask_eq_iff u v hk).2 hat)
  · right
    have hblock : rank v / 2 ^ (w - k) + 1 ≤ rank u / 2 ^ (w - k) :=
      Nat.lt_of_le_of_ne (Nat.div_le_div_right hu) (Ne.symm hat)
    -- The end of this interval is not past the word, so it is not the end of all.
    have hahead : 2 ^ (w - k) * (rank v / 2 ^ (w - k) + 1) ≤ rank u :=
      (Nat.mul_le_mul_left _ hblock).trans (Nat.mul_div_le _ _)
    have hrank : rank (next k v) = 2 ^ (w - k) * (rank v / 2 ^ (w - k) + 1) := by
      rw [rank_next v hk, Nat.mod_eq_of_lt (hahead.trans_lt (rank_lt u))]
    refine ⟨?_, hrank ▸ hahead⟩
    intro hzero
    rw [hzero, rank_zero] at hrank
    exact absurd hrank.symm (Nat.mul_ne_zero (Nat.two_pow_pos _).ne' (Nat.succ_ne_zero _))

/-! ## Cursors at the start of a bucket -/

/-- The cursor is the first word of its bucket in a table of `2^k`. -/
def AtStart (k : Nat) (v : BitVec w) : Prop := 2 ^ (w - k) ∣ rank v

theorem atStart_zero (k : Nat) : AtStart k (0 : BitVec w) := by
  rw [AtStart, rank_zero]
  exact Nat.dvd_zero _

theorem AtStart.mono {k' : Nat} {v : BitVec w} (h : AtStart k v) (hk : k ≤ k') : AtStart k' v :=
  (Nat.pow_dvd_pow 2 (by omega)).trans h

theorem atStart_next (v : BitVec w) (hk : k ≤ w) : AtStart k (next k v) := by
  by_cases h : next k v = 0
  · rw [h]
    exact atStart_zero k
  · rw [AtStart, rank_next_of_ne_zero hk h]
    exact Nat.dvd_mul_right _ _

/-- A cursor at the start of a bucket has no bits above the mask. -/
theorem AtStart.getLsbD {v : BitVec w} (h : AtStart k v) {i : Nat} (hi : k ≤ i) : v.getLsbD i = false := by
  by_cases hiw : i < w
  · obtain ⟨a, ha⟩ := h
    have hback : w - 1 - (w - 1 - i) = i := by omega
    have hbit := testBit_rank v (by omega : w - 1 - i < w)
    rw [hback, ha, Nat.testBit_two_pow_mul] at hbit
    rw [← hbit, decide_eq_false (by omega), Bool.false_and]
  · exact BitVec.getLsbD_of_ge v i (Nat.not_lt.1 hiw)

theorem AtStart.rank_le {u v : BitVec w} (h : AtStart k v) (hk : k ≤ w)
    (hat : u &&& mask w k = v &&& mask w k) : rank v ≤ rank u := by
  have hdiv := (and_mask_eq_iff u v hk).1 hat
  calc rank v = 2 ^ (w - k) * (rank v / 2 ^ (w - k)) := (Nat.mul_div_cancel' h).symm
    _ = 2 ^ (w - k) * (rank u / 2 ^ (w - k)) := by rw [hdiv]
    _ ≤ rank u := Nat.mul_div_le _ _

/-- A move that is not the last takes the cursor up by at least a bucket of a larger table. -/
theorem AtStart.add_le_rank_next {K : Nat} {v : BitVec w} (h : AtStart K v) (hK : K ≤ w) (hk : k ≤ K)
    (hne : next k v ≠ 0) : rank v + 2 ^ (w - K) ≤ rank (next k v) := by
  obtain ⟨a, ha⟩ := h
  obtain ⟨b, hb⟩ := (atStart_next v (hk.trans hK)).mono hk
  have hlt := rank_lt_rank_next (hk.trans hK) rfl hne
  rw [ha, hb] at hlt ⊢
  have hab : a + 1 ≤ b := Nat.lt_of_mul_lt_mul_left hlt
  calc 2 ^ (w - K) * a + 2 ^ (w - K) = 2 ^ (w - K) * (a + 1) := rfl
    _ ≤ 2 ^ (w - K) * b := Nat.mul_le_mul_left _ hab

end Cursor
