/-
Horner's scheme with the index for the multiplier: each step multiplies what it
has by the number of terms so far and adds the next one. The term at `j` out of
`n` ends up with the coefficient `(n - 1)! / j!`, a product of consecutive
numbers, so modulo any divisor of `k!` only the last `k` terms count.
-/
import Mathlib.Data.List.GetD
import Mathlib.Data.Nat.Factorial.Basic
import Mathlib.Algebra.BigOperators.ModEq
import Mathlib.Algebra.BigOperators.Group.Finset.Basic

namespace Horner

open scoped Nat

/-- The terms from index `i` on, over what the ones before them came to. -/
def eval : (i acc : Nat) → List Nat → Nat
  | _, acc, [] => acc
  | i, acc, c :: cs => eval (i + 1) (i * acc + c) cs

theorem eval_append (i acc : Nat) (cs ds : List Nat) :
    eval i acc (cs ++ ds) = eval (i + cs.length) (eval i acc cs) ds := by
  induction cs generalizing i acc with
  | nil => rfl
  | cons c cs ih =>
    rw [List.cons_append, eval, ih, eval, List.length_cons, Nat.add_assoc, Nat.add_comm 1]

theorem eval_snoc (cs : List Nat) (c : Nat) :
    eval 0 0 (cs ++ [c]) = cs.length * eval 0 0 cs + c := by
  rw [eval_append, Nat.zero_add]
  rfl

/-- One more step multiplies the coefficient by one more number. -/
theorem mul_coeff {n j : Nat} (hj : j < n) : n * ((n - 1)! / j !) = n ! / j ! := by
  rw [← Nat.mul_div_assoc _ (Nat.factorial_dvd_factorial (by omega)),
    Nat.mul_factorial_pred (by omega)]

theorem eval_eq_sum (cs : List Nat) :
    eval 0 0 cs = ∑ j ∈ Finset.range cs.length, cs.getD j 0 * ((cs.length - 1)! / j !) := by
  induction cs using List.reverseRecOn with
  | nil => rfl
  | append_singleton cs c ih =>
    rw [eval_snoc, ih, List.length_append, List.length_singleton, Nat.add_sub_cancel,
      Finset.sum_range_succ, Finset.mul_sum]
    congr 1
    · refine Finset.sum_congr rfl fun j hj => ?_
      have hj : j < cs.length := Finset.mem_range.1 hj
      rw [Nat.mul_left_comm, mul_coeff hj, List.getD_append _ _ _ _ hj]
    · -- The term just added has the empty product.
      rw [Nat.div_self (Nat.factorial_pos _), Nat.mul_one, List.getD_append_right _ _ _ _ le_rfl,
        Nat.sub_self]
      rfl

/-- Among `n`, `n - 1`, …, `j + 1` there are at least `k` numbers in a row. -/
theorem factorial_dvd_coeff {j k n : Nat} (h : j + k ≤ n) : k ! ∣ n ! / j ! := by
  have hdesc : n.descFactorial (n - j) = n ! / j ! := by
    rw [Nat.descFactorial_eq_div (by omega), Nat.sub_sub_self (by omega)]
  rw [← hdesc]
  calc k ! ∣ (n - j)! := Nat.factorial_dvd_factorial (by omega)
    _ ∣ n.descFactorial (n - j) := Nat.factorial_dvd_descFactorial n (n - j)

/-- Modulo a divisor of `k!` only the last `k` terms count. -/
theorem eval_modEq {k m : Nat} (hm : m ∣ k !) {cs ds : List Nat} (hlen : cs.length = ds.length)
    (h : ∀ j, cs.length ≤ j + k → cs.getD j 0 = ds.getD j 0) :
    eval 0 0 cs ≡ eval 0 0 ds [MOD m] := by
  rw [eval_eq_sum, eval_eq_sum, ← hlen]
  refine Nat.ModEq.sum fun j hj => ?_
  have hj : j < cs.length := Finset.mem_range.1 hj
  by_cases hlast : cs.length ≤ j + k
  · rw [h j hlast]
  · have hcoeff : m ∣ (cs.length - 1)! / j ! := hm.trans (factorial_dvd_coeff (by omega))
    have hzero : ∀ c : Nat, c * ((cs.length - 1)! / j !) ≡ 0 [MOD m] := fun c =>
      (Nat.modEq_zero_iff_dvd).2 (hcoeff.mul_left c)
    exact (hzero _).trans (hzero _).symm

end Horner
