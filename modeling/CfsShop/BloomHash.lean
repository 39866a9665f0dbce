/-
What `BloomFileter.hash` depends on. Its loop multiplies by the index, where a
string hash multiplies by a constant, so the character at `j` out of `n` is
weighted by `(n - 1)! / j!`, and in an `int` the weight of all but the last 34
characters is zero.

`hash_sees_tail` is the result: strings of one length with the same last 34
characters are one string to the filter, whatever the seeds and the size. The
rates documented at `MisjudgmentRate` are those of a hash that spreads.
-/
import CfsShop.BloomFileter
import CfsShop.Lib.Horner
import Mathlib.Algebra.BigOperators.Fin

namespace CfsShop.BloomFileter

open scoped Nat

variable {s s' : JString}

/-! ## The loop -/

/-- The loop is Horner's scheme with the index for the multiplier; its `int` index wraps with the
rest. -/
theorem hashLoop_eq_eval (i acc : Nat) (s : JString) :
    hashLoop (.ofNat i) (.ofNat acc) s = .ofNat (Horner.eval i acc (s.map (·.toNat))) := by
  induction s generalizing i acc with
  | nil => rfl
  | cons c s ih =>
    have hi : Int32.ofNat i + 1 = .ofNat (i + 1) := (Int32.ofNat_add i 1).symm
    have hacc : Int32.ofNat i * .ofNat acc + .ofNat c.toNat = .ofNat (i * acc + c.toNat) := by
      rw [Int32.ofNat_add, Int32.ofNat_mul]
    rw [hashLoop, hi, hacc, ih, List.map_cons, Horner.eval]

theorem toNat_hashLoop (s : JString) :
    (hashLoop 0 0 s).toUInt32.toNat = Horner.eval 0 0 (s.map (·.toNat)) % 2 ^ 32 := by
  have h : hashLoop 0 0 s = .ofNat (Horner.eval 0 0 (s.map (·.toNat))) := hashLoop_eq_eval 0 0 s
  rw [h, Int32.toUInt32_ofNat', UInt32.toNat_ofNat']

theorem toNat_hashLoop_eq_sum (s : JString) :
    (hashLoop 0 0 s).toUInt32.toNat =
      (∑ j : Fin s.length, (s.get j).toNat * ((s.length - 1)! / (j : Nat)!)) % 2 ^ 32 := by
  rw [toNat_hashLoop, Horner.eval_eq_sum, List.length_map, Finset.sum_range]
  congr 1
  refine Finset.sum_congr rfl fun j _ => ?_
  congr 1
  rw [List.getD_eq_getElem _ _ (by simp), List.getElem_map]
  rfl

theorem hashLoop_congr
    (h : (hashLoop 0 0 s').toUInt32.toNat = (hashLoop 0 0 s).toUInt32.toNat) :
    hashLoop 0 0 s' = hashLoop 0 0 s := by
  have := congrArg UInt32.toInt32 (UInt32.toNat_inj.1 h)
  rwa [Int32.toInt32_toUInt32, Int32.toInt32_toUInt32] at this

/-- The index is 0 at the first character and 1 at the second, so the two are only added. -/
theorem hashLoop_swap (a b : UInt16) (t : JString) :
    hashLoop 0 0 (b :: a :: t) = hashLoop 0 0 (a :: b :: t) := by
  have hsum : (0 + 1) * (0 * 0 + Int32.ofNat b.toNat) + Int32.ofNat a.toNat =
      (0 + 1) * (0 * 0 + Int32.ofNat a.toNat) + Int32.ofNat b.toNat := by
    simp only [Int32.zero_mul, Int32.zero_add, Int32.one_mul, Int32.add_comm]
  simp only [hashLoop, hsum]

/-- 34 numbers in a row have 32 factors of two between them. -/
theorem hashLoop_tail (hlen : s'.length = s.length)
    (htail : ∀ j, s.length ≤ j + 34 → s'[j]? = s[j]?) : hashLoop 0 0 s' = hashLoop 0 0 s := by
  have hdvd : 2 ^ 32 ∣ 34 ! := by decide
  apply hashLoop_congr
  rw [toNat_hashLoop, toNat_hashLoop]
  refine Horner.eval_modEq hdvd (by simpa using hlen) fun j hj => ?_
  rw [List.length_map, hlen] at hj
  simp only [List.getD_eq_getElem?_getD, List.getElem?_map, htail j hj]

/-! ## The calls -/

/-- No call on `f` tells `s'` from `s`: the indices, the answers and the filter each leaves are the
same. -/
structure Confuses (f : BloomFileter) (s s' : JString) : Prop where
  index : ∀ seed, (hash s' seed).exec f = (hash s seed).exec f
  add : (add s').exec f = (add s).exec f
  check : (check s').exec f = (check s).exec f
  addIfNotExist : (addIfNotExist s').exec f = (addIfNotExist s).exec f

theorem hash_congr (h : hashLoop 0 0 s' = hashLoop 0 0 s) : hash s' = hash s := by
  funext seed
  rw [hash, hash, h]

theorem checkLoop_congr (h : hash s' = hash s) (seeds : List Int32) :
    checkLoop s' seeds = checkLoop s seeds := by
  induction seeds with
  | nil => rfl
  | cons seed seeds ih => rw [checkLoop, checkLoop, h, ih]

theorem addLoop_congr (h : hash s' = hash s) (indexs : List Int32) (exist : Bool)
    (seeds : List Int32) : addLoop s' indexs exist seeds = addLoop s indexs exist seeds := by
  induction seeds generalizing indexs exist with
  | nil => rfl
  | cons seed seeds ih => simp only [addLoop, h, ih]

/-- A string enters a call through its hash alone. -/
theorem confuses_of_hashLoop (h : hashLoop 0 0 s' = hashLoop 0 0 s) (f : BloomFileter) :
    Confuses f s s' := by
  have hhash := hash_congr h
  refine ⟨fun seed => ?_, ?_, ?_, ?_⟩
  · rw [hhash]
  · rw [add, add, hhash]
  · simp only [check, checkLoop_congr hhash]
  · simp only [addIfNotExist, addLoop_congr hhash]

/-- **What the hash sees.** The loop comes to the sum of the characters, each times `(n - 1)! / j!`,
modulo 2^32. So no filter, whatever its seeds and its size, tells a string from the same with its
first two characters exchanged, nor from one of its length that agrees with it on the last 34
characters, whatever stands before those. -/
theorem hash_sees_tail (s : JString) :
    (hashLoop 0 0 s).toUInt32.toNat =
        (∑ j : Fin s.length, (s.get j).toNat * ((s.length - 1)! / (j : Nat)!)) % 2 ^ 32 ∧
      (∀ a b t, s = a :: b :: t → ∀ f, Confuses f s (b :: a :: t)) ∧
      ∀ s' : JString, s'.length = s.length → (∀ j, s.length ≤ j + 34 → s'[j]? = s[j]?) →
        ∀ f, Confuses f s s' := by
  refine ⟨toNat_hashLoop_eq_sum s, ?_, ?_⟩
  · intro a b t hs f
    rw [hs]
    exact confuses_of_hashLoop (hashLoop_swap a b t) f
  · intro s' hlen htail f
    exact confuses_of_hashLoop (hashLoop_tail hlen htail) f

/-- One letter and 34 more: at 32 bits a string the first is still not seen. -/
theorem hash_sees_tail_of_35 :
    ∃ f, new .HIGH 100 none = .ok f ∧ 0 < f.size ∧
      f.Confuses (97 :: .replicate 34 99) (98 :: .replicate 34 99) := by
  obtain ⟨f, hf, hsize⟩ : ∃ f, new .HIGH 100 none = .ok f ∧ 0 < f.size := ⟨_, rfl, by decide⟩
  have htail : ∀ j, 35 ≤ j + 34 →
      (98 :: .replicate 34 99 : JString)[j]? = (97 :: .replicate 34 99 : JString)[j]? := by
    intro j hj
    obtain ⟨i, rfl⟩ : ∃ i, j = i + 1 := ⟨j - 1, by omega⟩
    rfl
  have hsees := hash_sees_tail (97 :: .replicate 34 99)
  exact ⟨f, hf, hsize, hsees.2.2 (98 :: .replicate 34 99) rfl htail f⟩

/-- Once a string is in a filter with bits, `check` finds every other one with its tail. -/
theorem check_of_tail_added {f : BloomFileter} (hsize : 0 < f.size) (hlen : s'.length = s.length)
    (htail : ∀ j, s.length ≤ j + 34 → s'[j]? = s[j]?) :
    (do add s; check s').exec f = (.ok true, ((add s).exec f).2) := by
  have hmarks := alike_marks f.refreshed (f.positions s)
  have hsize' : 0 < (f.refreshed.marks (f.positions s)).size := by
    rw [hmarks.size, f.alike_refreshed.size]
    exact hsize
  have hadd : (f.refreshed.marks (f.positions s)).Remembers s := by
    rw [← f.alike_refreshed.positions]
    exact remembers_marks f.refreshed s
  simp only [Prog.exec_bind, exec_add hsize]
  rw [(confuses_of_hashLoop (hashLoop_tail hlen htail) _).check, exec_check hsize',
    decide_eq_true hadd]

end CfsShop.BloomFileter
