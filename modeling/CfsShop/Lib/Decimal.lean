/-
Numbers as decimal text, and two of them joined by an underscore: nothing is
lost, so such a text can serve as a key for the pair, and a reader that knows
the ten digits gets the number back.
-/
import Mathlib.Data.List.Basic
import Mathlib.Tactic.Common

namespace Decimal

theorem digits_injective {m n : Nat} (h : Nat.toDigits 10 m = Nat.toDigits 10 n) : m = n := by
  rw [← Nat.ofDigitChars_toDigits (b := 10) (n := m) (by omega) (by omega), h,
    Nat.ofDigitChars_toDigits (by omega) (by omega)]

theorem minus_not_mem_digits (n : Nat) : '-' ∉ Nat.toDigits 10 n := by
  intro h
  have := Nat.isDigit_of_mem_toDigits (by omega) (by omega) h
  simp at this

theorem toList_repr (a : Int) :
    a.repr.toList = match a with
      | .ofNat m => Nat.toDigits 10 m
      | .negSucc m => '-' :: Nat.toDigits 10 (m + 1) := by
  cases a with
  | ofNat m => simp [Int.repr]
  | negSucc m => simp [Int.repr]

theorem toString_injective {a b : Int} (h : toString a = toString b) : a = b := by
  rw [Int.toString_eq_repr, Int.toString_eq_repr, ← String.toList_inj, toList_repr, toList_repr] at h
  cases a with
  | ofNat m =>
    cases b with
    | ofNat n => exact congrArg Int.ofNat (digits_injective h)
    | negSucc n =>
      simp only at h
      exact absurd (h ▸ List.mem_cons_self) (minus_not_mem_digits m)
  | negSucc m =>
    cases b with
    | ofNat n =>
      simp only at h
      exact absurd (h ▸ List.mem_cons_self) (minus_not_mem_digits n)
    | negSucc n =>
      simp only [List.cons.injEq, true_and] at h
      have := digits_injective h
      rw [Int.negSucc.injEq]
      omega

theorem minus_or_isDigit_of_mem {a : Int} {c : Char} (h : c ∈ (toString a).toList) :
    c = '-' ∨ c.isDigit = true := by
  rw [Int.toString_eq_repr, toList_repr] at h
  cases a with
  | ofNat m => exact .inr (Nat.isDigit_of_mem_toDigits (by omega) (by omega) h)
  | negSucc m =>
    rcases List.mem_cons.1 h with hc | hc
    · exact .inl hc
    · exact .inr (Nat.isDigit_of_mem_toDigits (by omega) (by omega) hc)

/-- Reading digits from the left, whatever else `digit` may take for one. -/
theorem foldlM_digit {digit : Char → Option Nat}
    (hdigit : ∀ c : Char, c.isDigit = true → digit c = some (c.toNat - '0'.toNat)) {cs : List Char}
    (hcs : ∀ c ∈ cs, c.isDigit = true) (n : Nat) :
    cs.foldlM (fun n c => (digit c).map (10 * n + ·)) n = some (Nat.ofDigitChars 10 cs n) := by
  induction cs generalizing n with
  | nil => rfl
  | cons c cs ih =>
    rw [List.forall_mem_cons] at hcs
    rw [List.foldlM_cons, hdigit c hcs.1, Nat.ofDigitChars_cons]
    exact ih hcs.2 _

theorem isDigit_iff {c : Char} : c.isDigit = true ↔ '0'.toNat ≤ c.toNat ∧ c.toNat ≤ '9'.toNat := by
  simp [Char.isDigit, UInt32.le_iff_toNat_le]

theorem digitChar_of_isDigit {c : Char} (h : c.isDigit = true) :
    Nat.digitChar (c.toNat - '0'.toNat) = c := by
  rw [isDigit_iff] at h
  obtain ⟨hle, hge⟩ := h
  have hinj : ∀ n : Fin 10, (Nat.digitChar n).toNat = n + '0'.toNat := by decide
  apply Char.toNat_inj.1
  have hn : c.toNat - '0'.toNat < 10 := by
    have : '9'.toNat = 57 := rfl
    have : '0'.toNat = 48 := rfl
    omega
  rw [hinj ⟨_, hn⟩]
  exact Nat.sub_add_cancel hle

/-- Reading further digits after a number appends them to its text. -/
theorem toDigits_ofDigitChars {cs : List Char} (hcs : ∀ c ∈ cs, c.isDigit = true) :
    ∀ {v : Nat}, 0 < v → Nat.toDigits 10 (Nat.ofDigitChars 10 cs v) = Nat.toDigits 10 v ++ cs := by
  induction cs with
  | nil => simp
  | cons c cs ih =>
    intro v hv
    rw [List.forall_mem_cons] at hcs
    have hd : c.toNat - '0'.toNat < 10 := by
      have := (isDigit_iff.1 hcs.1).2
      have : '9'.toNat = 57 := rfl
      have : '0'.toNat = 48 := rfl
      omega
    rw [Nat.ofDigitChars_cons, ih hcs.2 (by omega), ← Nat.toDigits_append_toDigits (by omega) hv hd,
      Nat.toDigits_of_lt_base hd, digitChar_of_isDigit hcs.1, List.append_assoc, List.singleton_append]

/-- A number that is not 0 does not start with a 0. -/
theorem exists_toDigits {n : Nat} (hn : 0 < n) :
    ∃ c cs, Nat.toDigits 10 n = c :: cs ∧ c.isDigit = true ∧ c ≠ '0' ∧ ∀ c' ∈ cs, c'.isDigit = true := by
  induction n using Nat.strongRecOn with
  | ind n ih =>
    rw [Nat.toDigits_eq_if (by omega)]
    split
    · next hlt =>
      refine ⟨n.digitChar, [], rfl, by simp [hlt], ?_, by simp⟩
      rw [ne_eq, Nat.digitChar_eq_zero]
      omega
    · next hge =>
      obtain ⟨c, cs, heq, hc, hne, hcs⟩ := ih (n / 10) (by omega) (by omega)
      refine ⟨c, cs ++ [(n % 10).digitChar], by rw [heq, List.cons_append], hc, hne, ?_⟩
      rw [List.forall_mem_append, List.forall_mem_singleton]
      exact ⟨hcs, by simp [Nat.mod_lt]⟩

theorem underscore_not_mem (a : Int) : '_' ∉ (toString a).toList := by
  rw [Int.toString_eq_repr, toList_repr]
  cases a with
  | ofNat m => exact Nat.underscore_not_in_toDigits
  | negSucc m =>
    rw [List.mem_cons, not_or]
    exact ⟨by decide, Nat.underscore_not_in_toDigits⟩

/-- The underscore can only be the one in the middle. -/
theorem joined_injective {a b c d : Int}
    (h : toString a ++ "_" ++ toString b = toString c ++ "_" ++ toString d) : a = c ∧ b = d := by
  have hlist : (toString a).toList ++ '_' :: (toString b).toList =
      (toString c).toList ++ '_' :: (toString d).toList := by
    have := congrArg String.toList h
    simpa [String.toList_append, -Int.toString_eq_repr] using this
  rw [List.append_cons_inj_of_notMem (underscore_not_mem a) (underscore_not_mem b)] at hlist
  exact ⟨toString_injective (String.toList_inj.1 hlist.1),
    toString_injective (String.toList_inj.1 hlist.2.2)⟩

end Decimal
