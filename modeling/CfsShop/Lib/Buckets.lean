/-
Hash tables with chaining, as lists of buckets.

What such a table holds is `flatten` of it, and the order does not matter, so
every operation on a bucket has a lemma that says what it does to `flatten` up
to a permutation. `Placed f` is the invariant that each entry is in the bucket
`f` sends it to: it is what makes looking in one bucket enough.
-/
import Mathlib.Data.List.Basic
import Mathlib.Data.List.Nodup
import Mathlib.Data.List.Perm.Basic
import Mathlib.Tactic.Common

namespace Buckets

variable {α : Type} {t : List (List α)} {i : Nat} {b c : List α}

/-! ## What a table holds -/

/-- A bucket, and the table with the bucket emptied. -/
theorem flatten_perm (h : t[i]? = some b) : t.flatten.Perm (b ++ (t.set i []).flatten) := by
  induction t generalizing i with
  | nil => simp at h
  | cons a t ih =>
    cases i with
    | zero =>
      rw [List.getElem?_cons_zero, Option.some.injEq] at h
      subst h
      simp
    | succ i =>
      rw [List.getElem?_cons_succ] at h
      rw [List.set_cons_succ, List.flatten_cons, List.flatten_cons]
      calc (a ++ t.flatten).Perm (a ++ (b ++ (t.set i []).flatten)) := (ih h).append_left a
        _ = (a ++ b) ++ (t.set i []).flatten := (List.append_assoc ..).symm
        List.Perm _ ((b ++ a) ++ (t.set i []).flatten) := List.perm_append_comm.append_right _
        _ = b ++ (a ++ (t.set i []).flatten) := List.append_assoc ..

theorem flatten_set_perm (h : i < t.length) (c : List α) :
    (t.set i c).flatten.Perm (c ++ (t.set i []).flatten) := by
  have hget : (t.set i c)[i]? = some c := List.getElem?_set_self h
  have hperm := flatten_perm hget
  rwa [List.set_set] at hperm

/-- Another bucket in a bucket's place, where the two are the same up to something. -/
theorem flatten_set_of_perm (h : t[i]? = some b) {x y : List α} (hbc : (x ++ b).Perm (y ++ c)) :
    (x ++ t.flatten).Perm (y ++ (t.set i c).flatten) := by
  have hlt : i < t.length := (List.getElem?_eq_some_iff.1 h).1
  calc (x ++ t.flatten).Perm (x ++ (b ++ (t.set i []).flatten)) := (flatten_perm h).append_left x
    _ = (x ++ b) ++ (t.set i []).flatten := (List.append_assoc ..).symm
    List.Perm _ ((y ++ c) ++ (t.set i []).flatten) := hbc.append_right _
    _ = y ++ (c ++ (t.set i []).flatten) := List.append_assoc ..
    List.Perm _ (y ++ (t.set i c).flatten) := (flatten_set_perm hlt c).symm.append_left y

@[simp] theorem flatten_replicate_nil (n : Nat) : (List.replicate n ([] : List α)).flatten = [] := by
  rw [List.flatten_eq_nil_iff]
  intro b hb
  exact List.eq_of_mem_replicate hb

/-! ## Where the entries are -/

/-- Each entry is in the bucket `f` sends it to. -/
def Placed (f : α → Nat) (t : List (List α)) : Prop := ∀ i b, t[i]? = some b → ∀ a ∈ b, f a = i

variable {f : α → Nat}

theorem Placed.replicate_nil (n : Nat) : Placed f (List.replicate n []) := by
  intro i b hb a ha
  rw [List.getElem?_replicate] at hb
  split at hb
  · rw [Option.some.injEq] at hb
    subst hb
    exact absurd ha List.not_mem_nil
  · exact absurd hb (by simp)

theorem Placed.nil : Placed f [] := Placed.replicate_nil 0

theorem Placed.set (h : Placed f t) (hc : ∀ a ∈ c, f a = i) : Placed f (t.set i c) := by
  intro j b hb a ha
  rw [List.getElem?_set] at hb
  split at hb
  · next hij =>
    split at hb
    · rw [Option.some.injEq] at hb
      subst hb hij
      exact hc a ha
    · exact absurd hb (by simp)
  · exact h j b hb a ha

/-- An entry is in the table when it is in its own bucket. -/
theorem Placed.mem_flatten_iff (h : Placed f t) (a : α) :
    a ∈ t.flatten ↔ ∃ b, t[f a]? = some b ∧ a ∈ b := by
  rw [List.mem_flatten]
  constructor
  · intro hx
    obtain ⟨b, hb, ha⟩ := hx
    obtain ⟨i, hi⟩ := List.mem_iff_getElem?.1 hb
    rw [h i b hi a ha]
    exact ⟨b, hi, ha⟩
  · intro hx
    obtain ⟨b, hb, ha⟩ := hx
    exact ⟨b, List.mem_of_getElem? hb, ha⟩

/-- A table whose buckets are all empty holds nothing; if it holds something, some bucket is not. -/
theorem exists_ne_nil (h : t.flatten ≠ []) : ∃ (i : Nat) (b : List α), t[i]? = some b ∧ b ≠ [] := by
  rw [ne_eq, List.flatten_eq_nil_iff] at h
  push Not at h
  obtain ⟨b, hb, hne⟩ := h
  obtain ⟨i, hi⟩ := List.mem_iff_getElem?.1 hb
  exact ⟨i, b, hi, hne⟩

end Buckets
