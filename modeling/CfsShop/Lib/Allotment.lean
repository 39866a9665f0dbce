/-
First come, first served: a number of units is given out one to a comer, no
comer getting two, until they are gone.

What a finished allotment looks like has a closed form (`holders_offerAll`,
`left_offerAll`): the first distinct newcomers, as many as there were units.
-/
import Mathlib.Data.List.Induction
import Mathlib.Data.List.Nodup
import Mathlib.Tactic.Common

/-- Units left (a number at or below 0 is none) and who holds one, in order. -/
structure Allotment (υ : Type) where
  left : Int
  holders : List υ

namespace Allotment

variable {υ : Type} [DecidableEq υ]

/-- A comer. -/
def offer (a : Allotment υ) (u : υ) : Allotment υ :=
  if a.left ≤ 0 then a else if u ∈ a.holders then a else ⟨a.left - 1, a.holders ++ [u]⟩

/-- Comers in order. -/
def offerAll (a : Allotment υ) (us : List υ) : Allotment υ := us.foldl offer a

/-- The distinct comers that hold nothing yet, by first arrival. -/
def newcomers (holders us : List υ) : List υ := us.eraseDups.filter fun u => u ∉ holders

@[simp] theorem offerAll_nil (a : Allotment υ) : a.offerAll [] = a := rfl

theorem offerAll_append (a : Allotment υ) (us us' : List υ) :
    a.offerAll (us ++ us') = (a.offerAll us).offerAll us' := List.foldl_append

theorem offerAll_concat (a : Allotment υ) (us : List υ) (u : υ) :
    a.offerAll (us ++ [u]) = (a.offerAll us).offer u := by simp [offerAll]

theorem mem_newcomers {holders us : List υ} {u : υ} :
    u ∈ newcomers holders us ↔ u ∈ us ∧ u ∉ holders := by
  simp [newcomers]

/-- Who has come before, or holds one already, is no newcomer. -/
theorem newcomers_concat (holders us : List υ) (u : υ) :
    newcomers holders (us ++ [u]) =
      if u ∈ holders ∨ u ∈ us then newcomers holders us else newcomers holders us ++ [u] := by
  rw [newcomers, List.eraseDups_append, List.filter_append]
  by_cases hu : u ∈ us
  · simp [hu, newcomers, List.removeAll]
  · by_cases hh : u ∈ holders
    · simp [hu, hh, newcomers, List.removeAll, List.eraseDups_cons]
    · simp [hu, hh, newcomers, List.removeAll, List.eraseDups_cons]

theorem nodup_newcomers (holders us : List υ) : (newcomers holders us).Nodup := by
  induction us using List.reverseRecOn with
  | nil => exact List.nodup_nil
  | append_singleton us u ih =>
    rw [newcomers_concat]
    split
    · exact ih
    · next hu =>
      rw [← List.concat_eq_append, List.nodup_concat, mem_newcomers]
      exact ⟨fun hm => hu (.inr hm.1), ih⟩

/-- The state after the comers, both fields at once (each needs the other in the induction). -/
theorem offerAll_eq (n : Int) (h us : List υ) :
    (⟨n, h⟩ : Allotment υ).offerAll us =
      ⟨n - ((newcomers h us).take n.toNat).length, h ++ (newcomers h us).take n.toNat⟩ := by
  induction us using List.reverseRecOn with
  | nil => simp [newcomers]
  | append_singleton us u ih =>
    rw [offerAll_concat, ih, newcomers_concat]
    have hlen : ((newcomers h us).take n.toNat).length = min n.toNat (newcomers h us).length :=
      List.length_take
    by_cases hleft : n - (((newcomers h us).take n.toNat).length : Int) ≤ 0
    · -- Nothing left: the newcomer is one too many.
      have hfull : n.toNat ≤ (newcomers h us).length := by omega
      have htake : (newcomers h us ++ [u]).take n.toNat = (newcomers h us).take n.toNat :=
        List.take_append_of_le_length hfull
      simp only [offer, if_pos hleft]
      split <;> simp [htake]
    · have hall : (newcomers h us).length < n.toNat := by omega
      have htake : (newcomers h us).take n.toNat = newcomers h us := List.take_of_length_le (by omega)
      have htake' : (newcomers h us ++ [u]).take n.toNat = newcomers h us ++ [u] :=
        List.take_of_length_le (by simp; omega)
      rw [htake] at hleft ⊢
      simp only [offer, if_neg hleft]
      by_cases hu : u ∈ h ∨ u ∈ us
      · have hmem : u ∈ h ++ newcomers h us := by
          rw [List.mem_append, mem_newcomers]
          tauto
        simp [hu, hmem, htake]
      · have hmem : u ∉ h ++ newcomers h us := by
          rw [List.mem_append, mem_newcomers]
          tauto
        simp only [if_neg hu, if_neg hmem, htake', List.append_assoc, List.length_append,
          List.length_singleton]
        congr 1
        omega

theorem holders_offerAll (a : Allotment υ) (us : List υ) :
    (a.offerAll us).holders = a.holders ++ (newcomers a.holders us).take a.left.toNat :=
  congrArg holders (offerAll_eq a.left a.holders us)

theorem left_offerAll (a : Allotment υ) (us : List υ) :
    (a.offerAll us).left = a.left - ((newcomers a.holders us).take a.left.toNat).length :=
  congrArg left (offerAll_eq a.left a.holders us)

/-- The units are gone once there were as many newcomers. -/
theorem left_offerAll_nonpos {a : Allotment υ} {us : List υ} :
    (a.offerAll us).left ≤ 0 ↔ a.left ≤ (newcomers a.holders us).length := by
  rw [left_offerAll, List.length_take]
  omega

/-- Who came once gains nothing by coming again. -/
theorem offer_again {a : Allotment υ} {us : List υ} {u : υ} (hu : u ∈ us) :
    (a.offerAll us).offer u = a.offerAll us := by
  rw [← offerAll_concat]
  obtain ⟨n, h⟩ := a
  rw [offerAll_eq, offerAll_eq, newcomers_concat, if_pos (.inr hu)]

end Allotment
