/-
A refused request should cost nothing: whoever is told that the sale is over,
or that they have their order, or nothing at all because something threw,
should leave as many units behind as they found.

The decrement comes first and no exit gives the unit back, so a refusal is free
only where nobody gets that far with a unit in hand. `refused_iff` has the
exact condition, for one request and for runs.
-/
import CfsShop.Controller

namespace CfsShop

/-- The exits of the controller that sell nothing. -/
def Refused (result : Except Ex (HttpResponse Int)) : Prop :=
  result = .ok (.error CodeMsg.SESSION_ERROR) ∨ result = .ok (.error CodeMsg.MIAO_SHA_OVER) ∨
    result = .ok (.error CodeMsg.REPEATE_MIAOSHA) ∨ ∃ e, result = .error e

/-- Units still to be had. -/
def Web.available (w : Web) : Int := max w.counter 0

theorem Web.available_lost {w : Web} (h : 0 < w.counter) :
    (w.setCounter (w.counter - 1)).available ≠ w.available := by
  simp only [available, counter_setCounter]
  omega

/-- The request takes a unit and then meets one of the exits: the goods has no over-mark or is
marked, the user has an order, or the send fails. -/
def Visit.Wastes (w : Web) (v : Visit) : Prop :=
  ∃ u ∈ v.userId, 0 < w.counter ∧
    (w.localOverMap (some v.goodsId) ≠ some false ∨ w.Ordered u v.goodsId ∨ v.up = false)

instance (w : Web) (v : Visit) : Decidable (v.Wastes w) :=
  inferInstanceAs (Decidable (∃ u ∈ v.userId, _))

namespace Visit.Outcome

variable {w w' : Web} {v : Visit} {r : Except Ex (HttpResponse Int)}

/-- The unit is lost exactly where the request wastes it. -/
theorem available_iff (h : Outcome w v r w') (hr : Refused r) :
    w'.available = w.available ↔ ¬ v.Wastes w := by
  cases h with
  | noSession hu => exact iff_of_true rfl fun ⟨u, hu', _⟩ => by rw [hu] at hu'; cases hu'
  | soldOut hu hle =>
    refine iff_of_true ?_ fun ⟨u, _, hpos, _⟩ => by omega
    simp only [Web.available, Web.counter_putOver, Web.counter_setCounter]
    omega
  | sent => simp [Refused, HttpResponse.success, HttpResponse.error] at hr
  | unknown hu hpos hm =>
    exact iff_of_false (Web.available_lost hpos) (not_not.2 ⟨_, hu, hpos, .inl (by simp [hm])⟩)
  | marked hu hpos hm =>
    exact iff_of_false (Web.available_lost hpos) (not_not.2 ⟨_, hu, hpos, .inl (by simp [hm])⟩)
  | repeated hu hpos hm ho =>
    exact iff_of_false (Web.available_lost hpos) (not_not.2 ⟨_, hu, hpos, .inr (.inl ho)⟩)
  | unsent hu hpos hm ho hup =>
    exact iff_of_false (Web.available_lost hpos) (not_not.2 ⟨_, hu, hpos, .inr (.inr hup)⟩)

/-- A refused request sends nothing. -/
theorem broker_of_refused (h : Outcome w v r w') (hr : Refused r) : w'.broker = w.broker := by
  cases h with
  | sent => simp [Refused, HttpResponse.success, HttpResponse.error] at hr
  | _ => rfl

/-- One that is not refused sends one message, for the unit it took. -/
theorem sent_of_not_refused (h : Outcome w v r w') (hr : ¬ Refused r) :
    0 < w.counter ∧ w'.counter = w.counter - 1 ∧ w'.broker.length = w.broker.length + 1 ∧
      ¬ v.Wastes w := by
  cases h with
  | sent hu hpos hm ho hup =>
    refine ⟨hpos, by simp, by simp, ?_⟩
    intro ⟨u, hu', _, hw⟩
    rw [hu, Option.mem_some_iff] at hu'
    subst hu'
    rcases hw with hw | hw | hw
    · exact hw hm
    · exact ho hw
    · rw [hup] at hw
      cases hw
  | _ => exact absurd (by simp [Refused]) hr

end Visit.Outcome

/-! ## Runs -/

/-- Units still to be had, and messages sent since there were `c₀` of them. -/
def Conserved (w₀ w : Web) : Prop :=
  w.available + ((w.broker.length : Int) - w₀.broker.length) = w₀.counter

instance (w₀ w : Web) : Decidable (Conserved w₀ w) := inferInstanceAs (Decidable (_ = _))

/-- One request keeps the sum exactly when it wastes nothing. -/
theorem Conserved.handle_iff {w₀ w : Web} (h : Conserved w₀ w) (v : Visit) :
    Conserved w₀ (v.handle w) ↔ ¬ v.Wastes w := by
  have ho := v.outcome w
  unfold Conserved at h ⊢
  by_cases hr : Refused (v.answer w)
  · rw [ho.broker_of_refused hr, ← ho.available_iff hr]
    omega
  · obtain ⟨hpos, hcounter, hbroker, hno⟩ := ho.sent_of_not_refused hr
    refine iff_of_true ?_ hno
    rw [hbroker]
    unfold Web.available at h ⊢
    rw [hcounter]
    omega

/-- **Refusals are free, exactly when.** A request handled alone that is refused leaves as many
units as it found if and only if it does not take a unit on its way to the exit. And
over a run of requests the units still to be had and the messages sent add up to what
the counter started with, all along, if and only if that was not negative and no
request of the run wastes a unit. -/
theorem refused_iff (w : Web) :
    (∀ v : Visit, (Refused (v.answer w) → (v.handle w).available = w.available) ↔ ¬ v.Wastes w) ∧
    ∀ vs : List Visit, Run.Always Visit.handle (Conserved w) w vs ↔
      0 ≤ w.counter ∧ Run.Along Visit.handle (fun w v => ¬ v.Wastes w) w vs := by
  constructor
  · intro v
    by_cases hr : Refused (v.answer w)
    · rw [← (v.outcome w).available_iff hr]
      exact ⟨fun h => h hr, fun h _ => h⟩
    · exact iff_of_true (fun h => absurd h hr) ((v.outcome w).sent_of_not_refused hr).2.2.2
  · intro vs
    by_cases hc : 0 ≤ w.counter
    · have hstart : Conserved w w := by
        unfold Conserved Web.available
        omega
      rw [Run.always_iff_along (I := fun _ => True) (fun _ _ _ => trivial)
        (fun w' v _ h => h.handle_iff v) trivial hstart]
      exact ⟨fun h => ⟨hc, h⟩, fun h => h.2⟩
    · refine iff_of_false ?_ fun h => hc h.1
      intro h
      have hstart := h.head
      unfold Conserved Web.available at hstart
      omega

/-- One unit, and a request for a goods the shop does not have: it ends with an exception, the
unit is gone, and nothing has been sent. -/
theorem unknown_goods_takes_the_unit :
    let v : Visit := { sessionUser := some { userId := some 7 }, goodsId := 2 }
    Refused (v.answer (Web.one 1)) ∧ (v.handle (Web.one 1)).available = 0 ∧ (Web.one 1).available = 1 ∧
      ¬ Run.Always Visit.handle (Conserved (Web.one 1)) (Web.one 1) [v] := by
  have hend : (Visit.handle (Web.one 1)
    { sessionUser := some { userId := some 7 }, goodsId := 2 }).available = 0 := by
    decide
  refine ⟨.inr (.inr (.inr ⟨.nullPointer, rfl⟩)), hend, by decide, ?_⟩
  intro h
  have hlast := h.last
  revert hlast
  decide

/-- Two users for one unit: the first gets it, the second is refused and takes nothing. -/
theorem refused_for_free :
    Run.Always Visit.handle (Conserved (Web.one 1)) (Web.one 1)
      [{ sessionUser := some { userId := some 7 }, goodsId := 1 },
        { sessionUser := some { userId := some 8 }, goodsId := 1 }] :=
  ((refused_iff (Web.one 1)).2 _).2 (by decide)

end CfsShop
