/-
Total correctness of programs that change a state and may throw.

`Gives P x a Q`: from a state of `P` the program returns `a` and leaves a state
of `Q`. There is a rule for each way to build a program; where the precondition
does not decide the result, the statement has a `∃` before it.
-/
import CfsShop.Lib.Prog

namespace Prog

variable {ε σ α β : Type} {P P' Q Q' R : σ → Prop} {x : Prog ε σ α} {f : α → Prog ε σ β} {a : α} {b : β}

def Gives (P : σ → Prop) (x : Prog ε σ α) (a : α) (Q : σ → Prop) : Prop :=
  ∀ s, P s → ∃ s', exec x s = (.ok a, s') ∧ Q s'

namespace Gives

theorem pure (a : α) : Gives P (Pure.pure a : Prog ε σ α) a P := fun s h => ⟨s, rfl, h⟩

theorem bind (hx : Gives P x a Q) (hf : Gives Q (f a) b R) : Gives P (x >>= f) b R := by
  intro s h
  obtain ⟨s', hex, hq⟩ := hx s h
  obtain ⟨s'', hey, hr⟩ := hf s' hq
  exact ⟨s'', by rw [exec_bind, hex]; exact hey, hr⟩

theorem imp (hx : Gives P x a Q) (hpre : ∀ s, P' s → P s) (hpost : ∀ s, Q s → Q' s) : Gives P' x a Q' := by
  intro s h
  obtain ⟨s', hex, hq⟩ := hx s (hpre s h)
  exact ⟨s', hex, hpost s' hq⟩

theorem pre (hx : Gives P x a Q) (hpre : ∀ s, P' s → P s) : Gives P' x a Q := hx.imp hpre fun _ h => h

theorem post (hx : Gives P x a Q) (hpost : ∀ s, Q s → Q' s) : Gives P x a Q' := hx.imp (fun _ h => h) hpost

theorem map {g : α → β} (hx : Gives P x a Q) : Gives P (g <$> x) (g a) Q := by
  rw [map_eq_pure_bind]
  exact hx.bind (Gives.pure _)

/-- What every state of the precondition has in common. -/
theorem assume (h : ∀ s, P s → Gives P x a Q) : Gives P x a Q := fun s hs => h s hs s hs

/-- The state a program reads is one of its precondition. -/
theorem get_bind {f : σ → Prog ε σ β} (h : ∀ s₀, P s₀ → Gives (fun s => P s ∧ s = s₀) (f s₀) b Q) :
    Gives P (get >>= f) b Q := by
  intro s hs
  obtain ⟨s', hex, hq⟩ := h s hs s ⟨hs, rfl⟩
  exact ⟨s', by rw [exec_bind, exec_get]; exact hex, hq⟩

theorem set {s₁ : σ} (h : Q s₁) : Gives P (MonadStateOf.set s₁ : Prog ε σ Unit) () Q := fun _ _ => ⟨s₁, rfl, h⟩

end Gives

end Prog
