/-
Programs that change a state and may throw, in that order of layers: an
exception keeps the state as it was left. `exec` runs one, and the lemmas
below compute `exec` through a `do` block.
-/
import Mathlib.Tactic.Common

/-- A program with exceptions `ε` over a state `σ`. -/
abbrev Prog (ε σ : Type) := ExceptT ε (StateM σ)

namespace Prog

variable {ε σ α β : Type}

/-- How a program ends, and the state it leaves. -/
def exec (x : Prog ε σ α) (s : σ) : Except ε α × σ := x.run.run s

@[simp] theorem exec_pure (a : α) (s : σ) : exec (pure a : Prog ε σ α) s = (.ok a, s) := rfl

@[simp] theorem exec_throw (e : ε) (s : σ) : exec (throw e : Prog ε σ α) s = (.error e, s) := rfl

@[simp] theorem exec_get (s : σ) : exec (get : Prog ε σ σ) s = (.ok s, s) := rfl

@[simp] theorem exec_set (s s' : σ) : exec (set s' : Prog ε σ Unit) s = (.ok (), s') := rfl

@[simp] theorem exec_modify (f : σ → σ) (s : σ) :
    exec (modify f : Prog ε σ Unit) s = (.ok (), f s) := rfl

theorem exec_bind (x : Prog ε σ α) (f : α → Prog ε σ β) (s : σ) :
    exec (x >>= f) s = match exec x s with
      | (.ok a, s') => exec (f a) s'
      | (.error e, s') => (.error e, s') := by
  rcases h : exec x s with ⟨r, s'⟩
  simp only [exec, ExceptT.run, StateT.run] at h
  simp only [exec, bind, ExceptT.bind, ExceptT.mk, ExceptT.run, StateT.bind, StateT.run, h]
  cases r <;> rfl

/-- `try x finally y`: `y` is run however `x` ends, and only its own exception replaces that. -/
theorem exec_tryFinally (x : Prog ε σ α) (y : Prog ε σ β) (s : σ) :
    exec (tryFinally x y) s = match exec x s with
      | (r, s') => match exec y s' with
        | (.ok _, s'') => (r, s'')
        | (.error e, s'') => (.error e, s'') := by
  rcases hx : exec x s with ⟨r, s'⟩
  rcases hy : exec y s' with ⟨r', s''⟩
  simp only [exec, ExceptT.run, StateT.run] at hx hy
  simp only [exec, tryFinally, MonadFinally.tryFinally', Functor.map, ExceptT.map, ExceptT.mk,
    ExceptT.run, StateT.run, StateT.bind, bind, pure, hx]
  cases r <;> simp only [hy] <;> cases r' <;> rfl

end Prog
