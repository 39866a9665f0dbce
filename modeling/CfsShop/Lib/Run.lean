/-
Runs of a deterministic transition function, and pools of threads over one
shared store.

A run is a list of labels: the environment's choices (which thread moves, what
the clock says, who dies). A property "of every interleaving" is then a
property of every list of labels, and a property "of every reachable state" is
an `Always` over such a list. `always_iff_along` is the rule behind every exact
condition: where one step keeps `P` exactly when `C` held before it, a run is
always in `P` exactly when all its steps met `C`.
-/
import Mathlib.Data.List.TakeDrop
import Mathlib.Tactic.Common

namespace Run

/-- All of a list that grew by one. -/
theorem forall_mem_snoc {α : Type} {l : List α} {a : α} {Q : α → Prop} :
    (∀ b ∈ l ++ [a], Q b) ↔ (∀ b ∈ l, Q b) ∧ Q a := by
  rw [List.forall_mem_append, List.forall_mem_singleton]

variable {S L : Type} (exec : S → L → S)

/-- The state after the labels, in order. -/
def run (s : S) (ls : List L) : S := ls.foldl exec s

/-- `P` holds in every state of the run, the first and the last included. -/
def Always (P : S → Prop) : S → List L → Prop
  | s, [] => P s
  | s, l :: ls => P s ∧ Always P (exec s l) ls

/-- Every step of the run is taken in a state where `C` allows it. -/
def Along (C : S → L → Prop) : S → List L → Prop
  | _, [] => True
  | s, l :: ls => C s l ∧ Along C (exec s l) ls

instance Along.decidable {C : S → L → Prop} [∀ s l, Decidable (C s l)] :
    ∀ s ls, Decidable (Along exec C s ls)
  | _, [] => inferInstanceAs (Decidable True)
  | s, l :: ls => @instDecidableAnd _ _ _ (Along.decidable (exec s l) ls)

variable {exec}

@[simp] theorem run_nil (s : S) : run exec s [] = s := rfl

@[simp] theorem run_cons (s : S) (l : L) (ls : List L) :
    run exec s (l :: ls) = run exec (exec s l) ls := rfl

theorem run_append (s : S) (ls ls' : List L) : run exec s (ls ++ ls') = run exec (run exec s ls) ls' :=
  List.foldl_append

theorem Always.head {P : S → Prop} {s : S} {ls : List L} (h : Always exec P s ls) : P s := by
  cases ls with
  | nil => exact h
  | cons l ls => exact h.1

theorem Always.imp {P Q : S → Prop} (h : ∀ s, P s → Q s) :
    ∀ {s : S} {ls : List L}, Always exec P s ls → Always exec Q s ls
  | _, [], hp => h _ hp
  | _, _ :: _, hp => ⟨h _ hp.1, Always.imp h hp.2⟩

/-- The invariant rule: what every step allowed by `C` keeps holds in every
state of a run along `C`. -/
theorem Along.always {C : S → L → Prop} {I : S → Prop} (step : ∀ s l, I s → C s l → I (exec s l)) :
    ∀ {s : S} {ls : List L}, I s → Along exec C s ls → Always exec I s ls
  | _, [], hs, _ => hs
  | _, _ :: _, hs, h => ⟨hs, Along.always step (step _ _ hs h.1) h.2⟩

/-- What holds in every state decides about every step. -/
theorem Always.along {C : S → L → Prop} {P : S → Prop} (h : ∀ s l, P s → C s l) :
    ∀ {s : S} {ls : List L}, Always exec P s ls → Along exec C s ls
  | _, [], _ => trivial
  | _, _ :: _, hp => ⟨h _ _ hp.1, Always.along h hp.2⟩

/-- What holds in every state holds after every step. -/
theorem Always.along_after {P : S → Prop} :
    ∀ {s : S} {ls : List L}, Always exec P s ls → Along exec (fun s l => P (exec s l)) s ls
  | _, [], _ => trivial
  | _, _ :: _, hp => ⟨hp.2.head, Always.along_after hp.2⟩

/-- A condition may be weakened, in view of what every step keeps. -/
theorem Along.imp {C D : S → L → Prop} {I : S → Prop} (inv : ∀ s l, I s → I (exec s l))
    (h : ∀ s l, I s → C s l → D s l) :
    ∀ {s : S} {ls : List L}, I s → Along exec C s ls → Along exec D s ls
  | _, [], _, _ => trivial
  | _, _ :: _, hi, hc => ⟨h _ _ hi hc.1, Along.imp inv h (inv _ _ hi) hc.2⟩

/-- The same, in view of what holds in every state of the run. -/
theorem Along.imp_of_always {C D : S → L → Prop} {P : S → Prop} (h : ∀ s l, P s → C s l → D s l) :
    ∀ {s : S} {ls : List L}, Always exec P s ls → Along exec C s ls → Along exec D s ls
  | _, [], _, _ => trivial
  | _, _ :: _, hp, hc => ⟨h _ _ hp.1 hc.1, Along.imp_of_always h hp.2 hc.2⟩

theorem Along.and {C D : S → L → Prop} :
    ∀ {s : S} {ls : List L}, Along exec C s ls → Along exec D s ls →
      Along exec (fun s l => C s l ∧ D s l) s ls
  | _, [], _, _ => trivial
  | _, _ :: _, hc, hd => ⟨⟨hc.1, hd.1⟩, Along.and hc.2 hd.2⟩

theorem along_append {C : S → L → Prop} {s : S} {ls ls' : List L} :
    Along exec C s (ls ++ ls') ↔ Along exec C s ls ∧ Along exec C (run exec s ls) ls' := by
  induction ls generalizing s with
  | nil => simp [Along]
  | cons l ls ih => rw [List.cons_append, Along, Along, ih, run_cons, and_assoc]

theorem Always.last {P : S → Prop} {s : S} {ls : List L} (h : Always exec P s ls) :
    P (run exec s ls) := by
  induction ls generalizing s with
  | nil => exact h
  | cons l ls ih => exact ih h.2

/-- The invariant rule for runs without a condition. -/
theorem run_invariant {I : S → Prop} (step : ∀ s l, I s → I (exec s l)) (s : S) (ls : List L)
    (hs : I s) :
    I (run exec s ls) := by
  induction ls generalizing s with
  | nil => exact hs
  | cons l ls ih => exact ih _ (step s l hs)

/-- In every state of a run is after every prefix of its labels. -/
theorem always_iff_prefix {P : S → Prop} {s : S} {ls : List L} :
    Always exec P s ls ↔ ∀ pre, pre <+: ls → P (run exec s pre) := by
  induction ls generalizing s with
  | nil => simp [Always]
  | cons l ls ih =>
    rw [Always, ih]
    constructor
    · intro hx pre hpre
      obtain ⟨hs, h⟩ := hx
      cases pre with
      | nil => exact hs
      | cons l' pre =>
        rw [List.cons_prefix_cons] at hpre
        obtain ⟨rfl, hpre⟩ := hpre
        exact h pre hpre
    · intro h
      exact ⟨h [] List.nil_prefix, fun pre hpre => h (l :: pre) (List.cons_prefix_cons.2 ⟨rfl, hpre⟩)⟩

/-- Where `P` comes to hold, if it does not hold all the time but does so in the end. -/
theorem exists_turn {P : S → Prop} {ls : List L} : ∀ {s : S}, ¬ Always exec P s ls → P (run exec s ls) →
    ∃ pre l post, ls = pre ++ l :: post ∧ ¬ P (run exec s pre) ∧ P (exec (run exec s pre) l) := by
  induction ls with
  | nil => exact fun h hend => absurd hend h
  | cons l ls ih =>
    intro s h hend
    by_cases hrest : Always exec P (exec s l) ls
    · exact ⟨[], l, ls, rfl, fun hs => h ⟨hs, hrest⟩, hrest.head⟩
    · obtain ⟨pre, l', post, rfl, hturn⟩ := ih hrest hend
      exact ⟨l :: pre, l', post, rfl, hturn⟩

/-- The exact-condition rule. `I` is what every step keeps, whatever happens. -/
theorem always_iff_along {I P : S → Prop} {C : S → L → Prop} (inv : ∀ s l, I s → I (exec s l))
    (step : ∀ s l, I s → P s → (P (exec s l) ↔ C s l)) :
    ∀ {s : S} {ls : List L}, I s → P s → (Always exec P s ls ↔ Along exec C s ls)
  | _, [], _, hp => iff_of_true hp trivial
  | s, l :: ls, hi, hp => by
    rw [Always, Along]
    constructor
    · intro hx
      obtain ⟨-, h⟩ := hx
      exact ⟨(step s l hi hp).1 h.head, (always_iff_along inv step (inv s l hi) h.head).1 h⟩
    · intro hx
      obtain ⟨hc, h⟩ := hx
      have hp' := (step s l hi hp).2 hc
      exact ⟨hp, (always_iff_along inv step (inv s l hi) hp').2 h⟩

end Run

/-! ## Pools of threads -/

/-- How threads (of local state `τ`) move over a shared store `σ`. A step takes
an input from the environment and does one atomic action; `none` is a thread
with nothing left to do. What a step reports (`ε`) is for histories only. -/
structure Machine (σ τ ι ε : Type) where
  /-- Which threads the environment may start. -/
  allows : σ → τ → Bool
  step : ι → σ → τ → Option (σ × τ × List ε)

/-- A thread, and whether it still moves. A stopped one keeps the frame it was
stopped in. -/
structure Thread (τ : Type) where
  frame : τ
  running : Bool

/-- A store, the threads over it (none is ever removed), and the history. -/
structure Pool (σ τ ε : Type) where
  store : σ
  threads : List (Thread τ)
  log : List ε

/-- The environment's choices. -/
inductive Label (τ ι : Type)
  | spawn (t : τ)
  | run (i : Nat) (x : ι)
  /-- The thread dies, by an exception from outside or a crash, between two steps. -/
  | stop (i : Nat)

namespace Pool

variable {σ τ ι ε : Type} (M : Machine σ τ ι ε)

/-- Where each thread stands. -/
def frames (p : Pool σ τ ε) : List τ := p.threads.map (·.frame)

/-- One label. A choice that is not possible does nothing. -/
def exec (p : Pool σ τ ε) : Label τ ι → Pool σ τ ε
  | .spawn t => if M.allows p.store t then { p with threads := p.threads ++ [⟨t, true⟩] } else p
  | .run i x =>
    match p.threads[i]? with
    | some ⟨f, true⟩ =>
      match M.step x p.store f with
      | some (s, f', es) => ⟨s, p.threads.set i ⟨f', true⟩, p.log ++ es⟩
      | none => p
    | _ => p
  | .stop i =>
    match p.threads[i]? with
    | some t => { p with threads := p.threads.set i { t with running := false } }
    | none => p

/-- What one label can do, with the threads split at the one that moves. -/
inductive Move (p : Pool σ τ ε) : Label τ ι → Pool σ τ ε → Prop
  | idle {l} : Move p l p
  | spawn {t} : M.allows p.store t = true →
      Move p (.spawn t) { p with threads := p.threads ++ [⟨t, true⟩] }
  | run {pre f post x s f' es} : p.threads = pre ++ ⟨f, true⟩ :: post →
      M.step x p.store f = some (s, f', es) →
      Move p (.run pre.length x) ⟨s, pre ++ ⟨f', true⟩ :: post, p.log ++ es⟩
  | stop {pre t post} : p.threads = pre ++ t :: post →
      Move p (.stop pre.length) { p with threads := pre ++ { t with running := false } :: post }

theorem split_of_getElem? {α : Type} {l : List α} {i : Nat} {a : α} (h : l[i]? = some a) :
    ∃ pre post, l = pre ++ a :: post ∧ pre.length = i := by
  obtain ⟨hi, rfl⟩ := List.getElem?_eq_some_iff.1 h
  exact ⟨l.take i, l.drop (i + 1), by rw [List.cons_getElem_drop_succ, List.take_append_drop],
    by rw [List.length_take]; omega⟩

/-- All of a list, by the one it is split at and the others. -/
theorem forall_mem_split {α : Type} {pre post : List α} {a : α} {Q : α → Prop} :
    (∀ b ∈ pre ++ a :: post, Q b) ↔ Q a ∧ ∀ b ∈ pre ++ post, Q b := by
  rw [List.forall_mem_append, List.forall_mem_cons, List.forall_mem_append, and_left_comm]

theorem mem_split {α : Type} {pre post : List α} {b : α} (a : α) (h : b ∈ pre ++ post) :
    b ∈ pre ++ a :: post :=
  ((List.sublist_cons_self a post).append_left pre).subset h

theorem getElem?_other {α : Type} {pre post : List α} {a b : α} {i : Nat} (h : i ≠ pre.length) :
    (pre ++ a :: post)[i]? = (pre ++ b :: post)[i]? := by
  rcases Nat.lt_or_gt_of_ne h with hlt | hgt
  · rw [List.getElem?_append_left hlt, List.getElem?_append_left hlt]
  · obtain ⟨k, rfl⟩ : ∃ k, i = pre.length + (k + 1) := ⟨i - pre.length - 1, by omega⟩
    rw [List.getElem?_append_right (by omega), List.getElem?_append_right (by omega),
      Nat.add_sub_cancel_left]
    rfl

theorem exec_move (p : Pool σ τ ε) (l : Label τ ι) : Move M p l (p.exec M l) := by
  cases l with
  | spawn t =>
    simp only [exec]
    split
    · next h => exact .spawn h
    · exact .idle
  | run i x =>
    simp only [exec]
    split
    · next f hf =>
      split
      · next s f' es hs =>
        obtain ⟨pre, post, hp, rfl⟩ := split_of_getElem? hf
        have : p.threads.set pre.length ⟨f', true⟩ = pre ++ ⟨f', true⟩ :: post := by simp [hp]
        rw [this]
        exact .run hp hs
      · exact .idle
    · exact .idle
  | stop i =>
    simp only [exec]
    split
    · next t ht =>
      obtain ⟨pre, post, hp, rfl⟩ := split_of_getElem? ht
      have : p.threads.set pre.length { t with running := false } =
          pre ++ { t with running := false } :: post := by simp [hp]
      rw [this]
      exact .stop hp
    · exact .idle

/-- A step is one of the thread's, or nothing and the thread has none to take. -/
theorem exec_run_cases (p : Pool σ τ ε) (i : Nat) (x : ι) :
    (∃ f s f' es, p.threads[i]? = some ⟨f, true⟩ ∧ M.step x p.store f = some (s, f', es) ∧
      p.exec M (.run i x) = ⟨s, p.threads.set i ⟨f', true⟩, p.log ++ es⟩) ∨
    (p.exec M (.run i x) = p ∧ ∀ t ∈ p.threads[i]?, t.running = true →
      M.step x p.store t.frame = none) := by
  rcases ht : p.threads[i]? with _ | ⟨f, _ | _⟩
  · exact .inr ⟨by simp [exec, ht], by simp⟩
  · exact .inr ⟨by simp [exec, ht], by simp⟩
  · cases hs : M.step x p.store f with
    | none => exact .inr ⟨by simp [exec, ht, hs], by simp [hs]⟩
    | some r =>
      obtain ⟨s, f', es⟩ := r
      exact .inl ⟨f, s, f', es, rfl, hs, by simp [exec, ht, hs]⟩

variable {M} in
/-- What holds of every thread, and of whatever takes a thread's place, goes on to hold. -/
theorem Move.threads {p p' : Pool σ τ ε} {l : Label τ ι} (hm : Move M p l p') {Q : Thread τ → Prop}
    (h : ∀ t ∈ p.threads, Q t) (hspawn : ∀ f, M.allows p.store f = true → Q ⟨f, true⟩)
    (hrun : ∀ x f s f' es, ⟨f, true⟩ ∈ p.threads → M.step x p.store f = some (s, f', es) → Q ⟨f', true⟩)
    (hstop : ∀ i t, l = .stop i → p.threads[i]? = some t → Q { t with running := false }) :
    ∀ t ∈ p'.threads, Q t := by
  have hother : ∀ pre t post t', p.threads = pre ++ t :: post → Q t' →
    ∀ u ∈ pre ++ t' :: post, Q u := by
    intro pre t post t' hp ht'
    rw [hp, forall_mem_split] at h
    exact forall_mem_split.2 ⟨ht', h.2⟩
  cases hm with
  | idle => exact h
  | @spawn f hf => exact Run.forall_mem_snoc.2 ⟨h, hspawn f hf⟩
  | run hp hs => exact hother _ _ _ _ hp (hrun _ _ _ _ _ (by simp [hp]) hs)
  | stop hp => exact hother _ _ _ _ hp (hstop _ _ rfl (by simp [hp]))

/-- Something about the store and the history, and something about each thread in view of them. -/
def Each (W : σ → List ε → Prop) (Q : σ → List ε → τ → Prop) (p : Pool σ τ ε) : Prop :=
  W p.store p.log ∧ ∀ t ∈ p.threads, Q p.store p.log t.frame

/-- If the label moves a thread, `C` allows the move. -/
def Guarded (C : Pool σ τ ε → ι → τ → Prop) (p : Pool σ τ ε) : Label τ ι → Prop
  | .run i x => ∀ t ∈ p.threads[i]?, t.running = true → C p x t.frame
  | _ => True

instance {C : Pool σ τ ε → ι → τ → Prop} [∀ p x f, Decidable (C p x f)] :
    ∀ (p : Pool σ τ ε) (l : Label τ ι), Decidable (Guarded C p l)
  | p, .run i x => inferInstanceAs (Decidable (∀ t ∈ p.threads[i]?, t.running = true → C p x t.frame))
  | _, .spawn _ | _, .stop _ => inferInstanceAs (Decidable True)

theorem Guarded.of_run {C : Pool σ τ ε → ι → τ → Prop} {p : Pool σ τ ε} {pre post : List (Thread τ)}
    {f : τ} {x : ι} (h : Guarded C p (.run pre.length x)) (hp : p.threads = pre ++ ⟨f, true⟩ :: post) :
    C p x f :=
  h ⟨f, true⟩ (by simp [hp]) rfl

variable {M} in
/-- The invariant rule for such, along a condition: a step has to keep what it says about the
store, what it says about the thread that moves, and what it says about any other. -/
theorem Move.each_guarded {p p' : Pool σ τ ε} {l : Label τ ι} (hm : Move M p l p')
    {C : Pool σ τ ε → ι → τ → Prop} (hl : Guarded C p l)
    {W : σ → List ε → Prop} {Q : σ → List ε → τ → Prop}
    (hspawn : ∀ f, W p.store p.log → M.allows p.store f = true → Q p.store p.log f)
    (hrun : ∀ x f s' f' es, C p x f → W p.store p.log → Q p.store p.log f →
      M.step x p.store f = some (s', f', es) →
      W s' (p.log ++ es) ∧ Q s' (p.log ++ es) f' ∧ ∀ g, Q p.store p.log g → Q s' (p.log ++ es) g)
    (h : Each W Q p) : Each W Q p' := by
  obtain ⟨hw, hq⟩ := h
  cases hm with
  | idle => exact ⟨hw, hq⟩
  | @spawn f hf =>
    refine ⟨hw, ?_⟩
    rw [Run.forall_mem_snoc]
    exact ⟨hq, hspawn f hw hf⟩
  | @run pre f post x s f' es hth hs =>
    rw [hth, forall_mem_split] at hq
    obtain ⟨hw', hf', hother⟩ := hrun x f s f' es (hl.of_run hth) hw hq.1 hs
    refine ⟨hw', ?_⟩
    rw [forall_mem_split]
    exact ⟨hf', fun t ht => hother _ (hq.2 t ht)⟩
  | @stop pre t post hth =>
    refine ⟨hw, ?_⟩
    rw [hth, forall_mem_split] at hq
    rw [forall_mem_split]
    exact hq

variable {M} in
/-- The same without a condition. -/
theorem Move.each {p p' : Pool σ τ ε} {l : Label τ ι} (hm : Move M p l p')
    {W : σ → List ε → Prop} {Q : σ → List ε → τ → Prop}
    (hspawn : ∀ s log f, W s log → M.allows s f = true → Q s log f)
    (hrun : ∀ x s log f s' f' es, W s log → Q s log f → M.step x s f = some (s', f', es) →
      W s' (log ++ es) ∧ Q s' (log ++ es) f' ∧ ∀ g, Q s log g → Q s' (log ++ es) g)
    (h : Each W Q p) : Each W Q p' := by
  have hl : Guarded (fun _ _ _ => True) p l := by
    cases l with
    | run i x => exact fun _ _ _ => trivial
    | _ => trivial
  exact hm.each_guarded hl (hspawn p.store p.log)
    (fun x f s' f' es _ hw hf hs => hrun x p.store p.log f s' f' es hw hf hs) h

/-- The invariant rule, by what a label can do. -/
theorem invariant {I : Pool σ τ ε → Prop} (step : ∀ p l p', I p → Move M p l p' → I p') {p : Pool σ τ ε}
    (ls : List (Label τ ι)) (hp : I p) : I (Run.run (exec M) p ls) :=
  Run.run_invariant (fun q l hq => step q l _ hq (exec_move M q l)) p ls hp

/-- How many threads, moving or stopped, weigh in at `w`. -/
def tally (w : τ → Nat) : List (Thread τ) → Nat
  | [] => 0
  | t :: ts => w t.frame + tally w ts

@[simp] theorem tally_nil (w : τ → Nat) : tally w [] = 0 := rfl

@[simp] theorem tally_cons (w : τ → Nat) (t : Thread τ) (ts : List (Thread τ)) :
    tally w (t :: ts) = w t.frame + tally w ts := rfl

@[simp] theorem tally_append (w : τ → Nat) (ts ts' : List (Thread τ)) :
    tally w (ts ++ ts') = tally w ts + tally w ts' := by
  induction ts with
  | nil => simp
  | cons t ts ih => rw [List.cons_append, tally_cons, tally_cons, ih, Nat.add_assoc]

theorem tally_snoc (w : τ → Nat) (ts : List (Thread τ)) (t : Thread τ) :
    tally w (ts ++ [t]) = tally w ts + w t.frame := by
  rw [tally_append, tally_cons, tally_nil, Nat.add_zero]

theorem tally_split (w : τ → Nat) (t : Thread τ) (pre post : List (Thread τ)) :
    tally w (pre ++ t :: post) = w t.frame + tally w (pre ++ post) := by
  rw [tally_append, tally_cons, tally_append, Nat.add_left_comm]

theorem le_tally (w : τ → Nat) {ts : List (Thread τ)} {t : Thread τ} (h : t ∈ ts) :
    w t.frame ≤ tally w ts := by
  obtain ⟨pre, post, rfl⟩ := List.append_of_mem h
  rw [tally_append, tally_cons]
  omega

theorem tally_eq_zero {w : τ → Nat} {ts : List (Thread τ)} :
    tally w ts = 0 ↔ ∀ t ∈ ts, w t.frame = 0 := by
  induction ts with
  | nil => simp
  | cons t ts ih => simp [ih]

theorem tally_mono {w w' : τ → Nat} (h : ∀ f, w f ≤ w' f) (ts : List (Thread τ)) :
    tally w ts ≤ tally w' ts := by
  induction ts with
  | nil => exact Nat.le_refl _
  | cons t ts ih => exact Nat.add_le_add (h t.frame) ih

/-- Where there is room for one, nobody is beside the one. -/
theorem tally_apart {w : τ → Nat} {pre post : List (Thread τ)} {t u : Thread τ}
    (h : tally w (pre ++ t :: post) ≤ 1) (ht : w t.frame = 1) (hu : u ∈ pre ++ post) :
    w u.frame = 0 := by
  have hle := le_tally w hu
  rw [tally_split] at h
  omega

/-- What the threads that still move weigh. -/
def live (w : τ → Nat) (ts : List (Thread τ)) : Nat := tally w (ts.filter (·.running))

@[simp] theorem live_append (w : τ → Nat) (ts ts' : List (Thread τ)) :
    live w (ts ++ ts') = live w ts + live w ts' := by
  unfold live
  rw [List.filter_append, tally_append]

@[simp] theorem live_running (w : τ → Nat) (f : τ) (ts : List (Thread τ)) :
    live w (⟨f, true⟩ :: ts) = w f + live w ts := rfl

@[simp] theorem live_stopped (w : τ → Nat) (f : τ) (ts : List (Thread τ)) :
    live w (⟨f, false⟩ :: ts) = live w ts := rfl

theorem live_le_cons (w : τ → Nat) (t : Thread τ) (ts : List (Thread τ)) :
    live w ts ≤ live w (t :: ts) := by
  obtain ⟨f, r⟩ := t
  cases r with
  | false => exact Nat.le_refl _
  | true => exact Nat.le_add_left _ _

variable {M} in
/-- What a thread keeps in all its own steps it keeps, whatever the others do. -/
theorem persists {Q : τ → Prop}
    (hQ : ∀ x s f s' f' es, Q f → M.step x s f = some (s', f', es) → Q f') {i : Nat}
    {p : Pool σ τ ε} (ls : List (Label τ ι)) (hp : ∃ t, p.threads[i]? = some t ∧ Q t.frame) :
    ∃ t, (Run.run (exec M) p ls).threads[i]? = some t ∧ Q t.frame := by
  refine invariant M (I := fun p => ∃ t, p.threads[i]? = some t ∧ Q t.frame) ?_ ls hp
  intro p l p' h hm
  obtain ⟨t, ht, hq⟩ := h
  cases hm with
  | idle => exact ⟨t, ht, hq⟩
  | spawn =>
    have hi := (List.getElem?_eq_some_iff.1 ht).1
    exact ⟨t, by rw [List.getElem?_append_left hi]; exact ht, hq⟩
  | @run pre f post x s f' es hth hs =>
    by_cases hi : i = pre.length
    · subst hi
      have hf : t = ⟨f, true⟩ := by
        rw [hth, List.getElem?_append_right (Nat.le_refl _)] at ht
        simpa using ht.symm
      subst hf
      exact ⟨⟨f', true⟩, by simp, hQ x _ f s f' es hq hs⟩
    · exact ⟨t, by rw [hth] at ht; rw [← ht]; exact getElem?_other hi, hq⟩
  | @stop pre t' post hth =>
    by_cases hi : i = pre.length
    · subst hi
      have hf : t = t' := by
        rw [hth, List.getElem?_append_right (Nat.le_refl _)] at ht
        simpa using ht.symm
      subst hf
      exact ⟨{ t with running := false }, by simp, hq⟩
    · exact ⟨t, by rw [hth] at ht; rw [← ht]; exact getElem?_other hi, hq⟩

variable {M} in
/-- What a thread keeps in those of its steps that `C` allows it keeps in a run along `C`. -/
theorem persists_along {Q : τ → Prop} {C : Pool σ τ ε → Label τ ι → Prop} {i : Nat}
    (hQ : ∀ p x f s' f' es, p.threads[i]? = some ⟨f, true⟩ → C p (.run i x) → Q f →
      M.step x p.store f = some (s', f', es) → Q f') :
    ∀ (ls : List (Label τ ι)) {p : Pool σ τ ε}, Run.Along (exec M) C p ls →
      ∀ {f}, (frames p)[i]? = some f → Q f → ∃ f', (frames (Run.run (exec M) p ls))[i]? = some f' ∧ Q f' := by
  intro ls
  induction ls with
  | nil => exact fun _ _ hf hq => ⟨_, hf, hq⟩
  | cons l ls ih =>
    intro p hc g hg hq
    have hfirst := hc.1
    suffices h : ∃ g', (frames (p.exec M l))[i]? = some g' ∧ Q g' by
      obtain ⟨g', hg', hq'⟩ := h
      exact ih hc.2 hg' hq'
    rw [frames, List.getElem?_map] at hg ⊢
    obtain ⟨t, ht, rfl⟩ := Option.map_eq_some_iff.1 hg
    have hm := exec_move M p l
    generalize p.exec M l = p' at hm
    cases hm with
    | idle => exact ⟨_, hg, hq⟩
    | spawn =>
      have hi := (List.getElem?_eq_some_iff.1 ht).1
      exact ⟨_, by rw [List.getElem?_append_left hi]; exact hg, hq⟩
    | @run pre f post x s f' es hth hs =>
      by_cases hi : i = pre.length
      · subst hi
        have hf : p.threads[pre.length]? = some ⟨f, true⟩ := by simp [hth]
        obtain rfl : t = ⟨f, true⟩ := Option.some.inj (ht.symm.trans hf)
        exact ⟨f', by simp, hQ p x f s f' es hf hfirst hq hs⟩
      · refine ⟨_, ?_, hq⟩
        rw [← hg, hth]
        exact congrArg _ (getElem?_other hi)
    | @stop pre t' post hth =>
      by_cases hi : i = pre.length
      · subst hi
        have hf : p.threads[pre.length]? = some t' := by simp [hth]
        obtain rfl : t = t' := Option.some.inj (ht.symm.trans hf)
        exact ⟨t.frame, by simp, hq⟩
      · refine ⟨_, ?_, hq⟩
        rw [← hg, hth]
        exact congrArg _ (getElem?_other hi)

/-! ### Coming to rest -/

/-- No thread that still moves has anything left to do. -/
def Quiet (p : Pool σ τ ε) : Prop :=
  ∀ t ∈ p.threads, t.running = true → ∀ x, M.step x p.store t.frame = none

variable {M} in
theorem exec_run {p : Pool σ τ ε} {pre post : List (Thread τ)} {f f' : τ} {x : ι} {s : σ} {es : List ε}
    (hp : p.threads = pre ++ ⟨f, true⟩ :: post) (hs : M.step x p.store f = some (s, f', es)) :
    p.exec M (.run pre.length x) = ⟨s, pre ++ ⟨f', true⟩ :: post, p.log ++ es⟩ := by
  simp [exec, hp, hs]

variable {M} in
/-- Threads whose every step brings them closer to their end can be run until all have ended. -/
theorem exists_quiet {w : τ → Nat}
    (hw : ∀ x s f s' f' es, M.step x s f = some (s', f', es) → w f' < w f) (p : Pool σ τ ε) :
    ∃ ls : List (Label τ ι), (∀ l ∈ ls, ∃ i x, l = .run i x) ∧ Quiet M (Run.run (exec M) p ls) := by
  induction hk : tally w p.threads using Nat.strongRecOn generalizing p with
  | ind k ih =>
    by_cases hq : Quiet M p
    · exact ⟨[], by simp, hq⟩
    · simp only [Quiet, not_forall] at hq
      obtain ⟨⟨f, r⟩, ht, hr, x, hx⟩ := hq
      simp only at hr hx
      subst hr
      obtain ⟨⟨s, f', es⟩, hs⟩ := Option.ne_none_iff_exists'.1 hx
      obtain ⟨pre, post, hp⟩ := List.append_of_mem ht
      have hlt : tally w (p.exec M (.run pre.length x)).threads < k := by
        have := hw x _ f s f' es hs
        rw [exec_run hp hs, ← hk, hp]
        simp only [tally_append, tally_cons]
        omega
      obtain ⟨ls, hls, hquiet⟩ := ih _ hlt (p.exec M (.run pre.length x)) rfl
      refine ⟨.run pre.length x :: ls, ?_, hquiet⟩
      rw [List.forall_mem_cons]
      exact ⟨⟨_, _, rfl⟩, hls⟩

end Pool
