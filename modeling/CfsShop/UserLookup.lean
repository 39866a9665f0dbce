/-
`getById` as a whole, and any number of them at once.

Three places answer for a user: the Bloom filter, the cache and the table.
Alone, a lookup gives what the table has, except where the filter lets an id
pass that has no row: `RMapCache.put` does not take the null that was found
(`getById_iff`). Several lookups at once load each row once, since whoever
looks into the cache for the second time holds the lock, and so is the only
one who may fill it (`loads_once`).
-/
import CfsShop.UserService
import CfsShop.Lib.Prog
import CfsShop.Lib.Run
import Mathlib.Logic.Relation

namespace CfsShop

namespace UserServiceImlp

/-- `RMapCache.put`, which does not take null. -/
def put (id : Long) : Option MiaoshaUser → Prog UserEx UserStore Unit
  | none => throw .nullPointer
  | some user => modify fun s => { s with rMapCache := Function.update s.rMapCache id (some user) }

/-- `afterPropertiesSet`: the filter gets the ids of the table. `other` are those it takes for
added besides. -/
def afterPropertiesSet (other : Long → Bool) (miaoshaUser : Table MiaoshaUser Long MiaoshaUser.id) :
    UserStore where
  miaoshaUser := miaoshaUser
  bloomFileter id := decide (id ∈ miaoshaUser.rows.filterMap MiaoshaUser.id) || other id
  rMapCache _ := none
  locked := false

/-- `getById`, where nobody else holds the lock. -/
def getById (id : Long) : Prog UserEx UserStore (Option MiaoshaUser) := do
  if (← get).bloomFileter id then
    let mut miaoshaUser := (← get).rMapCache id
    if miaoshaUser.isNone then
      try
        modify fun s => { s with locked := true }
        miaoshaUser := (← get).rMapCache id
        if miaoshaUser.isNone then
          miaoshaUser := (← get).miaoshaUser.find? id
          put id miaoshaUser
      finally
        modify fun s => { s with locked := false }
    return miaoshaUser
  return none

variable {id : Long} {s : UserStore}

theorem exec_getById_of_not_contains (h : s.bloomFileter id = false) :
    (getById id).exec s = (.ok none, s) := by
  simp only [getById, Prog.exec_bind, Prog.exec_get, h, Bool.false_eq_true, if_false, Prog.exec_pure]

theorem exec_getById_of_cached {user : MiaoshaUser} (h : s.bloomFileter id = true)
    (hc : s.rMapCache id = some user) : (getById id).exec s = (.ok (some user), s) := by
  simp only [getById, Prog.exec_bind, Prog.exec_get, h, hc, if_true, Option.isNone_some,
    Bool.false_eq_true, if_false, Prog.exec_pure]

/-- A miss that finds its row. -/
theorem exec_getById_of_row {user : MiaoshaUser} (h : s.bloomFileter id = true)
    (hc : s.rMapCache id = none) (hrow : s.miaoshaUser.find? id = some user) :
    (getById id).exec s = (.ok (some user),
      { s with rMapCache := Function.update s.rMapCache id (some user), locked := false }) := by
  simp only [getById, Prog.exec_bind, Prog.exec_get, Prog.exec_modify, Prog.exec_tryFinally, h, hc,
    hrow, put, if_true, Option.isNone_none]
  rfl

/-- A miss without a row: null is not taken, and the lock is given back. -/
theorem exec_getById_of_no_row (h : s.bloomFileter id = true) (hc : s.rMapCache id = none)
    (hrow : s.miaoshaUser.find? id = none) :
    (getById id).exec s = (.error .nullPointer, { s with locked := false }) := by
  simp only [getById, Prog.exec_bind, Prog.exec_get, Prog.exec_modify, Prog.exec_tryFinally, h, hc,
    hrow, put, if_true, Option.isNone_none, Prog.exec_throw]

/-- The lookup gives what the table has, and leaves the lock free. -/
def LooksUp (miaoshaUser : Table MiaoshaUser Long MiaoshaUser.id) (id : Long) (s : UserStore) : Prop :=
  ((getById id).exec s).1 = .ok (miaoshaUser.find? id) ∧ ((getById id).exec s).2.locked = false

/-- What a filter does not have is not there, what the cache has is, and the lock is free. -/
theorem looksUp_iff (hcontains : s.miaoshaUser.Has id → s.bloomFileter id = true) (hs : s.Cached)
    (hfree : s.locked = false) :
    LooksUp s.miaoshaUser id s ↔ s.miaoshaUser.Has id ∨ s.bloomFileter id = false := by
  unfold LooksUp
  cases hb : s.bloomFileter id with
  | false =>
    rw [exec_getById_of_not_contains hb]
    have hno : s.miaoshaUser.find? id = none := by
      rw [← Option.not_isSome_iff_eq_none, ← Table.has_iff_find?]
      intro hrow
      rw [hcontains hrow] at hb
      cases hb
    simp [hno, hfree]
  | true =>
    cases hc : s.rMapCache id with
    | some user =>
      have hrow := hs id user hc
      rw [exec_getById_of_cached hb hc]
      simp [Table.has_iff_find?, hrow, hfree]
    | none =>
      cases hrow : s.miaoshaUser.find? id with
      | some user =>
        rw [exec_getById_of_row hb hc hrow]
        simp [Table.has_iff_find?, hrow]
      | none =>
        rw [exec_getById_of_no_row hb hc hrow]
        simp [Table.has_iff_find?, hrow]

end UserServiceImlp

/-! ## Step by step -/

namespace Lookup

/-- One lookup's steps, while the others rest. -/
def Alone (id : Long) : UserStore × Lookup → UserStore × Lookup → Prop :=
  Relation.ReflTransGen fun a b => a.2.step false id a.1 = some b

open UserServiceImlp in
/-- Step by step, a lookup does what the method as a whole does. -/
theorem alone_getById {id : Long} {s : UserStore} (hfree : s.locked = false) :
    Alone id (s, contains) (((getById id).exec s).2, returned ((getById id).exec s).1) := by
  cases hb : s.bloomFileter id with
  | false =>
    rw [exec_getById_of_not_contains hb]
    exact .single (by simp [step, hb])
  | true =>
    have hget : Alone id (s, contains) (s, get) := .single (by simp [step, hb])
    cases hc : s.rMapCache id with
    | some user =>
      rw [exec_getById_of_cached hb hc]
      exact hget.tail (by simp [step, hc])
    | none =>
      have hselect : Alone id (s, contains)
          ({ s with locked := true }, put (s.miaoshaUser.find? id)) := by
        refine Relation.ReflTransGen.tail (b := ({ s with locked := true }, select)) ?_ rfl
        refine Relation.ReflTransGen.tail (b := ({ s with locked := true }, getLocked)) ?_
          (by simp [step, hc])
        refine Relation.ReflTransGen.tail (b := (s, lock)) ?_ (by simp [step, hfree])
        exact hget.tail (by simp [step, hc])
      cases hrow : s.miaoshaUser.find? id with
      | some user =>
        rw [exec_getById_of_row hb hc hrow]
        rw [hrow] at hselect
        exact (hselect.tail rfl).tail rfl
      | none =>
        rw [exec_getById_of_no_row hb hc hrow]
        rw [hrow] at hselect
        exact (hselect.tail rfl).tail rfl

/-- A lookup that has the lock. -/
def holding : Lookup → Nat
  | getLocked | select | put _ | unlock _ => 1
  | _ => 0

/-- A lookup that has found the cache empty and may fill it. -/
def Filling : Lookup → Prop
  | select | put _ => True
  | _ => False

theorem holding_of_filling {f : Lookup} (h : f.Filling) : f.holding = 1 := by
  cases f with
  | select | put => rfl
  | _ => cases h

/-- A lookup with a row in hand. -/
def putting : Lookup → Nat
  | put _ => 1
  | _ => 0

def finished : Lookup → Bool
  | returned _ => true
  | _ => false

/-- Whatever a lookup for a row there is has found is that row. -/
def Right (miaoshaUser : Table MiaoshaUser Long MiaoshaUser.id) (id : Long) : Lookup → Prop
  | put user => user = miaoshaUser.find? id
  | unlock result | returned result => miaoshaUser.Has id → result = .ok (miaoshaUser.find? id)
  | _ => True

section

variable {id : Long} {s s' : UserStore} {f f' : Lookup}

theorem Moves.kept (h : Moves false id s f s' f') (hs : s.Cached) (hf : f.Right s.miaoshaUser id)
    (hcontains : s.miaoshaUser.Has id → s.bloomFileter id = true) :
    s'.miaoshaUser = s.miaoshaUser ∧ s'.bloomFileter = s.bloomFileter ∧ s'.Cached ∧
      f'.Right s.miaoshaUser id := by
  have hput : ∀ user, f = put user → user = s.miaoshaUser.find? id := by
    intro user he
    subst he
    exact hf
  obtain ⟨htable, hfilter, hcached⟩ := h.cached hs hput
  refine ⟨htable, hfilter, hcached, ?_⟩
  cases h with
  | absent hb =>
    intro hrow
    rw [hcontains hrow] at hb
    cases hb
  | hit hc | hitLocked hc => exact fun _ => by rw [hs id _ hc]
  | selected => rfl
  | refused =>
    intro hrow
    rw [Table.has_iff_find?, ← hf] at hrow
    cases hrow
  | @filled user =>
    have hrow : some user = s.miaoshaUser.find? id := hf
    exact fun _ => by rw [hrow]
  | unlocked => exact hf
  | _ => trivial

/-- The lock is taken where it is free, and given back by who has it. -/
theorem Moves.held (h : Moves false id s f s' f') (hf : f.holding ≤ s.locked.toNat) :
    f.holding + s'.locked.toNat = f'.holding + s.locked.toNat := by
  cases h with
  | locked hl =>
    rw [Bool.not_false, Bool.and_true] at hl
    simp [holding, hl]
  | unlocked =>
    have := s.locked.toNat_le
    simp only [holding, Bool.toNat_false] at hf ⊢
    omega
  | _ => rfl

/-- The cache is filled under the lock, at the id that was missing. -/
theorem Moves.cache (h : Moves false id s f s' f') (id' : Long) :
    s'.rMapCache id' = s.rMapCache id' ∨ id' = id ∧ f.Filling := by
  cases h with
  | filled =>
    by_cases hid : id' = id
    · exact .inr ⟨hid, trivial⟩
    · exact .inl (Function.update_of_ne hid _ _)
  | _ => exact .inl rfl

theorem Moves.filling (h : Moves false id s f s' f') (hf : f.Filling → s.rMapCache id = none)
    (hf' : f'.Filling) : s'.rMapCache id = none := by
  cases h with
  | missLocked hc => exact hc
  | selected => exact hf trivial
  | _ => cases hf'

/-- What is loaded is put, and what is put stays. -/
theorem Moves.loaded (h : Moves false id s f s' f') (hf : f.Filling → s.rMapCache id = none)
    (hright : f.Right s.miaoshaUser id) (hrow : s.miaoshaUser.Has id) :
    (if f = select then 1 else 0) + (s.rMapCache id).isSome.toNat + f.putting ≤
      (s'.rMapCache id).isSome.toNat + f'.putting := by
  cases h with
  | refused =>
    rw [Table.has_iff_find?, ← hright] at hrow
    cases hrow
  | filled => simp [putting, hf trivial]
  | selected => simp [putting, Nat.add_comm]
  | _ => simp [putting]

end

end Lookup

/-- The lookups of all instances, under way at once. The history has the ids they load. -/
def lookups : Machine UserStore (Long × Lookup) Unit Long where
  allows _ t := decide (t.2 = .contains)
  step _ s t := (t.2.step false t.1 s).map fun r =>
    (r.1, (t.1, r.2), if t.2 = .select then [t.1] else [])

theorem lookups_step {x : Unit} {s s' : UserStore} {t t' : Long × Lookup} {ids : List Long}
    (h : lookups.step x s t = some (s', t', ids)) :
    t'.1 = t.1 ∧ Lookup.Moves false t.1 s t.2 s' t'.2 ∧ ids = if t.2 = .select then [t.1] else [] := by
  unfold lookups at h
  simp only [Option.map_eq_some_iff] at h
  obtain ⟨⟨s₁, f₁⟩, hs, he⟩ := h
  cases he
  exact ⟨rfl, Lookup.step_moves hs, rfl⟩

/-- The threads with a row of this id in hand. -/
def puttingFor (id : Long) (t : Long × Lookup) : Nat := if t.1 = id then t.2.putting else 0

theorem puttingFor_le_holding (id : Long) (t : Long × Lookup) : puttingFor id t ≤ t.2.holding := by
  obtain ⟨id', f⟩ := t
  unfold puttingFor
  split
  · cases f <;> simp [Lookup.putting, Lookup.holding]
  · exact Nat.zero_le _

/-- What a step loads it has in hand, for its own id and for every other. -/
theorem Lookup.Moves.loaded_for {s s' : UserStore} {t t' : Long × Lookup}
    (h : Lookup.Moves false t.1 s t.2 s' t'.2) (hid : t'.1 = t.1) (hf : t.2.Filling → s.rMapCache t.1 = none)
    (hright : t.2.Right s.miaoshaUser t.1) {id : Long} (hrow : s.miaoshaUser.Has id) :
    List.count id (if t.2 = .select then [t.1] else []) + (s.rMapCache id).isSome.toNat +
        puttingFor id t ≤
      (s'.rMapCache id).isSome.toNat + puttingFor id t' := by
  unfold puttingFor
  rw [hid]
  by_cases he : t.1 = id
  · subst he
    have hids : List.count t.1 (if t.2 = .select then [t.1] else []) =
        if t.2 = .select then 1 else 0 := by
      split <;> simp
    rw [hids, if_pos rfl, if_pos rfl]
    exact h.loaded hf hright hrow
  · have hids : List.count id (if t.2 = .select then [t.1] else []) = 0 := by
      split <;> simp [he]
    have hc : s'.rMapCache id = s.rMapCache id :=
      (h.cache id).resolve_right fun hx => he hx.1.symm
    rw [hids, hc, if_neg he, if_neg he]
    omega

/-- The lookups are in order: one of them at most has the lock, and only that one fills the cache,
where it is empty. What was loaded is in the cache or on its way there. -/
structure Orderly (s₀ : UserStore) (p : Pool UserStore (Long × Lookup) Long) : Prop where
  table : p.store.miaoshaUser = s₀.miaoshaUser
  filter : p.store.bloomFileter = s₀.bloomFileter
  cached : p.store.Cached
  right : ∀ t ∈ p.threads, t.frame.2.Right s₀.miaoshaUser t.frame.1
  lock : Pool.tally (·.2.holding) p.threads = p.store.locked.toNat
  filling : ∀ t ∈ p.threads, t.frame.2.Filling → p.store.rMapCache t.frame.1 = none
  loaded : ∀ id, s₀.miaoshaUser.Has id →
    p.log.count id ≤ (p.store.rMapCache id).isSome.toNat + Pool.tally (puttingFor id) p.threads

namespace Orderly

variable {s₀ : UserStore} {p p' : Pool UserStore (Long × Lookup) Long}

/-- Who else would fill the cache would have the lock as well. -/
theorem apart (hp : Orderly s₀ p) {pre post : List (Thread (Long × Lookup))}
    {t u : Thread (Long × Lookup)} (hth : p.threads = pre ++ t :: post) (hu : u ∈ pre ++ post)
    (ht : t.frame.2.Filling) : ¬ u.frame.2.Filling := by
  intro hu'
  have hone : Pool.tally (·.2.holding) (pre ++ t :: post) ≤ 1 := by
    rw [← hth, hp.lock]
    exact Bool.toNat_le _
  have hzero := Pool.tally_apart hone (Lookup.holding_of_filling ht) hu
  rw [Lookup.holding_of_filling hu'] at hzero
  cases hzero

theorem spawn (hp : Orderly s₀ p) (id : Long) :
    Orderly s₀ { p with threads := p.threads ++ [⟨(id, .contains), true⟩] } := by
  refine ⟨hp.table, hp.filter, hp.cached, ?_, ?_, ?_, ?_⟩
  · rw [Run.forall_mem_snoc]
    exact ⟨hp.right, trivial⟩
  · rw [Pool.tally_snoc]
    exact hp.lock
  · rw [Run.forall_mem_snoc]
    exact ⟨hp.filling, fun hfill => by cases hfill⟩
  · intro id' hrow
    rw [Pool.tally_snoc]
    exact (hp.loaded id' hrow).trans (Nat.add_le_add_left (Nat.le_add_right _ _) _)

section

variable {s s' : UserStore} {pre post : List (Thread (Long × Lookup))} {t t' : Long × Lookup}
variable {log ids : List Long}

theorem run (hcontains : ∀ id, s₀.miaoshaUser.Has id → s₀.bloomFileter id = true)
    (hp : Orderly s₀ ⟨s, pre ++ ⟨t, true⟩ :: post, log⟩) {x : Unit}
    (hs : lookups.step x s t = some (s', t', ids)) :
    Orderly s₀ ⟨s', pre ++ ⟨t', true⟩ :: post, log ++ ids⟩ := by
  obtain ⟨hid, hmoves, rfl⟩ := lookups_step hs
  obtain ⟨hright, hrights⟩ := Pool.forall_mem_split.1 hp.right
  obtain ⟨hfill, hfills⟩ := Pool.forall_mem_split.1 hp.filling
  have htable₀ : s.miaoshaUser = s₀.miaoshaUser := hp.table
  have hfilter₀ : s.bloomFileter = s₀.bloomFileter := hp.filter
  have hlock := hp.lock
  rw [Pool.tally_split] at hlock
  rw [← htable₀] at hright
  rw [← htable₀, ← hfilter₀] at hcontains
  obtain ⟨htable, hfilter, hcached, hright'⟩ := hmoves.kept hp.cached hright (hcontains t.1)
  have hheld := hmoves.held (by simp only at hlock; omega)
  refine ⟨htable.trans htable₀, hfilter.trans hfilter₀, hcached, ?_, ?_, ?_, ?_⟩
  · rw [Pool.forall_mem_split, ← htable₀, hid]
    rw [← htable₀] at hrights
    exact ⟨hright', hrights⟩
  · rw [Pool.tally_split]
    simp only at hlock ⊢
    omega
  · rw [Pool.forall_mem_split, hid]
    refine ⟨hmoves.filling hfill, ?_⟩
    intro u hu hu'
    rcases hmoves.cache u.frame.1 with he | ⟨-, ht⟩
    · rw [he]
      exact hfills u hu hu'
    · exact absurd hu' (hp.apart rfl hu ht)
  · intro id hrow
    have hle := hp.loaded id hrow
    have hcount := hmoves.loaded_for hid hfill hright (htable₀ ▸ hrow)
    rw [Pool.tally_split] at hle
    rw [List.count_append, Pool.tally_split]
    simp only at hle ⊢
    omega

/-- A thread that is stopped keeps its frame, and with it the lock. -/
theorem stop {r : Bool} (hp : Orderly s₀ ⟨s, pre ++ ⟨t, r⟩ :: post, log⟩) :
    Orderly s₀ ⟨s, pre ++ ⟨t, false⟩ :: post, log⟩ := by
  refine ⟨hp.table, hp.filter, hp.cached, ?_, ?_, ?_, ?_⟩
  · exact Pool.forall_mem_split.2 (Pool.forall_mem_split.1 hp.right)
  · rw [← hp.lock, Pool.tally_split, Pool.tally_split]
  · exact Pool.forall_mem_split.2 (Pool.forall_mem_split.1 hp.filling)
  · intro id hrow
    have hle := hp.loaded id hrow
    rw [Pool.tally_split] at hle ⊢
    exact hle

end

/-- **A step keeps the order.** -/
theorem move {l : Label (Long × Lookup) Unit}
    (hcontains : ∀ id, s₀.miaoshaUser.Has id → s₀.bloomFileter id = true) (hp : Orderly s₀ p)
    (hm : Pool.Move lookups p l p') : Orderly s₀ p' := by
  obtain ⟨s, threads, log⟩ := p
  cases hm with
  | idle => exact hp
  | @spawn t ht =>
    obtain ⟨id, f⟩ := t
    obtain rfl : f = .contains := of_decide_eq_true ht
    exact hp.spawn id
  | run hth hs =>
    subst hth
    exact hp.run hcontains hs
  | stop hth =>
    subst hth
    exact hp.stop

/-- A row that is in the cache is not being loaded again, and one that is not has at most one
lookup loading it. -/
theorem once (hp : Orderly s₀ p) (id : Long) (hrow : s₀.miaoshaUser.Has id) : p.log.count id ≤ 1 := by
  have hle := hp.loaded id hrow
  have hhold : Pool.tally (puttingFor id) p.threads ≤ 1 := by
    refine (Pool.tally_mono (puttingFor_le_holding id) p.threads).trans ?_
    rw [hp.lock]
    exact Bool.toNat_le _
  cases hc : p.store.rMapCache id with
  | none =>
    rw [hc] at hle
    exact hle.trans (by simpa using hhold)
  | some user =>
    have hnone : Pool.tally (puttingFor id) p.threads = 0 := by
      rw [Pool.tally_eq_zero]
      intro t ht
      unfold puttingFor
      split
      · next hid =>
        cases hf : t.frame.2 with
        | put user' =>
          have := hp.filling t ht (by rw [hf]; trivial)
          rw [hid, hc] at this
          cases this
        | _ => rfl
      · rfl
    rw [hc, hnone] at hle
    exact hle

end Orderly

/-! ## From the start -/

namespace UserServiceImlp

variable (other : Long → Bool) (miaoshaUser : Table MiaoshaUser Long MiaoshaUser.id)

theorem contains_afterPropertiesSet {id : Long} :
    (afterPropertiesSet other miaoshaUser).bloomFileter id = true ↔
      miaoshaUser.Has id ∨ other id = true := by
  simp [afterPropertiesSet, Table.Has]

/-- The instances have started, and no lookup has yet. -/
def started : Pool UserStore (Long × Lookup) Long := ⟨afterPropertiesSet other miaoshaUser, [], []⟩

theorem orderly_started :
    Orderly (afterPropertiesSet other miaoshaUser) (started other miaoshaUser) where
  table := rfl
  filter := rfl
  cached := fun _ _ h => by cases h
  right := fun _ h => by cases h
  lock := rfl
  filling := fun _ h => by cases h
  loaded := fun _ _ => Nat.zero_le _

/-- The lookups are in order in every run. -/
theorem orderly_run (ls : List (Label (Long × Lookup) Unit)) :
    Orderly (afterPropertiesSet other miaoshaUser)
      (Run.run (Pool.exec lookups) (started other miaoshaUser) ls) :=
  Pool.invariant lookups
    (fun _ _ _ hp hm => hp.move
      (fun _ hrow => (contains_afterPropertiesSet other miaoshaUser).2 (.inl hrow)) hm)
    ls (orderly_started other miaoshaUser)

/-- Once all have returned, nobody has the lock. -/
theorem free_of_finished {s₀ : UserStore} {p : Pool UserStore (Long × Lookup) Long}
    (hp : Orderly s₀ p) (h : ∀ t ∈ p.threads, t.frame.2.finished = true) : p.store.locked = false := by
  have hnone : Pool.tally (·.2.holding) p.threads = 0 := by
    rw [Pool.tally_eq_zero]
    intro t ht
    have := h t ht
    revert this
    cases t.frame.2 <;> simp [Lookup.finished, Lookup.holding]
  rw [hp.lock] at hnone
  exact Bool.toNat_eq_zero.1 hnone

/-- **A lookup is the table's** exactly where the filter is not mistaken. -/
theorem getById_iff (ls : List (Label (Long × Lookup) Unit)) (id : Long)
    (h : ∀ t ∈ (Run.run (Pool.exec lookups) (started other miaoshaUser) ls).threads,
      t.frame.2.finished = true) :
    LooksUp miaoshaUser id (Run.run (Pool.exec lookups) (started other miaoshaUser) ls).store ↔
      miaoshaUser.Has id ∨ other id = false := by
  have hp := orderly_run other miaoshaUser ls
  have htable : _ = miaoshaUser := hp.table
  have hcontains : _ ↔ miaoshaUser.Has id ∨ other id = true :=
    contains_afterPropertiesSet other miaoshaUser
  rw [← hp.filter] at hcontains
  have hiff := looksUp_iff (fun hrow => hcontains.2 (.inl (htable ▸ hrow))) hp.cached
    (free_of_finished hp h)
  rw [htable] at hiff
  rw [hiff]
  constructor
  · intro hx
    rcases hx with hrow | hb
    · exact .inl hrow
    · refine .inr (Bool.eq_false_of_not_eq_true fun ho => ?_)
      rw [hcontains.2 (.inr ho)] at hb
      cases hb
  · intro hx
    by_cases hrow : miaoshaUser.Has id
    · exact .inl hrow
    · have ho := hx.resolve_left hrow
      refine .inr (Bool.eq_false_of_not_eq_true fun hb => ?_)
      rw [(hcontains.1 hb).resolve_left hrow] at ho
      cases ho

/-- One user. -/
def single : Table MiaoshaUser Long MiaoshaUser.id := ⟨[{ id := some 13000000000 }], by simp⟩

/-- Two lookups of the user, both of which miss before either has the lock. -/
def race : List (Label (Long × Lookup) Unit) :=
  [.spawn (13000000000, .contains), .spawn (13000000000, .contains)] ++
    [0, 1, 0, 1, 0, 1, 0, 0, 0, 0, 1, 1, 1].map (.run · ())

theorem getById_iff_race :
    LooksUp single 13000000000
      (Run.run (Pool.exec lookups) (started (fun _ => false) single) race).store :=
  (getById_iff (fun _ => false) single race 13000000000 (by decide)).2 (.inl (by decide))

/-- The filter has one number too many, and its lookup ends in a `NullPointerException`. -/
theorem not_looksUp_mistaken :
    ¬ LooksUp single 13000000001
      (Run.run (Pool.exec lookups) (started (fun id => id = 13000000001) single) []).store := by
  intro h
  have hrow : ((getById 13000000001).exec
      (Run.run (Pool.exec lookups) (started (fun id => id = 13000000001) single) []).store).1 =
        .error .nullPointer := by decide
  rw [LooksUp, hrow] at h
  cases h.1

/-- **Each row is loaded once**, by whichever of the lookups first has the lock. -/
theorem loads_once (ls : List (Label (Long × Lookup) Unit)) :
    let p := Run.run (Pool.exec lookups) (started other miaoshaUser) ls
    (∀ t ∈ p.threads, ∀ result user, t.frame.2 = .returned result →
      miaoshaUser.find? t.frame.1 = some user → result = .ok (some user)) ∧
    (∀ id, miaoshaUser.Has id → p.log.count id ≤ 1) ∧
    ((∀ t ∈ p.threads, t.frame.2.finished = true) → p.store.locked = false) := by
  intro p
  have hp : Orderly _ p := orderly_run other miaoshaUser ls
  refine ⟨?_, ?_, free_of_finished hp⟩
  · intro t ht result user hreturned huser
    have hright := hp.right t ht
    rw [hreturned] at hright
    have hrow : miaoshaUser.Has t.frame.1 := by
      rw [Table.has_iff_find?, huser]
      rfl
    rw [← huser]
    exact hright hrow
  · exact hp.once

theorem loads_once_race :
    let p := Run.run (Pool.exec lookups) (started (fun _ => false) single) race
    p.frames = List.replicate 2 (13000000000, .returned (.ok (some { id := some 13000000000 }))) ∧
      p.log.count 13000000000 ≤ 1 ∧ p.store.locked = false := by
  have h := loads_once (fun _ => false) single race
  exact ⟨by decide, h.2.1 13000000000 (by decide), h.2.2 (by decide)⟩

end UserServiceImlp

end CfsShop
