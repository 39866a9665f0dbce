/-
`is_goods_over`, the flag the page asks for goods that are sold out. A
consumer has two ways to find out: its `reduceStock` takes nothing, and then
`setGoodsOver` follows, or it reads a stock of 0 at once, and then nothing
does and the rest of its batch is dropped. So the flag never lies, but it may
stay away: `flag_told` says what suffices for it to be there once every
consumer has ended.
-/
import CfsShop.Ledger
import CfsShop.Delivery

namespace CfsShop

/-- The stock is used up. -/
def Db.SoldOut (db : Db) (g : Long) : Prop := ∃ n, db.stock (some g) = some n ∧ n ≤ 0

instance (db : Db) (g : Long) : Decidable (db.SoldOut g) :=
  decidable_of_iff ((db.stock (some g)).any (· ≤ 0) = true) (by simp [Db.SoldOut, Option.any_eq_true])

/-- `is_goods_over` is set. -/
def Redis.Over (r : Redis) (g : Long) : Prop := r.isGoodsOver g = some true

instance (r : Redis) (g : Long) : Decidable (r.Over g) :=
  inferInstanceAs (Decidable (r.isGoodsOver g = some true))

/-- The flag is set only for goods that are sold out. -/
def Shop.FlagTrue (s : Shop) : Prop := ∀ g, s.redis.Over g → s.db.SoldOut g

namespace Frame

variable {now : Date} {s s' : Shop} {f f' : Frame} {es : List Event} {g : Long}

/-- What a consumer knows about the stock of its goods. -/
def Knows (db : Db) : Frame → Prop
  | getMiaoshaOrder l | reduceStock l => (db.stock (some l.goodsId)).isSome
  | setGoodsOver l => db.SoldOut l.goodsId
  | _ => True

/-- The consumer is bound to set the flag, if the goods is sold out. -/
def WillMark (g : Long) : Frame → Prop
  | reduceStock l | setGoodsOver l => l.goodsId = g
  | _ => False

instance (g : Long) : (f : Frame) → Decidable (f.WillMark g)
  | reduceStock l | setGoodsOver l => inferInstanceAs (Decidable (l.goodsId = g))
  | loop _ | getMiaoshaOrder _ | insert _ | lastInsertId _ _ | insertMiaoshaOrder _ _
  | putMiaoshaOrder _ _ | threw _ => inferInstanceAs (Decidable False)

namespace Step

/-- What is sold out stays so. -/
theorem soldOut_stays (h : Step now s f s' f' es) (hs : s.db.SoldOut g) : s'.db.SoldOut g := by
  obtain ⟨n, hn, hle⟩ := hs
  refine ⟨_, by rw [(h.stock g).1, hn, Option.map_some], ?_⟩
  omega

theorem knows_stays (h : Step now s f s' f' es) {f₀ : Frame} (hf : f₀.Knows s.db) : f₀.Knows s'.db := by
  cases f₀ with
  | getMiaoshaOrder l =>
    show (s'.db.stock (some l.goodsId)).isSome
    rw [(h.stock l.goodsId).1, Option.isSome_map]
    exact hf
  | reduceStock l =>
    show (s'.db.stock (some l.goodsId)).isSome
    rw [(h.stock l.goodsId).1, Option.isSome_map]
    exact hf
  | setGoodsOver l => exact h.soldOut_stays hf
  | _ => trivial

/-- A consumer learns of the stock by reading it, and of a stock used up by failing to take from it. -/
theorem knows (h : Step now s f s' f' es) (hf : f.Knows s.db) : f'.Knows s'.db := by
  cases h with
  | @lookedUp m rest n l hn hpos hm hrest =>
    subst hm
    show (s.db.stock (some l.goodsId)).isSome
    rw [show s.db.stock (some l.goodsId) = some n from hn]
    rfl
  | @notYet l ho => exact hf
  | @tooLate l hall =>
    obtain ⟨n, hn⟩ := Option.isSome_iff_exists.1 hf
    exact ⟨n, hn, hall n hn⟩
  | _ => trivial

/-- The flag is set by a consumer that knows, and never taken back. -/
theorem over_iff (h : Step now s f s' f' es) (g : Long) :
    s'.redis.Over g ↔ s.redis.Over g ∨ ∃ l, f = setGoodsOver l ∧ l.goodsId = g := by
  cases h with
  | @marked l =>
    simp only [Redis.Over, Redis.putGoodsOver, Function.update_apply]
    by_cases hg : g = l.goodsId
    · subst hg
      simp
    · have hg' : ¬ l.goodsId = g := fun he => hg he.symm
      simp [hg, hg']
  | _ => simp [Redis.Over, Redis.putMiaoshaOrder]

/-- A consumer bound to set the flag of goods that are sold out is so still, or has. -/
theorem willMark (h : Step now s f s' f' es) (hs : s.db.SoldOut g) (hf : f.WillMark g) :
    s'.redis.Over g ∨ f'.WillMark g := by
  cases h with
  | @reduced n l hn hpos =>
    obtain ⟨n', hn', hle⟩ := hs
    rw [show l.goodsId = g from hf, hn'] at hn
    cases hn
    omega
  | @tooLate l hall => exact .inr hf
  | @marked l =>
    have hstep : Step now s (setGoodsOver l) _ _ _ := .marked
    exact .inl ((hstep.over_iff g).2 (.inr ⟨l, rfl, hf⟩))
  | _ => exact absurd hf id

end Step

end Frame

/-! ## The flag never lies -/

/-- The flag is true, and the consumers know what they know. -/
def Sale.Honest : Sale → Prop :=
  Pool.Each (fun s _ => s.FlagTrue) fun s _ f => f.Knows s.db

theorem Sale.Honest.move (p : Sale) (l : Label Frame Date) (p' : Sale) (h : p.Honest)
    (hm : Pool.Move consumers p l p') : p'.Honest := by
  refine hm.each ?_ ?_ h
  · intro s log f _ hf
    cases f with
    | loop msgs => trivial
    | _ => simp [consumers] at hf
  · intro now s log f s' f' es hflag hf hs
    have hstep := Frame.step_spec hs
    refine ⟨?_, hstep.knows hf, fun f₀ => hstep.knows_stays⟩
    intro g hover
    rcases (hstep.over_iff g).1 hover with hover | ⟨l, rfl, rfl⟩
    · exact hstep.soldOut_stays (hflag g hover)
    · exact hstep.soldOut_stays hf

theorem Sale.soldOut_stays {g : Long} (p : Sale) (l : Label Frame Date) (p' : Sale)
    (h : p.store.db.SoldOut g) (hm : Pool.Move consumers p l p') : p'.store.db.SoldOut g := by
  cases hm with
  | run hp hs => exact (Frame.step_spec hs).soldOut_stays h
  | _ => exact h

/-! ## Who was turned away -/

/-- The later messages of the batch: a `break` drops them with the one at hand. -/
def Frame.behind : Frame → List MiaoshaMessage
  | loop (_ :: rest) => rest
  | _ => []

/-- Along the labels a message for the goods was turned away because that was sold out, from a user
who had no order for it: the message a consumer was at, or one for the same goods behind it. -/
def TurnedAwayFrom (s : Shop) (ls : List (Label Frame Date)) (g : Long) : Prop :=
  ∃ pre i now post f m m' u, ls = pre ++ .run i now :: post ∧
    (Sale.after s pre).threads[i]? = some ⟨f, true⟩ ∧
    (Sale.after s (pre ++ [.run i now])).log = (Sale.after s pre).log ++ [.turnedAway m] ∧
    m.goodsId = g ∧ m' ∈ m :: f.behind ∧ m'.goodsId = g ∧ m'.userId = some u ∧
    ¬ (Sale.after s pre).store.db.HasOrder u g

/-- What is expected of the flag: where it is set the goods is sold out, from then on; and once no
consumer has anything left to do, it is set for every goods someone without an order was turned
away from. -/
structure FlagTold (s : Shop) (ls : List (Label Frame Date)) : Prop where
  truth : ∀ pre pre', pre <+: pre' → pre' <+: ls → ∀ g, (Sale.after s pre).store.redis.Over g →
    (Sale.after s pre').store.db.SoldOut g
  told : ∀ pre, pre <+: ls → Pool.Quiet consumers (Sale.after s pre) →
    ∀ g, TurnedAwayFrom s pre g → (Sale.after s pre).store.redis.Over g

/-- The flag is set, or some consumer is bound to set it. -/
def Sale.Noted (p : Sale) (g : Long) : Prop :=
  p.store.redis.Over g ∨ ∃ t ∈ p.threads, t.running = true ∧ t.frame.WillMark g

instance (p : Sale) (g : Long) : Decidable (p.Noted g) :=
  inferInstanceAs (Decidable (_ ∨ ∃ t ∈ p.threads, t.running = true ∧ t.frame.WillMark g))

/-- A message for the goods from a user without an order for it. -/
def Db.Wanting (db : Db) (g : Long) (m : MiaoshaMessage) : Prop :=
  m.goodsId = g ∧ ∃ u, m.userId = some u ∧ ¬ db.HasOrder u g

instance (db : Db) (g : Long) (m : MiaoshaMessage) : Decidable (db.Wanting g m) :=
  decidable_of_iff (m.goodsId = g ∧ (m.userId.any fun u => decide (¬ db.HasOrder u g)) = true)
    (by simp [Db.Wanting, Option.any_eq_true])

/-- A consumer that reads a stock used up is not the first to know, if among the messages it then
drops is one for the same goods from a user without an order. -/
def NotFirst (p : Sale) (_ : Date) : Frame → Prop
  | .loop (m :: rest) => p.store.db.SoldOut m.goodsId →
      (∃ m' ∈ m :: rest, p.store.db.Wanting m.goodsId m') → p.Noted m.goodsId
  | _ => True

instance (p : Sale) (now : Date) : (f : Frame) → Decidable (NotFirst p now f)
  | .loop (m :: rest) => inferInstanceAs (Decidable (p.store.db.SoldOut m.goodsId →
      (∃ m' ∈ m :: rest, p.store.db.Wanting m.goodsId m') → p.Noted m.goodsId))
  | .loop [] | .getMiaoshaOrder _ | .reduceStock _ | .insert _ | .lastInsertId _ _
  | .insertMiaoshaOrder _ _ | .putMiaoshaOrder _ _ | .setGoodsOver _ | .threw _ =>
    inferInstanceAs (Decidable True)

/-- Consumers start and take their steps; none dies. -/
def Unfailing : Label Frame Date → Prop
  | .stop _ => False
  | _ => True

instance : (l : Label Frame Date) → Decidable (Unfailing l)
  | .stop _ => inferInstanceAs (Decidable False)
  | .spawn _ | .run _ _ => inferInstanceAs (Decidable True)

namespace Sale

variable {p p' : Sale} {g : Long} {l : Label Frame Date}

/-- What is noted of goods that are sold out is not forgotten. -/
theorem Noted.move (h : p.Noted g) (hs : p.store.db.SoldOut g) (hl : Unfailing l)
    (hm : Pool.Move consumers p l p') : p'.Noted g := by
  cases hm with
  | idle => exact h
  | spawn hf =>
    refine h.imp id ?_
    intro hx
    obtain ⟨t, ht, hr⟩ := hx
    exact ⟨t, List.mem_append_left _ ht, hr⟩
  | stop hp => exact absurd hl id
  | @run pre f post x s f' es hp hstep =>
    have hspec := Frame.step_spec hstep
    rcases h with hover | ⟨t, ht, hr, hw⟩
    · exact .inl ((hspec.over_iff g).2 (.inl hover))
    · rw [hp, List.mem_append, List.mem_cons] at ht
      rcases ht with ht | rfl | ht
      · exact .inr ⟨t, by simp [ht], hr, hw⟩
      · exact (hspec.willMark hs hw).imp id fun hw' => ⟨⟨f', true⟩, by simp, rfl, hw'⟩
      · exact .inr ⟨t, by simp [ht], hr, hw⟩

/-- Once nobody has anything left to do, what was noted is done. -/
theorem Noted.over_of_quiet (h : p.Noted g) (hq : Pool.Quiet consumers p) : p.store.redis.Over g := by
  rcases h with hover | ⟨⟨f, r⟩, ht, hr, hw⟩
  · exact hover
  · have hnone := hq _ ht hr 0
    cases f with
    | reduceStock l =>
      have hsome : (Frame.step 0 p.store (.reduceStock l)).isSome := by
        simp only [Frame.step]
        split <;> rfl
      rw [show Frame.step 0 p.store (.reduceStock l) = none from hnone] at hsome
      cases hsome
    | setGoodsOver l => simp [consumers, Frame.step] at hnone
    | _ => exact absurd hw id

/-- Whoever is turned away, it is noted. -/
theorem noted_of_turnedAway {i : Nat} {now : Date} {f : Frame} {m m' : MiaoshaMessage} (h : p.Honest)
    (hguard : Pool.Guarded NotFirst p (.run i now)) (hm : Pool.Move consumers p (.run i now) p')
    (hf : p.threads[i]? = some ⟨f, true⟩) (hlog : p'.log = p.log ++ [.turnedAway m])
    (hmem : m' ∈ m :: f.behind) (hwant : p.store.db.Wanting m.goodsId m') :
    p'.store.db.SoldOut m.goodsId ∧ p'.Noted m.goodsId := by
  cases hm with
  | idle => simp at hlog
  | @run pre f₀ post _ s f' es hp hs =>
    obtain rfl : f₀ = f := by simpa [hp] using hf
    have hspec := Frame.step_spec hs
    have hes : es = [.turnedAway m] := List.append_cancel_left hlog
    subst hes
    have hknows : f₀.Knows p.store.db := h.2 ⟨f₀, true⟩ (by simp [hp])
    cases hspec with
    | @soldOut _ rest n hn hle =>
      -- The `break`: everything behind goes with the message at hand.
      have hsold : p.store.db.SoldOut m.goodsId := ⟨n, hn, hle⟩
      have hnoted : p.Noted m.goodsId := hguard.of_run hp hsold ⟨m', hmem, hwant⟩
      have hl : Unfailing (.run pre.length now) := trivial
      exact ⟨hsold, hnoted.move hsold hl (.run hp hs)⟩
    | @tooLate l hall =>
      obtain ⟨n, hn⟩ := Option.isSome_iff_exists.1 hknows
      exact ⟨⟨n, hn, hall n hn⟩, .inr ⟨⟨.setGoodsOver l, true⟩, by simp, rfl, rfl⟩⟩

/-- And stays noted. -/
theorem noted_run (h : p.Noted g) (hs : p.store.db.SoldOut g) (ls : List (Label Frame Date))
    (hl : ∀ l ∈ ls, Unfailing l) : Noted (Run.run (Pool.exec consumers) p ls) g := by
  induction ls generalizing p with
  | nil => exact h
  | cons l ls ih =>
    rw [List.forall_mem_cons] at hl
    have hm := Pool.exec_move consumers p l
    exact ih (h.move hs hl.1 hm) (soldOut_stays p l _ hs hm) hl.2

end Sale

/-! ## The flag told -/

/-- The flag tells the truth along any steps in which a consumer that finds the goods sold out by
reading its stock, and then drops a message for it from a user without an order, is not the first to
find out: the flag is set by then, or a consumer is at `reduceStock` or `setGoodsOver` for the same
goods. That it never lies needs no condition. -/
theorem flag_told (s : Shop) (hs : s.FlagTrue) (ls : List (Label Frame Date))
    (hl : ∀ l ∈ ls, Unfailing l)
    (hfirst : Run.Along (Pool.exec consumers) (Pool.Guarded NotFirst) (Sale.start s) ls) :
    FlagTold s ls := by
  have hhonest : ∀ pre, (Sale.after s pre).Honest := fun pre =>
    Pool.invariant consumers Sale.Honest.move pre ⟨hs, by simp [Sale.start]⟩
  constructor
  · intro pre pre' hpre _ g hover
    obtain ⟨rest, rfl⟩ := hpre
    have hsold : (Sale.after s pre).store.db.SoldOut g := (hhonest pre).1 g hover
    rw [Sale.after, Run.run_append]
    exact Pool.invariant consumers (I := fun p => p.store.db.SoldOut g) Sale.soldOut_stays rest hsold
  · intro pre hpre hquiet g haway
    obtain ⟨before, i, now, post, f, m, m', u, rfl, hf, hlog, rfl, hmem, hg, hu, ho⟩ := haway
    obtain ⟨rest, rfl⟩ := hpre
    rw [List.append_assoc, Run.along_append] at hfirst
    have hguard : Pool.Guarded NotFirst (Sale.after s before) (.run i now) := hfirst.2.1
    have hsnoc : Sale.after s (before ++ [.run i now]) =
        (Sale.after s before).exec consumers (.run i now) := by
      rw [Sale.after, Run.run_append]
      rfl
    rw [hsnoc] at hlog
    obtain ⟨hsold, hnoted⟩ := Sale.noted_of_turnedAway (hhonest before) hguard
      (Pool.exec_move consumers _ _) hf hlog hmem ⟨hg, u, hu, ho⟩
    have hpost : Sale.after s (before ++ .run i now :: post) =
        Run.run (Pool.exec consumers) ((Sale.after s before).exec consumers (.run i now)) post := by
      rw [Sale.after, Run.run_append, Run.run_cons]
      rfl
    rw [hpost] at hquiet ⊢
    refine (Sale.noted_run hnoted hsold post ?_).over_of_quiet hquiet
    intro l' hl'
    exact hl l' (by simp [hl'])

/-- One unit and two consumers; the second has read the stock before the first takes the unit. It
turns its first message away after that, and drops the two behind it. -/
def bothInTime : List (Label Frame Date) :=
  [.spawn (.loop [⟨some { id := some 7 }, 1⟩]),
    .spawn (.loop [⟨some { id := some 8 }, 1⟩, ⟨some { id := some 7 }, 1⟩, ⟨some { id := some 9 }, 1⟩]),
    .run 0 0, .run 1 0] ++ List.replicate 6 (.run 0 0) ++ List.replicate 4 (.run 1 0)

theorem flag_told_in_time :
    (Shop.one 1).FlagTrue ∧ FlagTold (Shop.one 1) bothInTime ∧
      (Sale.after (Shop.one 1) bothInTime).store.redis.Over 1 := by
  have hflag : (Shop.one 1).FlagTrue := by
    intro g hover
    cases hover
  have htold : FlagTold (Shop.one 1) bothInTime :=
    flag_told (Shop.one 1) hflag bothInTime (by decide) (by decide +kernel)
  exact ⟨hflag, htold, by decide +kernel⟩

/-- One unit and two users, one after the other. -/
def secondTooLate : List (Label Frame Date) :=
  .spawn (.loop [⟨some { id := some 7 }, 1⟩]) :: List.replicate 7 (.run 0 0) ++
    [.spawn (.loop [⟨some { id := some 8 }, 1⟩]), .run 1 0]

/-- The second is turned away and nobody says so. -/
theorem not_flag_told_too_late :
    (Shop.one 1).FlagTrue ∧ (∀ l ∈ secondTooLate, Unfailing l) ∧
      (∀ u : Long, (Shop.one 1).db.Deliverable ⟨some { id := some u }, 1⟩) ∧
      ¬ FlagTold (Shop.one 1) secondTooLate := by
  refine ⟨?_, by decide, ?_, ?_⟩
  · intro g hover
    cases hover
  · intro u
    exact ⟨⟨rfl, rfl⟩, rfl⟩
  intro h
  have hquiet : Pool.Quiet consumers (Sale.after (Shop.one 1) secondTooLate) :=
    Sale.quiet_of_frames (n := 2) rfl
  have haway : TurnedAwayFrom (Shop.one 1) secondTooLate 1 := by
    refine ⟨secondTooLate.dropLast, 1, 0, [], .loop [⟨some { id := some 8 }, 1⟩],
      ⟨some { id := some 8 }, 1⟩, ⟨some { id := some 8 }, 1⟩, 8, by rfl, by rfl, ?_, rfl, by simp, rfl,
        rfl, ?_⟩
    · decide +kernel
    · decide +kernel
  exact absurd (h.told secondTooLate (List.prefix_refl _) hquiet 1 haway) (by decide +kernel)

end CfsShop
