/-
The in-memory over-mark is there to spare Redis (`内存标记，减少redis访问`, says
the source), so leaving out its test should change no answer.

It is tested after the counter was asked, not before: by then the request may
hold a unit, and the mark may have been written by one that came after it and
lost. `over_mark_iff` compares the controller with the one that does not test,
over the same interleaving.
-/
import CfsShop.Controller

namespace CfsShop

/-- Requests over one web instance, with the test of the over-mark or without. The input of a
step is whether RocketMQ is up. -/
def requests (marked : Bool) : Machine Web Request Bool Answer where
  allows _ f := match f with
    | .start _ _ => true
    | _ => false
  step := Request.step marked

abbrev Site := Pool Web Request Answer

/-- No request has come yet. -/
def Site.start (w : Web) : Site := ⟨w, [], []⟩

def Site.after (marked : Bool) (w : Web) (ls : List (Label Request Bool)) : Site :=
  Run.run (Pool.exec (requests marked)) (Site.start w) ls

namespace Request

/-- If the request tests the mark of its goods next, it finds it there, and not set. -/
def Passes (w : Web) : Request → Prop
  | testOver c _ => w.localOverMap (some c.goodsId) = some false
  | _ => True

instance (w : Web) : (f : Request) → Decidable (f.Passes w)
  | testOver c _ => inferInstanceAs (Decidable (w.localOverMap (some c.goodsId) = some false))
  | start _ _ | decrement _ | putOver _ _ | getOrder _ _ | send _ _ | finished _ =>
      inferInstanceAs (Decidable True)

/-- Beyond the test, and not refused by it. -/
def Beyond : Request → Prop
  | getOrder _ _ | send _ _ => True
  | finished r => r ≠ .ok (.error CodeMsg.MIAO_SHA_OVER) ∧ r ≠ .error .nullPointer
  | _ => False

variable {up : Bool} {w w' : Web} {f f' : Request} {es : List Answer}

/-- A test that passes might as well be left out. -/
theorem step_passes (h : f.Passes w) : f.step true up w = f.step false up w := by
  cases f with
  | testOver c k =>
    have hm : w.localOverMap (some c.goodsId) = some false := h
    simp only [step, hm, if_true, Bool.false_eq_true, if_false]
  | _ => rfl

/-- A test that does not pass refuses a request that would have gone on. -/
theorem step_not_passes (up : Bool) (h : ¬ f.Passes w) :
    (∃ r es, f.step true up w = some (w, finished r, es) ∧ ¬ (finished r).Beyond) ∧
      ∃ f' es, f.step false up w = some (w, f', es) ∧ f'.Beyond := by
  cases f with
  | testOver c k =>
    refine ⟨?_, getOrder c k, [], by simp [step], trivial⟩
    have hm : w.localOverMap (some c.goodsId) ≠ some false := h
    cases hmap : w.localOverMap (some c.goodsId) with
    | none => exact ⟨_, _, by simp only [step, hmap, if_true]; rfl, by simp [Beyond]⟩
    | some mark =>
      cases mark with
      | true => exact ⟨_, _, by simp only [step, hmap, if_true]; rfl, by simp [Beyond]⟩
      | false => exact absurd hmap hm
  | _ => exact absurd trivial h

theorem Step.beyond (h : Step false up w f w' f' es) (hf : f.Beyond) : f'.Beyond := by
  cases h with
  | passed => trivial
  | repeated => simp [Beyond, HttpResponse.error, CodeMsg.REPEATE_MIAOSHA, CodeMsg.MIAO_SHA_OVER]
  | notYet => trivial
  | sent => simp [Beyond, HttpResponse.error, HttpResponse.success]
  | unsent => simp [Beyond]
  | unknown h => cases h
  | refused h => cases h
  | _ => exact hf.elim

end Request

/-- The step of the label tests no mark that is missing or set. -/
def TestPasses (p : Site) : Label Request Bool → Prop
  | .run i _ => ∀ t ∈ p.threads[i]?, t.running = true → t.frame.Passes p.store
  | _ => True

instance (p : Site) : (l : Label Request Bool) → Decidable (TestPasses p l)
  | .run i _ => inferInstanceAs
      (Decidable (∀ t ∈ p.threads[i]?, t.running = true → t.frame.Passes p.store))
  | .spawn _ | .stop _ => inferInstanceAs (Decidable True)

/-! ## With and without the test -/

theorem exec_of_passes {p : Site} {l : Label Request Bool} (h : TestPasses p l) :
    p.exec (requests true) l = p.exec (requests false) l := by
  cases l with
  | spawn f => rfl
  | stop i => rfl
  | run i up =>
    simp only [Pool.exec]
    split
    · next f hf =>
      have hpass : f.Passes p.store := h ⟨f, true⟩ hf rfl
      have hstep : (requests true).step up p.store f = (requests false).step up p.store f :=
        Request.step_passes hpass
      rw [hstep]
    · rfl

/-- Once a test refuses a request that holds a unit, its answer is another for good. -/
theorem frames_ne_of_not_passes {p : Site} {l : Label Request Bool} (h : ¬ TestPasses p l)
    (ls : List (Label Request Bool)) :
    (Run.run (Pool.exec (requests true)) p (l :: ls)).frames ≠
      (Run.run (Pool.exec (requests false)) p (l :: ls)).frames := by
  cases l with
  | spawn f => exact absurd trivial h
  | stop i => exact absurd trivial h
  | run i up =>
    simp only [TestPasses, not_forall] at h
    obtain ⟨⟨f, b⟩, ht, hb, hf⟩ := h
    simp only at hb hf
    subst hb
    obtain ⟨⟨r, es, hs, hr⟩, f', es', hs', hf'⟩ := Request.step_not_passes up hf
    obtain ⟨pre, post, hp, rfl⟩ := Pool.split_of_getElem? (Option.mem_def.1 ht)
    have hmarked : ∃ t, (p.exec (requests true) (.run pre.length up)).threads[pre.length]? = some t ∧
        t.frame = .finished r := by
      rw [Pool.exec_run hp hs]
      exact ⟨⟨.finished r, true⟩, by simp, rfl⟩
    have hunmarked : ∃ t, (p.exec (requests false) (.run pre.length up)).threads[pre.length]? = some t ∧
        t.frame.Beyond := by
      rw [Pool.exec_run hp hs']
      exact ⟨⟨f', true⟩, by simp, hf'⟩
    obtain ⟨t, ht, hq⟩ := Pool.persists (M := requests true) (Q := fun f => f = .finished r)
      (fun x s f s' f' es hq hstep => by subst hq; cases hstep) ls hmarked
    obtain ⟨t', ht', hq'⟩ := Pool.persists (M := requests false) (Q := Request.Beyond)
      (fun x s f s' f' es hq hstep => (Request.step_spec hstep).beyond hq) ls hunmarked
    intro heq
    have hi := congrArg (·[pre.length]?) heq
    simp only [Pool.frames, List.getElem?_map, Run.run_cons, ht, ht', Option.map_some,
      Option.some.injEq] at hi
    rw [← hi, hq] at hq'
    exact hr hq'

theorem frames_eq_iff (p : Site) (ls : List (Label Request Bool)) :
    (Run.run (Pool.exec (requests true)) p ls).frames =
      (Run.run (Pool.exec (requests false)) p ls).frames ↔
      Run.Along (Pool.exec (requests true)) TestPasses p ls := by
  induction ls generalizing p with
  | nil => exact iff_of_true rfl trivial
  | cons l ls ih =>
    by_cases h : TestPasses p l
    · rw [Run.run_cons, Run.run_cons, ← exec_of_passes h, ih, Run.Along]
      exact ⟨fun hls => ⟨h, hls⟩, fun hls => hls.2⟩
    · exact iff_of_false (frames_ne_of_not_passes h ls) fun hls => h hls.1

theorem run_eq_of_passes {p : Site} {ls : List (Label Request Bool)}
    (h : Run.Along (Pool.exec (requests true)) TestPasses p ls) :
    Run.run (Pool.exec (requests true)) p ls = Run.run (Pool.exec (requests false)) p ls := by
  induction ls generalizing p with
  | nil => rfl
  | cons l ls ih =>
    rw [Run.run_cons, Run.run_cons, ← exec_of_passes h.1]
    exact ih h.2

/-! ## No unit thrown away -/

/-- Whoever got a unit and has no order gets into the queue, or is told that it is down. -/
def NoUnitLost (p : Site) : Prop :=
  ∀ a ∈ p.log, ∀ u ∈ a.userId, ∀ k ∈ a.stock, 0 ≤ k → ¬ p.store.Ordered u a.goodsId →
    a.result = .ok (.success 0) ∨ a.result = .error .mqClient

/-- Without the test, units are kept: only who got none goes to set the mark. -/
structure Kept (p : Site) : Prop where
  late : ∀ t ∈ p.threads, ∀ c k, t.frame = .putOver c k → k < 0
  answers : NoUnitLost p

namespace Request.Step

variable {marked up : Bool} {w w' : Web} {f f' : Request} {es : List Answer}

theorem ordered (h : Step marked up w f w' f' es) {u g : Long} : w'.Ordered u g ↔ w.Ordered u g := by
  cases h <;> exact Iff.rfl

theorem late (h : Step marked up w f w' f' es) {c : Call} {k : Int} (hf : f' = .putOver c k) :
    k < 0 := by
  cases h with
  | tooLate hle =>
    cases hf
    omega
  | _ => cases hf

theorem kept (h : Step false up w f w' f' es) (hf : ∀ c k, f = .putOver c k → k < 0) :
    ∀ a ∈ es, ∀ u ∈ a.userId, ∀ k ∈ a.stock, 0 ≤ k → ¬ w.Ordered u a.goodsId →
      a.result = .ok (.success 0) ∨ a.result = .error .mqClient := by
  intro a ha u hu k hk hpos ho
  cases h with
  | noSession =>
    rw [List.mem_singleton] at ha
    subst ha
    cases hu
  | put =>
    rw [List.mem_singleton] at ha
    subst ha
    have := hf _ _ rfl
    cases hk
    omega
  | unknown h => cases h
  | refused h => cases h
  | repeated h =>
    rw [List.mem_singleton] at ha
    subst ha
    cases hu
    exact absurd h ho
  | sent =>
    rw [List.mem_singleton] at ha
    subst ha
    exact .inl rfl
  | unsent =>
    rw [List.mem_singleton] at ha
    subst ha
    exact .inr rfl
  | _ => cases ha

end Request.Step

theorem Kept.move (p : Site) (l : Label Request Bool) (p' : Site) (h : Kept p)
    (hm : Pool.Move (requests false) p l p') : Kept p' := by
  have hlate := hm.threads (Q := fun t => ∀ c k, t.frame = .putOver c k → k < 0) h.late
    (fun f hf c k hk => by
      simp only at hk
      subst hk
      cases hf)
    (fun x f s f' es _ hs c k hk => (Request.step_spec hs).late hk)
    (fun i t _ ht c k hk => h.late t (List.mem_of_getElem? ht) c k hk)
  refine ⟨hlate, ?_⟩
  cases hm with
  | @run pre f post x s f' es hp hs =>
    have hstep := Request.step_spec hs
    intro a ha u hu k hk hpos ho
    have ho' : ¬ p.store.Ordered u a.goodsId := fun h => ho (hstep.ordered.2 h)
    rcases List.mem_append.1 ha with ha | ha
    · exact h.answers a ha u hu k hk hpos ho'
    · exact hstep.kept (fun c k hf => h.late ⟨f, true⟩ (by simp [hp]) c k hf) a ha u hu k hk hpos ho'
  | _ => exact h.answers

/-- **The over-mark, exactly when it changes nothing.** Over any interleaving of requests, every
request stands where it would stand without the test, its answer included, and whoever got a
unit and has no order is sent on, if and only if every request that came to test the mark
of its goods found it there and not set. -/
theorem over_mark_iff (w : Web) (ls : List (Label Request Bool)) :
    ((Site.after true w ls).frames = (Site.after false w ls).frames ∧
      NoUnitLost (Site.after true w ls)) ↔
      Run.Along (Pool.exec (requests true)) TestPasses (Site.start w) ls := by
  constructor
  · intro h
    exact (frames_eq_iff (Site.start w) ls).1 h.1
  · intro h
    have hkept : Kept (Site.after false w ls) := Pool.invariant (requests false) Kept.move ls
      ⟨by simp [Site.start], fun a ha => by simp [Site.start] at ha⟩
    have heq : Site.after true w ls = Site.after false w ls := run_eq_of_passes h
    rw [heq]
    exact ⟨rfl, hkept.answers⟩

/-- User 7 gets the only unit, user 8 comes too late and sets the mark, then user 7 looks at it. -/
def markedTooSoon : List (Label Request Bool) :=
  [.spawn (.start (some { userId := some 7 }) 1), .spawn (.start (some { userId := some 8 }) 1),
    .run 0 true, .run 0 true, .run 1 true, .run 1 true, .run 1 true, .run 0 true, .run 0 true,
      .run 0 true]

/-- Both are told that the sale is over, and nothing is in the queue; without the test user 7
is in it. -/
theorem mark_takes_the_last_unit :
    (Site.after true (Web.one 1) markedTooSoon).frames =
        [.finished (.ok (.error CodeMsg.MIAO_SHA_OVER)),
          .finished (.ok (.error CodeMsg.MIAO_SHA_OVER))] ∧
      (Site.after false (Web.one 1) markedTooSoon).frames =
        [.finished (.ok (.success 0)), .finished (.ok (.error CodeMsg.MIAO_SHA_OVER))] ∧
      (Site.after true (Web.one 1) markedTooSoon).store.broker = [] ∧
      ¬ NoUnitLost (Site.after true (Web.one 1) markedTooSoon) := by
  refine ⟨by decide, by decide, by decide, ?_⟩
  intro h
  have hlost := h ⟨some 7, 1, some 0, .ok (.error CodeMsg.MIAO_SHA_OVER)⟩ (by decide) 7 rfl 0 rfl
    (by omega) (by decide)
  revert hlost
  decide

end CfsShop
