/-
From the request to the order: what becomes of a request that was answered
"queueing" (`success(0)`).

The sender makes its messages with `Message(topic, body)`, which has no tag;
the receiver subscribes to the tag `push`. So the broker hands nothing on, no
consumer ever gets a message, and an accepted request is worth what the database
had for it when it was accepted (`accepted_iff`). This gives the receiver more
than it has: `miaoShaConsumer` never starts its consumer either.
-/
import CfsShop.Controller
import CfsShop.Receiver

namespace CfsShop

/-- `consumer.subscribe(topic, tag)`. -/
structure Subscription where
  topic : String
  tag : String

/-- RocketMQ hands on the messages of the topic that carry the tag. -/
def Subscription.accepts (s : Subscription) (m : Message) : Bool :=
  m.topic = s.topic ∧ m.tags = some s.tag

/-- What `miaoShaConsumer` subscribes to. -/
def MQReceiver.subscription : Subscription := ⟨MQConfig.MIAOSHA_QUEUE, "push"⟩

/-- The web instance and the database behind it. Redis is shared: it is the `redis` of `web`. -/
structure Store where
  db : Db
  web : Web

namespace Store

/-- What the consumers see of it. -/
def shop (s : Store) : Shop := ⟨s.db, s.web.redis⟩

def setShop (s : Store) (p : Shop) : Store := ⟨p.db, { s.web with redis := p.redis }⟩

end Store

/-- A request, or a call of the listener with a batch of messages. -/
inductive Task
  | request (f : Request)
  | consumer (msgs : List MiaoshaMessage) (f : Frame)

/-- Requests come as they like; the listener is called with messages the broker has and the
subscription accepts, in any batches, any number of times. The input of a step is whether
RocketMQ is up, and the time. -/
def flashSale : Machine Store Task (Bool × Date) Answer where
  allows s t := match t with
    | .request (.start _ _) => true
    | .consumer msgs (.loop msgs') => msgs = msgs' ∧ ∀ m ∈ msgs, ∃ b ∈ s.web.broker,
        MQReceiver.subscription.accepts b ∧ b.body = m
    | _ => false
  step x s t := match t with
    | .request f => (f.step true x.1 s.web).map fun (w, f', es) =>
        ({ s with web := w }, .request f', es)
    | .consumer msgs f => (f.step x.2 s.shop).map fun (p, f', _) => (s.setShop p, .consumer msgs f', [])

abbrev FlashSale := Pool Store Task Answer

/-- Nobody has come yet, and nothing is in the queue. -/
def FlashSale.start (db : Db) (redis : Redis) (localOverMap : Option Long → Option Bool) : FlashSale :=
  ⟨⟨db, ⟨redis, localOverMap, []⟩⟩, [], []⟩

/-- Every message the subscription accepts has been in a batch that was worked through. -/
def Processed (p : FlashSale) : Prop :=
  ∀ b ∈ p.store.web.broker, MQReceiver.subscription.accepts b = true →
    ∃ t ∈ p.threads, ∃ msgs, t.frame = .consumer msgs (.loop []) ∧ b.body ∈ msgs

/-- The pair has its order, or the goods is sold out. -/
def Db.Settles (db : Db) (u g : Long) : Prop := db.HasOrder u g ∨ db.stock (some g) = some 0

instance (db : Db) (u g : Long) : Decidable (db.Settles u g) := inferInstanceAs (Decidable (_ ∨ _))

/-- No accepted request is lost. -/
def NoneLost (p : FlashSale) : Prop :=
  Processed p → ∀ a ∈ p.log, ∀ u ∈ a.userId, a.result = .ok (.success 0) →
    p.store.db.Settles u a.goodsId

namespace Task

/-- If the request is accepted with the next step, there is nothing left to do for it. -/
def Redundant (db : Db) (up : Bool) : Task → Prop
  | request (.send c _) => up = true → db.Settles c.userId c.goodsId
  | _ => True

instance (db : Db) (up : Bool) : (t : Task) → Decidable (t.Redundant db up)
  | request (.send c _) => inferInstanceAs (Decidable (up = true → db.Settles c.userId c.goodsId))
  | request (.start _ _) | request (.decrement _) | request (.putOver _ _) | request (.testOver _ _)
  | request (.getOrder _ _) | request (.finished _) | consumer _ _ => inferInstanceAs (Decidable True)

/-- A request with no step to take is not about to be accepted. -/
theorem redundant_of_stuck {db : Db} {s : Store} {x : Bool × Date} {t : Task}
    (h : flashSale.step x s t = none) :
    t.Redundant db x.1 := by
  cases t with
  | consumer => trivial
  | request f =>
    cases f with
    | send c k =>
      simp only [flashSale, Request.step] at h
      split at h <;> cases h
    | _ => trivial

end Task

/-- The step of the label accepts no request except for a pair that has its order already, or a
goods that is sold out. -/
def OnlySettled (p : FlashSale) : Label Task (Bool × Date) → Prop
  | .run i x => ∀ t ∈ p.threads[i]?, t.running = true → t.frame.Redundant p.store.db x.1
  | _ => True

instance (p : FlashSale) : (l : Label Task (Bool × Date)) → Decidable (OnlySettled p l)
  | .run i x => inferInstanceAs
      (Decidable (∀ t ∈ p.threads[i]?, t.running = true → t.frame.Redundant p.store.db x.1))
  | .spawn _ | .stop _ => inferInstanceAs (Decidable True)

/-! ## Nothing is handed on -/

/-- No message carries a tag, and no call of the listener has anything to do. -/
structure Unheard (p : FlashSale) : Prop where
  untagged : ∀ b ∈ p.store.web.broker, b.tags = none
  idle : ∀ t ∈ p.threads, ∀ msgs f, t.frame = .consumer msgs f → f = .loop []

theorem Unheard.not_accepts {p : FlashSale} (h : Unheard p) {b : Message}
    (hb : b ∈ p.store.web.broker) :
    ¬ MQReceiver.subscription.accepts b = true := by
  have htag := h.untagged b hb
  simp [Subscription.accepts, htag]

theorem Unheard.processed {p : FlashSale} (h : Unheard p) : Processed p :=
  fun _ hb ha => absurd ha (h.not_accepts hb)

namespace Request.Step

variable {up : Bool} {w w' : Web} {f f' : Request} {es : List Answer}

theorem untagged (h : Step true up w f w' f' es) (hw : ∀ b ∈ w.broker, b.tags = none) :
    ∀ b ∈ w'.broker, b.tags = none := by
  cases h with
  | sent => exact Run.forall_mem_snoc.2 ⟨hw, rfl⟩
  | _ => exact hw

/-- A request is accepted by its send and by nothing else. -/
theorem success (h : Step true up w f w' f' es) {a : Answer} (ha : a ∈ es)
    (hr : a.result = .ok (.success 0)) :
    up = true ∧ ∃ c k, f = .send c k ∧ a = answer c k (.ok (.success 0)) := by
  cases h with
  | @sent c k hup =>
    rw [List.mem_singleton] at ha
    exact ⟨hup, c, k, rfl, ha⟩
  | loggedIn | tooLate | counted | passed | notYet => cases ha
  | _ =>
    rw [List.mem_singleton] at ha
    subst ha
    simp [HttpResponse.error, HttpResponse.success, answer] at hr

theorem accepts_iff (h : Step true up w f w' f' es) (db : Db) :
    (∀ a ∈ es, ∀ u ∈ a.userId, a.result = .ok (.success 0) → db.Settles u a.goodsId) ↔
      (Task.request f).Redundant db up := by
  constructor
  · intro hes
    cases h with
    | @sent c k _ => exact fun _ => hes _ (List.mem_singleton.2 rfl) c.userId rfl rfl
    | unsent hup =>
      intro hup'
      rw [hup] at hup'
      cases hup'
    | _ => trivial
  · intro hf a ha u hu hr
    obtain ⟨hup, c, k, rfl, rfl⟩ := h.success ha hr
    cases hu
    exact hf hup

end Request.Step

/-- What a step of the whole sale is, while nothing is handed on: a step of a request. -/
theorem Unheard.step {p : FlashSale} (h : Unheard p) {t : Task} (ht : ⟨t, true⟩ ∈ p.threads)
    {x : Bool × Date}
    {s : Store} {t' : Task} {es : List Answer} (hs : flashSale.step x p.store t = some (s, t', es)) :
    ∃ f w f', t = .request f ∧ t' = .request f' ∧ s = { p.store with web := w } ∧
      Request.Step true x.1 p.store.web f w f' es := by
  cases t with
  | request f =>
    simp only [flashSale, Option.map_eq_some_iff] at hs
    obtain ⟨⟨w, f', es'⟩, hf, heq⟩ := hs
    cases heq
    exact ⟨f, w, f', rfl, rfl, rfl, Request.step_spec hf⟩
  | consumer msgs f =>
    have hidle := h.idle _ ht msgs f rfl
    subst hidle
    cases hs

theorem Unheard.move (p : FlashSale) (l : Label Task (Bool × Date)) (p' : FlashSale) (h : Unheard p)
    (hm : Pool.Move flashSale p l p') : Unheard p' ∧ p'.store.db = p.store.db := by
  have hidle := hm.threads (Q := fun t => ∀ msgs f, t.frame = .consumer msgs f → f = .loop []) h.idle
    (fun t ht msgs f he => by
      -- A batch of messages the subscription accepts is empty.
      simp only at he
      subst he
      cases f with
      | loop msgs' =>
        simp only [flashSale, decide_eq_true_eq] at ht
        obtain ⟨rfl, hall⟩ := ht
        cases msgs with
        | nil => rfl
        | cons m msgs =>
          obtain ⟨b, hb, ha, -⟩ := hall m List.mem_cons_self
          exact absurd ha (h.not_accepts hb)
      | _ => cases ht)
    (fun x t s t' es ht hs msgs f he => by
      obtain ⟨f₀, w, f', -, rfl, -, -⟩ := h.step ht hs
      cases he)
    (fun i t _ ht msgs f he => h.idle t (List.mem_of_getElem? ht) msgs f he)
  cases hm with
  | idle => exact ⟨h, rfl⟩
  | spawn => exact ⟨⟨h.untagged, hidle⟩, rfl⟩
  | run hp hs =>
    obtain ⟨f, w, f', -, -, rfl, hstep⟩ := h.step (by simp [hp]) hs
    exact ⟨⟨hstep.untagged h.untagged, hidle⟩, rfl⟩
  | stop => exact ⟨⟨h.untagged, hidle⟩, rfl⟩

/-- While nothing is handed on, the answers decide. -/
theorem Unheard.noneLost_iff {p : FlashSale} (h : Unheard p) :
    NoneLost p ↔ ∀ a ∈ p.log, ∀ u ∈ a.userId, a.result = .ok (.success 0) →
      p.store.db.Settles u a.goodsId :=
  ⟨fun hp => hp h.processed, fun hp _ => hp⟩

theorem Unheard.step_iff {p : FlashSale} (h : Unheard p) (hp : NoneLost p)
    (l : Label Task (Bool × Date)) :
    NoneLost (p.exec flashSale l) ↔ OnlySettled p l := by
  have hm := Pool.exec_move flashSale p l
  obtain ⟨h', hdb⟩ := h.move p l _ hm
  rw [h.noneLost_iff] at hp
  rw [h'.noneLost_iff, hdb]
  cases l with
  | spawn t =>
    have hlog : (p.exec flashSale (.spawn t)).log = p.log := by
      simp only [Pool.exec]
      split <;> rfl
    rw [hlog]
    exact iff_of_true hp trivial
  | stop i =>
    have hlog : (p.exec flashSale (.stop i)).log = p.log := by
      simp only [Pool.exec]
      split <;> rfl
    rw [hlog]
    exact iff_of_true hp trivial
  | run i x =>
    rcases Pool.exec_run_cases flashSale p i x with ⟨t, s, t', es, hth, hs, he⟩ | ⟨he, hstuck⟩
    · obtain ⟨f, w, f', rfl, -, -, hstep⟩ := h.step (List.mem_of_getElem? hth) hs
      have hiff : OnlySettled p (.run i x) ↔ (Task.request f).Redundant p.store.db x.1 := by
        simp [OnlySettled, hth]
      rw [hiff, ← hstep.accepts_iff, he]
      simp only [List.mem_append]
      exact ⟨fun ha a hes => ha a (.inr hes), fun hes a ha => ha.elim (hp a) (hes a)⟩
    · rw [he]
      exact iff_of_true hp fun t ht hr => Task.redundant_of_stuck (hstuck t ht hr)

/-- **No accepted request is lost, exactly when.** In a run of requests and consumers from an
empty queue, it holds in every state that once all messages the subscription accepts are
worked through, every pair answered `success(0)` has its order or its goods is sold
out, if and only if no request is accepted except for a pair that has its order already or
a goods that is sold out. -/
theorem accepted_iff (db : Db) (redis : Redis) (localOverMap : Option Long → Option Bool)
    (ls : List (Label Task (Bool × Date))) :
    Run.Always (Pool.exec flashSale) NoneLost (FlashSale.start db redis localOverMap) ls ↔
      Run.Along (Pool.exec flashSale) OnlySettled (FlashSale.start db redis localOverMap) ls := by
  refine Run.always_iff_along (I := Unheard)
    (fun p l h => (h.move p l _ (Pool.exec_move flashSale p l)).1)
    (fun p l h hp => h.step_iff hp l) ⟨?_, ?_⟩ ?_
  · simp [FlashSale.start]
  · simp [FlashSale.start]
  · intro _ a ha
    simp [FlashSale.start] at ha

/-- One unit in the shop, and user 7 is told to queue. -/
def oneAccepted : List (Label Task (Bool × Date)) :=
  .spawn (.request (.start (some { userId := some 7 }) 1)) :: List.replicate 5 (.run 0 (true, 0))

/-- The message is with the broker and no consumer will get it: user 7 has no order, and the unit
is still there. -/
theorem accepted_and_lost :
    let p := Run.run (Pool.exec flashSale)
      (FlashSale.start (Shop.one 1).db (Web.one 1).redis (Web.one 1).localOverMap)
      oneAccepted
    p.log = [⟨some 7, 1, some 0, .ok (.success 0)⟩] ∧ p.store.web.broker.length = 1 ∧
      ¬ p.store.db.HasOrder 7 1 ∧ p.store.db.stock (some 1) = some 1 ∧
      ¬ Run.Always (Pool.exec flashSale) NoneLost
        (FlashSale.start (Shop.one 1).db (Web.one 1).redis (Web.one 1).localOverMap) oneAccepted := by
  refine ⟨by decide, by decide, by decide, by decide, ?_⟩
  intro h
  have hnone : ∀ b ∈ (Run.run (Pool.exec flashSale)
      (FlashSale.start (Shop.one 1).db (Web.one 1).redis (Web.one 1).localOverMap)
      oneAccepted).store.web.broker,
      ¬ MQReceiver.subscription.accepts b = true := by decide
  have hlost := h.last (fun b hb ha => absurd ha (hnone b hb)) ⟨some 7, 1, some 0, .ok (.success 0)⟩
    (by decide) 7 rfl rfl
  revert hlost
  decide

end CfsShop
