/-
`MiaoShaController`: the start-up that loads the stock into Redis, and
`do_miaosha`, as a whole and cut where another request may come between.

Everything a request does to the counter happens before it looks at the
over-mark, the order map and the queue; none of the later exits gives the unit
back. `exec_miaosha` says what a request does when it is alone.
-/
import CfsShop.OrderService
import CfsShop.Lib.Run
import Mathlib.Logic.Relation

namespace CfsShop

/-- RocketMQ's `Message`, the body decoded. -/
structure Message where
  topic : String
  tags : Option String
  body : MiaoshaMessage
  deriving DecidableEq, Repr

/-- The constructor `Message(topic, body)`: no tag. -/
def Message.new (topic : String) (body : MiaoshaMessage) : Message := ⟨topic, none, body⟩

/-- What the requests of one web instance share. -/
structure Web where
  redis : Redis
  /-- `HashMap<Long, Boolean>`. -/
  localOverMap : Option Long → Option Bool
  /-- What the broker has been sent. -/
  broker : List Message

abbrev WebM := Prog Ex Web

namespace MQSender

/-- `up`: whether RocketMQ takes the message. -/
def sendMiaoshaMessage (up : Bool) (value : MiaoshaMessage) : WebM Unit := do
  let message := Message.new MQConfig.MIAOSHA_QUEUE value
  if up then modify fun w => { w with broker := w.broker ++ [message] } else throw .mqClient

end MQSender

namespace MiaoShaController

/-- The name of the `RAtomicLong` of the stock: the constant, followed by the word `goodsId`. -/
def stockName : String := Info.miaoshaGoodsStock ++ "goodsId"

/-- `RAtomicLong.set` -/
def setStock (n : Int) (r : Redis) : Redis :=
  { r with atomicLong := Function.update r.atomicLong stockName n }

/-- One round of the start-up loop. -/
def loadGoods (goods : GoodsVo) : WebM Unit := do
  let stock ← nonNull goods.stockCount
  modify fun w => { w with redis := setStock stock w.redis }
  modify fun w => { w with localOverMap := Function.update w.localOverMap goods.id (some false) }

def afterPropertiesSet (goodsList : List GoodsVo) : WebM Unit := goodsList.forM loadGoods

/-- `decrementAndGet` -/
def decrementStock : WebM Int := do
  modify fun w => { w with redis := setStock (w.redis.atomicLong stockName - 1) w.redis }
  return (← get).redis.atomicLong stockName

def putOver (goodsId : Long) (w : Web) : Web :=
  { w with localOverMap := Function.update w.localOverMap (some goodsId) (some true) }

def miaosha (sessionUser : Option SessionUser) (goodsId : Long) (up : Bool) :
    WebM (HttpResponse Int) := do
  match sessionUser.bind (·.userId) with
  | none => return .error CodeMsg.SESSION_ERROR
  | some userId =>
    let miaoshaUser := (← get).redis.miaoShaUser userId
    let stock ← decrementStock
    if stock < 0 then
      modify (putOver goodsId)
      return .error CodeMsg.MIAO_SHA_OVER
    else
      let isOver ← nonNull ((← get).localOverMap (some goodsId))
      if isOver then
        return .error CodeMsg.MIAO_SHA_OVER
      else
        let order := (← get).redis.miaoshaOrder (orderKey (some userId) (some goodsId))
        if order.isSome then
          return .error CodeMsg.REPEATE_MIAOSHA
        else
          MQSender.sendMiaoshaMessage up { user := miaoshaUser, goodsId }
          return .success 0

end MiaoShaController

/-! ## What a request does alone -/

namespace Web

/-- The pre-deduction counter. -/
def counter (w : Web) : Int := w.redis.atomicLong MiaoShaController.stockName

def setCounter (w : Web) (n : Int) : Web := { w with redis := MiaoShaController.setStock n w.redis }

def enqueue (w : Web) (m : MiaoshaMessage) : Web :=
  { w with broker := w.broker ++ [Message.new MQConfig.MIAOSHA_QUEUE m] }

/-- The user has an order in the Redis map. -/
def Ordered (w : Web) (userId goodsId : Long) : Prop :=
  (w.redis.miaoshaOrder (orderKey (some userId) (some goodsId))).isSome

instance (w : Web) (u g : Long) : Decidable (w.Ordered u g) := inferInstanceAs (Decidable (_ = true))

@[simp] theorem counter_setCounter (w : Web) (n : Int) : (w.setCounter n).counter = n := by
  simp [counter, setCounter, MiaoShaController.setStock]

@[simp] theorem localOverMap_setCounter (w : Web) (n : Int) :
    (w.setCounter n).localOverMap = w.localOverMap := rfl

@[simp] theorem broker_setCounter (w : Web) (n : Int) : (w.setCounter n).broker = w.broker := rfl

@[simp] theorem counter_putOver (w : Web) (g : Long) :
    (MiaoShaController.putOver g w).counter = w.counter := rfl

@[simp] theorem broker_putOver (w : Web) (g : Long) :
    (MiaoShaController.putOver g w).broker = w.broker := rfl

@[simp] theorem counter_enqueue (w : Web) (m : MiaoshaMessage) :
    (w.enqueue m).counter = w.counter := rfl

@[simp] theorem localOverMap_enqueue (w : Web) (m : MiaoshaMessage) :
    (w.enqueue m).localOverMap = w.localOverMap := rfl

@[simp] theorem broker_enqueue (w : Web) (m : MiaoshaMessage) :
    (w.enqueue m).broker = w.broker ++ [Message.new MQConfig.MIAOSHA_QUEUE m] := rfl

@[simp] theorem ordered_setCounter {w : Web} {n : Int} {u g : Long} :
    (w.setCounter n).Ordered u g ↔ w.Ordered u g :=
  Iff.rfl

@[simp] theorem ordered_putOver {w : Web} {u g g' : Long} :
    (MiaoShaController.putOver g' w).Ordered u g ↔ w.Ordered u g := Iff.rfl

@[simp] theorem ordered_enqueue {w : Web} {m : MiaoshaMessage} {u g : Long} :
    (w.enqueue m).Ordered u g ↔ w.Ordered u g := Iff.rfl

end Web

namespace MiaoShaController

@[simp] theorem exec_decrementStock (w : Web) :
    decrementStock.exec w = (.ok (w.counter - 1), w.setCounter (w.counter - 1)) := by
  have h := w.counter_setCounter (w.counter - 1)
  simp only [decrementStock, Prog.exec_bind, Prog.exec_modify, Prog.exec_get, Prog.exec_pure]
  exact congrArg (fun n => (Except.ok n, w.setCounter (w.counter - 1))) h

/-- A request, from the session to the answer. -/
theorem exec_miaosha (sessionUser : Option SessionUser) (goodsId : Long) (up : Bool) (w : Web) :
    (miaosha sessionUser goodsId up).exec w =
      match sessionUser.bind (·.userId) with
      | none => (.ok (.error CodeMsg.SESSION_ERROR), w)
      | some userId =>
        if w.counter ≤ 0 then
          (.ok (.error CodeMsg.MIAO_SHA_OVER), putOver goodsId (w.setCounter (w.counter - 1)))
        else
          match w.localOverMap (some goodsId) with
          | none => (.error .nullPointer, w.setCounter (w.counter - 1))
          | some true => (.ok (.error CodeMsg.MIAO_SHA_OVER), w.setCounter (w.counter - 1))
          | some false =>
            if w.Ordered userId goodsId then
              (.ok (.error CodeMsg.REPEATE_MIAOSHA), w.setCounter (w.counter - 1))
            else if up then
              (.ok (.success 0),
                (w.setCounter (w.counter - 1)).enqueue { user := w.redis.miaoShaUser userId, goodsId })
            else (.error .mqClient, w.setCounter (w.counter - 1)) := by
  unfold miaosha
  cases sessionUser.bind (·.userId) with
  | none => rfl
  | some userId =>
    simp only [Prog.exec_bind, Prog.exec_get, exec_decrementStock]
    by_cases hc : w.counter ≤ 0
    · have hneg : w.counter - 1 < 0 := by omega
      simp only [if_pos hc, if_pos hneg, Prog.exec_bind, Prog.exec_modify, Prog.exec_pure]
    · have hneg : ¬ w.counter - 1 < 0 := by omega
      simp only [if_neg hc, if_neg hneg, Prog.exec_bind, Prog.exec_get, Web.localOverMap_setCounter]
      cases w.localOverMap (some goodsId) with
      | none => rfl
      | some isOver =>
        cases isOver with
        | true => rfl
        | false =>
          have horder : (w.setCounter (w.counter - 1)).redis.miaoshaOrder = w.redis.miaoshaOrder := rfl
          simp only [exec_nonNull_some, Bool.false_eq_true, if_false, Prog.exec_bind, Prog.exec_get,
            horder]
          by_cases ho : w.Ordered userId goodsId
          · have hsome :
                (w.redis.miaoshaOrder (orderKey (some userId) (some goodsId))).isSome = true := ho
            rw [if_pos ho, if_pos hsome]
            rfl
          · have hnone :
                ¬ (w.redis.miaoshaOrder (orderKey (some userId) (some goodsId))).isSome = true := ho
            rw [if_neg ho, if_neg hnone]
            cases up <;> rfl

end MiaoShaController

/-! ## The start-up -/

namespace MiaoShaController

theorem exec_loadGoods {goods : GoodsVo} {n : Int} (h : goods.stockCount = some n) (w : Web) :
    (loadGoods goods).exec w =
      (.ok (),
        { w.setCounter n with
          localOverMap := Function.update w.localOverMap goods.id (some false) }) := by
  simp only [loadGoods, h, Prog.exec_bind, exec_nonNull_some, Prog.exec_modify]
  rfl

/-- The start-up goes through if no stock is NULL. It leaves the counter at the stock of the
last goods, whichever that is, and a false mark for every goods. -/
theorem exec_afterPropertiesSet (goodsList : List GoodsVo)
    (h : ∀ vo ∈ goodsList, vo.stockCount.isSome) (w : Web) :
    ∃ w', (afterPropertiesSet goodsList).exec w = (.ok (), w') ∧
      w'.counter = (goodsList.getLast?.bind (·.stockCount)).getD w.counter ∧
      (∀ vo ∈ goodsList, w'.localOverMap vo.id = some false) ∧
      (∀ id, w.localOverMap id = some false → w'.localOverMap id = some false) ∧
      w'.broker = w.broker ∧ w'.redis.miaoshaOrder = w.redis.miaoshaOrder := by
  induction goodsList generalizing w with
  | nil => exact ⟨w, rfl, rfl, by simp, fun _ h => h, rfl, rfl⟩
  | cons vo goodsList ih =>
    obtain ⟨n, hn⟩ := Option.isSome_iff_exists.1 (h vo List.mem_cons_self)
    have hload := exec_loadGoods hn w
    obtain ⟨w', he, hcounter, hmarks, hkeep, hbroker, horders⟩ :=
      ih (fun vo' hvo' => h vo' (List.mem_cons_of_mem vo hvo'))
      { w.setCounter n with localOverMap := Function.update w.localOverMap vo.id (some false) }
    refine ⟨w', ?_, ?_, ?_, ?_, hbroker, horders⟩
    · rw [afterPropertiesSet, List.forM_eq_forM, List.forM_cons, Prog.exec_bind, hload]
      exact he
    · rw [hcounter]
      cases goodsList with
      | nil => simp [hn, Web.counter, Web.setCounter, setStock]
      | cons vo' goodsList =>
        have hlast : (vo' :: goodsList).getLast? = some ((vo' :: goodsList).getLast (by simp)) :=
          List.getLast?_eq_some_getLast (by simp)
        obtain ⟨k, hk⟩ := Option.isSome_iff_exists.1
          (h _ (List.mem_cons_of_mem vo (List.getLast_mem (l := vo' :: goodsList) (by simp))))
        rw [List.getLast?_cons_cons, hlast, Option.bind_some, hk, Option.getD_some, Option.getD_some]
    · intro vo' hvo'
      rcases List.mem_cons.1 hvo' with rfl | hvo'
      · exact hkeep _ (by simp)
      · exact hmarks vo' hvo'
    · intro id hid
      refine hkeep id ?_
      simp only [Function.update_apply]
      split
      · rfl
      · exact hid

end MiaoShaController

namespace Web

/-- Before the start-up, with nothing in Redis. -/
def closed : Web where
  redis := (Shop.one 0).redis
  localOverMap _ := none
  broker := []

/-- After the start-up of a shop with goods 1 alone. -/
def one (n : Int) : Web where
  redis := MiaoShaController.setStock n (Shop.one 0).redis
  localOverMap := Function.update (fun _ => none) (some 1) (some false)
  broker := []

@[simp] theorem counter_one (n : Int) : (one n).counter = n := counter_setCounter closed n

end Web

example (n : Int) :
    (MiaoShaController.afterPropertiesSet (GoodsMapper.listGoodsVo (Shop.one n).db)).exec Web.closed =
      (.ok (), Web.one n) := rfl

/-! ## A request alone -/

/-- A request, and whether RocketMQ takes its message should it come to that. -/
structure Visit where
  sessionUser : Option SessionUser
  goodsId : Long
  up : Bool := true

namespace Visit

def userId (v : Visit) : Option Long := v.sessionUser.bind (·.userId)

/-- The answer to a request handled alone. -/
def answer (w : Web) (v : Visit) : Except Ex (HttpResponse Int) :=
  ((MiaoShaController.miaosha v.sessionUser v.goodsId v.up).exec w).1

/-- What it leaves. -/
def handle (w : Web) (v : Visit) : Web :=
  ((MiaoShaController.miaosha v.sessionUser v.goodsId v.up).exec w).2

/-- How a request can go. -/
inductive Outcome (w : Web) (v : Visit) : Except Ex (HttpResponse Int) → Web → Prop
  | noSession : v.userId = none → Outcome w v (.ok (.error CodeMsg.SESSION_ERROR)) w
  | soldOut {u} : v.userId = some u → w.counter ≤ 0 →
      Outcome w v (.ok (.error CodeMsg.MIAO_SHA_OVER))
        (MiaoShaController.putOver v.goodsId (w.setCounter (w.counter - 1)))
  | unknown {u} : v.userId = some u → 0 < w.counter → w.localOverMap (some v.goodsId) = none →
      Outcome w v (.error .nullPointer) (w.setCounter (w.counter - 1))
  | marked {u} : v.userId = some u → 0 < w.counter → w.localOverMap (some v.goodsId) = some true →
      Outcome w v (.ok (.error CodeMsg.MIAO_SHA_OVER)) (w.setCounter (w.counter - 1))
  | repeated {u} : v.userId = some u → 0 < w.counter → w.localOverMap (some v.goodsId) = some false →
      w.Ordered u v.goodsId →
      Outcome w v (.ok (.error CodeMsg.REPEATE_MIAOSHA)) (w.setCounter (w.counter - 1))
  | sent {u} : v.userId = some u → 0 < w.counter → w.localOverMap (some v.goodsId) = some false →
      ¬ w.Ordered u v.goodsId → v.up = true →
      Outcome w v (.ok (.success 0))
        ((w.setCounter (w.counter - 1)).enqueue { user := w.redis.miaoShaUser u, goodsId := v.goodsId })
  | unsent {u} : v.userId = some u → 0 < w.counter → w.localOverMap (some v.goodsId) = some false →
      ¬ w.Ordered u v.goodsId → v.up = false →
      Outcome w v (.error .mqClient) (w.setCounter (w.counter - 1))

theorem outcome (w : Web) (v : Visit) : Outcome w v (v.answer w) (v.handle w) := by
  unfold answer handle
  rw [MiaoShaController.exec_miaosha]
  cases hu : v.sessionUser.bind (·.userId) with
  | none => exact .noSession hu
  | some u =>
    simp only
    by_cases hc : w.counter ≤ 0
    · rw [if_pos hc]
      exact .soldOut hu hc
    · have hpos : 0 < w.counter := by omega
      rw [if_neg hc]
      cases hm : w.localOverMap (some v.goodsId) with
      | none => exact .unknown hu hpos hm
      | some mark =>
        cases mark with
        | true => exact .marked hu hpos hm
        | false =>
          by_cases ho : w.Ordered u v.goodsId
          · simp only [if_pos ho]
            exact .repeated hu hpos hm ho
          · simp only [if_neg ho]
            cases hup : v.up with
            | true => exact .sent hu hpos hm ho hup
            | false => exact .unsent hu hpos hm ho hup

end Visit

/-! ## Cut where another request may come between -/

/-- The locals of a request once its user is known. -/
structure Call where
  userId : Long
  user : Option MiaoshaUser
  goodsId : Long
  deriving DecidableEq

/-- Where a request stands. From `testOver` on it holds the unit it was counted in for, and
the number `decrementAndGet` gave it. -/
inductive Request
  | start (sessionUser : Option SessionUser) (goodsId : Long)
  | decrement (c : Call)
  | putOver (c : Call) (stock : Int)
  | testOver (c : Call) (stock : Int)
  | getOrder (c : Call) (stock : Int)
  | send (c : Call) (stock : Int)
  | finished (result : Except Ex (HttpResponse Int))
  deriving DecidableEq

/-- An answer, for the history: to whom, for what, and what the counter gave, if asked. -/
structure Answer where
  userId : Option Long
  goodsId : Long
  stock : Option Int
  result : Except Ex (HttpResponse Int)
  deriving DecidableEq

namespace Request

def answer (c : Call) (stock : Int) (result : Except Ex (HttpResponse Int)) : Answer :=
  ⟨some c.userId, c.goodsId, some stock, result⟩

/-- One Redis command, `localOverMap` access or send, and the code up to the next one. With
`marked` false the test of the over-mark is left out. -/
def step (marked up : Bool) (w : Web) : Request → Option (Web × Request × List Answer)
  | start sessionUser goodsId =>
    match sessionUser.bind (·.userId) with
    | none =>
      let result := .ok (.error CodeMsg.SESSION_ERROR)
      some (w, finished result, [⟨none, goodsId, none, result⟩])
    | some userId => some (w, decrement ⟨userId, w.redis.miaoShaUser userId, goodsId⟩, [])
  | decrement c =>
    let stock := w.counter - 1
    some (w.setCounter stock, if stock < 0 then putOver c stock else testOver c stock, [])
  | putOver c stock =>
    let result := .ok (.error CodeMsg.MIAO_SHA_OVER)
    some (MiaoShaController.putOver c.goodsId w, finished result, [answer c stock result])
  | testOver c stock =>
    if marked then
      match w.localOverMap (some c.goodsId) with
      | none => some (w, finished (.error .nullPointer), [answer c stock (.error .nullPointer)])
      | some true =>
        let result := .ok (.error CodeMsg.MIAO_SHA_OVER)
        some (w, finished result, [answer c stock result])
      | some false => some (w, getOrder c stock, [])
    else some (w, getOrder c stock, [])
  | getOrder c stock =>
    if w.Ordered c.userId c.goodsId then
      let result := .ok (.error CodeMsg.REPEATE_MIAOSHA)
      some (w, finished result, [answer c stock result])
    else some (w, send c stock, [])
  | send c stock =>
    if up then
      let result := .ok (.success 0)
      some (w.enqueue { user := c.user, goodsId := c.goodsId }, finished result,
        [answer c stock result])
    else some (w, finished (.error .mqClient), [answer c stock (.error .mqClient)])
  | finished _ => none

/-- What one step can do. -/
inductive Step (marked up : Bool) (w : Web) : Request → Web → Request → List Answer → Prop
  | noSession {s g} : s.bind (·.userId) = none →
      Step marked up w (start s g) w (finished (.ok (.error CodeMsg.SESSION_ERROR)))
      [⟨none, g, none, .ok (.error CodeMsg.SESSION_ERROR)⟩]
  | loggedIn {s g u} : s.bind (·.userId) = some u →
      Step marked up w (start s g) w (decrement ⟨u, w.redis.miaoShaUser u, g⟩) []
  | tooLate {c} : w.counter ≤ 0 →
      Step marked up w (decrement c) (w.setCounter (w.counter - 1)) (putOver c (w.counter - 1)) []
  | counted {c} : 0 < w.counter →
      Step marked up w (decrement c) (w.setCounter (w.counter - 1)) (testOver c (w.counter - 1)) []
  | put {c k} : Step marked up w (putOver c k) (MiaoShaController.putOver c.goodsId w)
      (finished (.ok (.error CodeMsg.MIAO_SHA_OVER))) [answer c k (.ok (.error CodeMsg.MIAO_SHA_OVER))]
  | unknown {c k} : marked = true → w.localOverMap (some c.goodsId) = none →
      Step marked up w (testOver c k) w (finished (.error .nullPointer))
        [answer c k (.error .nullPointer)]
  | refused {c k} : marked = true → w.localOverMap (some c.goodsId) = some true →
      Step marked up w (testOver c k) w (finished (.ok (.error CodeMsg.MIAO_SHA_OVER)))
        [answer c k (.ok (.error CodeMsg.MIAO_SHA_OVER))]
  | passed {c k} : (marked = true → w.localOverMap (some c.goodsId) = some false) →
      Step marked up w (testOver c k) w (getOrder c k) []
  | repeated {c k} : w.Ordered c.userId c.goodsId →
      Step marked up w (getOrder c k) w (finished (.ok (.error CodeMsg.REPEATE_MIAOSHA)))
        [answer c k (.ok (.error CodeMsg.REPEATE_MIAOSHA))]
  | notYet {c k} : ¬ w.Ordered c.userId c.goodsId → Step marked up w (getOrder c k) w (send c k) []
  | sent {c k} : up = true → Step marked up w (send c k)
      (w.enqueue { user := c.user, goodsId := c.goodsId })
      (finished (.ok (.success 0))) [answer c k (.ok (.success 0))]
  | unsent {c k} : up = false → Step marked up w (send c k) w (finished (.error .mqClient))
      [answer c k (.error .mqClient)]

theorem step_spec {marked up : Bool} {w w' : Web} {f f' : Request} {es : List Answer}
    (h : f.step marked up w = some (w', f', es)) : Step marked up w f w' f' es := by
  cases f with
  | start s g =>
    simp only [step] at h
    split at h
    · next hu =>
      cases h
      exact .noSession hu
    · next hu =>
      cases h
      exact .loggedIn hu
  | decrement c =>
    simp only [step] at h
    split at h
    · next hneg =>
      cases h
      exact .tooLate (by omega)
    · next hneg =>
      cases h
      exact .counted (by omega)
  | putOver c k =>
    cases h
    exact .put
  | testOver c k =>
    simp only [step] at h
    split at h
    · next hm =>
      split at h
      · next hmap =>
        cases h
        exact .unknown hm hmap
      · next hmap =>
        cases h
        exact .refused hm hmap
      · next hmap =>
        cases h
        exact .passed fun _ => hmap
    · next hm =>
      cases h
      exact .passed fun hm' => absurd hm' hm
  | getOrder c k =>
    simp only [step] at h
    split at h
    · next ho =>
      cases h
      exact .repeated ho
    · next ho =>
      cases h
      exact .notYet ho
  | send c k =>
    simp only [step] at h
    split at h
    · next hup =>
      cases h
      exact .sent hup
    · next hup =>
      cases h
      exact .unsent (by simpa using hup)
  | finished r => cases h

/-- One step of the controller as it is. -/
def Moves (up : Bool) (a b : Web × Request) : Prop := ∃ es, a.2.step true up a.1 = some (b.1, b.2, es)

theorem Moves.of {up : Bool} {w w' : Web} {f f' : Request} {es : List Answer}
    (h : f.step true up w = some (w', f', es)) : Moves up (w, f) (w', f') := ⟨es, h⟩

/-- **The cut is faithful.** A request that nobody disturbs answers what `miaosha` answers and
leaves what `miaosha` leaves. -/
theorem alone (sessionUser : Option SessionUser) (goodsId : Long) (up : Bool) (w : Web) :
    Relation.ReflTransGen (Moves up) (w, start sessionUser goodsId)
      (((MiaoShaController.miaosha sessionUser goodsId up).exec w).2,
        finished ((MiaoShaController.miaosha sessionUser goodsId up).exec w).1) := by
  rw [MiaoShaController.exec_miaosha]
  cases hu : sessionUser.bind (·.userId) with
  | none => exact .single (.of (by rw [step, hu]))
  | some userId =>
    have hstart : Moves up (w, start sessionUser goodsId)
        (w, decrement ⟨userId, w.redis.miaoShaUser userId, goodsId⟩) := .of (by rw [step, hu])
    simp only
    by_cases hc : w.counter ≤ 0
    · have hdec : Moves up (w, decrement ⟨userId, w.redis.miaoShaUser userId, goodsId⟩)
          (w.setCounter (w.counter - 1),
            putOver ⟨userId, w.redis.miaoShaUser userId, goodsId⟩ (w.counter - 1)) :=
        .of (by rw [step, if_pos (by omega)])
      rw [if_pos hc]
      exact .head hstart (.head hdec (.single (.of rfl)))
    · have hdec : Moves up (w, decrement ⟨userId, w.redis.miaoShaUser userId, goodsId⟩)
          (w.setCounter (w.counter - 1),
            testOver ⟨userId, w.redis.miaoShaUser userId, goodsId⟩ (w.counter - 1)) :=
        .of (by rw [step, if_neg (by omega)])
      rw [if_neg hc]
      refine .head hstart (.head hdec ?_)
      cases hm : w.localOverMap (some goodsId) with
      | none => exact .single (.of (by simp only [step, if_true, Web.localOverMap_setCounter, hm]; rfl))
      | some isOver =>
        cases isOver with
        | true =>
          exact .single (.of (by simp only [step, if_true, Web.localOverMap_setCounter, hm]; rfl))
        | false =>
          have htest : Moves up
              (w.setCounter (w.counter - 1),
                testOver ⟨userId, w.redis.miaoShaUser userId, goodsId⟩ (w.counter - 1))
              (w.setCounter (w.counter - 1),
                getOrder ⟨userId, w.redis.miaoShaUser userId, goodsId⟩ (w.counter - 1)) :=
            .of (by simp only [step, if_true, Web.localOverMap_setCounter, hm]; rfl)
          refine .head htest ?_
          by_cases ho : w.Ordered userId goodsId
          · simp only [if_pos ho]
            exact .single (.of (by simp only [step, Web.ordered_setCounter, if_pos ho]; rfl))
          · simp only [if_neg ho]
            refine .head (.of (by simp only [step, Web.ordered_setCounter, if_neg ho]; rfl)) ?_
            cases up <;> exact .single (.of rfl)

end Request

end CfsShop
